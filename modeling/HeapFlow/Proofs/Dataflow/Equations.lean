import HeapFlow.Constants.Intra
import HeapFlow.Dataflow.Solve
import HeapFlow.Liveness
import HeapFlow.Proofs.Constants.Order
import HeapFlow.Proofs.Ir.Bodies
import Mathlib.Order.Bounds.Basic
import Mathlib.Order.Lattice
/-!
# HeapFlow.Proofs.Dataflow.Equations

**The answer of the data-flow solver solves its equations.** The merge of a problem makes an order of
its facts, in which merging is taking the supremum. A node is settled if the fact that flows into it
is the least one above its boundary fact and above what its sources pass on. The merge of all edges
into a node does not depend on the edge that was taken, so taking an edge settles its target, and a
node whose equation is violated has an edge into it that waits. The solver halts when no edge waits.
-/

namespace HeapFlow

namespace Dataflow

variable {α : Type} {g : Cfg} {problem : Problem α} {s s' : State α} {m n source target : Node}

/-! ### The graph along the direction -/

theorem sources_forward (h : problem.direction = .forward) :
    sources g problem n = (g.preds n).toList := by
  simp [sources, h]

/-- In a forward problem, facts flow along edges. -/
theorem mem_sources_forward (h : problem.direction = .forward) {e : Cfg.Edge} (he : e ∈ g.edges) :
    e.source ∈ sources g problem e.target := by
  rw [sources_forward h]
  exact Cfg.mem_preds.2 ⟨e, he, rfl, rfl⟩

theorem sources_backward (h : problem.direction = .backward) :
    sources g problem n = (g.succs n).toList := by
  simp [sources, h]

/-- Facts flow from a node to those that have it as a source. -/
theorem mem_nexts : n ∈ nexts g problem m ↔ m ∈ sources g problem n := by
  unfold nexts sources
  split
  · rw [Cfg.mem_succs, Cfg.mem_preds]
  · rw [Cfg.mem_preds, Cfg.mem_succs]

theorem mem_leaving {e : Node × Node} :
    e ∈ leaving g problem n ↔ e.1 = n ∧ n ∈ sources g problem e.2 := by
  obtain ⟨m, k⟩ := e
  simp only [leaving, List.mem_map, Prod.mk.injEq, ← mem_nexts]
  exact ⟨fun ⟨_, hk, hm, he⟩ => ⟨hm.symm, he ▸ hk⟩, fun ⟨hm, hk⟩ => ⟨k, hk, hm.symm, rfl⟩⟩

/-- In a closed graph, facts flow from nodes of the graph. -/
theorem mem_nodes_of_mem_sources (hg : g.Closed) (h : m ∈ sources g problem n) :
    m ∈ g.nodes := by
  unfold sources at h
  split at h
  · obtain ⟨e, he, rfl, -⟩ := Cfg.mem_preds.1 h
    exact (hg e he).1
  · obtain ⟨e, he, -, rfl⟩ := Cfg.mem_succs.1 h
    exact (hg e he).2

/-! ### The order of facts -/

/-- Merging is taking suprema, and the first fact of nodes is the least one. -/
structure Problem.Joins [SemilatticeSup α] [OrderBot α] (problem : Problem α) : Prop where
  merge : ∀ x y, problem.merge x y = x ⊔ y
  top : problem.top = ⊥

/-- What a node passes on. -/
def passed (problem : Problem α) (s : State α) (n : Node) : α :=
  problem.transfer n (s.get problem n)

/-- The facts that arrive at a node: its boundary fact and what its sources pass on. -/
def arriving (g : Cfg) (problem : Problem α) (s : State α) (n : Node) : Set α :=
  {f | problem.seeds.get? n = some f} ∪ {f | ∃ m ∈ sources g problem n, passed problem s m = f}

theorem arriving_congr
    (h : ∀ m ∈ sources g problem n, s.get problem m = s'.get problem m) :
    arriving g problem s n = arriving g problem s' n := by
  have hpassed (f : α) : (∃ m ∈ sources g problem n, passed problem s m = f) ↔
      ∃ m ∈ sources g problem n, passed problem s' m = f :=
    exists_congr fun m => and_congr_right fun hm => by rw [passed, passed, h m hm]
  simp only [arriving, hpassed]

/-- The equation of a node holds: the least fact above all that arrives flows into it. -/
def Settled [Preorder α] (g : Cfg) (problem : Problem α) (s : State α) (n : Node) : Prop :=
  IsLUB (arriving g problem s n) (s.get problem n)

theorem Settled.seed_le [Preorder α] (h : Settled g problem s n) {seed : α}
    (hseed : problem.seeds.get? n = some seed) : seed ≤ s.get problem n :=
  h.1 (.inl hseed)

theorem Settled.passed_le [Preorder α] (h : Settled g problem s n) (hm : m ∈ sources g problem n) :
    passed problem s m ≤ s.get problem n :=
  h.1 (.inr ⟨m, hm, rfl⟩)

/-- An edge waits into every node whose equation does not hold. -/
def Complete [Preorder α] (g : Cfg) (problem : Problem α) (s : State α) : Prop :=
  ∀ n, (∃ m, (m, n) ∈ s.queue) ∨ Settled g problem s n

/-- If no edge waits, the equations of all nodes hold. -/
theorem Complete.settled [Preorder α] (h : Complete g problem s) (hqueue : s.queue = []) (n : Node) :
    Settled g problem s n := by
  refine (h n).resolve_left fun ⟨m, hm⟩ => ?_
  rw [hqueue] at hm
  cases hm

section Order

variable [SemilatticeSup α] [OrderBot α]

/-- What a merge of facts is below. -/
theorem Problem.Joins.foldl_merge_le_iff (hjoins : problem.Joins) {β : Type} (fact : β → α)
    {xs : List β} {start f : α} :
    xs.foldl (fun f x => problem.merge f (fact x)) start ≤ f ↔ start ≤ f ∧ ∀ x ∈ xs, fact x ≤ f := by
  induction xs generalizing start with
  | nil => simp
  | cons x xs ih => rw [List.foldl_cons, ih, hjoins.merge, sup_le_iff, List.forall_mem_cons, and_assoc]

/-- What flows into a node is the same along each of its edges: the least fact above all that
arrives. -/
theorem Problem.Joins.incoming_isLUB (hjoins : problem.Joins) (h : source ∈ sources g problem target) :
    IsLUB (arriving g problem s target) (incoming g problem s source target) := by
  have hothers {f : α} :
      ((sources g problem target).filter (· ≠ source)).foldl
          (fun f n => problem.merge f (problem.transfer n (s.get problem n)))
          (problem.transfer source (s.get problem source)) ≤ f ↔
        ∀ n ∈ sources g problem target, passed problem s n ≤ f := by
    rw [hjoins.foldl_merge_le_iff fun n => problem.transfer n (s.get problem n)]
    constructor
    · intro ⟨hsource, hothers⟩ n hn
      by_cases heq : n = source
      · exact heq ▸ hsource
      · exact hothers n (List.mem_filter.2 ⟨hn, decide_eq_true heq⟩)
    · intro hall
      exact ⟨hall source h, fun n hn => hall n (List.mem_filter.1 hn).1⟩
  rw [isLUB_iff_le_iff]
  intro f
  have hbound : f ∈ upperBounds (arriving g problem s target) ↔
      (∀ seed, problem.seeds.get? target = some seed → seed ≤ f) ∧
        ∀ n ∈ sources g problem target, passed problem s n ≤ f := by
    simp [arriving, upperBounds_union, mem_upperBounds]
  rw [hbound, ← hothers, incoming]
  cases hseed : problem.seeds.get? target with
  | none => simp
  | some seed => simp [hjoins.merge, and_comm]

end Order

/-- What holds of every state of a run: only edges wait, and every node of the graph has a fact. -/
structure Sound (g : Cfg) (problem : Problem α) (s : State α) : Prop where
  queue : ∀ e ∈ s.queue, e.1 ∈ sources g problem e.2
  facts : ∀ n ∈ g.nodes, (s.facts.get? n).isSome = true

/-! ### The start -/

theorem get_init (g : Cfg) (problem : Problem α) (n : Node) :
    (init g problem).get problem n = problem.first n := by
  have hget := Table.get?_foldl_set problem.first (g.nodes ++ problem.seeds.keys) ∅ n
  rw [State.get, Table.getD, init, hget]
  split
  · rfl
  · rename_i hnot
    -- a node without boundary fact starts with `top`
    have hnone : problem.seeds.get? n = none := by
      by_contra hsome
      exact hnot (List.mem_append_right _ (Table.mem_keys.2 (Option.isSome_iff_ne_none.2 hsome)))
    rw [Problem.first, Table.getD, hnone]
    exact congrArg (Option.getD · problem.top) (Table.get?_empty n)

theorem isSome_get?_init (h : n ∈ g.nodes) : ((init g problem).facts.get? n).isSome = true := by
  have hget := Table.get?_foldl_set problem.first (g.nodes ++ problem.seeds.keys) ∅ n
  rw [init, hget, if_pos (List.mem_append_left _ h)]
  rfl

/-- The edges that leave nodes of the graph wait at the start. -/
theorem mem_queue_init (hm : m ∈ g.nodes) (h : m ∈ sources g problem n) :
    (m, n) ∈ (init g problem).queue :=
  List.mem_append_right _ (List.mem_flatMap.2 ⟨m, hm, mem_leaving.2 ⟨rfl, h⟩⟩)

/-- Only edges wait at the start. -/
theorem mem_sources_of_mem_queue_init {e : Node × Node} (he : e ∈ (init g problem).queue) :
    e.1 ∈ sources g problem e.2 := by
  have hleaving : ∃ n, e ∈ leaving g problem n := by
    obtain he | he := List.mem_append.1 he
    · obtain ⟨n, -, he⟩ := List.mem_flatMap.1 (List.mem_reverse.1 he)
      exact ⟨n, he⟩
    · obtain ⟨n, -, he⟩ := List.mem_flatMap.1 he
      exact ⟨n, he⟩
  obtain ⟨n, he⟩ := hleaving
  obtain ⟨rfl, h⟩ := mem_leaving.1 he
  exact h

theorem sound_init (g : Cfg) (problem : Problem α) : Sound g problem (init g problem) :=
  ⟨fun _ => mem_sources_of_mem_queue_init, fun _ => isSome_get?_init⟩

theorem complete_init [SemilatticeSup α] [OrderBot α] (hg : g.Closed) (hjoins : problem.Joins) :
    Complete g problem (init g problem) := by
  intro n
  by_cases hsources : ∃ m, m ∈ sources g problem n
  · obtain ⟨m, hm⟩ := hsources
    exact .inl ⟨m, mem_queue_init (mem_nodes_of_mem_sources hg hm) hm⟩
  · -- nothing but the boundary fact arrives
    refine .inr ?_
    have harriving : arriving g problem (init g problem) n =
        {f | problem.seeds.get? n = some f} := by
      ext f
      simp only [arriving, Set.mem_union, Set.mem_ofPred_eq, or_iff_left_iff_imp]
      exact fun ⟨m, hm, _⟩ => absurd ⟨m, hm⟩ hsources
    rw [Settled, harriving, get_init, Problem.first, Table.getD]
    cases hseed : problem.seeds.get? n with
    | none => simp [hjoins.top]
    | some seed => simp

/-! ### One step -/

section Steps

variable [DecidableEq α] {queue : List (Node × Node)}

theorem step_eq_next : step g problem s = .next s' ↔
    ∃ source target queue, s.queue = (source, target) :: queue ∧
      s' = follow g problem s source target queue := by
  unfold step
  cases s.queue with
  | nil => simp
  | cons e queue => simp [Prod.ext_iff, eq_comm]

theorem step_eq_halt : step g problem s = .halt s' ↔ s.queue = [] ∧ s' = s := by
  unfold step
  cases s.queue with
  | nil => simp [eq_comm]
  | cons e queue => simp

/-- The fact that flows into the target is computed; that of any other node stays. -/
theorem get_follow (s : State α) (source target : Node) (queue : List (Node × Node)) (n : Node) :
    (follow g problem s source target queue).get problem n =
      if target = n then incoming g problem s source target else s.get problem n := by
  unfold follow
  by_cases hsame : incoming g problem s source target = s.get problem target
  · simp only [if_pos hsame]
    split
    · rename_i heq
      rw [hsame, heq]
      rfl
    · rfl
  · simp only [if_neg hsame]
    exact Table.getD_set ..

theorem queue_follow (s : State α) (source target : Node) (queue : List (Node × Node)) :
    (follow g problem s source target queue).queue =
      if incoming g problem s source target = s.get problem target then queue
      else queue ++ leaving g problem target := by
  unfold follow
  by_cases hsame : incoming g problem s source target = s.get problem target <;> simp [hsame]

/-- What waits after a step: what waited, and the edges that leave the target if its fact changed. -/
theorem mem_queue_follow {e : Node × Node} : e ∈ (follow g problem s source target queue).queue ↔
    e ∈ queue ∨ incoming g problem s source target ≠ s.get problem target ∧
      e ∈ leaving g problem target := by
  rw [queue_follow]
  split <;> simp [*]

theorem isSome_get?_follow (h : (s.facts.get? n).isSome = true) :
    ((follow g problem s source target queue).facts.get? n).isSome = true := by
  unfold follow
  by_cases hsame : incoming g problem s source target = s.get problem target
  · simpa [hsame] using h
  · simp only [if_neg hsame, Table.get?_set]
    split
    · rfl
    · exact h

theorem Sound.step (h : Sound g problem s) (hstep : step g problem s = .next s') :
    Sound g problem s' := by
  obtain ⟨source, target, queue, hqueue, rfl⟩ := step_eq_next.1 hstep
  refine ⟨fun e he => ?_, fun n hn => isSome_get?_follow (h.facts n hn)⟩
  obtain hold | ⟨-, hleaving⟩ := mem_queue_follow.1 he
  · exact h.queue e (hqueue ▸ List.mem_cons_of_mem _ hold)
  · obtain ⟨rfl, hsource⟩ := mem_leaving.1 hleaving
    exact hsource

/-- A node into which no edge waits after a step has the same facts arriving as before. -/
theorem arriving_follow (hn : ∀ m, (m, n) ∉ (follow g problem s source target queue).queue) :
    arriving g problem (follow g problem s source target queue) n = arriving g problem s n := by
  refine arriving_congr fun m hm => ?_
  rw [get_follow]
  split
  · rename_i heq
    subst heq
    by_contra hchanged
    exact hn target (mem_queue_follow.2 (.inr ⟨hchanged, mem_leaving.2 ⟨rfl, hm⟩⟩))
  · rfl

/-- What every step keeps holds where the solver halts, which it does when no edge waits. -/
theorem solve_invariant (Inv : State α → Prop)
    (hstep : ∀ s s', Inv s → step g problem s = .next s' → Inv s') (hinit : Inv (init g problem))
    {fuel : Nat} {r : Solution α} (h : solve g problem fuel = some r) :
    ∃ s, Inv s ∧ s.queue = [] ∧ r = solution problem s := by
  obtain ⟨s, hrun, rfl⟩ := Option.map_eq_some_iff.1 h
  obtain ⟨s', hinv, hhalt⟩ := Step.run_invariant hstep hinit hrun
  obtain ⟨hqueue, rfl⟩ := step_eq_halt.1 hhalt
  exact ⟨s, hinv, hqueue, rfl⟩

section Joins

variable [SemilatticeSup α] [OrderBot α]

theorem Complete.step (hjoins : problem.Joins) (hsound : Sound g problem s)
    (h : Complete g problem s) (hstep : step g problem s = .next s') : Complete g problem s' := by
  obtain ⟨source, target, queue, hqueue, rfl⟩ := step_eq_next.1 hstep
  have hsource : source ∈ sources g problem target :=
    hsound.queue (source, target) (hqueue ▸ List.mem_cons_self)
  intro n
  by_cases hn : ∃ m, (m, n) ∈ (follow g problem s source target queue).queue
  · exact .inl hn
  refine .inr ?_
  have harriving := arriving_follow fun m hm => hn ⟨m, hm⟩
  rw [Settled, harriving, get_follow]
  split
  · rename_i heq
    subst heq
    exact hjoins.incoming_isLUB hsource
  · rename_i hne
    -- an edge into another node that waited still waits
    refine (h n).resolve_left fun ⟨m, hm⟩ => hn ⟨m, mem_queue_follow.2 (.inl ?_)⟩
    rw [hqueue] at hm
    obtain heq | hrest := List.mem_cons.1 hm
    · exact absurd (congrArg Prod.snd heq).symm hne
    · exact hrest

/-- Where the solver halts, the equations of all nodes hold. -/
theorem settled_of_solve (hg : g.Closed) (hjoins : problem.Joins) {fuel : Nat} {r : Solution α}
    (h : solve g problem fuel = some r) :
    ∃ s, Sound g problem s ∧ (∀ n, Settled g problem s n) ∧ r = solution problem s := by
  obtain ⟨s, ⟨hsound, hcomplete⟩, hqueue, rfl⟩ :=
    solve_invariant (fun s => Sound g problem s ∧ Complete g problem s)
      (fun _ _ hs hstep => ⟨hs.1.step hstep, hs.2.step hjoins hs.1 hstep⟩)
      ⟨sound_init g problem, complete_init hg hjoins⟩ h
  exact ⟨s, hsound, hcomplete.settled hqueue, rfl⟩

end Joins

end Steps

/-! ### Answers in the order of the program -/

theorem solution_forward (hdirection : problem.direction = .forward) (h : Sound g problem s)
    (hn : n ∈ g.nodes) : (solution problem s).before n = s.get problem n ∧
      (solution problem s).after n = passed problem s n := by
  obtain ⟨fact, hfact⟩ := Option.isSome_iff_exists.1 (h.facts n hn)
  simp [solution, hdirection, passed, State.get, Table.getD, hfact]

theorem solution_backward (hdirection : problem.direction = .backward) (h : Sound g problem s)
    (hn : n ∈ g.nodes) : (solution problem s).after n = s.get problem n ∧
      (solution problem s).before n = passed problem s n := by
  obtain ⟨fact, hfact⟩ := Option.isSome_iff_exists.1 (h.facts n hn)
  simp [solution, hdirection, passed, State.get, Table.getD, hfact]

/-- The laws of a merge: order, grouping and repetition of facts do not count, nor does `top`. -/
structure Problem.Lawful (problem : Problem α) : Prop where
  comm : ∀ x y, problem.merge x y = problem.merge y x
  assoc : ∀ x y z, problem.merge (problem.merge x y) z = problem.merge x (problem.merge y z)
  idem : ∀ x, problem.merge x x = x
  unit : ∀ x, problem.merge problem.top x = x

/-- The order of the facts of a problem, in which merging is taking suprema. -/
@[reducible] def Problem.Lawful.semilattice (hlaws : problem.Lawful) : SemilatticeSup α :=
  let _ : Max α := ⟨problem.merge⟩
  SemilatticeSup.mk' hlaws.comm hlaws.assoc hlaws.idem

/-- The merge of some facts. -/
def Problem.mergeAll (problem : Problem α) (facts : List α) : α :=
  facts.foldl problem.merge problem.top

/-- The equations of a problem at a node, in the order of the program. The fact that flows in is merged
from the boundary fact and from what the neighbours pass on; the fact that flows out is the transfer of
that. -/
def SolvesAt (g : Cfg) (problem : Problem α) (r : Solution α) (n : Node) : Prop :=
  let boundary := (problem.seeds.get? n).toList
  match problem.direction with
  | .forward =>
    r.before n = problem.mergeAll (boundary ++ (g.preds n).toList.map r.after) ∧
      r.after n = problem.transfer n (r.before n)
  | .backward =>
    r.after n = problem.mergeAll (boundary ++ (g.succs n).toList.map r.before) ∧
      r.before n = problem.transfer n (r.after n)

/-- A settled node has the merge of all facts that arrive. -/
theorem Settled.get_eq [SemilatticeSup α] [OrderBot α] (hjoins : problem.Joins)
    (h : Settled g problem s n) : s.get problem n = problem.mergeAll
      ((problem.seeds.get? n).toList ++ (sources g problem n).map (passed problem s)) := by
  refine h.unique (isLUB_iff_le_iff.2 fun f => ?_)
  rw [Problem.mergeAll, hjoins.foldl_merge_le_iff fun f => f, hjoins.top]
  simp [arriving, upperBounds_union, mem_upperBounds, or_imp, forall_and]

/-- **Every answer of the solver satisfies the equations of its problem at every node,** over every
closed graph; the graphs of loaded methods are closed. -/
theorem solve_satisfies_equations [DecidableEq α] (hlaws : problem.Lawful) :
    (∀ p : Program, p.Loaded → ∀ id m g, p.method? id = some m → m.cfg = some g → g.Closed) ∧
      ∀ g : Cfg, g.Closed → ∀ fuel r, solve g problem fuel = some r →
        ∀ n ∈ g.nodes, SolvesAt g problem r n := by
  refine ⟨fun p hp id m g hm hg => hp.closed hm hg, fun g hg fuel r h n hn => ?_⟩
  let _ := hlaws.semilattice
  let _ : OrderBot α := { bot := problem.top, bot_le := hlaws.unit }
  have hjoins : problem.Joins := ⟨fun _ _ => rfl, rfl⟩
  obtain ⟨s, hsound, hsettled, rfl⟩ := settled_of_solve hg hjoins h
  have hequation := (hsettled n).get_eq hjoins
  unfold SolvesAt
  split
  · rename_i hdirection
    obtain ⟨hbefore, hafter⟩ := solution_forward hdirection hsound hn
    have hpassed : (g.preds n).toList.map (solution problem s).after =
        (sources g problem n).map (passed problem s) := by
      rw [← sources_forward hdirection]
      exact List.map_congr_left fun m hm =>
        (solution_forward hdirection hsound (mem_nodes_of_mem_sources hg hm)).2
    rw [hpassed, hbefore, hafter]
    exact ⟨hequation, rfl⟩
  · rename_i hdirection
    obtain ⟨hafter, hbefore⟩ := solution_backward hdirection hsound hn
    have hpassed : (g.succs n).toList.map (solution problem s).before =
        (sources g problem n).map (passed problem s) := by
      rw [← sources_backward hdirection]
      exact List.map_congr_left fun m hm =>
        (solution_backward hdirection hsound (mem_nodes_of_mem_sources hg hm)).2
    rw [hpassed, hafter, hbefore]
    exact ⟨hequation, rfl⟩

/-! ### The two problems -/

theorem Problem.Joins.lawful [SemilatticeSup α] [OrderBot α] (hjoins : problem.Joins) :
    problem.Lawful where
  comm x y := by rw [hjoins.merge, hjoins.merge, sup_comm]
  assoc x y z := by simp only [hjoins.merge, sup_assoc]
  idem x := by rw [hjoins.merge, sup_idem]
  unit x := by rw [hjoins.merge, hjoins.top, bot_sup_eq]

theorem joins_intraProblem (m : Method) : (Constants.intraProblem m).Joins :=
  ⟨fun _ _ => rfl, rfl⟩

theorem lawful_liveness (m : Method) : (Liveness.problem m).Lawful where
  comm s t := VarSet.ext_mem fun i => by
    rw [Liveness.problem, VarSet.mem_union, VarSet.mem_union, or_comm]
  assoc s t u := VarSet.ext_mem fun i => by simp [Liveness.problem, or_assoc]
  idem s := VarSet.ext_mem fun i => by simp [Liveness.problem]
  unit s := VarSet.ext_mem fun i => by simp [Liveness.problem]

/-- A method in which two cases of a switch lead to one statement, which may jump to itself, and in
which no path leads to the addition. -/
def branchesDocument : Json.Value :=
  let int (name : String) : Json.Value := .obj [("name", .str name), ("type", .str "int")]
  let toAgain (value : Int) : Json.Value :=
    .obj [("value", .num (.int value)), ("target", .str "again")]
  let main : Json.Value := .obj [("name", .str "main"), ("static", .bool true),
    ("params", .arr [int "p"]), ("vars", .arr [int "x"]), ("body", .arr [
      .obj [("op", .str "const"), ("lhs", .str "x"), ("value", .num (.int 1))],
      .obj [("op", .str "switch"), ("var", .str "p"), ("cases", .arr [toAgain 1, toAgain 2]),
        ("default", .str "done")],
      .obj [("label", .str "again"), ("op", .str "if"), ("operator", .str "<"), ("x", .str "p"),
        ("y", .str "x"), ("target", .str "again")],
      .obj [("op", .str "goto"), ("target", .str "done")],
      .obj [("op", .str "binary"), ("operator", .str "+"), ("lhs", .str "x"), ("x", .str "p"),
        ("y", .str "p")],
      .obj [("label", .str "done"), ("op", .str "return")]])]
  .obj [("classes", .arr [.obj [("name", .str "Branches"), ("methods", .arr [main])]]),
    ("entry", .str "Branches.main")]

/-- Constants and live variables of this method satisfy their equations. -/
theorem branchesDocument_equations : ∃ m g constants live,
    (Program.described branchesDocument).method? ⟨⟨0, "Branches"⟩, 0⟩ = some m ∧
      m.cfg = some g ∧ Constants.intra 100 m g = some constants ∧
      Liveness.solve 100 m g = some live ∧ ∀ n ∈ g.nodes,
        SolvesAt g (Constants.intraProblem m) constants n ∧ SolvesAt g (Liveness.problem m) live n := by
  have hrun : (((Program.described branchesDocument).method? ⟨⟨0, "Branches"⟩, 0⟩).bind fun m =>
      m.cfg.map fun g => ((Constants.intra 100 m g).isSome, (Liveness.solve 100 m g).isSome)) =
      some (true, true) := by
    decide +kernel
  obtain ⟨m, hm, hrun⟩ := Option.bind_eq_some_iff.1 hrun
  obtain ⟨g, hg, hsome⟩ := Option.map_eq_some_iff.1 hrun
  obtain ⟨hconstants, hlive⟩ := Prod.mk.inj hsome
  obtain ⟨constants, hconstants⟩ := Option.isSome_iff_exists.1 hconstants
  obtain ⟨live, hlive⟩ := Option.isSome_iff_exists.1 hlive
  have hloaded : (Program.described branchesDocument).Loaded := loaded_described (by decide +kernel)
  have hlaws := (joins_intraProblem m).lawful
  have hclosed := (solve_satisfies_equations hlaws).1 _ hloaded _ m g hm hg
  refine ⟨m, g, constants, live, hm, hg, hconstants, hlive, fun n hn => ⟨?_, ?_⟩⟩
  · exact (solve_satisfies_equations hlaws).2 g hclosed 100 constants hconstants n hn
  · exact (solve_satisfies_equations (lawful_liveness m)).2 g hclosed 100 live hlive n hn

end Dataflow

end HeapFlow
