import HeapFlow.DeadCode
import HeapFlow.Proofs.Constants.Refinement
import HeapFlow.Proofs.Ir.Labels
import HeapFlow.Proofs.Reach
import Mathlib.Data.List.Sort
/-!
# HeapFlow.Proofs.DeadCode

**What is reported as dead code** (`DeadCode.detect_exact`): the statements to which no path of feasible
edges leads from the entry, and the assignments on such paths whose variable is not live afterwards. A
search along feasible edges collects the assignments and leaves the other statements behind.

**Facts that refine others show at least as much of it** (`DeadCode.detect_subset`). A branch is cut only
where its operands are constants, and a fact that refines another has the same constants there, so it cuts
the branch too. Being undefined cuts nothing: a fact that is only below another could show less dead code.
-/

namespace HeapFlow

namespace DeadCode

variable {m : Method} {g : Cfg} {known facts : Node → Fact} {live : Node → VarSet}

/-! ### Feasible edges -/

/-- Under a fact the condition or the value of a branch is known, and it does not select edges of a
kind. -/
inductive Excluded (f : Fact) : Stmt → Cfg.EdgeKind → Prop
  | ifTrue {op : CmpOp} {x y : Var} {jump : Jump}
      (hknown : (Expr.binary (.cmp op) x y).evaluate f = .const 0) :
      Excluded f (.ifGoto op x y jump) .ifTrue
  | ifFalse {op : CmpOp} {x y : Var} {jump : Jump} {c : Int32}
      (hknown : (Expr.binary (.cmp op) x y).evaluate f = .const c) (hc : c ≠ 0) :
      Excluded f (.ifGoto op x y jump) .ifFalse
  | switchCase {v : Var} {cases : List (Int32 × Jump)} {default : Jump} {c k : Int32}
      (hknown : f.get v.index = .const c) (hk : k ≠ c) :
      Excluded f (.switch v cases default) (.switchCase k)
  | switchDefault {v : Var} {cases : List (Int32 × Jump)} {default : Jump} {c : Int32}
      (hknown : f.get v.index = .const c) (hc : c ∈ cases.map Prod.fst) :
      Excluded f (.switch v cases default) .switchDefault

/-- An edge is not feasible exactly if the branch excludes it. -/
theorem stmtFeasible_eq_false {f : Fact} {s : Stmt} {kind : Cfg.EdgeKind} :
    stmtFeasible s f kind = false ↔ Excluded f s kind := by
  constructor
  · intro hcut
    cases s with
    | ifGoto op x y jump =>
      simp only [stmtFeasible] at hcut
      split at hcut
      · rename_i c hknown
        cases kind with
        | ifTrue =>
          obtain rfl : c = 0 := bne_eq_false_iff_eq.1 hcut
          exact .ifTrue hknown
        | ifFalse => exact .ifFalse hknown (beq_eq_false_iff_ne.1 hcut)
        | _ => cases hcut
      · cases hcut
    | switch v cases default =>
      simp only [stmtFeasible] at hcut
      split at hcut
      · rename_i c hknown
        cases kind with
        | switchCase k => exact .switchCase hknown (beq_eq_false_iff_ne.1 hcut)
        | switchDefault =>
          have hcontains : (cases.map Prod.fst).contains c = true := (Bool.not_eq_false' _).mp hcut
          exact .switchDefault hknown (List.contains_iff_mem.1 hcontains)
        | _ => cases hcut
      · cases hcut
    | _ => cases hcut
  · intro hexcluded
    cases hexcluded with
    | ifTrue hknown =>
      simp only [stmtFeasible, hknown]
      exact bne_eq_false_iff_eq.2 rfl
    | ifFalse hknown hc =>
      simp only [stmtFeasible, hknown]
      exact beq_eq_false_iff_ne.2 hc
    | switchCase hknown hk =>
      simp only [stmtFeasible, hknown]
      exact beq_eq_false_iff_ne.2 hk
    | switchDefault hknown hc =>
      simp only [stmtFeasible, hknown]
      exact (Bool.not_eq_false' _).mpr (List.contains_iff_mem.2 hc)

/-- Control can pass from a node to another along an edge that is not excluded at its source. -/
def Passes (m : Method) (g : Cfg) (facts : Node → Fact) (n n' : Node) : Prop :=
  ∃ e ∈ g.edges, e.source = n ∧ e.target = n' ∧
    ¬ ∃ i s, n = .stmt i ∧ m.stmt? i = some s ∧ Excluded (facts n) s e.kind

/-- What is feasible under a fact is feasible under those that it refines. -/
theorem stmtFeasible_of_refines {f h : Fact} (hrefines : h.Refines f) {s : Stmt}
    {kind : Cfg.EdgeKind} (hfeasible : stmtFeasible s h kind = true) :
    stmtFeasible s f kind = true := by
  cases s with
  | ifGoto op x y jump =>
    simp only [stmtFeasible] at hfeasible ⊢
    split
    · rename_i k hk
      rwa [hrefines.evaluate_binary hk] at hfeasible
    · rfl
  | switch v cases default =>
    simp only [stmtFeasible] at hfeasible ⊢
    split
    · rename_i k hk
      rwa [hrefines.const _ k hk] at hfeasible
    · rfl
  | _ => rfl

theorem feasible_of_refines {e : Cfg.Edge} (hrefines : (known e.source).Refines (facts e.source))
    (hfeasible : feasible m known e = true) : feasible m facts e = true := by
  unfold feasible at hfeasible ⊢
  split at hfeasible
  · split at hfeasible
    · exact stmtFeasible_of_refines hrefines hfeasible
    · rfl
  · rfl

theorem mem_feasibleNexts {n n' : Node} : n' ∈ feasibleNexts m g facts n ↔
    ∃ e ∈ g.edges, e.source = n ∧ feasible m facts e = true ∧ e.target = n' := by
  simp [feasibleNexts, Cfg.mem_outEdges, and_assoc]

theorem feasible_eq_false {e : Cfg.Edge} : feasible m facts e = false ↔
    ∃ i s, e.source = .stmt i ∧ m.stmt? i = some s ∧ Excluded (facts e.source) s e.kind := by
  unfold feasible
  cases hsource : e.source with
  | stmt i =>
    cases hs : m.stmt? i with
    | none => simp [hs]
    | some s => simp [hs, stmtFeasible_eq_false]
  | _ => simp

theorem leads_feasibleNexts : Reach.Leads (feasibleNexts m g facts) = Passes m g facts := by
  funext n n'
  refine propext (mem_feasibleNexts.trans (exists_congr fun e => and_congr_right fun _ => ?_))
  constructor
  · rintro ⟨rfl, hfeasible, htarget⟩
    refine ⟨rfl, htarget, fun hexcluded => ?_⟩
    exact Bool.noConfusion (hfeasible.symm.trans (feasible_eq_false.2 hexcluded))
  · rintro ⟨rfl, htarget, hnot⟩
    exact ⟨rfl, Bool.not_eq_false _ ▸ mt feasible_eq_false.1 hnot, htarget⟩

/-! ### Statements that are reached -/

/-- The search stays among the nodes of the graph. -/
theorem feasibleNexts_closed (hclosed : g.Closed) :
    ∀ x ∈ g.nodes, ∀ y ∈ feasibleNexts m g facts x, y ∈ g.nodes := by
  intro x _ y hy
  obtain ⟨e, he, -, -, rfl⟩ := mem_feasibleNexts.1 hy
  exact (hclosed e he).2

theorem entry_inside : ∀ x ∈ [Node.entry], x ∈ g.nodes :=
  List.forall_mem_singleton.2 (Icfg.entry_mem_nodes g)

/-- **The nodes that are reached are those on feasible paths from the entry.** -/
theorem mem_reached_iff (hclosed : g.Closed) {n : Node} : n ∈ reached m g facts ↔
    Relation.ReflTransGen (Reach.Leads (feasibleNexts m g facts)) .entry n := by
  rw [reached, Reach.mem_closure_iff (feasibleNexts_closed hclosed) entry_inside le_rfl]
  simp

/-- Only nodes of the graph are reached. -/
theorem mem_nodes_of_mem_reached (hclosed : g.Closed) {n : Node} (hn : n ∈ reached m g facts) :
    n ∈ g.nodes := by
  obtain hentry | ⟨n', -, hleads⟩ := ((mem_reached_iff hclosed).1 hn).cases_tail
  · exact hentry ▸ Icfg.entry_mem_nodes g
  · obtain ⟨e, he, -, -, rfl⟩ := mem_feasibleNexts.1 hleads
    exact (hclosed e he).2

/-- What is reached under facts is reached under those that they refine. -/
theorem mem_reached_of_refines (hclosed : g.Closed)
    (hrefines : ∀ n ∈ g.nodes, (known n).Refines (facts n)) {n : Node}
    (hn : n ∈ reached m g known) : n ∈ reached m g facts := by
  rw [mem_reached_iff hclosed] at hn ⊢
  refine Relation.ReflTransGen.mono (fun x y hy => ?_) _ _ hn
  obtain ⟨e, he, hsource, hfeasible, htarget⟩ := mem_feasibleNexts.1 hy
  exact mem_feasibleNexts.2 ⟨e, he, hsource,
    feasible_of_refines (hrefines e.source (hclosed e he).1) hfeasible, htarget⟩

/-! ### Dead assignments -/

/-- What makes an assignment dead: it is pure, and its variable is not live afterwards. -/
theorem isDeadAssignment_iff {i : Nat} {s : Stmt} : isDeadAssignment live i s = true ↔
    ∃ lhs e, s = .assign lhs e ∧ (live (.stmt i)).contains lhs = false ∧ e.isPure = true := by
  cases s with
  | assign lhs e =>
    simp [isDeadAssignment, Stmt.defined?, Stmt.rvalue?, Stmt.isInvoke, Rvalue.isPure]
  | invoke result call =>
    cases result <;> simp [isDeadAssignment, Stmt.defined?, Stmt.rvalue?, Stmt.isInvoke]
  | _ => simp [isDeadAssignment, Stmt.defined?]

/-- The statement at an index defines a variable that is not live after it, and not by a call; the
right-hand side has no side effect. -/
def AssignsDead (m : Method) (live : Node → VarSet) (i : Nat) : Prop :=
  ∃ lhs e, m.stmt? i = some (.assign lhs e) ∧ (live (.stmt i)).contains lhs = false ∧
    e.isPure = true

theorem assignsDead_iff {i : Nat} :
    ((m.stmt? i).map (isDeadAssignment live i)).getD false = true ↔ AssignsDead m live i := by
  unfold AssignsDead
  cases m.stmt? i with
  | none => simp
  | some s => simp [isDeadAssignment_iff]

instance (m : Method) (live : Node → VarSet) (i : Nat) : Decidable (AssignsDead m live i) :=
  decidable_of_iff _ assignsDead_iff

/-! ### Statements that can be dropped -/

theorem mem_detect {i : Nat} : i ∈ detect m g facts live ↔
    i < g.size ∧ (.stmt i ∉ reached m g facts ∨ AssignsDead m live i) := by
  simp [detect, ← assignsDead_iff]

/-- The index of a node at which there is a dead assignment. -/
def deadAssignment? (m : Method) (live : Node → VarSet) : Node → Option Nat
  | .stmt i => if AssignsDead m live i then some i else none
  | .entry | .exit => none

theorem deadAssignment?_eq_some {n : Node} {i : Nat} :
    deadAssignment? m live n = some i ↔ n = .stmt i ∧ AssignsDead m live i := by
  cases n with
  | stmt j =>
    rw [deadAssignment?, Option.ite_none_right_eq_some, Option.some.injEq, Node.stmt.injEq]
    constructor
    · rintro ⟨hdead, rfl⟩
      exact ⟨rfl, hdead⟩
    · rintro ⟨rfl, hdead⟩
      exact ⟨hdead, rfl⟩
  | _ => simp [deadAssignment?]

/-- What the search along feasible edges collects: the dead assignments, as it meets them. -/
def collected (m : Method) (g : Cfg) (facts : Node → Fact) (live : Node → VarSet) : List Nat :=
  (reached m g facts).toList.filterMap (deadAssignment? m live)

/-- The statements that the search does not meet. -/
def unmet (m : Method) (g : Cfg) (facts : Node → Fact) : List Nat :=
  (List.range g.size).filter fun i => .stmt i ∉ reached m g facts

theorem mem_collected {i : Nat} : i ∈ collected m g facts live ↔
    .stmt i ∈ reached m g facts ∧ AssignsDead m live i := by
  simp only [collected, List.mem_filterMap, deadAssignment?_eq_some]
  constructor
  · rintro ⟨_, hn, rfl, hdead⟩
    exact ⟨hn, hdead⟩
  · rintro ⟨hn, hdead⟩
    exact ⟨.stmt i, hn, rfl, hdead⟩

theorem mem_unmet {i : Nat} : i ∈ unmet m g facts ↔ i < g.size ∧ .stmt i ∉ reached m g facts := by
  simp [unmet]

theorem nodup_collected : (collected m g facts live).Nodup := by
  refine List.Nodup.filterMap (fun n n' i hn hn' => ?_) (OrderedSet.nodup _)
  rw [(deadAssignment?_eq_some.1 hn).1, (deadAssignment?_eq_some.1 hn').1]

/-- The reported statements stand in increasing order. -/
theorem pairwise_detect : (detect m g facts live).Pairwise (· < ·) :=
  List.pairwise_lt_range.filter _

/-- **Two passes find what is reported.** What the search collects and what it does not meet have
nothing in common, and sorted they are the reported statements. -/
theorem detect_eq_mergeSort (hclosed : g.Closed) : detect m g facts live =
    (collected m g facts live ++ unmet m g facts).mergeSort := by
  have hnodup : (collected m g facts live ++ unmet m g facts).Nodup := by
    refine List.nodup_append.2 ⟨nodup_collected, List.nodup_range.filter _, ?_⟩
    rintro i hi j hj rfl
    exact (mem_unmet.1 hj).2 (mem_collected.1 hi).1
  have hmem (i : Nat) : i ∈ detect m g facts live ↔
      i ∈ collected m g facts live ++ unmet m g facts := by
    rw [mem_detect, List.mem_append, mem_collected, mem_unmet]
    -- a statement that is met is one of the body, as all nodes that edges lead to are
    have hlt (hi : .stmt i ∈ reached m g facts) : i < g.size :=
      Icfg.stmt_mem_nodes.1 (mem_nodes_of_mem_reached hclosed hi)
    by_cases hmet : .stmt i ∈ reached m g facts
    · simp [hmet, hlt hmet]
    · simp [hmet]
  have hperm := (List.perm_ext_iff_of_nodup pairwise_detect.nodup hnodup).2 hmem
  exact (hperm.trans (List.mergeSort_perm _ _).symm).eq_of_pairwise'
    (pairwise_detect.imp Nat.le_of_lt) (List.pairwise_mergeSort' (· ≤ ·) _)

/-- **What is reported is exactly the dead code,** over every closed graph; the graphs of loaded methods
and of bodies that were built statement by statement are closed. The search ends by itself: a larger bound
finds nothing else. What it collects and what it does not meet, sorted, are the reported statements. They
are in increasing order, each once: those to which no path of feasible edges leads from the entry, and
those on such a path that define a variable which is not live after them. -/
theorem detect_exact :
    (∀ p : Program, p.Loaded → ∀ id m, p.method? id = some m → m.HasClosedGraph) ∧
    (∀ m actions, Document.Blank m →
      ((Draft.ofMethod m).performAll actions).finish.1.method.HasClosedGraph) ∧
    ∀ (m : Method) (g : Cfg), g.Closed → ∀ (facts : Node → Fact) (live : Node → VarSet),
      (∀ bound, g.nodes.length ≤ bound →
        Reach.closure (feasibleNexts m g facts) bound [.entry] = reached m g facts) ∧
      detect m g facts live = (collected m g facts live ++ unmet m g facts).mergeSort ∧
      (detect m g facts live).Pairwise (· < ·) ∧
      ∀ i, i ∈ detect m g facts live ↔ .stmt i ∈ g.nodes ∧
        (¬ Relation.ReflTransGen (Passes m g facts) .entry (.stmt i) ∨
          Relation.ReflTransGen (Passes m g facts) .entry (.stmt i) ∧ AssignsDead m live i) := by
  refine ⟨fun p hp id m hm g => hp.closed hm, fun m actions hm =>
    Draft.hasClosedGraph_performAll hm actions, fun m g hclosed facts live => ⟨fun bound hbound => ?_,
    detect_eq_mergeSort hclosed, pairwise_detect, fun i => ?_⟩⟩
  · exact Reach.closure_eq_of_le (feasibleNexts_closed hclosed) entry_inside le_rfl hbound
  · rw [mem_detect, mem_reached_iff hclosed, leads_feasibleNexts, ← Icfg.stmt_mem_nodes]
    refine and_congr_right fun _ => ?_
    rw [or_and_left, and_iff_right (Classical.em _).symm]

/-- A loop that a switch on a known value never leaves, along two cases of the same value. -/
def spin : List Draft.Action :=
  let x : Var := ⟨0, "x", .int⟩
  let n : Var := ⟨1, "n", .int⟩
  [.label "again", .stmt (.assign x (.int 5)),
    .stmt (.switch n [(1, ⟨"again", none⟩), (1, ⟨"again", none⟩), (2, ⟨"out", none⟩)] ⟨"out", none⟩),
    .label "out", .stmt (.ret (some x))]

/-- The assignment in the loop is dead, the switch is reached, and no path leads to the return. -/
theorem detect_spin :
    let m := ((Draft.ofMethod (Method.declare ⟨⟨0, "Main"⟩, 0⟩ "spin" [("x", .int), ("n", .int)] .int
      true false)).performAll spin).finish.1.method
    let facts : Node → Fact := fun _ => Fact.update ∅ 1 (.const 1)
    let live : Node → VarSet := fun _ => ∅
    ∃ g, m.cfg = some g ∧ detect m g facts live = [0, 2] ∧ AssignsDead m live 0 ∧
      Relation.ReflTransGen (Passes m g facts) .entry (.stmt 1) ∧
      ¬ Relation.ReflTransGen (Passes m g facts) .entry (.stmt 2) := by
  intro m facts live
  obtain ⟨-, hbuilt, hexact⟩ := detect_exact
  have hrun : m.cfg.any (fun g => decide (detect m g facts live = [0, 2] ∧ .stmt 1 ∈ g.nodes)) =
      true := by
    decide +kernel
  obtain ⟨g, hg, hrun⟩ := (Option.any_eq_true _ _).1 hrun
  obtain ⟨hdetect, hnode⟩ := of_decide_eq_true hrun
  obtain ⟨-, -, -, hmem⟩ := hexact m g (hbuilt _ spin ⟨rfl, rfl⟩ g hg) facts live
  rw [hdetect] at hmem
  refine ⟨g, hg, hdetect, by decide +kernel, ?_, ?_⟩
  · by_contra hnot
    exact absurd ((hmem 1).2 ⟨hnode, .inl hnot⟩) (by decide)
  · obtain ⟨-, hnot | ⟨-, hdead⟩⟩ := (hmem 2).1 (by decide)
    · exact hnot
    · exact absurd hdead (by decide +kernel)

/-- **Whatever can be dropped under facts can be dropped under facts that refine them.** -/
theorem detect_subset (hclosed : g.Closed) (hrefines : ∀ n ∈ g.nodes, (known n).Refines (facts n))
    (live : Node → VarSet) : detect m g facts live ⊆ detect m g known live := by
  intro i hi
  obtain ⟨hlt, hunreached | hdead⟩ := mem_detect.1 hi
  · exact mem_detect.2 ⟨hlt, .inl fun h => hunreached (mem_reached_of_refines hclosed hrefines h)⟩
  · exact mem_detect.2 ⟨hlt, .inr hdead⟩

end DeadCode

end HeapFlow
