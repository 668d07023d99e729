import HeapFlow.Proofs.Dataflow.Termination
import HeapFlow.Proofs.Ir.Regular
import HeapFlow.Proofs.Ir.Scoped
import Mathlib.Data.Fintype.Powerset
import Mathlib.Order.CompletePartialOrder
/-!
# HeapFlow.Proofs.Liveness

**Live variables are those that some path reads first** (`Liveness.live_exact`). Sets of variables
are ordered by inclusion, so that merging them is taking suprema, and the transfer of every node is
monotone. Hence facts only rise while the solver runs, within the variables that the body reads, and
it terminates. Whatever it finds on its way is justified by a path; where it halts, the equations
hold, and they carry a variable backwards along every path that reads it first.
-/

namespace HeapFlow

/-! ### Sets of variables -/

namespace VarSet

variable {s t : VarSet} {v w : Var} {i : Nat}

theorem contains_iff : s.contains v = true ↔ s.Mem v.index := Iff.rfl

@[simp] theorem mem_insert : (s.insert v).Mem i ↔ v.index = i ∨ s.Mem i := by
  rw [insert, Mem, IndexMap.get?_set]
  by_cases h : v.index = i <;> simp [h, Mem]

@[simp] theorem mem_remove : (s.remove v).Mem i ↔ v.index ≠ i ∧ s.Mem i := by
  rw [remove, Mem, IndexMap.get?_erase]
  by_cases h : v.index = i <;> simp [h, Mem]

theorem mem_foldl_insert {vs : List Var} :
    (vs.foldl insert s).Mem i ↔ (∃ v ∈ vs, v.index = i) ∨ s.Mem i := by
  induction vs generalizing s with
  | nil => simp
  | cons v vs ih =>
    rw [List.foldl_cons, ih, mem_insert, List.exists_mem_cons_iff, or_left_comm, or_assoc]

/-- Sets are ordered by inclusion. -/
instance : SemilatticeSup VarSet where
  le s t := ∀ i, s.Mem i → t.Mem i
  le_refl _ _ h := h
  le_trans _ _ _ hst htu i hi := htu i (hst i hi)
  le_antisymm _ _ hst hts := ext_mem fun i => ⟨hst i, hts i⟩
  sup := union
  le_sup_left _ _ _ hi := mem_union.2 (.inl hi)
  le_sup_right _ _ _ hi := mem_union.2 (.inr hi)
  sup_le _ _ _ hs ht i hi := (mem_union.1 hi).elim (hs i) (ht i)

instance : OrderBot VarSet where
  bot := ∅
  bot_le _ i hi := absurd hi (mem_empty i)

/-- An index of a least upper bound is one of the sets that it bounds. -/
theorem exists_mem_of_isLUB {sets : Set VarSet} (h : IsLUB sets s) {v : Var} (hv : s.Mem v.index) :
    ∃ t ∈ sets, t.Mem v.index := by
  by_contra hnone
  have hbound : s.remove v ∈ upperBounds sets := fun t ht i hi =>
    mem_remove.2 ⟨fun heq => hnone ⟨t, ht, heq ▸ hi⟩, h.1 ht i hi⟩
  exact (mem_remove.1 (h.2 hbound v.index hv)).1 rfl

end VarSet

/-- An edge leads from one node to another. -/
def Cfg.HasEdge (g : Cfg) (n n' : Node) : Prop := ∃ e ∈ g.edges, e.source = n ∧ e.target = n'

namespace Liveness

open Dataflow

variable {m : Method} {g : Cfg} {n : Node} {v : Var} {i : Nat}

/-! ### What nodes do to a variable -/

/-- The statement at a node uses the variable. -/
def Uses (m : Method) (n : Node) (v : Var) : Prop :=
  ∃ i s, n = .stmt i ∧ m.stmt? i = some s ∧ v ∈ s.uses

/-- The statement at a node defines the variable. -/
def Defines (m : Method) (n : Node) (v : Var) : Prop :=
  ∃ i s, n = .stmt i ∧ m.stmt? i = some s ∧ s.defined? = some v

/-- A path from the node leads to a use of the variable, and no node before that use defines it. -/
def ReadFirst (m : Method) (g : Cfg) (v : Var) (n : Node) : Prop :=
  ∃ n', Relation.ReflTransGen (fun a b => g.HasEdge a b ∧ ¬ Defines m a v) n n' ∧ Uses m n' v

/-- Variables that the nodes mention are told apart by their indexes. -/
def ToldApart (m : Method) (v : Var) : Prop :=
  ∀ n w, (Uses m n w ∨ Defines m n w) → w.index = v.index → w = v

theorem mem_stmtTransfer {s : Stmt} {live : VarSet} : (stmtTransfer s live).Mem i ↔
    (∃ w ∈ s.uses, w.index = i) ∨ live.Mem i ∧ ∀ w, s.defined? = some w → w.index ≠ i := by
  rw [stmtTransfer, VarSet.mem_foldl_insert]
  cases s.defined? with
  | none => simp
  | some w => simp [and_comm]

theorem nodeTransfer_stmt {s : Stmt} (hs : m.stmt? i = some s) (live : VarSet) :
    nodeTransfer m (.stmt i) live = stmtTransfer s live := by
  simp [nodeTransfer, hs]

/-- A node with a statement, or one that passes on what it gets. -/
theorem nodeTransfer_cases (m : Method) (n : Node) :
    (∃ i s, n = .stmt i ∧ m.stmt? i = some s) ∨
      (∀ live, nodeTransfer m n live = live) ∧ ∀ i s, n = .stmt i → m.stmt? i ≠ some s := by
  cases n with
  | stmt i =>
    cases hs : m.stmt? i with
    | some s => exact .inl ⟨i, s, rfl, hs⟩
    | none =>
      refine .inr ⟨fun live => by simp [nodeTransfer, hs], fun j s hj hs' => ?_⟩
      obtain rfl := Node.stmt.inj hj
      cases hs.symm.trans hs'
  | entry => exact .inr ⟨fun _ => rfl, nofun⟩
  | exit => exact .inr ⟨fun _ => rfl, nofun⟩

theorem uses_stmt {s : Stmt} (hs : m.stmt? i = some s) : Uses m (.stmt i) v ↔ v ∈ s.uses := by
  refine ⟨fun ⟨j, t, hj, ht, hv⟩ => ?_, fun hv => ⟨i, s, rfl, hs, hv⟩⟩
  obtain rfl := Node.stmt.inj hj
  obtain rfl := Option.some.inj (ht.symm.trans hs)
  exact hv

theorem defines_stmt {s : Stmt} (hs : m.stmt? i = some s) :
    Defines m (.stmt i) v ↔ s.defined? = some v := by
  refine ⟨fun ⟨j, t, hj, ht, hv⟩ => ?_, fun hv => ⟨i, s, rfl, hs, hv⟩⟩
  obtain rfl := Node.stmt.inj hj
  obtain rfl := Option.some.inj (ht.symm.trans hs)
  exact hv

/-- What is live before a node: what it uses, and what is live after it unless it defines it. -/
theorem mem_nodeTransfer (happart : ToldApart m v) {live : VarSet} :
    (nodeTransfer m n live).Mem v.index ↔ Uses m n v ∨ live.Mem v.index ∧ ¬ Defines m n v := by
  obtain ⟨i, s, rfl, hs⟩ | ⟨hkeeps, hnone⟩ := nodeTransfer_cases m n
  · have huses : (∃ w ∈ s.uses, w.index = v.index) ↔ v ∈ s.uses := by
      refine ⟨fun ⟨w, hw, hindex⟩ => ?_, fun hv => ⟨v, hv, rfl⟩⟩
      exact happart _ w (.inl ((uses_stmt hs).2 hw)) hindex ▸ hw
    have hdefines : (∀ w, s.defined? = some w → w.index ≠ v.index) ↔ ¬ s.defined? = some v := by
      refine ⟨fun h hv => h v hv rfl, fun h w hw hindex => h ?_⟩
      exact happart _ w (.inr ((defines_stmt hs).2 hw)) hindex ▸ hw
    rw [nodeTransfer_stmt hs, mem_stmtTransfer, huses, hdefines, uses_stmt hs, defines_stmt hs]
  · have huses : ¬ Uses m n v := fun ⟨i, s, hn, hs, _⟩ => hnone i s hn hs
    have hdefines : ¬ Defines m n v := fun ⟨i, s, hn, hs, _⟩ => hnone i s hn hs
    simp [hkeeps, huses, hdefines]

/-! ### Termination -/

theorem joins_problem (m : Method) : (problem m).Joins := ⟨fun _ _ => rfl, rfl⟩

/-- Nothing is live at the boundary. -/
theorem eq_empty_of_seed {seed : VarSet} (h : (problem m).seeds.get? n = some seed) : seed = ∅ := by
  rw [problem, Table.get?_set] at h
  split at h
  · exact (Option.some.inj h).symm
  · cases (Table.get?_empty n).symm.trans h

theorem nodeTransfer_mono (m : Method) (n : Node) {live live' : VarSet} (h : live ≤ live') :
    nodeTransfer m n live ≤ nodeTransfer m n live' := by
  obtain ⟨i, s, rfl, hs⟩ | ⟨hkeeps, -⟩ := nodeTransfer_cases m n
  · rw [nodeTransfer_stmt hs, nodeTransfer_stmt hs]
    exact fun i hi => mem_stmtTransfer.2 ((mem_stmtTransfer.1 hi).imp_right (.imp_left (h i)))
  · rw [hkeeps, hkeeps]
    exact h

/-- The variables that the body reads. -/
def used (m : Method) : List Var := m.stmts.flatMap Stmt.uses

/-- A set by those of the variables that the body reads. -/
def height (m : Method) (live : VarSet) : Set {v // v ∈ used m} := {v | live.Mem v.1.index}

/-- Sets stay within the variables that the body reads. -/
theorem spans_problem (m : Method) :
    Spans (problem m) ((used m).foldl VarSet.insert ∅) (height m) where
  seeds n seed hseed := by
    rw [eq_empty_of_seed hseed]
    exact bot_le
  transfer n live hlive := by
    show nodeTransfer m n live ≤ _
    obtain ⟨i, s, rfl, hs⟩ | ⟨hkeeps, -⟩ := nodeTransfer_cases m n
    · have hmem : s ∈ m.stmts := List.mem_of_getElem? ((m.stmt?_eq i).symm.trans hs)
      rw [nodeTransfer_stmt hs]
      intro i hi
      obtain ⟨v, hv, hindex⟩ | ⟨hi, -⟩ := mem_stmtTransfer.1 hi
      · exact VarSet.mem_foldl_insert.2 (.inl ⟨v, List.mem_flatMap.2 ⟨s, hmem, hv⟩, hindex⟩)
      · exact hlive i hi
    · rwa [hkeeps]
  height := by
    intro live _ live' hbound hlt
    refine ⟨fun v hv => hlt.le v.1.index hv, fun hsub => hlt.not_ge fun i hi => ?_⟩
    obtain ⟨v, hv, rfl⟩ | hnone := VarSet.mem_foldl_insert.1 (hbound i hi)
    · exact hsub (a := ⟨v, hv⟩) hi
    · exact absurd hnone (VarSet.mem_empty i)

/-- **The solver terminates:** transfers are monotone, so facts only rise. -/
theorem exists_solve (m : Method) (g : Cfg) : ∃ fuel r, solve fuel m g = some r := by
  refine exists_solve_of_not_falls (joins_problem m) (spans_problem m) fun k s _ hfalls => ?_
  obtain ⟨source, target, queue, -, hrise, hfall⟩ := hfalls
  exact hfall (nodeTransfer_mono m target hrise)

/-! ### Paths -/

/-- The variable is read first from some node that follows. -/
def ReadLater (m : Method) (g : Cfg) (v : Var) (n : Node) : Prop :=
  ∃ n', g.HasEdge n n' ∧ ReadFirst m g v n'

/-- What is found is justified by paths. -/
def Justified (m : Method) (g : Cfg) (v : Var) (s : State VarSet) : Prop :=
  ∀ n, (s.get (problem m) n).Mem v.index → ReadLater m g v n

theorem mem_sources {n' : Node} : n' ∈ sources g (problem m) n ↔ g.HasEdge n n' := by
  rw [sources_backward rfl, Cfg.mem_succs]
  rfl

/-- A variable that is read first from a successor is read first from a node that does not define
it. -/
theorem ReadFirst.head {n' : Node} (h : ReadFirst m g v n') (hedge : g.HasEdge n n')
    (hdefines : ¬ Defines m n v) : ReadFirst m g v n := by
  obtain ⟨k, hpath, huses⟩ := h
  exact ⟨k, .head ⟨hedge, hdefines⟩ hpath, huses⟩

/-- Where a variable is read first before a node, if it is justified after the node. -/
theorem readFirst_of_transfer (happart : ToldApart m v) {live : VarSet}
    (hlater : live.Mem v.index → ReadLater m g v n)
    (h : (nodeTransfer m n live).Mem v.index) : ReadFirst m g v n := by
  obtain huses | ⟨hlive, hdefines⟩ := (mem_nodeTransfer happart).1 h
  · exact ⟨n, .refl, huses⟩
  · obtain ⟨n', hedge, hread⟩ := hlater hlive
    exact hread.head hedge hdefines

theorem justified_init (m : Method) (g : Cfg) (v : Var) : Justified m g v (init g (problem m)) := by
  intro n hn
  have hfirst : (problem m).first n = ∅ := by
    rw [Problem.first, Table.getD]
    cases hseed : (problem m).seeds.get? n with
    | none => rfl
    | some seed => exact eq_empty_of_seed hseed
  rw [get_init, hfirst] at hn
  exact absurd hn (VarSet.mem_empty _)

theorem Justified.step (happart : ToldApart m v) {s s' : State VarSet}
    (hsound : Sound g (problem m) s) (h : Justified m g v s)
    (hstep : Dataflow.step g (problem m) s = .next s') : Justified m g v s' := by
  obtain ⟨source, target, queue, hqueue, rfl⟩ := step_eq_next.1 hstep
  have hsource : source ∈ sources g (problem m) target :=
    hsound.queue (source, target) (hqueue ▸ List.mem_cons_self)
  intro n hn
  rw [get_follow] at hn
  split at hn
  · rename_i heq
    subst heq
    -- what is merged comes from a successor or from the boundary, where nothing is live
    obtain ⟨f, hf, hmem⟩ := VarSet.exists_mem_of_isLUB ((joins_problem m).incoming_isLUB hsource) hn
    obtain hseed | ⟨n', hn', rfl⟩ := hf
    · rw [eq_empty_of_seed hseed] at hmem
      exact absurd hmem (VarSet.mem_empty _)
    · exact ⟨n', mem_sources.1 hn', readFirst_of_transfer happart (h n') hmem⟩
  · exact h n hn

/-- Where the equations hold, a variable is live before every node from which it is read first. -/
theorem mem_passed_of_readFirst (happart : ToldApart m v) {s : State VarSet}
    (hsettled : ∀ n, Settled g (problem m) s n) (h : ReadFirst m g v n) :
    (passed (problem m) s n).Mem v.index := by
  obtain ⟨n', hpath, huses⟩ := h
  -- backwards along the path, from the node that reads the variable
  induction hpath using Relation.ReflTransGen.head_induction_on with
  | refl => exact (mem_nodeTransfer happart).2 (.inl huses)
  | @head a b hab _ ih =>
    obtain ⟨hjoins, hdefines⟩ := hab
    have hafter : (s.get (problem m) a).Mem v.index :=
      (hsettled a).passed_le (mem_sources.2 hjoins) v.index ih
    exact (mem_nodeTransfer happart).2 (.inr ⟨hafter, hdefines⟩)

/-- What the solver finds, for a variable that is told apart from the others. -/
theorem contains_iff (hg : g.Closed) (happart : ToldApart m v) {fuel : Nat} {r : Solution VarSet}
    (h : solve fuel m g = some r) (hn : n ∈ g.nodes) :
    ((r.after n).contains v = true ↔ ReadLater m g v n) ∧
      ((r.before n).contains v = true ↔
        Uses m n v ∨ (r.after n).contains v = true ∧ ¬ Defines m n v) := by
  have hjoins := joins_problem m
  obtain ⟨s, ⟨hsound, hcomplete, hjustified⟩, hqueue, rfl⟩ := solve_invariant
    (fun s => Sound g (problem m) s ∧ Complete g (problem m) s ∧ Justified m g v s)
    (fun _ _ ⟨hsound, hcomplete, hjustified⟩ hstep => ⟨hsound.step hstep,
      hcomplete.step hjoins hsound hstep, hjustified.step happart hsound hstep⟩)
    ⟨sound_init g (problem m), complete_init hg hjoins, justified_init m g v⟩ h
  have hsettled := hcomplete.settled hqueue
  have hbackward : (problem m).direction = .backward := rfl
  obtain ⟨hafter, hbefore⟩ := solution_backward hbackward hsound hn
  rw [hafter, hbefore]
  refine ⟨⟨hjustified n, fun ⟨n', hedge, hread⟩ => ?_⟩, mem_nodeTransfer happart⟩
  exact (hsettled n).passed_le (mem_sources.2 hedge) v.index
    (mem_passed_of_readFirst happart hsettled hread)

/-- The variables of a loaded method are told apart. -/
theorem toldApart_of_loaded {p : Program} (hp : p.Loaded) {id : MethodId}
    (hm : p.method? id = some m) (hv : v ∈ m.vars) : ToldApart m v := by
  intro n w hw hindex
  have hmentions : ∃ i s, m.stmt? i = some s ∧ w ∈ s.mentions := by
    obtain ⟨i, s, -, hs, huses⟩ | ⟨i, s, -, hs, hdefines⟩ := hw
    · exact ⟨i, s, hs, List.mem_append_right _ huses⟩
    · exact ⟨i, s, hs, List.mem_append_left _ (Option.mem_toList.2 hdefines)⟩
  obtain ⟨i, s, hs, hw⟩ := hmentions
  have hwvars : w ∈ m.vars := hp.mem_vars_of_mentions hm ((m.stmt?_eq i).symm.trans hs) hw
  exact (hp.complete hm).vars.eq_of_index hwvars hv hindex

/-- **Live variables are exact.** The analysis terminates; a variable is live after a node exactly if
a path from a successor leads to a use of it with no definition before, and it is live before a node
exactly if the node uses it, or it is live after the node, which does not define it. -/
theorem live_exact {p : Program} (hp : p.Loaded) {id : MethodId} (hm : p.method? id = some m)
    (hg : m.cfg = some g) :
    (∃ fuel r, solve fuel m g = some r) ∧
      ∀ fuel r, solve fuel m g = some r → ∀ n ∈ g.nodes, ∀ v ∈ m.vars,
        ((r.after n).contains v = true ↔ ∃ n', g.HasEdge n n' ∧ ReadFirst m g v n') ∧
        ((r.before n).contains v = true ↔
          Uses m n v ∨ (r.after n).contains v = true ∧ ¬ Defines m n v) :=
  ⟨exists_solve m g, fun _ _ h _ hn _ hv =>
    contains_iff (hp.closed hm hg) (toldApart_of_loaded hp hm hv) h hn⟩

/-- In a method with a loop and with a statement that no path leads to. -/
theorem live_exact_branchesDocument : ∃ m g r,
    (Program.described branchesDocument).method? ⟨⟨0, "Branches"⟩, 0⟩ = some m ∧ m.cfg = some g ∧
      solve 100 m g = some r ∧ ∀ n ∈ g.nodes, ∀ v ∈ m.vars,
        ((r.after n).contains v = true ↔ ∃ n', g.HasEdge n n' ∧ ReadFirst m g v n') ∧
        ((r.before n).contains v = true ↔
          Uses m n v ∨ (r.after n).contains v = true ∧ ¬ Defines m n v) := by
  have hrun : (((Program.described branchesDocument).method? ⟨⟨0, "Branches"⟩, 0⟩).bind fun m =>
      m.cfg.map fun g => (solve 100 m g).isSome) = some true := by
    decide +kernel
  obtain ⟨m, hm, hrun⟩ := Option.bind_eq_some_iff.1 hrun
  obtain ⟨g, hg, hsome⟩ := Option.map_eq_some_iff.1 hrun
  obtain ⟨r, hr⟩ := Option.isSome_iff_exists.1 hsome
  have hloaded : (Program.described branchesDocument).Loaded := loaded_described (by decide +kernel)
  exact ⟨m, g, r, hm, hg, hr, (live_exact hloaded hm hg).2 100 r hr⟩

end Liveness

end HeapFlow
