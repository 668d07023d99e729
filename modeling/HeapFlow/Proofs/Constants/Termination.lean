import HeapFlow.Proofs.Constants.JointSolution
import HeapFlow.Proofs.Constants.Monotone
import Mathlib.Data.Fintype.Card
import Mathlib.Data.Fintype.Pi
import Mathlib.Data.Fintype.Prod
/-!
# HeapFlow.Proofs.Constants.Termination

**When constant propagation terminates.** Facts are recomputed and not accumulated, so a step may
lower the fact before or after the point that it computes. While no step does, the facts climb a
finite lattice: a step raises a fact or shortens the queue. So the solver terminates exactly if it
lowers facts only finitely often, and before it lowers one for the first time, a division has taken
back its value.
-/

namespace HeapFlow

/-! ### Finite lattices -/

/-- The height of a value in its lattice. -/
def Value.rank : Value → Fin 3
  | undefined => 0
  | const _ => 1
  | nac => 2

theorem Value.rank_mono {x y : Value} (h : x ≤ y) : x.rank ≤ y.rank := by
  cases x with
  | undefined => exact Fin.zero_le _
  | nac => rw [nac_le_iff.1 h]
  | const n =>
    obtain rfl | rfl := const_le_iff.1 h
    · exact le_rfl
    · exact Fin.le_last _

/-- A value that rises gets another height. -/
theorem Value.eq_of_rank_eq {x y : Value} (h : x ≤ y) (hrank : x.rank = y.rank) : x = y := by
  cases x with
  | undefined =>
    cases y with
    | undefined => rfl
    | const n => cases hrank
    | nac => cases hrank
  | nac => exact (nac_le_iff.1 h).symm
  | const n =>
    obtain rfl | rfl := const_le_iff.1 h
    · rfl
    · cases hrank

namespace Fact

/-- The greatest fact about the first variables. -/
def full (size : Nat) : Fact := (List.range size).foldl (fun f i => f.update i .nac) ∅

theorem get_full (size i : Nat) : (full size).get i = if i < size then .nac else .undefined := by
  induction size with
  | zero => rfl
  | succ size ih =>
    rw [full, List.range_succ, List.foldl_append]
    show (Fact.update (full size) size .nac).get i = _
    rw [get_update, ih]
    split
    · rename_i h
      rw [if_pos (by omega)]
    · rename_i h
      split
      · rw [if_pos (by omega)]
      · rw [if_neg (by omega)]

theorem update_le_full {f : Fact} {i size : Nat} {v : Value} (hi : i < size) (hf : f ≤ full size) :
    f.update i v ≤ full size := by
  refine update_le hf ?_
  rw [get_full, if_pos hi]
  exact Value.le_nac v

/-- A fact about the first variables that rises gets another height at one of them. -/
theorem eq_of_rank_eq {f g : Fact} {size : Nat} (hfg : f ≤ g) (hg : g ≤ full size)
    (hrank : ∀ i < size, (f.get i).rank = (g.get i).rank) : f = g := by
  refine ext_get fun i => ?_
  by_cases hi : i < size
  · exact Value.eq_of_rank_eq (hfg i) (hrank i hi)
  · have hbot : g.get i ≤ .undefined := by
      have hle := hg i
      rw [get_full, if_neg hi] at hle
      exact hle
    rw [Value.le_undefined_iff.1 hbot, Value.le_undefined_iff.1 ((hfg i).trans hbot)]

end Fact

namespace Constants

variable {c : Setting} {s s' : InterState}

/-! ### Steps that lower facts -/

/-- The next step lowers the fact before or after the point that it computes. -/
def Lowers (c : Setting) (s : InterState) : Prop :=
  ∃ pt queue, s.queue.pop? = some (pt, queue) ∧
    ¬ (s.found.factBefore pt ≤ incomingFact c s.found pt ∧
      s.found.factAfter pt ≤ (effect c pt s.found.heap (incomingFact c s.found pt)).after)

/-- The next step computes a division that takes its value back. -/
def Retracts (c : Setting) (s : InterState) : Prop :=
  ∃ pt queue, s.queue.pop? = some (pt, queue) ∧
    RetractsAt c pt (s.found.factBefore pt) (incomingFact c s.found pt)

/-- The state after some steps of a run. -/
def stateAfter (c : Setting) (n : Nat) : Option InterState :=
  Step.stateAfter (interStep c) (interInit c) n

/-- No fact is above what its equation now gives. -/
structure Rising (c : Setting) (s : InterState) : Prop where
  before : ∀ pt, s.found.factBefore pt ≤ incomingFact c s.found pt
  after : ∀ pt, s.found.factAfter pt ≤
    (effect c pt s.found.heap (s.found.factBefore pt)).after

theorem factBefore_interInit (c : Setting) (pt : Point) : (interInit c).found.factBefore pt = ∅ :=
  Table.getD_empty pt ∅

theorem factAfter_interInit (c : Setting) (pt : Point) : (interInit c).found.factAfter pt = ∅ :=
  Table.getD_empty pt ∅

theorem rising_interInit (c : Setting) : Rising c (interInit c) := by
  refine ⟨fun pt => ?_, fun pt => ?_⟩
  · rw [factBefore_interInit]
    exact bot_le
  · rw [factAfter_interInit]
    exact bot_le

/-- What flows into a point rises with the facts after all points. -/
theorem incomingFact_mono {r r' : Inter} (h : ∀ n, r.factAfter n ≤ r'.factAfter n) (pt : Point) :
    incomingFact c r pt ≤ incomingFact c r' pt := by
  obtain ⟨hboundary, hedges⟩ := incomingFact_le_iff.1 (le_refl (incomingFact c r' pt))
  refine incomingFact_le_iff.2 ⟨hboundary, fun e he htarget => ?_⟩
  exact (along_mono e (h e.source)).trans (hedges e he htarget)

/-- Where facts are rising, the new fact after a point is above the old one unless the point
retracts. -/
theorem Rising.after_le {pt : Point} (h : Rising c s)
    (hno : ¬ RetractsAt c pt (s.found.factBefore pt) (incomingFact c s.found pt)) :
    s.found.factAfter pt ≤ (effect c pt s.found.heap (incomingFact c s.found pt)).after :=
  (h.after pt).trans (after_mono le_rfl (h.before pt) hno)

/-- **The first step that lowers a fact retracts a value.** -/
theorem Rising.retracts_of_lowers (h : Rising c s) (hlowers : Lowers c s) : Retracts c s := by
  obtain ⟨pt, queue, hpop, hlowers⟩ := hlowers
  by_contra hno
  refine hlowers ⟨h.before pt, h.after_le fun hretracts => ?_⟩
  exact hno ⟨pt, queue, hpop, hretracts⟩

/-- Computing a point that does not retract keeps the facts rising. -/
theorem Rising.compute (h : Rising c s) {pt : Point} (queue : Worklist Point)
    (hno : ¬ RetractsAt c pt (s.found.factBefore pt) (incomingFact c s.found pt)) :
    Rising c (compute c s.found queue pt) := by
  -- the point computed gets its new fact, all other points keep theirs
  have hrise (n : Point) :
      s.found.factAfter n ≤ (Constants.compute c s.found queue pt).found.factAfter n := by
    rw [factAfter_compute]
    split
    · rename_i heq
      subst heq
      exact h.after_le hno
    · exact le_rfl
  refine ⟨fun n => ?_, fun n => ?_⟩
  · have hincoming : incomingFact c s.found n ≤
        incomingFact c (Constants.compute c s.found queue pt).found n := incomingFact_mono hrise n
    rw [factBefore_compute]
    split
    · rename_i heq
      subst heq
      exact hincoming
    · exact (h.before n).trans hincoming
  · rw [factAfter_compute, factBefore_compute, heap_compute]
    split
    · rename_i heq
      subst heq
      rw [after_effect_heap]
    · -- the heap may have risen under a load
      exact (h.after n).trans
        (after_mono (le_effect_heap c pt s.found.heap _) le_rfl (not_retractsAt_self _))

/-- A step that does not retract keeps the facts rising. -/
theorem Rising.step (h : Rising c s) (hno : ¬ Retracts c s) (hstep : interStep c s = .next s') :
    Rising c s' := by
  obtain ⟨pt, queue, hpop, rfl⟩ := interStep_eq_next.1 hstep
  exact h.compute queue fun hretracts => hno ⟨pt, queue, hpop, hretracts⟩

/-- Facts rise as long as no step has retracted a value. -/
theorem rising_stateAfter {n : Nat} (h : stateAfter c n = some s)
    (hno : ∀ j < n, ∀ t, stateAfter c j = some t → ¬ Retracts c t) : Rising c s := by
  induction n generalizing s with
  | zero =>
    cases h
    exact rising_interInit c
  | succ n ih =>
    obtain ⟨t, ht, hnext⟩ := Step.stateAfter_succ_eq_some.1 h
    have hrising : Rising c t := ih ht fun j hj => hno j (Nat.lt_succ_of_lt hj)
    exact hrising.step (hno n (Nat.lt_succ_self n) t ht) hnext

/-- A step that lowers a fact comes after a step that retracts a value, or is that step. -/
theorem exists_retracts_of_lowers {n : Nat} (h : stateAfter c n = some s) (hlowers : Lowers c s) :
    ∃ j ≤ n, ∃ t, stateAfter c j = some t ∧ Retracts c t := by
  by_contra hno
  have hbefore : ∀ j < n, ∀ t, stateAfter c j = some t → ¬ Retracts c t :=
    fun j hj t ht hretracts => hno ⟨j, Nat.le_of_lt hj, t, ht, hretracts⟩
  have hretracts := (rising_stateAfter h hbefore).retracts_of_lowers hlowers
  exact hno ⟨n, le_rfl, s, h, hretracts⟩

/-! ### The variables and points of a run -/

/-- What holds of each element of a list from some size on holds of all of them from some size on. -/
theorem exists_size {α : Type} {P : α → Nat → Prop} (xs : List α)
    (h : ∀ x ∈ xs, ∃ n, ∀ size, n ≤ size → P x size) :
    ∃ n, ∀ size, n ≤ size → ∀ x ∈ xs, P x size := by
  induction xs with
  | nil => exact ⟨0, fun size _ x hx => absurd hx List.not_mem_nil⟩
  | cons x xs ih =>
    obtain ⟨m, hm⟩ := h x List.mem_cons_self
    obtain ⟨n, hn⟩ := ih fun y hy => h y (List.mem_cons_of_mem x hy)
    refine ⟨max m n, fun size hsize => List.forall_mem_cons.2 ⟨?_, ?_⟩⟩
    · exact hm size ((Nat.le_max_left m n).trans hsize)
    · exact hn size ((Nat.le_max_right m n).trans hsize)

/-- The points that can wait: those at which the run starts and the ends of edges. -/
def points (c : Setting) : List Point :=
  (boundary c).map Prod.fst ++ c.icfg.nodes ++ c.icfg.edges.flatMap fun e => [e.source, e.target]

/-- No fact of a run is about other variables than the first ones. -/
structure Spans (c : Setting) (size : Nat) : Prop where
  boundary : ∀ b ∈ boundary c, b.2 ≤ Fact.full size
  along : ∀ e ∈ c.icfg.edges, ∀ f ≤ Fact.full size, along c e f ≤ Fact.full size
  effect : ∀ pt ∈ points c, ∀ h, ∀ f ≤ Fact.full size, (effect c pt h f).after ≤ Fact.full size

/-- Updates of the first variables give a fact about them. -/
theorem foldl_update_le_full {α : Type} {xs : List α} (index : α → Nat) (value : α → Value)
    (test : α → Bool) {size : Nat} {f : Fact} (hindex : ∀ x ∈ xs, index x < size)
    (hf : f ≤ Fact.full size) :
    xs.foldl (fun out x => if test x then out.update (index x) (value x) else out) f ≤
      Fact.full size := by
  induction xs generalizing f with
  | nil => exact hf
  | cons x xs ih =>
    obtain ⟨hx, hrest⟩ := List.forall_mem_cons.1 hindex
    rw [List.foldl_cons]
    refine ih hrest ?_
    split
    · exact Fact.update_le_full hx hf
    · exact hf

/-- A size above the indexes of some variables. -/
theorem exists_index_lt (vars : List Var) :
    ∃ n, ∀ size, n ≤ size → ∀ v ∈ vars, v.index < size :=
  exists_size vars fun v _ => ⟨v.index + 1, fun _ hsize => hsize⟩

theorem exists_size_entryFact (m : Method) :
    ∃ n, ∀ size, n ≤ size → entryFact m ≤ Fact.full size := by
  obtain ⟨n, hn⟩ := exists_index_lt (intParams m)
  refine ⟨n, fun size hsize => ?_⟩
  exact foldl_update_le_full Var.index (fun _ => .nac) (fun _ => true) (hn size hsize) bot_le

/-- Arguments become facts about the parameters of the callee only. -/
theorem exists_size_intoCallee (c : Setting) (pt : Point) (callee : MethodId) :
    ∃ n, ∀ size, n ≤ size → ∀ f, intoCallee c pt callee f ≤ Fact.full size := by
  cases hm : c.program.method? callee with
  | none =>
    refine ⟨0, fun size _ f => ?_⟩
    unfold intoCallee
    rw [hm]
    split
    · rename_i heq
      cases heq
    · exact bot_le
  | some m =>
    obtain ⟨n, hn⟩ := exists_index_lt m.params
    refine ⟨n, fun size hsize f => ?_⟩
    unfold intoCallee
    rw [hm]
    split
    · rename_i heq
      cases heq
      split
      · refine foldl_update_le_full _ _ _ (fun x hx => ?_) bot_le
        exact hn size hsize x.2 (List.of_mem_zip hx).2
      · exact bot_le
    · exact bot_le

theorem exists_size_along (c : Setting) (e : Icfg.Edge) :
    ∃ n, ∀ size, n ≤ size → ∀ f ≤ Fact.full size, along c e f ≤ Fact.full size := by
  unfold along
  split
  · exact ⟨0, fun size _ f hf => hf⟩
  · unfold pastCall
    split
    · rename_i r _
      exact ⟨r.index + 1, fun size hsize f hf => Fact.update_le_full hsize hf⟩
    · exact ⟨0, fun size _ f hf => hf⟩
  · rename_i callee _
    obtain ⟨n, hn⟩ := exists_size_intoCallee c e.source callee
    exact ⟨n, fun size hsize f _ => hn size hsize f⟩
  · unfold outOfCallee
    split
    · rename_i r m _ _
      -- a fact of this size has room for the variable that takes the result
      exact ⟨r.index + 1, fun size hsize f _ => Fact.update_le_full hsize bot_le⟩
    · exact ⟨0, fun size _ f _ => bot_le⟩

theorem exists_size_effect (c : Setting) (pt : Point) : ∃ n, ∀ size, n ≤ size →
    ∀ h, ∀ f ≤ Fact.full size, (effect c pt h f).after ≤ Fact.full size := by
  obtain ⟨lhs, place, hload⟩ | ⟨lhs, e, -, -, hafter⟩ | hafter := after_cases c pt
  · refine ⟨lhs.index + 1, fun size hsize h f hf => ?_⟩
    rw [after_of_loadsInt hload]
    exact Fact.update_le_full hsize hf
  · refine ⟨lhs.index + 1, fun size hsize h f hf => ?_⟩
    rw [hafter]
    exact Fact.update_le_full hsize hf
  · refine ⟨0, fun size _ h f hf => ?_⟩
    rw [hafter]
    exact hf

/-- The variables of a run are finitely many. -/
theorem exists_spans (c : Setting) : ∃ size, Spans c size := by
  obtain ⟨l, hl⟩ := exists_size (boundary c) (P := fun b size => b.2 ≤ Fact.full size) <| by
    intro b hb
    obtain ⟨id, -, hid⟩ := List.mem_filterMap.1 hb
    split at hid
    · rename_i m hm
      split at hid
      · cases hid
        exact exists_size_entryFact m
      · cases hid
    · cases hid
  obtain ⟨m, hm⟩ := exists_size c.icfg.edges fun e _ => exists_size_along c e
  obtain ⟨n, hn⟩ := exists_size (points c) fun pt _ => exists_size_effect c pt
  refine ⟨max l (max m n), ?_, ?_, ?_⟩
  · exact hl _ (Nat.le_max_left ..)
  · exact hm _ ((Nat.le_max_left m n).trans (Nat.le_max_right ..))
  · exact hn _ ((Nat.le_max_right m n).trans (Nat.le_max_right ..))

/-! ### Climbing -/

/-- What holds of every state of a run: facts are about the first variables, what waits can wait,
and what a point stores under the fact before it is in the heap. -/
structure Bounded (c : Setting) (size : Nat) (s : InterState) : Prop where
  queue : ∀ pt ∈ s.queue.toList, pt ∈ points c
  before : ∀ pt, s.found.factBefore pt ≤ Fact.full size
  after : ∀ pt, s.found.factAfter pt ≤ Fact.full size
  stored : ∀ pt, ∀ slot ∈ writtenSlots c pt (s.found.factBefore pt),
    writtenValue c pt (s.found.factBefore pt) ≤ s.found.heap.get slot

section Climbing

variable {size : Nat}

theorem bounded_interInit (c : Setting) (size : Nat) : Bounded c size (interInit c) := by
  refine ⟨fun pt hpt => ?_, fun pt => ?_, fun pt => ?_, fun pt slot _ => ?_⟩
  · obtain hempty | hpt := Worklist.mem_pushAll.1 hpt
    · cases hempty
    refine List.mem_append_left _ (List.mem_append.2 ?_)
    exact (List.mem_append.1 hpt).imp List.mem_reverse.1 id
  · rw [factBefore_interInit]
    exact bot_le
  · rw [factAfter_interInit]
    exact bot_le
  · rw [factBefore_interInit]
    unfold writtenValue
    split <;> exact bot_le

/-- What flows into a point is about the first variables. -/
theorem Bounded.incomingFact (hspans : Spans c size) (h : Bounded c size s) (pt : Point) :
    incomingFact c s.found pt ≤ Fact.full size :=
  incomingFact_le_iff.2 ⟨fun _ hf => hspans.boundary _ hf,
    fun e he _ => hspans.along e he _ (h.after e.source)⟩

theorem mem_points_of_mem_succs {pt n : Point} (hn : n ∈ (c.icfg.succs pt).toList) :
    n ∈ points c := by
  obtain ⟨e, he, rfl⟩ := List.mem_map.1 (OrderedSet.mem_ofList.1 hn)
  rw [Icfg.outEdges_eq] at he
  have hedge : e ∈ c.icfg.edges := (List.mem_filter.1 he).1
  exact List.mem_append_right _ (List.mem_flatMap.2 ⟨e, hedge, by simp⟩)

theorem mem_points_of_hasNode {n : Point} (hn : c.icfg.hasNode n = true) : n ∈ points c := by
  obtain ⟨e, he, hends⟩ := Icfg.hasNode_eq_true_iff.1 hn
  refine List.mem_append_right _ (List.mem_flatMap.2 ⟨e, he, ?_⟩)
  obtain rfl | rfl := hends <;> simp

/-- Computing a point that waits keeps this, whichever point it is. -/
theorem Bounded.compute (hspans : Spans c size) (h : Bounded c size s) {pt : Point}
    {queue : Worklist Point} (htakes : Takes s pt queue) :
    Bounded c size (compute c s.found queue pt) := by
  have hincoming := h.incomingFact hspans pt
  have hpt : pt ∈ points c := h.queue pt (htakes.mem_iff.2 (Or.inl rfl))
  refine ⟨fun n hn => ?_, fun n => ?_, fun n => ?_, fun n slot hslot => ?_⟩
  -- what is queued waited before, follows on an edge or is a reader in the graph
  · obtain hold | ⟨-, hsucc⟩ | ⟨-, hnode⟩ := mem_queue_compute.1 hn
    · exact h.queue n (htakes.mem_iff.2 (Or.inr hold))
    · exact mem_points_of_mem_succs hsucc
    · exact mem_points_of_hasNode hnode
  · rw [factBefore_compute]
    split
    · exact hincoming
    · exact h.before n
  · rw [factAfter_compute]
    split
    · exact hspans.effect pt hpt _ _ hincoming
    · exact h.after n
  · rw [factBefore_compute] at hslot ⊢
    rw [heap_compute]
    split at hslot
    · rename_i heq
      subst heq
      rw [if_pos rfl]
      exact writtenValue_le hslot
    · rename_i hne
      rw [if_neg hne]
      exact (h.stored n slot hslot).trans (le_effect_heap c pt s.found.heap _ slot)

theorem Bounded.step (hspans : Spans c size) (h : Bounded c size s)
    (hstep : interStep c s = .next s') : Bounded c size s' := by
  obtain ⟨pt, queue, hpop, rfl⟩ := interStep_eq_next.1 hstep
  exact h.compute hspans (.of_pop? hpop)

/-- The heights of all values in the facts of a state. -/
def heights (c : Setting) (size : Nat) (s : InterState) :
    {pt // pt ∈ points c} × Fin size → Fin 3 × Fin 3 :=
  fun x => (((s.found.factBefore x.1).get x.2).rank, ((s.found.factAfter x.1).get x.2).rank)

/-- Where the facts of the computed point rise, so do the heights. -/
theorem heights_le_compute {pt : Point} {queue : Worklist Point}
    (hbefore : s.found.factBefore pt ≤ incomingFact c s.found pt)
    (hafter : s.found.factAfter pt ≤
      (effect c pt s.found.heap (incomingFact c s.found pt)).after) :
    heights c size s ≤ heights c size (compute c s.found queue pt) := by
  intro ⟨⟨n, hn⟩, i⟩
  refine ⟨Value.rank_mono ?_, Value.rank_mono ?_⟩
  · rw [factBefore_compute]
    split
    · rename_i heq
      subst heq
      exact hbefore i
    · exact le_rfl
  · rw [factAfter_compute]
    split
    · rename_i heq
      subst heq
      exact hafter i
    · exact le_rfl

/-- Computing a point whose facts stay the same leaves nothing to do but what waited before. -/
theorem queue_compute_of_same {pt : Point} {queue : Worklist Point} (h : Bounded c size s)
    (hbefore : s.found.factBefore pt = incomingFact c s.found pt)
    (hafter : s.found.factAfter pt =
      (effect c pt s.found.heap (incomingFact c s.found pt)).after) :
    (compute c s.found queue pt).queue = queue := by
  have hstored := h.stored pt
  rw [hbefore] at hstored
  have hawake := (effect_of_stored hstored).2
  rw [queue_compute, if_neg (fun hchanged => hchanged hafter.symm), hawake]
  rfl

/-- **Computing a point whose facts do not fall raises one of them or shortens the queue.** -/
theorem Bounded.climbs (hspans : Spans c size) (h : Bounded c size s) {pt : Point}
    {queue : Worklist Point} (htakes : Takes s pt queue)
    (hbefore : s.found.factBefore pt ≤ Constants.incomingFact c s.found pt)
    (hafter : s.found.factAfter pt ≤
      (effect c pt s.found.heap (Constants.incomingFact c s.found pt)).after) :
    Prod.Lex (· > ·) (· < ·)
      (heights c size (Constants.compute c s.found queue pt),
        (Constants.compute c s.found queue pt).queue.toList.length)
      (heights c size s, s.queue.toList.length) := by
  have hpt : pt ∈ points c := h.queue pt (htakes.mem_iff.2 (Or.inl rfl))
  have hincoming := h.incomingFact hspans pt
  have hle : heights c size s ≤ heights c size (Constants.compute c s.found queue pt) :=
    heights_le_compute hbefore hafter
  by_cases heq : heights c size s = heights c size (Constants.compute c s.found queue pt)
  · -- no height changed, so the facts of the point are what they were
    have hrank (i : Fin size) := congrFun heq (⟨pt, hpt⟩, i)
    have hsame : s.found.factBefore pt = Constants.incomingFact c s.found pt := by
      refine Fact.eq_of_rank_eq hbefore hincoming fun i hi => ?_
      have hi := congrArg Prod.fst (hrank ⟨i, hi⟩)
      simp only [heights, factBefore_compute, if_pos] at hi
      exact hi
    have hsame' : s.found.factAfter pt =
        (effect c pt s.found.heap (Constants.incomingFact c s.found pt)).after := by
      refine Fact.eq_of_rank_eq hafter (hspans.effect pt hpt _ _ hincoming) fun i hi => ?_
      have hi := congrArg Prod.snd (hrank ⟨i, hi⟩)
      simp only [heights, factAfter_compute, if_pos] at hi
      exact hi
    rw [← heq, queue_compute_of_same h hsame hsame', List.Perm.length_eq htakes]
    exact Prod.Lex.right _ (Nat.lt_succ_self _)
  · exact Prod.Lex.left _ _ (lt_of_le_of_ne hle heq)

/-- A step that lowers no fact raises one or shortens the queue. -/
theorem Bounded.climbs_step (hspans : Spans c size) (h : Bounded c size s) (hno : ¬ Lowers c s)
    (hstep : interStep c s = .next s') :
    Prod.Lex (· > ·) (· < ·) (heights c size s', s'.queue.toList.length)
      (heights c size s, s.queue.toList.length) := by
  obtain ⟨pt, queue, hpop, rfl⟩ := interStep_eq_next.1 hstep
  obtain ⟨hbefore, hafter⟩ : s.found.factBefore pt ≤ Constants.incomingFact c s.found pt ∧
      s.found.factAfter pt ≤
        (effect c pt s.found.heap (Constants.incomingFact c s.found pt)).after := by
    by_contra hnot
    exact hno ⟨pt, queue, hpop, hnot⟩
  exact h.climbs hspans (.of_pop? hpop) hbefore hafter

end Climbing

/-! ### Termination -/

/-- The measure that climbing decreases: heights may only rise so often, and while they stay the same
the queue gets shorter. -/
theorem wellFounded_climbs (c : Setting) (size : Nat) :
    WellFounded (Prod.Lex (fun x y => x > y) (fun x y => x < y) :
      ({pt // pt ∈ points c} × Fin size → Fin 3 × Fin 3) × Nat → _ → Prop) :=
  WellFounded.prod_lex wellFounded_gt wellFounded_lt

/-- If no step lowers a fact from some step on, constant propagation terminates. -/
theorem exists_inter_of_not_lowers {n : Nat}
    (hno : ∀ k, n ≤ k → ∀ t, stateAfter c k = some t → ¬ Lowers c t) :
    ∃ fuel r, inter c fuel = some r := by
  obtain ⟨size, hspans⟩ := exists_spans c
  refine (Step.exists_run_iff_finitely_many (wellFounded_climbs c size)
    (fun s => (heights c size s, s.queue.toList.length)) (Bounded c size) (Lowers c)
    (fun _ _ => Bounded.step hspans) ?_ (bounded_interInit c size)).2 ⟨n, hno⟩
  intro t t' hbounded hrises hstep
  exact hbounded.climbs_step hspans hrises hstep

/-- If no step retracts a value, constant propagation terminates. -/
theorem exists_inter_of_not_retracts
    (hno : ∀ n t, stateAfter c n = some t → ¬ Retracts c t) : ∃ fuel r, inter c fuel = some r := by
  refine exists_inter_of_not_lowers (n := 0) fun k _ t ht hlowers => ?_
  obtain ⟨j, -, u, hu, hretracts⟩ := exists_retracts_of_lowers ht hlowers
  exact hno j u hu hretracts

/-- Constant propagation terminates for programs that neither divide nor take remainders. -/
theorem exists_inter_of_neverDivides (hno : NeverDivides c) : ∃ fuel r, inter c fuel = some r := by
  refine exists_inter_of_not_retracts fun n t _ hretracts => ?_
  obtain ⟨pt, queue, -, hretracts⟩ := hretracts
  exact hno.not_retractsAt _ _ _ hretracts

/-- **Constant propagation terminates exactly if it lowers facts only finitely often,** and it lowers
none before a division has taken its value back. -/
theorem inter_terminates_iff (c : Setting) :
    ((∃ fuel r, inter c fuel = some r) ↔
      ∃ n, ∀ k, n ≤ k → ∀ s, stateAfter c k = some s → ¬ Lowers c s) ∧
    ∀ n s, stateAfter c n = some s → Lowers c s →
      ∃ k ≤ n, ∃ t, stateAfter c k = some t ∧ Retracts c t := by
  refine ⟨⟨?_, ?_⟩, fun n s => exists_retracts_of_lowers⟩
  · intro ⟨fuel, r, hr⟩
    refine ⟨fuel, fun k hk s hs => ?_⟩
    -- the run has halted before
    have hhalted : stateAfter c k = none := by
      refine Step.run_isSome_iff.1 (Option.isSome_iff_exists.2 ⟨r, ?_⟩)
      exact Step.run_mono hk hr
    rw [hhalted] at hs
    cases hs
  · intro ⟨n, hno⟩
    exact exists_inter_of_not_lowers hno

end Constants

end HeapFlow
