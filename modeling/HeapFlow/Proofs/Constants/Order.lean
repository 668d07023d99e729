import HeapFlow.Constants.Fact
import HeapFlow.Constants.HeapStore
import Mathlib.Order.Bounds.Basic
import Mathlib.Order.Lattice
/-!
# HeapFlow.Proofs.Constants.Order

**Values, facts and heaps are ordered by how much they admit.** Nothing is below every constant, and
every constant below "not a constant". `Value.meet` and `Fact.meet` are the suprema of this order,
so the fact that flows into a point and the value that a load sees are least upper bounds. Each fold
of the solvers is described by the one lemma that says when its result is below something.
-/

namespace HeapFlow

/-! ### Values -/

namespace Value

theorem meet_comm (x y : Value) : x.meet y = y.meet x := by
  cases x <;> cases y <;> simp only [meet]
  rename_i m n
  by_cases h : m = n
  · rw [h]
  · rw [if_neg h, if_neg (Ne.symm h)]

theorem undefined_meet (x : Value) : undefined.meet x = x := by
  cases x <;> rfl

theorem meet_self (x : Value) : x.meet x = x := by
  cases x <;> simp [meet]

theorem meet_assoc (x y z : Value) : (x.meet y).meet z = x.meet (y.meet z) := by
  cases x with
  | undefined => rw [undefined_meet, undefined_meet]
  | nac => cases y <;> cases z <;> simp [meet]
  | const l =>
    cases y with
    | undefined => cases z <;> simp [meet]
    | nac => cases z <;> simp [meet]
    | const m =>
      cases z with
      | undefined => by_cases h : l = m <;> simp [meet, h]
      | nac => by_cases h : l = m <;> simp [meet, h]
      | const n =>
        by_cases h : l = m
        · subst h
          by_cases hn : l = n <;> simp [meet, hn]
        · by_cases hn : m = n
          · subst hn
            simp [meet, h]
          · simp [meet, hn, h]

instance : Max Value := ⟨meet⟩

instance : SemilatticeSup Value := SemilatticeSup.mk' meet_comm meet_assoc meet_self

instance : OrderBot Value where
  bot := undefined
  bot_le := undefined_meet

theorem meet_eq_sup (x y : Value) : x.meet y = x ⊔ y := rfl

theorem le_iff_meet_eq {x y : Value} : x ≤ y ↔ x.meet y = y := Iff.rfl

theorem le_nac (x : Value) : x ≤ nac := by
  rw [le_iff_meet_eq]
  cases x <;> rfl

/-- The values above a constant. -/
theorem const_le_iff {n : Int32} {x : Value} : const n ≤ x ↔ x = const n ∨ x = nac := by
  rw [le_iff_meet_eq]
  cases x with
  | undefined => simp [meet]
  | nac => simp [meet]
  | const m =>
    by_cases h : n = m
    · simp [meet, h]
    · simp [meet, h, Ne.symm h]

theorem nac_le_iff {x : Value} : nac ≤ x ↔ x = nac := by
  rw [le_iff_meet_eq]
  cases x <;> simp [meet]

/-- The values below a constant. -/
theorem le_const_iff {n : Int32} {x : Value} : x ≤ const n ↔ x = undefined ∨ x = const n := by
  cases x with
  | undefined => exact iff_of_true bot_le (.inl rfl)
  | nac => simp [nac_le_iff]
  | const m =>
    rw [const_le_iff]
    simp [eq_comm]

theorem le_undefined_iff {x : Value} : x ≤ undefined ↔ x = undefined := le_bot_iff

/-- The meet of a list is below what its elements are below. -/
theorem meetAll_le_iff {vs : List Value} {x : Value} : meetAll vs ≤ x ↔ ∀ v ∈ vs, v ≤ x := by
  have hfold (start : Value) :
      vs.foldl meet start ≤ x ↔ start ≤ x ∧ ∀ v ∈ vs, v ≤ x := by
    induction vs generalizing start with
    | nil => simp
    | cons v vs ih =>
      rw [List.foldl_cons, ih, meet_eq_sup, sup_le_iff, List.forall_mem_cons, and_assoc]
  rw [meetAll, hfold]
  exact and_iff_right bot_le

/-- The meet of a list rises with its elements. -/
theorem meetAll_map_mono {α : Type} {xs : List α} {v w : α → Value} (h : ∀ x ∈ xs, v x ≤ w x) :
    meetAll (xs.map v) ≤ meetAll (xs.map w) := by
  rw [meetAll_le_iff, List.forall_mem_map]
  intro x hx
  exact (h x hx).trans (meetAll_le_iff.1 le_rfl (w x) (List.mem_map_of_mem hx))

end Value

/-! ### Facts -/

namespace Fact

/-- One fact is below another if it is so for each variable. -/
instance : LE Fact := ⟨fun f g => ∀ i, f.get i ≤ g.get i⟩

/-- Meeting with some bindings one after the other, each of a variable of its own. -/
theorem get_foldl_meet {es : List (Nat × Value)} (hes : es.Pairwise (fun a b => a.1 < b.1))
    (f : Fact) (i : Nat) :
    (es.foldl (fun f e => f.update e.1 ((f.get e.1).meet e.2)) f).get i =
      (f.get i).meet ((IndexMap.find? i es).getD .undefined) := by
  induction es generalizing f with
  | nil =>
    have hbot : f.get i ⊔ ⊥ = f.get i := sup_bot_eq _
    exact hbot.symm
  | cons e es ih =>
    obtain ⟨j, v⟩ := e
    obtain ⟨hlt, hrest⟩ := List.pairwise_cons.1 hes
    rw [List.foldl_cons, ih hrest, get_update, IndexMap.find?]
    by_cases hij : j = i
    · have hnone : IndexMap.find? i es = none :=
        IndexMap.find?_eq_none_of_lt es fun e he => hij ▸ hlt e he
      subst hij
      rw [if_pos rfl, if_pos rfl, hnone]
      exact sup_bot_eq _
    · rw [if_neg hij, if_neg hij]

/-- The meet of two facts is taken variable by variable. -/
@[simp] theorem get_meet (f g : Fact) (i : Nat) : (f.meet g).get i = (f.get i).meet (g.get i) :=
  get_foldl_meet g.bindings.ordered f i

instance : Max Fact := ⟨meet⟩

instance : SemilatticeSup Fact where
  le_refl f i := le_refl (f.get i)
  le_trans f g h hfg hgh i := (hfg i).trans (hgh i)
  le_antisymm f g hfg hgf := ext_get fun i => le_antisymm (hfg i) (hgf i)
  sup := meet
  le_sup_left f g i := by
    rw [get_meet]
    exact le_sup_left
  le_sup_right f g i := by
    rw [get_meet]
    exact le_sup_right
  sup_le f g h hfh hgh i := by
    rw [get_meet]
    exact sup_le (hfh i) (hgh i)

instance : OrderBot Fact where
  bot := ∅
  bot_le f i := by
    rw [get_empty]
    exact bot_le

theorem meet_eq_sup (f g : Fact) : f.meet g = f ⊔ g := rfl

theorem update_mono {f g : Fact} {v w : Value} (i : Nat) (h : f ≤ g) (hvw : v ≤ w) :
    f.update i v ≤ g.update i w := by
  intro j
  rw [get_update, get_update]
  split
  · exact hvw
  · exact h j

/-- An update with a value that a fact admits stays below the fact. -/
theorem update_le {f g : Fact} {i : Nat} {v : Value} (h : f ≤ g) (hv : v ≤ g.get i) :
    f.update i v ≤ g := by
  intro j
  rw [get_update]
  split
  · rename_i heq
    exact heq ▸ hv
  · exact h j

/-- What the meet of a start with some facts is below. -/
theorem foldl_meet_le_iff {α : Type} (fact : α → Fact) {xs : List α} {start g : Fact} :
    xs.foldl (fun f x => f.meet (fact x)) start ≤ g ↔ start ≤ g ∧ ∀ x ∈ xs, fact x ≤ g := by
  induction xs generalizing start with
  | nil => simp
  | cons x xs ih =>
    rw [List.foldl_cons, ih, meet_eq_sup, sup_le_iff, List.forall_mem_cons, and_assoc]

end Fact

/-! ### Heaps -/

namespace HeapStore

/-- One heap is below another if it is so for each slot. The order in which slots were first written
does not count, so heaps that are below each other may differ. -/
instance : Preorder HeapStore where
  le h k := ∀ slot, h.get slot ≤ k.get slot
  le_refl h slot := le_refl (h.get slot)
  le_trans h k l hhk hkl slot := (hhk slot).trans (hkl slot)

/-- A value that the slot admits already changes nothing. -/
theorem meet_of_le {h : HeapStore} {slot : Slot} {v : Value} (hv : v ≤ h.get slot) :
    h.meet slot v = (false, h) := by
  have heq : (h.get slot).meet v = h.get slot := sup_eq_left.2 hv
  rw [meet]
  simp only [heq, if_true]

/-- Storing a value raises its slot and no other. -/
theorem get_meet (h : HeapStore) (slot other : Slot) (v : Value) :
    (h.meet slot v).2.get other = if slot = other then (h.get other).meet v else h.get other := by
  by_cases hv : v ≤ h.get slot
  · rw [meet_of_le hv]
    split
    · rename_i heq
      subst heq
      exact (sup_eq_left.2 hv).symm
    · rfl
  · have hne : (h.get slot).meet v ≠ h.get slot := fun heq => hv (sup_eq_left.1 heq)
    rw [meet]
    simp only [if_neg hne]
    rw [get, get, Table.getD_set]
    split
    · rename_i heq
      rw [heq]
      rfl
    · rfl

/-- Storing tells of a change exactly if the slot did not admit the value. -/
theorem meet_fst (h : HeapStore) (slot : Slot) (v : Value) :
    (h.meet slot v).1 = true ↔ ¬ v ≤ h.get slot := by
  by_cases hv : v ≤ h.get slot
  · simp [meet_of_le hv, hv]
  · have hne : (h.get slot).meet v ≠ h.get slot := fun heq => hv (sup_eq_left.1 heq)
    rw [meet]
    simp [hne, hv]

/-- The slots that a read of an array at an index sees. -/
def elementSlots (array : Obj) : Value → Set Slot
  | .undefined => ∅
  | .const n => {.element array (.const n), .element array .nac}
  | .nac => {slot | ∃ index, slot = .element array index}

/-- What a read of an array sees is below what its slots are below. -/
theorem readArray_le_iff {h : HeapStore} {array : Obj} {index v : Value} :
    h.readArray array index ≤ v ↔ ∀ slot ∈ elementSlots array index, h.get slot ≤ v := by
  cases index with
  | undefined => exact iff_of_true bot_le fun slot hslot => absurd hslot (Set.notMem_empty slot)
  | const n =>
    rw [readArray, Value.meet_eq_sup, sup_le_iff]
    simp [elementSlots]
  | nac =>
    rw [readArray, Value.meetAll_le_iff]
    simp only [elementSlots, Set.mem_ofPred_eq, forall_exists_index, forall_eq_apply_imp_iff]
    constructor
    · intro hall index
      rw [get, Table.getD]
      -- a slot that was never written has the least value
      cases hget : h.slots.get? (.element array index) with
      | none => exact bot_le
      | some w =>
        refine hall w (List.mem_map.2 ⟨(.element array index, w), ?_, rfl⟩)
        exact List.mem_filter.2 ⟨Table.mem_entries.2 hget, decide_eq_true rfl⟩
    · intro hall w hw
      obtain ⟨⟨slot, w'⟩, hmem, rfl⟩ := List.mem_map.1 hw
      obtain ⟨hentry, htest⟩ := List.mem_filter.1 hmem
      have hget : h.slots.get? slot = some w' := Table.mem_entries.1 hentry
      cases slot with
      | field base f => cases htest
      | static f => cases htest
      | element o index =>
        obtain rfl : o = array := of_decide_eq_true htest
        have hle : h.get (.element o index) ≤ v := hall index
        rw [get, Table.getD, hget] at hle
        exact hle

/-- A read at an index of which less is known sees more slots. -/
theorem elementSlots_mono {array : Obj} {i j : Value} (h : i ≤ j) :
    elementSlots array i ⊆ elementSlots array j := by
  cases i with
  | undefined => exact Set.empty_subset _
  | nac =>
    rw [Value.nac_le_iff.1 h]
  | const n =>
    obtain rfl | rfl := Value.const_le_iff.1 h
    · exact Set.Subset.rfl
    · intro slot hslot
      obtain rfl | rfl := hslot
      · exact ⟨_, rfl⟩
      · exact ⟨_, rfl⟩

end HeapStore

end HeapFlow
