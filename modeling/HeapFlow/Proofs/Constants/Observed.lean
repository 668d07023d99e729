import HeapFlow.Proofs.Constants.Monotone
/-!
# HeapFlow.Proofs.Constants.Observed

**What loads observe of the heap.** Slots alone do not tell which heaps are better: an index that was
constant leaves a slot behind when it ceases to be, and where its store goes to the slot of the unknown
index. A load cannot tell, since a read at a constant sees the slot of the unknown index too. So heaps
are compared by what is observed: fields and static fields as they are, arrays by reading them at an
index. What loads get and what stores bring about is described in these terms.
-/

namespace HeapFlow

namespace HeapStore

/-- The value that a load of a slot observes. An array is read at the index. -/
def observe (h : HeapStore) : Slot → Value
  | .element array index => h.readArray array index
  | slot => h.get slot

/-- The slots that a load of a slot looks at. -/
def seen : Slot → Set Slot
  | .element array index => elementSlots array index
  | slot => {slot}

/-- What is observed is below what all slots that are seen are below. -/
theorem observe_le_iff {h : HeapStore} {slot : Slot} {v : Value} :
    h.observe slot ≤ v ↔ ∀ s ∈ seen slot, h.get s ≤ v := by
  cases slot with
  | element array index => exact readArray_le_iff
  | _ => simp [observe, seen]

theorem get_le_observe {h : HeapStore} {slot s : Slot} (hs : s ∈ seen slot) :
    h.get s ≤ h.observe slot :=
  observe_le_iff.1 le_rfl s hs

theorem observe_empty (slot : Slot) : empty.observe slot = .undefined :=
  Value.le_undefined_iff.1 <| observe_le_iff.2 fun s _ => (Table.getD_empty s _).le

/-- Whatever sees an element at an index that has a value sees those at an unknown index. -/
theorem element_nac_mem_seen {array : Obj} {index : Value} {slot : Slot}
    (h : .element array index ∈ seen slot) (hindex : index ≠ .undefined) :
    .element array .nac ∈ seen slot := by
  cases slot with
  | element array' index' =>
    cases index' with
    | undefined => cases h
    | const n =>
      obtain h | h := h
      · cases h
        exact .inr rfl
      · cases h
        exact .inr rfl
    | nac =>
      obtain ⟨_, h⟩ := h
      cases h
      exact ⟨_, rfl⟩
  | field base f => cases h
  | static f => cases h

end HeapStore

namespace Constants

variable {c : Setting} {pt : Point} {f g : Fact} {h k : HeapStore}

/-! ### Loads -/

/-- Where as much is observed as in another heap, a load gets as much. -/
theorem loaded_le_of_observe (hobserve : ∀ slot, h.observe slot ≤ k.observe slot) (hfg : f ≤ g)
    (place : Place) : loaded c pt h f place ≤ loaded c pt k g place := by
  refine le_trans ?_ (loaded_mono le_rfl hfg place)
  cases place with
  | static field => exact hobserve (.static field)
  | field base field => exact Value.meetAll_map_mono fun o _ => hobserve (.field o field)
  | element array index => exact Value.meetAll_map_mono fun o _ => hobserve (.element o _)

/-! ### Stores -/

theorem writtenValue_mono (hfg : f ≤ g) : writtenValue c pt f ≤ writtenValue c pt g := by
  unfold writtenValue
  split
  · exact hfg _
  · exact le_rfl

/-- Under a greater fact a store writes slots that are seen at least wherever the old ones were. -/
theorem exists_mem_writtenSlots (hfg : f ≤ g) {s : Slot} (hs : s ∈ writtenSlots c pt f) :
    ∃ s' ∈ writtenSlots c pt g, ∀ slot, s ∈ HeapStore.seen slot → s' ∈ HeapStore.seen slot := by
  unfold writtenSlots at hs ⊢
  split at hs
  · rename_i place source _
    split at hs
    · rename_i hint
      rw [if_pos hint]
      cases place with
      | element array index =>
        have hindex := hfg index.index
        cases hf : f.get index.index with
        | undefined => simp [storeSlots, hf] at hs
        | nac =>
          rw [hf, Value.nac_le_iff] at hindex
          simp only [storeSlots, hf] at hs
          exact ⟨s, by simpa only [storeSlots, hindex] using hs, fun _ => id⟩
        | const n =>
          rw [hf] at hindex
          simp only [storeSlots, hf, List.mem_map] at hs
          obtain ⟨o, ho, rfl⟩ := hs
          obtain hg | hg := Value.const_le_iff.1 hindex
          · exact ⟨.element o (.const n), by simpa [storeSlots, hg] using ho, fun _ => id⟩
          · -- the index has ceased to be constant
            refine ⟨.element o .nac, by simpa [storeSlots, hg] using ho, fun slot hslot => ?_⟩
            exact HeapStore.element_nac_mem_seen hslot (by simp)
      | _ => exact ⟨s, hs, fun _ => id⟩
    · cases hs
  · cases hs

/-- What is observed after a point is what was observed before and what the point stores where it is
seen. -/
theorem observe_effect_le_iff {slot : Slot} {v : Value} :
    (effect c pt h f).heap.observe slot ≤ v ↔ h.observe slot ≤ v ∧
      ∀ s ∈ writtenSlots c pt f, s ∈ HeapStore.seen slot → writtenValue c pt f ≤ v := by
  rw [HeapStore.observe_le_iff, HeapStore.observe_le_iff]
  constructor
  · intro hall
    refine ⟨fun s hs => (le_effect_heap c pt h f s).trans (hall s hs), fun s hs hseen => ?_⟩
    exact (writtenValue_le hs).trans (hall s hseen)
  · intro ⟨hbefore, hstored⟩ s hs
    rw [effect_heap, get_storeAll]
    split
    · rename_i hwritten
      exact sup_le (hbefore s hs) (hstored s hwritten hs)
    · exact hbefore s hs

end Constants

end HeapFlow
