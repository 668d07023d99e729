import HeapFlow.Constants.Inter
import HeapFlow.Proofs.Constants.Order
/-!
# HeapFlow.Proofs.Constants.Effects

**What a point reads and writes.** The effect of a point has three parts: it stores one value in some
slots of the heap, it wakes the loads that may read a slot that rose, and it turns the fact before it
into the fact after it. Only loads look at the heap, and every load that sees a slot is among its
`readers`, through whichever alias it sees it.
-/

namespace HeapFlow

namespace Constants

section Definitions

variable (c : Setting)

/-- A point loads a place into an integer variable. -/
def LoadsInt (pt : Point) (lhs : Var) (place : Place) : Prop :=
  stmtAt? c pt = some (.assign lhs (.load place)) ∧ lhs.ty.holdsInt = true

/-- The slots that a load at a point sees under a fact. -/
def readSlots (pt : Point) (f : Fact) : Place → Set Slot
  | .static field => {.static field}
  | .field base field => {slot | ∃ o ∈ objectsOf c pt base, slot = .field o field}
  | .element array index =>
    {slot | ∃ o ∈ objectsOf c pt array, slot ∈ HeapStore.elementSlots o (f.get index.index)}

/-- The slots that a point writes under a fact. -/
def writtenSlots (pt : Point) (f : Fact) : List Slot :=
  match stmtAt? c pt with
  | some (.store place source) => if source.ty.holdsInt then storeSlots c pt f place else []
  | _ => []

/-- The value that a point stores under a fact. -/
def writtenValue (pt : Point) (f : Fact) : Value :=
  match stmtAt? c pt with
  | some (.store _ source) => f.get source.index
  | _ => .undefined

end Definitions

variable {c : Setting} {pt : Point} {f g : Fact} {h k : HeapStore} {lhs : Var} {place : Place}

/-! ### Storing in several slots -/

/-- Storing a value raises the slots of the list and no other. -/
theorem get_storeAll (v : Value) (h : HeapStore) (slots : List Slot) (slot : Slot) :
    (storeAll c v h slots).1.get slot =
      if slot ∈ slots then (h.get slot).meet v else h.get slot := by
  induction slots generalizing h with
  | nil => simp [storeAll]
  | cons first slots ih =>
    have hrest := ih (h.meet first v).2
    simp only [storeAll]
    rw [hrest, HeapStore.get_meet]
    by_cases hfirst : first = slot
    · subst hfirst
      have htwice : ((h.get first).meet v).meet v = (h.get first).meet v := by
        rw [Value.meet_assoc, Value.meet_self]
      simp [htwice]
    · simp [hfirst, Ne.symm hfirst]

theorem le_storeAll (v : Value) (h : HeapStore) (slots : List Slot) :
    h ≤ (storeAll c v h slots).1 := by
  intro slot
  rw [get_storeAll]
  split
  · exact le_sup_left
  · exact le_rfl

/-- A value that every slot admits already changes nothing and wakes nothing. -/
theorem storeAll_of_le {v : Value} {h : HeapStore} {slots : List Slot}
    (hle : ∀ slot ∈ slots, v ≤ h.get slot) : storeAll c v h slots = (h, []) := by
  induction slots with
  | nil => rfl
  | cons first slots ih =>
    obtain ⟨hfirst, hrest⟩ := List.forall_mem_cons.1 hle
    simp [storeAll, HeapStore.meet_of_le hfirst, ih hrest]

/-- The loads that may read a slot that rose are woken. -/
theorem readers_subset_awake {v : Value} {h : HeapStore} {slots : List Slot} {slot : Slot}
    (hmem : slot ∈ slots) (hrises : ¬ v ≤ h.get slot) :
    readers c slot ⊆ (storeAll c v h slots).2 := by
  induction slots generalizing h with
  | nil => cases hmem
  | cons first slots ih =>
    intro reader hreader
    simp only [storeAll]
    rw [List.mem_append]
    by_cases hfirst : first = slot
    · subst hfirst
      rw [(HeapStore.meet_fst h first v).2 hrises]
      exact Or.inl hreader
    · have htail : slot ∈ slots := (List.mem_cons.1 hmem).resolve_left (Ne.symm hfirst)
      -- the first store leaves the slot as it is
      have hget : (h.meet first v).2.get slot = h.get slot := by
        rw [HeapStore.get_meet, if_neg hfirst]
      have hrises' : ¬ v ≤ (h.meet first v).2.get slot := by
        rw [hget]
        exact hrises
      exact Or.inr (ih htail hrises' hreader)

/-! ### The heap after a point -/

/-- The heap after a point and the loads to compute again are those of one store. -/
theorem effect_heap_awake (c : Setting) (pt : Point) (h : HeapStore) (f : Fact) :
    ((effect c pt h f).heap, (effect c pt h f).awake) =
      storeAll c (writtenValue c pt f) h (writtenSlots c pt f) := by
  unfold effect writtenValue writtenSlots
  cases hs : stmtAt? c pt with
  | none => rfl
  | some s =>
    cases s with
    | assign lhs e => cases e <;> rfl
    | store place source =>
      simp only
      split <;> rfl
    | _ => rfl

theorem effect_heap (c : Setting) (pt : Point) (h : HeapStore) (f : Fact) :
    (effect c pt h f).heap = (storeAll c (writtenValue c pt f) h (writtenSlots c pt f)).1 :=
  congrArg Prod.fst (effect_heap_awake c pt h f)

theorem effect_awake (c : Setting) (pt : Point) (h : HeapStore) (f : Fact) :
    (effect c pt h f).awake = (storeAll c (writtenValue c pt f) h (writtenSlots c pt f)).2 :=
  congrArg Prod.snd (effect_heap_awake c pt h f)

/-- The heap only rises. -/
theorem le_effect_heap (c : Setting) (pt : Point) (h : HeapStore) (f : Fact) :
    h ≤ (effect c pt h f).heap := by
  rw [effect_heap]
  exact le_storeAll (writtenValue c pt f) h (writtenSlots c pt f)

/-- The slots that a point writes admit what it stores. -/
theorem writtenValue_le {slot : Slot} (hslot : slot ∈ writtenSlots c pt f) :
    writtenValue c pt f ≤ (effect c pt h f).heap.get slot := by
  rw [effect_heap, get_storeAll, if_pos hslot]
  exact le_sup_right

/-- A slot that rises at a point is written there, and its readers are woken. -/
theorem readers_of_changed {slot : Slot} (hne : (effect c pt h f).heap.get slot ≠ h.get slot) :
    readers c slot ⊆ (effect c pt h f).awake := by
  rw [effect_heap, get_storeAll] at hne
  have hslot : slot ∈ writtenSlots c pt f := by
    by_contra hnot
    exact hne (if_neg hnot)
  rw [if_pos hslot] at hne
  rw [effect_awake]
  exact readers_subset_awake hslot fun hle => hne (sup_eq_left.2 hle)

/-- A point whose store is in the heap already changes nothing and wakes nothing. -/
theorem effect_of_stored
    (hle : ∀ slot ∈ writtenSlots c pt f, writtenValue c pt f ≤ h.get slot) :
    (effect c pt h f).heap = h ∧ (effect c pt h f).awake = [] := by
  have hstore := storeAll_of_le (c := c) hle
  rw [effect_heap, effect_awake, hstore]
  exact ⟨rfl, rfl⟩

/-! ### The fact after a point -/

/-- What a load sees is below what its slots are below. -/
theorem loaded_le_iff {v : Value} :
    loaded c pt h f place ≤ v ↔ ∀ slot ∈ readSlots c pt f place, h.get slot ≤ v := by
  cases place with
  | static field => simp [loaded, readSlots]
  | field base field =>
    simp only [loaded, readSlots, Value.meetAll_le_iff, List.forall_mem_map, Set.mem_ofPred_eq,
      forall_exists_index, and_imp]
    exact ⟨fun hall slot o ho hslot => hslot ▸ hall o ho, fun hall o ho => hall _ o ho rfl⟩
  | element array index =>
    simp only [loaded, readSlots, Value.meetAll_le_iff, List.forall_mem_map,
      HeapStore.readArray_le_iff, Set.mem_ofPred_eq, forall_exists_index, and_imp]
    exact ⟨fun hall slot o ho hslot => hall o ho slot hslot,
      fun hall o ho slot hslot => hall slot o ho hslot⟩

/-- A load sees the least value above its slots. -/
theorem loaded_isLUB : IsLUB (h.get '' readSlots c pt f place) (loaded c pt h f place) := by
  rw [isLUB_iff_le_iff]
  intro v
  rw [loaded_le_iff, mem_upperBounds, Set.forall_mem_image]

theorem loaded_congr (hget : ∀ slot ∈ readSlots c pt f place, h.get slot = k.get slot) :
    loaded c pt h f place = loaded c pt k f place := by
  refine eq_of_forall_ge_iff fun v => ?_
  rw [loaded_le_iff, loaded_le_iff]
  exact forall₂_congr fun slot hslot => by rw [hget slot hslot]

theorem after_of_loadsInt (hload : LoadsInt c pt lhs place) (h : HeapStore) (f : Fact) :
    (effect c pt h f).after = f.update lhs.index (loaded c pt h f place) := by
  obtain ⟨hs, hint⟩ := hload
  unfold effect
  rw [hs]
  exact if_pos hint

/-- A point that stores nothing leaves the heap as it is. -/
theorem writtenSlots_of_loadsInt (hload : LoadsInt c pt lhs place) :
    writtenSlots c pt f = [] := by
  unfold writtenSlots
  rw [hload.1]

/-- The points of three kinds: loads into integer variables, other assignments to integer variables,
and points that keep the fact. -/
theorem after_cases (c : Setting) (pt : Point) :
    (∃ lhs place, LoadsInt c pt lhs place) ∨
    (∃ lhs e, stmtAt? c pt = some (.assign lhs e) ∧ lhs.ty.holdsInt = true ∧
      ∀ h f, (effect c pt h f).after = f.update lhs.index (e.evaluate f)) ∨
    ∀ h f, (effect c pt h f).after = f := by
  cases hs : stmtAt? c pt with
  | none => exact .inr (.inr fun h f => by unfold effect; rw [hs])
  | some s =>
    cases s with
    | assign lhs e =>
      by_cases hint : lhs.ty.holdsInt = true
      · -- of the assignments only loads look at the heap
        by_cases hload : ∃ place, e = .load place
        · obtain ⟨place, rfl⟩ := hload
          exact .inl ⟨lhs, place, hs, hint⟩
        · refine .inr (.inl ⟨lhs, e, rfl, hint, fun h f => ?_⟩)
          unfold effect
          rw [hs]
          cases e with
          | load place => exact absurd ⟨place, rfl⟩ hload
          | _ => exact if_pos hint
      · refine .inr (.inr fun h f => ?_)
        unfold effect
        rw [hs]
        cases e <;> exact if_neg hint
    | store place source =>
      refine .inr (.inr fun h f => ?_)
      unfold effect
      rw [hs]
      simp only
      split <;> rfl
    | invoke result call => exact .inr (.inr fun h f => by unfold effect; rw [hs])
    | _ => exact .inr (.inr fun h f => by unfold effect; rw [hs]; rfl)

/-- The fact after a point depends on the slots that a load sees and on no other part of the heap. -/
theorem after_congr (hget : ∀ lhs place, LoadsInt c pt lhs place →
    ∀ slot ∈ readSlots c pt f place, h.get slot = k.get slot) :
    (effect c pt h f).after = (effect c pt k f).after := by
  obtain ⟨lhs, place, hload⟩ | ⟨lhs, e, -, -, hafter⟩ | hafter := after_cases c pt
  · rw [after_of_loadsInt hload, after_of_loadsInt hload, loaded_congr (hget lhs place hload)]
  · rw [hafter, hafter]
  · rw [hafter, hafter]

/-- A store does not change what the point that makes it computes. -/
theorem after_effect_heap (c : Setting) (pt : Point) (h : HeapStore) (f : Fact) :
    (effect c pt (effect c pt h f).heap f).after = (effect c pt h f).after := by
  refine after_congr fun lhs place hload slot _ => ?_
  rw [effect_heap, get_storeAll, writtenSlots_of_loadsInt hload]
  exact if_neg List.not_mem_nil

/-! ### The loads that may read a slot -/

theorem mem_pointingTo {objects : VarObjects} {v : Local} {o : Obj} (ho : o ∈ objects.of v) :
    v ∈ objects.pointingTo o := by
  rw [VarObjects.of, Table.getD] at ho
  cases hget : objects.get? v with
  | none =>
    rw [hget] at ho
    exact absurd ho (OrderedSet.not_mem_empty o)
  | some objs =>
    rw [hget] at ho
    refine List.mem_map.2 ⟨(v, objs), List.mem_filter.2 ⟨Table.mem_entries.2 hget, ?_⟩, rfl⟩
    exact decide_eq_true ho

theorem stmtAt?_eq_some {s : Stmt} : stmtAt? c pt = some s ↔
    ∃ i m, pt.node = .stmt i ∧ c.program.method? pt.method = some m ∧ m.stmt? i = some s := by
  unfold stmtAt?
  cases pt.node with
  | stmt i => simp [Program.stmt?_eq_some]
  | _ => simp

/-- Every load of the graph that sees a slot is among the readers of the slot. -/
theorem mem_readers {slot : Slot} (hload : LoadsInt c pt lhs place)
    (hslot : slot ∈ readSlots c pt f place) (hnode : pt ∈ c.icfg.nodes) : pt ∈ readers c slot := by
  obtain ⟨hs, hint⟩ := hload
  obtain ⟨i, m, hi, hm, hstmt⟩ := stmtAt?_eq_some.1 hs
  obtain ⟨id, node⟩ := pt
  obtain rfl : node = .stmt i := hi
  have hm : c.program.method? id = some m := hm
  cases place with
  | static field =>
    obtain rfl : slot = .static field := hslot
    refine List.mem_filter.2 ⟨hnode, ?_⟩
    simp [loadsStatic, hs, hint]
  | field base field =>
    obtain ⟨o, ho, rfl⟩ := hslot
    refine List.mem_flatMap.2 ⟨⟨id, base⟩, mem_pointingTo ho, ?_⟩
    simp only [loadsThrough, hm]
    refine List.mem_map.2 ⟨(i, lhs), List.mem_filter.2 ⟨?_, hint⟩, rfl⟩
    refine List.mem_map.2 ⟨(i, field, lhs), List.mem_filter.2 ⟨?_, decide_eq_true rfl⟩, rfl⟩
    exact Method.mem_fieldLoads.2 hstmt
  | element array index =>
    obtain ⟨o, ho, hslot⟩ := hslot
    -- the readers of an element are those of its array, whatever the index
    obtain ⟨j, rfl⟩ : ∃ j, slot = .element o j := by
      have hall : slot ∈ HeapStore.elementSlots o .nac :=
        HeapStore.elementSlots_mono (Value.le_nac _) hslot
      exact hall
    refine List.mem_flatMap.2 ⟨⟨id, array⟩, mem_pointingTo ho, ?_⟩
    simp only [loadsThrough, hm]
    refine List.mem_map.2 ⟨(i, lhs), List.mem_filter.2 ⟨?_, hint⟩, rfl⟩
    exact Method.mem_arrayLoads.2 ⟨index, hstmt⟩

end Constants

end HeapFlow
