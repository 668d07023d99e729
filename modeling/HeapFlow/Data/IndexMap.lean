/-!
# HeapFlow.Data.IndexMap

**Finite maps from natural numbers, in increasing order of the key.** The local variables of a
method are numbered, and a data-flow fact is a finite map on those numbers. Keeping the keys in
order makes the representation canonical: two maps with the same view are equal (`ext_get?`), so
deciding whether a fact changed is deciding equality.
-/

namespace HeapFlow

/-- A finite map from natural numbers to `α`. -/
structure IndexMap (α : Type) where
  /-- The keys with their values, the least key first. -/
  entries : List (Nat × α)
  ordered : entries.Pairwise (fun a b => a.1 < b.1)

namespace IndexMap

variable {α : Type}

theorem ext {m n : IndexMap α} (h : m.entries = n.entries) : m = n := by
  cases m
  cases n
  cases h
  rfl

instance [DecidableEq α] : DecidableEq (IndexMap α) := fun _ _ =>
  decidable_of_iff _ ⟨ext, congrArg entries⟩

/-- The map without keys. -/
def empty : IndexMap α := ⟨[], List.Pairwise.nil⟩

instance : EmptyCollection (IndexMap α) := ⟨empty⟩

instance : Inhabited (IndexMap α) := ⟨empty⟩

/-- The value of a key in a list of entries. -/
def find? (i : Nat) : List (Nat × α) → Option α
  | [] => none
  | (j, v) :: rest => if j = i then some v else find? i rest

/-- Writes a key in its place in the order. -/
def put (i : Nat) (v : α) : List (Nat × α) → List (Nat × α)
  | [] => [(i, v)]
  | (j, w) :: rest =>
    if i < j then (i, v) :: (j, w) :: rest
    else if j = i then (i, v) :: rest
    else (j, w) :: put i v rest

theorem mem_put {i : Nat} {v : α} {e : Nat × α} {es : List (Nat × α)} (h : e ∈ put i v es) :
    e = (i, v) ∨ e ∈ es := by
  induction es with
  | nil => simpa [put] using h
  | cons d es ih =>
    obtain ⟨j, w⟩ := d
    rw [put] at h
    split at h
    · simpa using h
    · split at h
      · rw [List.mem_cons] at h ⊢
        exact h.elim Or.inl fun h => Or.inr (Or.inr h)
      · rw [List.mem_cons] at h ⊢
        exact h.elim (fun h => Or.inr (Or.inl h)) fun h => (ih h).elim Or.inl fun h => Or.inr (Or.inr h)

theorem ordered_put (i : Nat) (v : α) {es : List (Nat × α)}
    (h : es.Pairwise (fun a b => a.1 < b.1)) : (put i v es).Pairwise (fun a b => a.1 < b.1) := by
  induction es with
  | nil => simp [put]
  | cons d es ih =>
    obtain ⟨j, w⟩ := d
    obtain ⟨hd, ht⟩ := List.pairwise_cons.1 h
    rw [put]
    split
    · rename_i hij
      refine List.pairwise_cons.2 ⟨fun e he => ?_, h⟩
      rcases List.mem_cons.1 he with rfl | he
      · exact hij
      · exact Nat.lt_trans hij (hd e he)
    · rename_i hij
      split
      · rename_i hji
        subst hji
        exact List.pairwise_cons.2 ⟨hd, ht⟩
      · rename_i hji
        refine List.pairwise_cons.2 ⟨fun e he => ?_, ih ht⟩
        rcases mem_put he with rfl | he
        · exact Nat.lt_of_le_of_ne (Nat.le_of_not_lt hij) hji
        · exact hd e he

/-- The value of `i`, if it has one. -/
def get? (m : IndexMap α) (i : Nat) : Option α := find? i m.entries

/-- Gives `i` the value `v`. -/
def set (m : IndexMap α) (i : Nat) (v : α) : IndexMap α :=
  ⟨put i v m.entries, ordered_put i v m.ordered⟩

/-- Takes the value of `i` away. -/
def erase (m : IndexMap α) (i : Nat) : IndexMap α :=
  ⟨m.entries.filter (fun e => e.1 != i), m.ordered.filter _⟩

/-- The number of keys. -/
def size (m : IndexMap α) : Nat := m.entries.length

/-- The keys, the least first. -/
def keys (m : IndexMap α) : List Nat := m.entries.map Prod.fst

/-! ### What the operations do to the view -/

@[simp] theorem get?_empty (i : Nat) : (empty : IndexMap α).get? i = none := rfl

theorem find?_eq_none_of_lt {i : Nat} (es : List (Nat × α)) (h : ∀ e ∈ es, i < e.1) :
    find? i es = none := by
  induction es with
  | nil => rfl
  | cons d es ih =>
    obtain ⟨j, w⟩ := d
    have hj : i < j := h (j, w) List.mem_cons_self
    rw [find?, if_neg (Nat.ne_of_gt hj)]
    exact ih fun e he => h e (List.mem_cons_of_mem _ he)

theorem find?_put (i j : Nat) (v : α) {es : List (Nat × α)}
    (h : es.Pairwise (fun a b => a.1 < b.1)) :
    find? j (put i v es) = if i = j then some v else find? j es := by
  induction es with
  | nil => rfl
  | cons d es ih =>
    obtain ⟨k, w⟩ := d
    obtain ⟨hd, ht⟩ := List.pairwise_cons.1 h
    rw [put]
    split
    · rw [find?]
    · split
      · rename_i hki
        subst hki
        by_cases hj : k = j <;> simp [find?, hj]
      · rename_i hki
        by_cases hj : k = j
        · subst hj
          simp [find?, Ne.symm hki]
        · simp [find?, hj, ih ht]

@[simp] theorem get?_set (m : IndexMap α) (i j : Nat) (v : α) :
    (m.set i v).get? j = if i = j then some v else m.get? j :=
  find?_put i j v m.ordered

theorem find?_filter_ne (i j : Nat) (es : List (Nat × α)) :
    find? j (es.filter (fun e => e.1 != i)) = if i = j then none else find? j es := by
  induction es with
  | nil => simp [find?]
  | cons d es ih =>
    obtain ⟨k, w⟩ := d
    by_cases hki : k = i
    · subst hki
      rw [List.filter_cons_of_neg (by simp), ih]
      by_cases hj : k = j <;> simp [find?, hj]
    · rw [List.filter_cons_of_pos (by simpa using hki)]
      by_cases hj : k = j
      · subst hj
        simp [find?, Ne.symm hki]
      · simp [find?, hj, ih]

@[simp] theorem get?_erase (m : IndexMap α) (i j : Nat) :
    (m.erase i).get? j = if i = j then none else m.get? j :=
  find?_filter_ne i j m.entries

theorem mem_entries_iff {m : IndexMap α} {i : Nat} {v : α} :
    (i, v) ∈ m.entries ↔ m.get? i = some v := by
  obtain ⟨es, ho⟩ := m
  show (i, v) ∈ es ↔ find? i es = some v
  induction es with
  | nil => simp [find?]
  | cons d es ih =>
    obtain ⟨k, w⟩ := d
    obtain ⟨hd, ht⟩ := List.pairwise_cons.1 ho
    rw [List.mem_cons, find?, Prod.mk.injEq]
    by_cases hk : k = i
    · subst hk
      rw [if_pos rfl]
      constructor
      · rintro (⟨_, rfl⟩ | h)
        · rfl
        · exact absurd (hd _ h) (Nat.lt_irrefl _)
      · intro h
        exact Or.inl ⟨rfl, (Option.some.inj h).symm⟩
    · rw [if_neg hk, ih ht]
      exact ⟨fun h => h.elim (fun h => absurd h.1.symm hk) id, Or.inr⟩

theorem mem_keys {m : IndexMap α} {i : Nat} : i ∈ m.keys ↔ (m.get? i).isSome = true := by
  rw [Option.isSome_iff_exists]
  simp [keys, mem_entries_iff]

/-- **Canonical.** Two maps with the same view are equal. -/
theorem ext_get? {m n : IndexMap α} (h : ∀ i, m.get? i = n.get? i) : m = n := by
  obtain ⟨es, ho⟩ := m
  obtain ⟨fs, hf⟩ := n
  congr 1
  induction es generalizing fs with
  | nil =>
    cases fs with
    | nil => rfl
    | cons d fs =>
      have := h d.1
      simp [get?, find?] at this
  | cons d es ih =>
    obtain ⟨k, w⟩ := d
    obtain ⟨hd, ht⟩ := List.pairwise_cons.1 ho
    cases fs with
    | nil =>
      have := h k
      simp [get?, find?] at this
    | cons d' fs =>
      obtain ⟨k', w'⟩ := d'
      obtain ⟨hd', ht'⟩ := List.pairwise_cons.1 hf
      have hk : k = k' := by
        rcases Nat.lt_trichotomy k k' with hlt | heq | hgt
        · have := h k
          rw [get?, get?, find?, if_pos rfl,
            find?_eq_none_of_lt ((k', w') :: fs)] at this
          · cases this
          · intro e he
            rcases List.mem_cons.1 he with rfl | he
            · exact hlt
            · exact Nat.lt_trans hlt (hd' e he)
        · exact heq
        · have := h k'
          rw [get?, get?, find?_eq_none_of_lt ((k, w) :: es), find?,
            if_pos rfl] at this
          · cases this
          · intro e he
            rcases List.mem_cons.1 he with rfl | he
            · exact hgt
            · exact Nat.lt_trans hgt (hd e he)
      subst hk
      have hw : w = w' := by
        have := h k
        simpa [get?, find?] using this
      subst hw
      have hrest : es = fs := by
        refine ih ht fs ht' fun i => ?_
        by_cases hi : k = i
        · subst hi
          rw [get?, get?, find?_eq_none_of_lt es hd, find?_eq_none_of_lt fs hd']
        · have := h i
          simpa [get?, find?, hi] using this
      rw [hrest]

end IndexMap

end HeapFlow
