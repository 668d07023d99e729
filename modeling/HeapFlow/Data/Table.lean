import HeapFlow.Data.Index
/-!
# HeapFlow.Data.Table

**Finite maps that remember the order in which their keys were first written.** Writing a key that
is present replaces its value and keeps its place; a new key goes to the end. The view is `get?`,
together with `keys` for the order.
-/

namespace HeapFlow

/-- A finite map from `κ` to `α`, with its keys in the order in which they were first written. -/
structure Table (κ α : Type) [DecidableEq κ] [Keyed κ] where
  /-- The keys, the newest first. -/
  newest : List κ
  index : Index κ α
  newest_nodup : newest.Nodup
  mem_newest : ∀ k, k ∈ newest ↔ (index.get? k).isSome = true

namespace Table

variable {κ α : Type} [DecidableEq κ] [Keyed κ]

/-- The table without entries. -/
def empty : Table κ α := ⟨[], .empty, List.nodup_nil, fun k => by simp⟩

instance : EmptyCollection (Table κ α) := ⟨empty⟩

instance : Inhabited (Table κ α) := ⟨empty⟩

/-- The keys, the oldest first. -/
def keys (t : Table κ α) : List κ := t.newest.reverse

/-- The value of `k`, if it has one. -/
def get? (t : Table κ α) (k : κ) : Option α := t.index.get? k

/-- The value of `k`, or `default` if it has none. -/
def getD (t : Table κ α) (k : κ) (default : α) : α := (t.get? k).getD default

/-- Whether `k` has a value. -/
def contains (t : Table κ α) (k : κ) : Bool := (t.get? k).isSome

/-- The keys with their values, the oldest key first. -/
def entries (t : Table κ α) : List (κ × α) := t.keys.filterMap fun k => (t.get? k).map (k, ·)

/-- Gives `k` the value `v`. -/
def set (t : Table κ α) (k : κ) (v : α) : Table κ α :=
  if h : t.contains k = true then
    { t with
      index := t.index.set k v
      mem_newest := fun j => by
        rw [t.mem_newest, Index.get?_set]
        split
        · rename_i hkj
          exact iff_of_true (hkj ▸ h) rfl
        · exact Iff.rfl }
  else
    { newest := k :: t.newest
      index := t.index.set k v
      newest_nodup := List.nodup_cons.2 ⟨fun hk => h ((t.mem_newest k).1 hk), t.newest_nodup⟩
      mem_newest := fun j => by
        rw [List.mem_cons, t.mem_newest, Index.get?_set]
        split
        · rename_i hkj
          exact iff_of_true (Or.inl hkj.symm) rfl
        · rename_i hkj
          exact ⟨fun hj => hj.elim (fun e => absurd e.symm hkj) id, Or.inr⟩ }

/-! ### What the operations do to the view -/

@[simp] theorem get?_empty (k : κ) : (empty : Table κ α).get? k = none := Index.get?_empty k

@[simp] theorem get?_set (t : Table κ α) (k j : κ) (v : α) :
    (t.set k v).get? j = if k = j then some v else t.get? j := by
  rw [set, get?, get?]
  split <;> exact Index.get?_set ..

@[simp] theorem getD_empty (k : κ) (d : α) : (empty : Table κ α).getD k d = d := by
  rw [getD, get?_empty]
  rfl

@[simp] theorem getD_set (t : Table κ α) (k j : κ) (v d : α) :
    (t.set k v).getD j d = if k = j then v else t.getD j d := by
  rw [getD, get?_set]
  split <;> rfl

/-! ### The order of the keys -/

theorem mem_keys {t : Table κ α} {k : κ} : k ∈ t.keys ↔ (t.get? k).isSome = true := by
  rw [keys, List.mem_reverse]
  exact t.mem_newest k

theorem nodup_keys (t : Table κ α) : t.keys.Nodup :=
  List.pairwise_reverse.2 (t.newest_nodup.imp Ne.symm)

theorem keys_set (t : Table κ α) (k : κ) (v : α) :
    (t.set k v).keys = if t.contains k = true then t.keys else t.keys ++ [k] := by
  rw [set, keys, keys]
  split
  · rfl
  · exact List.reverse_cons

theorem mem_entries {t : Table κ α} {k : κ} {v : α} : (k, v) ∈ t.entries ↔ t.get? k = some v := by
  rw [entries, List.mem_filterMap]
  constructor
  · rintro ⟨j, -, hj⟩
    obtain ⟨w, hw, he⟩ := Option.map_eq_some_iff.1 hj
    cases he
    exact hw
  · intro h
    exact ⟨k, mem_keys.2 (h ▸ rfl), by rw [h]; rfl⟩

/-- Writing keys one after the other, each with its value. -/
theorem get?_foldl_set (value : κ → α) (ks : List κ) (t : Table κ α) (k : κ) :
    (ks.foldl (fun t k => t.set k (value k)) t).get? k =
      if k ∈ ks then some (value k) else t.get? k := by
  induction ks generalizing t with
  | nil => rfl
  | cons j ks ih =>
    rw [List.foldl_cons, ih, get?_set]
    by_cases hk : k ∈ ks
    · rw [if_pos hk, if_pos (List.mem_cons_of_mem j hk)]
    · by_cases hj : j = k
      · subst hj
        rw [if_neg hk, if_pos rfl, if_pos List.mem_cons_self]
      · rw [if_neg hk, if_neg hj, if_neg]
        exact fun h => (List.mem_cons.1 h).elim (fun e => hj e.symm) hk

end Table

end HeapFlow
