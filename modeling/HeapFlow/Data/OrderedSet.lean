import HeapFlow.Data.Table
/-!
# HeapFlow.Data.OrderedSet

**Sets that remember the order of insertion.** Points-to sets, reachable methods, interned contexts
and heap objects are all collections to which elements are only added, and whose order can be seen
in what an analysis prints. `insert` adds an element at the end, and only if it is missing.

The view is `toList`, which has no duplicates; membership is membership in it.
-/

namespace HeapFlow

/-- A set whose elements are in order of insertion. -/
structure OrderedSet (α : Type) [DecidableEq α] [Keyed α] where
  table : Table α Unit

namespace OrderedSet

variable {α β : Type} [DecidableEq α] [Keyed α] [DecidableEq β] [Keyed β]

/-- The elements, the oldest first. -/
def toList (s : OrderedSet α) : List α := s.table.keys

theorem nodup (s : OrderedSet α) : s.toList.Nodup := s.table.nodup_keys

instance : Membership α (OrderedSet α) := ⟨fun s x => x ∈ s.toList⟩

theorem mem_iff {s : OrderedSet α} {x : α} : x ∈ s ↔ x ∈ s.toList := Iff.rfl

theorem mem_iff_contains {s : OrderedSet α} {x : α} : s.table.contains x = true ↔ x ∈ s :=
  Table.mem_keys.symm

instance (x : α) (s : OrderedSet α) : Decidable (x ∈ s) :=
  decidable_of_iff _ mem_iff_contains

/-- The set without elements. -/
def empty : OrderedSet α := ⟨∅⟩

instance : EmptyCollection (OrderedSet α) := ⟨empty⟩

instance : Inhabited (OrderedSet α) := ⟨empty⟩

/-- The number of elements. -/
def size (s : OrderedSet α) : Nat := s.toList.length

/-- Whether there is no element. -/
def isEmpty (s : OrderedSet α) : Bool := s.toList.isEmpty

/-- Appends `x` unless it is already there. -/
def insert (s : OrderedSet α) (x : α) : OrderedSet α :=
  if x ∈ s then s else ⟨s.table.set x ()⟩

/-- Inserts the elements of a list, the first one first. -/
def insertAll (s : OrderedSet α) (xs : List α) : OrderedSet α := xs.foldl insert s

/-- The elements of a list, each at its first place. -/
def ofList (xs : List α) : OrderedSet α := empty.insertAll xs

/-- The elements of a list that the set lacks. -/
def missing (s : OrderedSet α) (xs : List α) : List α := xs.filter fun x => decide (x ∉ s)

/-- The images of the elements, each at its first place. -/
def image (f : β → α) (s : OrderedSet β) : OrderedSet α := ofList (s.toList.map f)

/-! ### What the operations do to the view -/

@[simp] theorem not_mem_empty (x : α) : x ∉ (empty : OrderedSet α) := List.not_mem_nil

theorem toList_insert (s : OrderedSet α) (x : α) :
    (s.insert x).toList = if x ∈ s then s.toList else s.toList ++ [x] := by
  unfold insert
  split
  · rfl
  · rename_i h
    rw [toList, Table.keys_set, if_neg (fun hc => h (mem_iff_contains.1 hc)), toList]

@[simp] theorem mem_insert {s : OrderedSet α} {x y : α} : y ∈ s.insert x ↔ y = x ∨ y ∈ s := by
  rw [mem_iff, toList_insert]
  split
  · rename_i h
    exact ⟨Or.inr, fun hy => hy.elim (fun e => e ▸ h) id⟩
  · rw [List.mem_append, List.mem_singleton]
    exact or_comm

@[simp] theorem mem_insertAll {s : OrderedSet α} {xs : List α} {y : α} :
    y ∈ s.insertAll xs ↔ y ∈ s ∨ y ∈ xs := by
  induction xs generalizing s with
  | nil => simp [insertAll]
  | cons x xs ih =>
    have h := ih (s := s.insert x)
    rw [insertAll] at h ⊢
    rw [List.foldl_cons, h, mem_insert, List.mem_cons, or_assoc, or_left_comm]

@[simp] theorem mem_ofList {xs : List α} {y : α} : y ∈ ofList xs ↔ y ∈ xs := by
  simp [ofList]

@[simp] theorem mem_missing {s : OrderedSet α} {xs : List α} {y : α} :
    y ∈ s.missing xs ↔ y ∈ xs ∧ y ∉ s := by
  simp [missing]

@[simp] theorem mem_image {f : β → α} {s : OrderedSet β} {y : α} :
    y ∈ s.image f ↔ ∃ x ∈ s, f x = y := by
  rw [image, mem_ofList, List.mem_map]
  rfl

/-- New elements are put behind the others. -/
theorem toList_insertAll {s : OrderedSet α} {xs : List α} (hxs : xs.Nodup)
    (hnew : ∀ x ∈ xs, x ∉ s) : (s.insertAll xs).toList = s.toList ++ xs := by
  induction xs generalizing s with
  | nil => simp [insertAll]
  | cons x xs ih =>
    obtain ⟨hx, hxs⟩ := List.nodup_cons.1 hxs
    obtain ⟨hsx, hsxs⟩ := List.forall_mem_cons.1 hnew
    have hrest : ∀ y ∈ xs, y ∉ s.insert x := by
      intro y hy hmem
      obtain rfl | hold := mem_insert.1 hmem
      · exact hx hy
      · exact hsxs y hy hold
    have hstep : s.insertAll (x :: xs) = (s.insert x).insertAll xs := rfl
    rw [hstep, ih hxs hrest, toList_insert, if_neg hsx, List.append_assoc]
    rfl

end OrderedSet

end HeapFlow
