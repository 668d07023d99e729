/-!
# HeapFlow.Data.Index

**Finite maps with quick lookup.** Every key has a number. The low bits of the number choose a
bucket, which is a short list of entries; the buckets are the leaves of a binary tree of fixed
depth. Keys that share a number share a bucket, where they are told apart by equality, so numbers
decide how long a lookup takes and never what it finds.

The view is `get?`.
-/

namespace HeapFlow

/-- Things that have a number. Different things may share one. -/
class Keyed (κ : Type) where
  key : κ → Nat

namespace Keyed

/-- A number for a pair of numbers. -/
def mix (m n : Nat) : Nat := (m * 1009 + n) % 1048576

instance : Keyed Nat := ⟨id⟩

instance : Keyed String := ⟨String.utf8ByteSize⟩

instance {α β : Type} [Keyed α] [Keyed β] : Keyed (α × β) := ⟨fun x => mix (key x.1) (key x.2)⟩

instance {α : Type} [Keyed α] : Keyed (List α) := ⟨fun xs => xs.foldl (fun n x => mix n (key x)) 1⟩

end Keyed

/-! ### Buckets -/

/-- A binary tree of buckets. -/
inductive Buckets (β : Type)
  | empty
  | bucket (items : List β)
  | fork (even odd : Buckets β)

namespace Buckets

variable {β : Type}

/-- The trees of the even and of the odd numbers. -/
def halves : Buckets β → Buckets β × Buckets β
  | fork even odd => (even, odd)
  | _ => (empty, empty)

/-- The bucket of a number in a tree of some depth. -/
def get : Nat → Nat → Buckets β → List β
  | 0, _, bucket items => items
  | 0, _, _ => []
  | depth + 1, n, t =>
    if n % 2 = 0 then get depth (n / 2) t.halves.1 else get depth (n / 2) t.halves.2

/-- Changes the bucket of a number in a tree of some depth. -/
def modify (f : List β → List β) : Nat → Nat → Buckets β → Buckets β
  | 0, n, t => bucket (f (get 0 n t))
  | depth + 1, n, t =>
    if n % 2 = 0 then fork (modify f depth (n / 2) t.halves.1) t.halves.2
    else fork t.halves.1 (modify f depth (n / 2) t.halves.2)

theorem get_empty (depth n : Nat) : get depth n (empty : Buckets β) = [] := by
  induction depth generalizing n with
  | zero => rfl
  | succ depth ih =>
    rw [get]
    split <;> exact ih _

/-- Whether two numbers have the same low bits. -/
def sameBits : Nat → Nat → Nat → Bool
  | 0, _, _ => true
  | depth + 1, m, n => m % 2 == n % 2 && sameBits depth (m / 2) (n / 2)

theorem sameBits_self (depth n : Nat) : sameBits depth n n = true := by
  induction depth generalizing n with
  | zero => rfl
  | succ depth ih => simp [sameBits, ih]

/-- Only the bucket of the number changes; numbers with the same low bits share it. -/
theorem get_modify (f : List β → List β) (depth m n : Nat) (t : Buckets β) :
    get depth m (modify f depth n t) =
      if sameBits depth m n = true then f (get depth m t) else get depth m t := by
  induction depth generalizing m n t with
  | zero => cases t <;> rfl
  | succ depth ih =>
    rw [modify]
    rcases Nat.mod_two_eq_zero_or_one m with hm | hm <;>
      rcases Nat.mod_two_eq_zero_or_one n with hn | hn <;>
      simp [get, halves, sameBits, hm, hn, ih]

end Buckets

/-! ### Entries -/

section Entries

variable {κ α : Type} [DecidableEq κ]

/-- The value of a key in a list of entries. -/
def valueIn? (k : κ) : List (κ × α) → Option α
  | [] => none
  | (k', v) :: rest => if k' = k then some v else valueIn? k rest

/-- Replaces the value of `k`, or appends `k` if it is missing. -/
def putIn (k : κ) (v : α) : List (κ × α) → List (κ × α)
  | [] => [(k, v)]
  | (k', v') :: rest => if k' = k then (k, v) :: rest else (k', v') :: putIn k v rest

theorem valueIn?_putIn (k j : κ) (v : α) (items : List (κ × α)) :
    valueIn? j (putIn k v items) = if k = j then some v else valueIn? j items := by
  induction items with
  | nil => rfl
  | cons e items ih =>
    obtain ⟨k', v'⟩ := e
    rw [putIn]
    split
    · rename_i h
      subst h
      by_cases hj : k' = j <;> simp [valueIn?, hj]
    · rename_i h
      by_cases hj : k' = j
      · subst hj
        simp [valueIn?, Ne.symm h]
      · simp [valueIn?, hj, ih]

end Entries

/-! ### Maps -/

/-- A finite map from `κ` to `α`. -/
structure Index (κ α : Type) where
  buckets : Buckets (κ × α)

namespace Index

variable {κ α : Type}

/-- The depth of the tree: one bucket for every twelve low bits. -/
def depth : Nat := 12

def empty : Index κ α := ⟨.empty⟩

variable [DecidableEq κ] [Keyed κ]

/-- The value of a key. -/
def get? (t : Index κ α) (k : κ) : Option α := valueIn? k (t.buckets.get depth (Keyed.key k))

/-- Gives a key a value. -/
def set (t : Index κ α) (k : κ) (v : α) : Index κ α :=
  ⟨t.buckets.modify (putIn k v) depth (Keyed.key k)⟩

@[simp] theorem get?_empty (k : κ) : (empty : Index κ α).get? k = none := by
  rw [get?, empty, Buckets.get_empty]
  rfl

@[simp] theorem get?_set (t : Index κ α) (k j : κ) (v : α) :
    (t.set k v).get? j = if k = j then some v else t.get? j := by
  rw [get?, get?, set, Buckets.get_modify]
  split
  · exact valueIn?_putIn k j v _
  · rename_i h
    have hne : k ≠ j := fun e => h (e ▸ Buckets.sameBits_self ..)
    rw [if_neg hne]

end Index

end HeapFlow
