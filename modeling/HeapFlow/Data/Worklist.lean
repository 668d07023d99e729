/-!
# HeapFlow.Data.Worklist

**Things to do, each listed once.** What is put on the list while it is waiting there is not put on
it again. The view is `toList`.
-/

namespace HeapFlow

/-- A list of things to do, the one that has waited longest first. -/
structure Worklist (α : Type) where
  toList : List α
  nodup : toList.Nodup

namespace Worklist

variable {α : Type}

def empty : Worklist α := ⟨[], List.nodup_nil⟩

instance : EmptyCollection (Worklist α) := ⟨empty⟩

instance : Inhabited (Worklist α) := ⟨empty⟩

/-- What has waited longest, and the list without it. -/
def pop? (w : Worklist α) : Option (α × Worklist α) :=
  match h : w.toList with
  | [] => none
  | x :: rest => some (x, ⟨rest, (List.nodup_cons.1 (h ▸ w.nodup)).2⟩)

/-- Appending a missing element keeps a list free of duplicates. -/
theorem nodup_concat {l : List α} {x : α} (h : l.Nodup) (hx : x ∉ l) : (l ++ [x]).Nodup := by
  rw [List.Nodup, List.pairwise_append]
  refine ⟨h, by simp, fun a ha b hb => ?_⟩
  rw [List.mem_singleton] at hb
  exact fun hab => hx (hb ▸ hab ▸ ha)

variable [DecidableEq α]

/-- Puts `x` at the end unless it is waiting. -/
def push (w : Worklist α) (x : α) : Worklist α :=
  if h : x ∈ w.toList then w else ⟨w.toList ++ [x], nodup_concat w.nodup h⟩

/-- Puts the elements of a list at the end, the first one first. -/
def pushAll (w : Worklist α) (xs : List α) : Worklist α := xs.foldl push w

/-! ### What the operations do to the view -/

theorem toList_push (w : Worklist α) (x : α) :
    (w.push x).toList = if x ∈ w.toList then w.toList else w.toList ++ [x] := by
  unfold push
  split <;> rfl

theorem mem_push {w : Worklist α} {x y : α} : y ∈ (w.push x).toList ↔ y = x ∨ y ∈ w.toList := by
  rw [toList_push]
  split
  · rename_i h
    exact ⟨Or.inr, fun hy => hy.elim (fun e => e ▸ h) id⟩
  · rw [List.mem_append, List.mem_singleton]
    exact or_comm

theorem mem_pushAll {w : Worklist α} {xs : List α} {y : α} :
    y ∈ (w.pushAll xs).toList ↔ y ∈ w.toList ∨ y ∈ xs := by
  induction xs generalizing w with
  | nil => simp [pushAll]
  | cons x xs ih =>
    have h := ih (w := w.push x)
    rw [pushAll] at h ⊢
    rw [List.foldl_cons, h, mem_push, List.mem_cons, or_assoc, or_left_comm]

omit [DecidableEq α] in
/-- Nothing can be taken exactly if nothing waits. -/
theorem pop?_eq_none {w : Worklist α} : w.pop? = none ↔ w.toList = [] := by
  unfold pop?
  split
  · rename_i hw
    exact iff_of_true rfl hw
  · rename_i hw
    exact iff_of_false (fun h => by cases h) (fun h => by cases hw.symm.trans h)

omit [DecidableEq α] in
/-- What is taken from the list is its first element. -/
theorem toList_of_pop? {w rest : Worklist α} {x : α} (h : w.pop? = some (x, rest)) :
    w.toList = x :: rest.toList := by
  unfold pop? at h
  split at h
  · cases h
  · rename_i hw
    cases h
    exact hw

end Worklist

end HeapFlow
