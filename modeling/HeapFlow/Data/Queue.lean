/-!
# HeapFlow.Data.Queue

**First in, first out.** New elements are collected in front of a second list, which is turned
around when the first one is used up. The view is `toList`.
-/

namespace HeapFlow

/-- A queue. -/
structure Queue (α : Type) where
  /-- The elements that leave first. -/
  front : List α
  /-- The elements that came last, the newest first. -/
  back : List α

namespace Queue

variable {α : Type}

def empty : Queue α := ⟨[], []⟩

instance : EmptyCollection (Queue α) := ⟨empty⟩

instance : Inhabited (Queue α) := ⟨empty⟩

/-- The elements, the oldest first. -/
def toList (q : Queue α) : List α := q.front ++ q.back.reverse

/-- Adds an element. -/
def push (q : Queue α) (x : α) : Queue α := ⟨q.front, x :: q.back⟩

/-- The oldest element and the queue without it. -/
def pop? (q : Queue α) : Option (α × Queue α) :=
  match q.front with
  | x :: front => some (x, ⟨front, q.back⟩)
  | [] =>
    match q.back.reverse with
    | x :: front => some (x, ⟨front, []⟩)
    | [] => none

/-! ### What the operations do to the view -/

@[simp] theorem toList_empty : (∅ : Queue α).toList = [] := rfl

@[simp] theorem toList_push (q : Queue α) (x : α) : (q.push x).toList = q.toList ++ [x] := by
  simp [toList, push]

/-- A queue is empty exactly when nothing can be taken from it. -/
theorem pop?_eq_none {q : Queue α} : q.pop? = none ↔ q.toList = [] := by
  obtain ⟨front, back⟩ := q
  cases front with
  | cons x front => simp [pop?, toList]
  | nil =>
    cases h : back.reverse <;> simp [pop?, toList, h]

/-- What is taken from a queue is its first element. -/
theorem toList_of_pop? {q rest : Queue α} {x : α} (h : q.pop? = some (x, rest)) :
    q.toList = x :: rest.toList := by
  obtain ⟨front, back⟩ := q
  cases front with
  | cons y front =>
    cases h
    rfl
  | nil =>
    cases hb : back.reverse with
    | nil => simp [pop?, hb] at h
    | cons y front =>
      simp only [pop?, hb, Option.some.injEq, Prod.mk.injEq] at h
      obtain ⟨rfl, rfl⟩ := h
      simp [toList, hb]

end Queue

end HeapFlow
