import HeapFlow.Data.OrderedSet
import HeapFlow.Data.Run
/-!
# HeapFlow.Data.Search

**Searches that mark an element when they take it.** What is met waits until it is taken, and it may
wait at several places at once. An element that is marked already is skipped when it is taken; any other is
marked, and its successors have to wait. The oldest element that waits is taken first, or else the newest.

`sweep` goes on until nothing waits and lists what was marked. `finds` looks for one element and stops as
soon as it is taken. Both run a machine, and `limit` is more than the number of its steps: each element adds
its successors once.
-/

namespace HeapFlow

/-- What a search has marked, and what waits, in the order in which it is taken. -/
structure Search (α : Type) [DecidableEq α] [Keyed α] where
  seen : OrderedSet α
  todo : List α

namespace Search

/-- Which of the waiting elements is taken next. -/
inductive Order
  | oldest
  | newest
deriving DecidableEq, Repr

/-- Has further elements wait, one after the other. -/
def Order.wait {α : Type} : Order → List α → List α → List α
  | .oldest, todo, more => todo ++ more
  | .newest, todo, more => more.reverse ++ todo

section Machines

variable {α : Type} [DecidableEq α] [Keyed α] (next : α → List α) (order : Order)

/-- Takes an element, while others wait. -/
def take (seen : OrderedSet α) (x : α) (todo : List α) : Search α :=
  if x ∈ seen then ⟨seen, todo⟩ else ⟨seen.insert x, order.wait todo (next x)⟩

/-- One step of a search for everything. -/
def sweepStep (s : Search α) : Step (Search α) (OrderedSet α) :=
  match s.todo with
  | [] => .halt s.seen
  | x :: todo => .next (take next order s.seen x todo)

/-- One step of a search for one element. -/
def findStep (goal : α) (s : Search α) : Step (Search α) Bool :=
  match s.todo with
  | [] => .halt false
  | x :: todo => if x = goal then .halt true else .next (take next order s.seen x todo)

/-- More than the number of steps of a search from `roots` among the elements of `whole`. -/
def limit (whole roots : List α) : Nat :=
  roots.length + (whole.flatMap next).length + 1

/-- What a search from `roots` marks. -/
def sweep (whole roots : List α) : OrderedSet α :=
  (Step.run (sweepStep next order) (limit next whole roots) ⟨∅, roots⟩).getD ∅

/-- Whether a search from `roots` comes upon `goal`. -/
def finds (whole roots : List α) (goal : α) : Bool :=
  (Step.run (findStep next order goal) (limit next whole roots) ⟨∅, roots⟩).getD false

end Machines

end Search

end HeapFlow
