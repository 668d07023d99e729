import HeapFlow.Data.OrderedSet
/-!
# HeapFlow.Data.Reach

**What can be reached along a successor function, breadth first.** Subtypes of a class, methods
called from the entries and feasible statements of a body are all closures of this kind. Elements
are listed in the order in which they are first met: the roots, then their successors, and so on.

`explore` is bounded by the number of elements it may expand. Each element is expanded once, so the
size of any finite universe that holds the roots and is closed under `next` is enough.
-/

namespace HeapFlow

namespace Reach

variable {α : Type} [DecidableEq α] [Keyed α]

/-- Expands at most `bound` elements of `todo`, the first one first. `seen` lists everything met so
far, `todo` what was met and is not yet expanded. -/
def explore (next : α → List α) : Nat → OrderedSet α → List α → OrderedSet α
  | _, seen, [] => seen
  | 0, seen, _ :: _ => seen
  | bound + 1, seen, x :: todo =>
    let fresh := seen.missing (OrderedSet.ofList (next x)).toList
    explore next bound (seen.insertAll fresh) (todo ++ fresh)

/-- What is reached from `roots` with at most `bound` expansions. -/
def closure (next : α → List α) (bound : Nat) (roots : List α) : OrderedSet α :=
  let start := OrderedSet.ofList roots
  explore next bound start start.toList

end Reach

end HeapFlow
