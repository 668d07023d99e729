import HeapFlow.Context.Basic
/-!
# HeapFlow.Context.Interned

**Contexts known by their places.** A table makes a context of each sequence of elements once. What it
hands out is the place of the context, and asking again for the same elements gives the same place.
Making a longer or a shorter context goes through the table as well, unless the context that results is
at hand already.

A table looks for a context by its profile: the number of its elements, and the address of each. Where the
elements have different addresses, this is to compare the sequences themselves (`Contexts.get_eq_find?`), as
`get` does.

The view of a context is `elements`.
-/

namespace HeapFlow

/-- A context of a table, by its place there. -/
structure ContextRef where
  place : Nat
deriving DecidableEq, Repr

namespace ContextRef

/-- The empty context is the first one of every table. -/
def empty : ContextRef := ⟨0⟩

end ContextRef

namespace Context

/-- The words of 32 bits of an address, the lower one first. -/
def addressWords (a : UInt64) : List UInt32 := [a.toUInt32, (a >>> 32).toUInt32]

/-- What contexts are compared by, where `address` tells where each element is. -/
def profile (address : ContextElement → UInt64) (c : Context) : List UInt32 :=
  c.length.toUInt32 :: c.flatMap fun e => addressWords (address e)

end Context

namespace Contexts

/-- The place of the context with the profile of some elements. -/
def find? (address : ContextElement → UInt64) (t : Contexts) (es : Context) : Option Nat :=
  t.toList.findIdx? fun c => c.profile address == es.profile address

/-- The elements of a context. -/
def elements (t : Contexts) (c : ContextRef) : Context := t.toList[c.place]?.getD []

/-- The context that is made of some elements. -/
def get (t : Contexts) (es : Context) : ContextRef × Contexts :=
  match t.toList.idxOf? es with
  | some place => (⟨place⟩, t)
  | none => (⟨t.size⟩, t.insert es)

/-- A context extended by an element, cut to the most recent `limit` elements. -/
def append (t : Contexts) (parent : ContextRef) (e : ContextElement) (limit : Nat) :
    ContextRef × Contexts :=
  if limit = 0 then (.empty, t) else t.get ((t.elements parent).append e limit)

/-- The context of the last `limit` elements. -/
def truncate (t : Contexts) (c : ContextRef) (limit : Nat) : ContextRef × Contexts :=
  if (t.elements c).length ≤ limit then (c, t) else t.get ((t.elements c).truncate limit)

/-! ### What a table has -/

/-- A table has a context, which is made of some elements. -/
def Holds (t : Contexts) (c : ContextRef) (es : Context) : Prop := t.toList[c.place]? = some es

/-- The table remembers the elements, as the table of an analysis that meets a context does. -/
theorem snd_get (t : Contexts) (es : Context) : (t.get es).2 = t.insert es := by
  unfold get
  split
  · rename_i place hplace
    obtain ⟨hlt, heq, -⟩ := List.idxOf?_eq_some_iff.1 hplace
    have hmem : es ∈ t := heq ▸ List.getElem_mem hlt
    rw [OrderedSet.insert, if_pos hmem]
  · rfl

/-- The context that is made of some elements has these elements. -/
theorem holds_get (t : Contexts) (es : Context) : (t.get es).2.Holds (t.get es).1 es := by
  unfold get
  split
  · rename_i place hplace
    obtain ⟨hlt, heq, -⟩ := List.idxOf?_eq_some_iff.1 hplace
    exact List.getElem?_eq_some_iff.2 ⟨hlt, heq⟩
  · rename_i hnone
    have hnew : es ∉ t := List.idxOf?_eq_none_iff.1 hnone
    rw [Holds, OrderedSet.toList_insert, if_neg hnew]
    exact List.getElem?_concat_length

end Contexts

end HeapFlow
