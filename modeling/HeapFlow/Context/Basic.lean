import HeapFlow.Heap
/-!
# HeapFlow.Context.Basic

**Contexts.** A context is a sequence of elements, the most recent one last: call sites, receiver
objects or classes. Contexts are values, so two of them are the same context exactly when their
elements are. An analysis keeps the set of the contexts that it has met.
-/

namespace HeapFlow

/-- An element of a context. -/
inductive ContextElement
  | site (s : Site)
  | obj (o : Obj)
  | cls (c : ClassRef)
deriving DecidableEq, Repr

instance : Keyed ContextElement where
  key
    | .site s => Keyed.key s
    | .obj o => Keyed.key o
    | .cls c => Keyed.key c

/-- A sequence of elements, the most recent one last. -/
abbrev Context := List ContextElement

namespace Context

/-- The last `limit` elements. -/
def truncate (c : Context) (limit : Nat) : Context := c.drop (c.length - limit)

/-- A context extended by an element, cut to the most recent `limit` elements. -/
def append (parent : Context) (e : ContextElement) (limit : Nat) : Context :=
  truncate (parent ++ [e]) limit

theorem length_truncate (c : Context) (limit : Nat) :
    (c.truncate limit).length = min c.length limit := by
  rw [truncate, List.length_drop]
  omega

@[simp] theorem truncate_nil (limit : Nat) : truncate [] limit = [] := List.drop_nil

/-- The last elements of the last elements. -/
theorem truncate_truncate {m n : Nat} (h : m ≤ n) (c : Context) :
    (c.truncate n).truncate m = c.truncate m := by
  rw [truncate, length_truncate, truncate, List.drop_drop, truncate]
  congr 1
  omega

/-- A shorter limit may be applied afterwards. -/
theorem truncate_append {m n : Nat} (h : m ≤ n) (parent : Context) (e : ContextElement) :
    (parent.append e n).truncate m = parent.append e m := truncate_truncate h _

/-- What is cut off before an extension would have been cut off after it. -/
theorem append_truncate {m n : Nat} (h : m ≤ n + 1) (parent : Context) (e : ContextElement) :
    (parent.truncate n).append e m = parent.append e m := by
  have hsnoc : parent.truncate n ++ [e] = truncate (parent ++ [e]) (n + 1) := by
    rw [truncate, truncate, List.length_append, List.length_singleton, Nat.add_sub_add_right,
      List.drop_append_of_le_length (Nat.sub_le ..)]
  rw [append, hsnoc, truncate_truncate h, append]

theorem map_truncate (f : ContextElement → ContextElement) (c : Context) (limit : Nat) :
    List.map f (c.truncate limit) = truncate (c.map f) limit := by
  rw [truncate, truncate, List.map_drop, List.length_map]

theorem map_append (f : ContextElement → ContextElement) (parent : Context) (e : ContextElement)
    (limit : Nat) : List.map f (parent.append e limit) = append (parent.map f) (f e) limit := by
  rw [append, map_truncate, List.map_append, append, List.map_singleton]

end Context

/-- The contexts that an analysis has met. -/
abbrev Contexts := OrderedSet Context

namespace Contexts

/-- The empty context is always there. -/
def initial : Contexts := .ofList [[]]

end Contexts

/-- Something of the program under a context. -/
structure Contextual (α : Type) where
  ctx : Context
  val : α
deriving Repr

/-- What is under the contexts is compared first, as it is shorter than they are. -/
instance {α : Type} [DecidableEq α] : DecidableEq (Contextual α) := fun x y =>
  if hv : x.val = y.val then
    if hc : x.ctx = y.ctx then isTrue (by cases x; cases y; cases hv; cases hc; rfl)
    else isFalse fun h => hc (h ▸ rfl)
  else isFalse fun h => hv (h ▸ rfl)

instance {α : Type} [Keyed α] : Keyed (Contextual α) :=
  ⟨fun x => Keyed.mix (Keyed.key x.ctx) (Keyed.key x.val)⟩

/-- A method under a calling context. -/
abbrev CMethod := Contextual MethodId

/-- A call site under the context of its method. -/
abbrev CSite := Contextual Site

/-- An object under a heap context. -/
abbrev CObj := Contextual Obj

namespace Program

/-- A call site as `method@index`, an object by its text, a class by its name. -/
def elementText (p : Program) : ContextElement → String
  | .site s => ((p.method? s.method).map Method.name).getD "" ++ "@" ++ toString s.index
  | .obj o => p.objText o
  | .cls c => c.name

def contextText (p : Program) (c : Context) : String :=
  "[" ++ Text.joined ", " (c.map p.elementText) ++ "]"

/-- A text under a context. -/
def contextualText {α : Type} (p : Program) (text : α → String) (x : Contextual α) : String :=
  p.contextText x.ctx ++ ":" ++ text x.val

def cobjText (p : Program) (o : CObj) : String := p.contextualText p.objText o

def cmethodText (p : Program) (m : CMethod) : String := p.contextualText p.signature m

def csiteText (p : Program) (s : CSite) : String := p.contextualText p.siteText s

end Program

end HeapFlow
