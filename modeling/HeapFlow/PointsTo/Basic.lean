import HeapFlow.CallGraph.Basic
import HeapFlow.Context.Basic
import HeapFlow.Data.Table
/-!
# HeapFlow.PointsTo.Basic

**Pointers, points-to sets and what they say of a program.** A pointer is a place that may hold
references: a variable under a context, a static field, a field of an object or the elements of an
array. Array elements are not told apart. A points-to analysis gives each pointer the set of the
objects that it may refer to, together with the flow edges between pointers and the calls between
methods.

The queries forget contexts: an object counts once, whatever its heap contexts, and a variable has
what it has under any context.
-/

namespace HeapFlow

/-- A place that may hold references. -/
inductive Pointer
  | var (v : Contextual Local)
  | static (f : Field)
  | field (base : CObj) (f : Field)
  | elements (array : CObj)
deriving DecidableEq, Repr

instance : Keyed Pointer where
  key
    | .var v => Keyed.key v
    | .static f => Keyed.key f
    | .field base f => Keyed.mix (Keyed.key base) (Keyed.key f)
    | .elements array => Keyed.key array

namespace Pointer

/-! ### What a pointer stands for when contexts are forgotten -/

def var? : Pointer → Option Local
  | var v => some v.val
  | _ => none

def static? : Pointer → Option Field
  | static f => some f
  | _ => none

def field? : Pointer → Option (Obj × Field)
  | field base f => some (base.val, f)
  | _ => none

def array? : Pointer → Option Obj
  | elements array => some array.val
  | _ => none

end Pointer

/-- The objects that a pointer may refer to, in the order in which they arrived. -/
abbrev ObjSet := OrderedSet CObj

/-- What variables may refer to, whatever the contexts. -/
abbrev VarObjects := Table Local (OrderedSet Obj)

/-- What a variable may refer to. -/
def VarObjects.of (t : VarObjects) (v : Local) : OrderedSet Obj := t.getD v ∅

/-- The variables that may refer to an object. -/
def VarObjects.pointingTo (t : VarObjects) (o : Obj) : List Local :=
  (t.entries.filter fun e => decide (o ∈ e.2)).map Prod.fst

/-- What a points-to analysis has found. -/
structure PointsTo where
  /-- The objects under their heap contexts. -/
  objects : OrderedSet CObj
  /-- The pointers in the order in which they were first mentioned, with what they refer to. -/
  sets : Table Pointer ObjSet
  /-- Where references flow to from each pointer. -/
  flows : Table Pointer (OrderedSet Pointer)
  /-- The calls between methods under contexts. -/
  graph : CallGraph CSite CMethod

namespace PointsTo

def empty : PointsTo := ⟨∅, ∅, ∅, ∅⟩

instance : Inhabited PointsTo := ⟨empty⟩

/-- What a pointer may refer to. -/
def get (r : PointsTo) (ptr : Pointer) : ObjSet := r.sets.getD ptr ∅

/-- Where references flow to from a pointer, in the order in which the edges were found. -/
def flowsFrom (r : PointsTo) (ptr : Pointer) : OrderedSet Pointer := r.flows.getD ptr ∅

/-- The edges along which references flow, source by source. -/
def flowEdges (r : PointsTo) : List (Pointer × Pointer) :=
  r.flows.entries.flatMap fun (source, targets) => targets.toList.map (source, ·)

/-! ### Without contexts -/

section Merged

variable {κ : Type} [DecidableEq κ] [Keyed κ] (key? : Pointer → Option κ)

/-- Adds what a pointer may refer to to what its key may refer to. A pointer without objects adds no
row. -/
def mergeRow (t : Table κ (OrderedSet Obj)) : Pointer × ObjSet → Table κ (OrderedSet Obj)
  | (ptr, objs) =>
    match key? ptr with
    | none => t
    | some k =>
      if objs.isEmpty then t
      else t.set k ((t.getD k ∅).insertAll (objs.toList.map Contextual.val))

/-- What the pointers of one kind may refer to, merged where they have the same key. -/
def merged (r : PointsTo) : Table κ (OrderedSet Obj) := r.sets.entries.foldl (mergeRow key?) ∅

end Merged

/-- The variables that may refer to some object, with what they may refer to under any context. -/
def varObjects (r : PointsTo) : VarObjects := r.merged Pointer.var?

/-- What a variable may refer to under any context. -/
def ofVar (r : PointsTo) (v : Local) : OrderedSet Obj := r.varObjects.of v

/-- What a field of an object may refer to. -/
def ofField (r : PointsTo) (o : Obj) (f : Field) : OrderedSet Obj :=
  (r.merged Pointer.field?).getD (o, f) ∅

/-- What a static field may refer to. -/
def ofStatic (r : PointsTo) (f : Field) : OrderedSet Obj := (r.merged Pointer.static?).getD f ∅

/-- What the elements of an array may refer to. -/
def ofArray (r : PointsTo) (o : Obj) : OrderedSet Obj := (r.merged Pointer.array?).getD o ∅

/-- The variables that may refer to some object. -/
def vars (r : PointsTo) : List Local := r.varObjects.keys

/-- The objects that the analysis met. -/
def objectsMet (r : PointsTo) : OrderedSet Obj := r.objects.image Contextual.val

/-- Whether two variables may refer to the same object. The objects of the one with fewer of them are
looked up among those of the other. -/
def mayAlias (r : PointsTo) (a b : Local) : Bool :=
  let ofA := r.ofVar a
  let ofB := r.ofVar b
  if ofA.size ≤ ofB.size then ofA.toList.any fun o => decide (o ∈ ofB)
  else ofB.toList.any fun o => decide (o ∈ ofA)

/-- The variables that may refer to an object. -/
def pointingTo (r : PointsTo) (o : Obj) : List Local := r.varObjects.pointingTo o

/-- The edge without its contexts. -/
def forgetContexts (e : CallGraph.Edge CSite CMethod) : CallGraph.Edge Site MethodId :=
  ⟨e.kind, e.site.val, e.callee.val⟩

/-- The call graph without contexts. -/
def methodGraph (r : PointsTo) : MethodGraph :=
  let start : MethodGraph := { (∅ : MethodGraph) with
    entries := r.graph.entries.image Contextual.val
    reachable := r.graph.reachable.image Contextual.val }
  (r.graph.edges.map forgetContexts).foldl CallGraph.addEdge start

/-! ### Instances of a variable -/

/-- The contexts under which a variable is known, with what it may refer to under each. -/
def instances (r : PointsTo) (v : Local) : List (Context × ObjSet) :=
  r.sets.entries.filterMap fun e =>
    match e.1 with
    | .var w => if w.val = v then some (w.ctx, e.2) else none
    | _ => none

end PointsTo

namespace Program

/-! ### Printing -/

def localText (p : Program) (v : Local) : String :=
  ((p.method? v.method).map Method.name).getD "" ++ "/" ++ v.var.name

def pointerText (p : Program) : Pointer → String
  | .var v => p.contextualText p.localText v
  | .static f => f.signature
  | .field base f => p.cobjText base ++ "." ++ f.name
  | .elements array => p.cobjText array ++ "[*]"

/-- A call under contexts: the method that contains it, the call and the callee. -/
def cedgeText (p : Program) (e : CallGraph.Edge CSite CMethod) : String :=
  "[" ++ e.kind.label ++ "] " ++ p.cmethodText ⟨e.site.ctx, e.site.val.method⟩ ++ "/" ++
    p.csiteText e.site ++ " -> " ++ p.cmethodText e.callee

/-- Texts in increasing order. -/
def sorted (texts : List String) : List String := texts.mergeSort (fun a b => decide (a ≤ b))

/-- A variable with the objects that it may refer to, in increasing order of their texts. -/
def pointsToLine (p : Program) (v : Local) (objs : OrderedSet Obj) : String :=
  "  " ++ p.signature v.method ++ "/" ++ v.var.name ++ " -> \x7b" ++
    Text.joined ", " (sorted (objs.toList.map p.objText)) ++ "\x7d"

/-- The points-to sets of the variables in increasing order, and the call edges in the order in
which they were found. -/
def pointsToLines (p : Program) (r : PointsTo) : List String :=
  ["Points-to sets of variables:"] ++
    sorted (r.varObjects.entries.map fun (v, objs) => p.pointsToLine v objs) ++
    ["Call graph edges:"] ++
    r.methodGraph.edges.map fun e => "  " ++ p.edgeText "[" "]" e

end Program

end HeapFlow
