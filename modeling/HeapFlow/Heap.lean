import HeapFlow.Ir.Draft
import HeapFlow.Ir.Program
/-!
# HeapFlow.Heap

**Abstract heap objects.** One object stands for everything that an allocation site creates. Mock
objects stand for what no site of the program creates, such as the receiver of an instance entry
method; a mock object is identified by its description.
-/

namespace HeapFlow

/-- An abstract heap object. -/
inductive Obj
  /-- What the allocation at a site creates. -/
  | alloc (site : Site) (ty : Ty)
  /-- A described object that belongs to a method. -/
  | mock (description : String) (ty : Ty) (container : MethodId)
deriving DecidableEq, Repr

instance : Keyed Obj where
  key
    | .alloc site _ => Keyed.key site
    | .mock description _ _ => Keyed.key description

namespace Obj

def ty : Obj → Ty
  | alloc _ ty => ty
  | mock _ ty _ => ty

/-- The class of the object; arrays have none. -/
def class? (o : Obj) : Option ClassRef := o.ty.class?

/-- The method that contains the allocation site or owns the mock object. -/
def container : Obj → MethodId
  | alloc site _ => site.method
  | mock _ _ container => container

/-- Whether the object is the mock object of a description. -/
def isMock (description : String) : Obj → Bool
  | alloc .. => false
  | mock d _ _ => d == description

end Obj

/-- An object as the text of its allocation site or its description. -/
def Program.objText (p : Program) : Obj → String
  | .alloc site _ =>
    let line := ((p.method? site.method).bind fun m => m.body[site.index]?).map Located.line
    "NewObj\x7b" ++ p.signature site.method ++ "[" ++ toString site.index ++ "@L" ++
      int32Text (line.getD Draft.noLine) ++ "] " ++ p.siteText site ++ "\x7d"
  | .mock description _ _ => "MockObj\x7b" ++ description ++ "\x7d"

/-- The objects that analyses have met, in the order in which they were met. -/
structure Heap where
  objects : OrderedSet Obj

namespace Heap

def empty : Heap := ⟨∅⟩

instance : Inhabited Heap := ⟨empty⟩

/-- The object of an allocation site. -/
def alloc (h : Heap) (site : Site) (ty : Ty) : Obj × Heap :=
  let o := Obj.alloc site ty
  (o, ⟨h.objects.insert o⟩)

/-- The mock object of a description. The first request for it decides its type and its method. -/
def mock (h : Heap) (description : String) (ty : Ty) (container : MethodId) : Obj × Heap :=
  match h.objects.toList.find? (Obj.isMock description) with
  | some o => (o, h)
  | none =>
    let o := Obj.mock description ty container
    (o, ⟨h.objects.insert o⟩)

end Heap

end HeapFlow
