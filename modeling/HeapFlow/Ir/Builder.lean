import HeapFlow.Ir.Draft
import HeapFlow.Ir.Program
/-!
# HeapFlow.Ir.Builder

**Building a program step by step.** Classes come first, their superclasses, interfaces and members
may be added in any order. Each declared method has a draft; `build` finishes the drafts in the
order in which the methods were declared.
-/

namespace HeapFlow

/-- A program in the making. -/
structure Builder where
  /-- The program without bodies. -/
  skeleton : Program
  /-- The drafts of the declared methods. -/
  drafts : Table MethodId Draft

namespace Builder

def empty : Builder := ⟨.empty, ∅⟩

/-- The program as it stands. -/
def program (b : Builder) : Program :=
  b.drafts.entries.foldl (fun p (_, d) => p.setMethod d.method) b.skeleton

/-! ### Classes and members -/

/-- Declares a class. -/
def addClass (b : Builder) (name : String) (isInterface isAbstract : Bool) : ClassRef × Builder :=
  let ref : ClassRef := ⟨b.skeleton.classes.length, name⟩
  let classes := b.skeleton.classes ++ [Class.declare ref isInterface isAbstract]
  (ref, { b with skeleton := { b.skeleton with classes } })

/-- Changes the declaration of a class. -/
def modifyClass (b : Builder) (c : ClassRef) (f : Class → Class) : Builder :=
  { b with skeleton := b.skeleton.modifyClass c f }

def setSuper (b : Builder) (c super : ClassRef) : Builder :=
  b.modifyClass c fun cls => { cls with super? := some super }

def addInterface (b : Builder) (c interface : ClassRef) : Builder :=
  b.modifyClass c fun cls => { cls with interfaces := cls.interfaces ++ [interface] }

/-- Declares a field of a class of the program. -/
def addField (b : Builder) (c : Class) (name : String) (ty : Ty) (isStatic : Bool) :
    Field × Builder :=
  let f : Field := ⟨c.ref, c.fields.length, name, ty, isStatic⟩
  (f, b.modifyClass c.ref fun cls => { cls with fields := cls.fields ++ [f] })

/-- Declares a method of a class of the program. The methods of an interface are abstract. -/
def addMethod (b : Builder) (c : Class) (name : String) (params : List (String × Ty))
    (returnType : Ty) (isStatic isAbstract : Bool) : Method × Builder :=
  let id : MethodId := ⟨c.ref, c.methods.length⟩
  let m := Method.declare id name params returnType isStatic (isAbstract || c.isInterface)
  let b := b.modifyClass c.ref fun cls => { cls with methods := cls.methods ++ [m] }
  (m, { b with drafts := b.drafts.set id (.ofMethod m) })

def addEntry (b : Builder) (id : MethodId) : Builder :=
  { b with skeleton := b.skeleton.addEntry id }

/-! ### Bodies -/

def draft? (b : Builder) (id : MethodId) : Option Draft := b.drafts.get? id

def setDraft (b : Builder) (d : Draft) : Builder :=
  { b with drafts := b.drafts.set d.method.id d }

/-- Finishes one method. -/
def finish (b : Builder) (d : Draft) : Builder × Option UndefinedLabel :=
  let (d, missing) := d.finish
  (b.setDraft d, missing.map fun l => ⟨l, d.method.signature⟩)

/-- Finishes methods one after the other, up to the first that has an undefined label. -/
def finishAll (b : Builder) : List Draft → Builder × Option UndefinedLabel
  | [] => (b, none)
  | d :: rest =>
    match b.finish d with
    | (b, none) => finishAll b rest
    | (b, some e) => (b, some e)

/-- Finishes every method. -/
def build (b : Builder) : Builder × Option UndefinedLabel :=
  b.finishAll (b.drafts.entries.map Prod.snd)

end Builder

end HeapFlow
