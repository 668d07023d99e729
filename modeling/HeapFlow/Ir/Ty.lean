import HeapFlow.Data.Index
import HeapFlow.Text
/-!
# HeapFlow.Ir.Ty

**Types of the intermediate representation.** Types are compared as values. No table of the types that were
made is kept: where a program makes one object for each primitive type, one for the type of each class and
one for the arrays of each type of elements, two types are the same object exactly if they are equal as
values here, since that is so for their elements. A class is referred to by its place in the program
together with its name, so that a type can be printed on its own.

`Ty.parse?` reads a type name: a builtin name or a class name, followed by any number of `[]`, with
blanks allowed at the ends and around each suffix.
-/

namespace HeapFlow

/-- A reference to the class at a place in the program's list of classes. -/
structure ClassRef where
  index : Nat
  name : String
deriving DecidableEq, Repr, Inhabited

instance : Keyed ClassRef := ⟨ClassRef.index⟩

/-- The primitive types. -/
inductive Prim
  | boolean
  | byte
  | char
  | short
  | int
  | long
  | float
  | double
deriving DecidableEq, Repr

namespace Prim

def name : Prim → String
  | boolean => "boolean"
  | byte => "byte"
  | char => "char"
  | short => "short"
  | int => "int"
  | long => "long"
  | float => "float"
  | double => "double"

def all : List Prim := [boolean, byte, char, short, int, long, float, double]

/-- Whether the values of the type fit in 32 bits and count as integers. -/
def holdsInt : Prim → Bool
  | boolean | byte | char | short | int => true
  | long | float | double => false

end Prim

/-- The types of variables, fields and results. -/
inductive Ty
  | prim (p : Prim)
  | cls (c : ClassRef)
  | array (element : Ty)
  | null
  | void
deriving DecidableEq, Repr

instance : Inhabited Ty := ⟨.void⟩

namespace Ty

def int : Ty := .prim .int

def boolean : Ty := .prim .boolean

def name : Ty → String
  | prim p => p.name
  | cls c => c.name
  | array e => e.name ++ "[]"
  | null => "null"
  | void => "void"

/-- Whether constant propagation tracks the values of the type. -/
def holdsInt : Ty → Bool
  | prim p => p.holdsInt
  | _ => false

/-- Whether a value of the type may be a reference into the heap. -/
def isReference : Ty → Bool
  | cls _ | array _ | null => true
  | prim _ | void => false

/-- The class of the objects of a class type. -/
def class? : Ty → Option ClassRef
  | cls c => some c
  | _ => none

def isArray : Ty → Bool
  | array _ => true
  | _ => false

/-- The type of the elements; a type without elements stands for itself. -/
def element : Ty → Ty
  | array e => e
  | t => t

/-! ### Reading type names -/

/-- The types whose names are fixed. -/
def builtins : List Ty := Prim.all.map prim ++ [null, void]

/-- The type with a fixed name. -/
def builtin? (name : String) : Option Ty := builtins.find? (·.name == name)

/-- A name without the `[]` that ends it. -/
def dropArraySuffix? (cs : List Char) : Option (List Char) :=
  match cs.reverse with
  | ']' :: '[' :: rest => some rest.reverse
  | _ => none

theorem length_dropArraySuffix? {cs rest : List Char} (h : dropArraySuffix? cs = some rest) :
    rest.length < cs.length := by
  unfold dropArraySuffix? at h
  split at h
  · rename_i r hr
    have hlen := congrArg List.length hr
    have := Option.some.inj h
    subst this
    simp only [List.length_reverse, List.length_cons] at hlen ⊢
    omega
  · cases h

/-- The type that a name denotes, where `classes` finds the declared classes. -/
def parse? (classes : String → Option ClassRef) (cs : List Char) : Option Ty :=
  let name := Text.trim cs
  match _h : dropArraySuffix? name with
  | some rest => (parse? classes rest).map array
  | none => (builtin? (String.ofList name)).or ((classes (String.ofList name)).map cls)
termination_by cs.length
decreasing_by
  exact Nat.lt_of_lt_of_le (length_dropArraySuffix? _h) (Text.length_trim_le cs)

end Ty

end HeapFlow
