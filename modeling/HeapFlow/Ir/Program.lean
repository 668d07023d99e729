import HeapFlow.Ir.Method
/-!
# HeapFlow.Ir.Program

**Programs: classes, their members and the entry methods.** Where a name was given twice, the last
declaration with it is the one that the name finds. Walks along superclasses visit at most as many
classes as there are, so they end in every program.
-/

namespace HeapFlow

/-- A class or an interface. Every interface is abstract. -/
structure Class where
  ref : ClassRef
  isInterface : Bool
  isAbstract : Bool
  super? : Option ClassRef
  interfaces : List ClassRef
  fields : List Field
  methods : List Method

namespace Class

def name (c : Class) : String := c.ref.name

/-- A class as it is declared, without members. -/
def declare (ref : ClassRef) (isInterface isAbstract : Bool) : Class :=
  { ref, isInterface, isAbstract := isAbstract || isInterface, super? := none, interfaces := [],
    fields := [], methods := [] }

/-- The field declared in this very class. -/
def field? (c : Class) (name : String) : Option Field :=
  (c.fields.filter (·.name == name)).getLast?

/-- The method declared in this very class. -/
def method? (c : Class) (subsignature : String) : Option Method :=
  (c.methods.filter (·.subsignature == subsignature)).getLast?

/-- The class, its superclass and interfaces and its members. -/
def lines (c : Class) : List String :=
  let kind := if c.isInterface then "interface " else "class "
  let super := (c.super?.map fun s => " extends " ++ s.name).getD ""
  let interfaces :=
    if c.interfaces.isEmpty then ""
    else (if c.isInterface then " extends " else " implements ") ++
      Text.joined ", " (c.interfaces.map ClassRef.name)
  (kind ++ c.name ++ super ++ interfaces) ::
    (c.fields.map fun f => "  " ++ f.signature ++ (if f.isStatic then " static" else "")) ++
    c.methods.flatMap Method.lines

end Class

/-- A program. -/
structure Program where
  classes : List Class
  entries : List MethodId

namespace Program

def empty : Program := ⟨[], []⟩

instance : Inhabited Program := ⟨empty⟩

/-! ### Lookup -/

def class? (p : Program) (c : ClassRef) : Option Class := p.classes[c.index]?

/-- The last class declared with a name. -/
def classNamed? (p : Program) (name : String) : Option Class :=
  (p.classes.filter (·.name == name)).getLast?

/-- A reference to the class with a name. -/
def classRef? (p : Program) (name : String) : Option ClassRef := (p.classNamed? name).map Class.ref

def method? (p : Program) (id : MethodId) : Option Method := do
  let c ← p.class? id.owner
  c.methods[id.index]?

/-- All methods, class by class. -/
def methods (p : Program) : List Method := p.classes.flatMap Class.methods

/-- The control-flow graph of a method with a complete body. -/
def cfg? (p : Program) (id : MethodId) : Option Cfg := do
  let m ← p.method? id
  m.cfg

/-- The statement at a site. -/
def stmt? (p : Program) (s : Site) : Option Stmt := do
  let m ← p.method? s.method
  m.stmt? s.index

theorem stmt?_eq_some {p : Program} {site : Site} {s : Stmt} :
    p.stmt? site = some s ↔
      ∃ m, p.method? site.method = some m ∧ m.stmt? site.index = some s := by
  simp [stmt?, Option.bind_eq_some_iff]

/-- The type that a name denotes. It is a value, so the same name gives the same type each time. -/
def type? (p : Program) (name : String) : Option Ty := Ty.parse? p.classRef? name.toList

/-- The position of the last point before the parameter list, which ends the name of the class. -/
def splitQualified? (name : String) : Option (String × String) :=
  let cs := name.toList
  let head := cs.takeWhile (· != '(')
  let memberLength := (head.reverse.takeWhile (· != '.')).length
  if memberLength = head.length then none
  else
    let dot := head.length - memberLength - 1
    some (String.ofList (cs.take dot), String.ofList (cs.drop (dot + 1)))

/-- The method with a qualified name: a class, a point, and a subsignature or the name of the only
method so named in the class. -/
def lookupMethod? (p : Program) (name : String) : Option Method := do
  let (className, member) ← splitQualified? name
  let c ← p.classNamed? className
  match c.method? member with
  | some m => some m
  | none =>
    match c.methods.filter (·.name == member) with
    | [m] => some m
    | _ => none

/-! ### Superclasses -/

/-- A class and what is above it, walking at most `bound` steps up. -/
def chainUpTo (p : Program) : Nat → ClassRef → List ClassRef
  | 0, _ => []
  | bound + 1, c =>
    match p.class? c >>= Class.super? with
    | some super => c :: chainUpTo p bound super
    | none => [c]

/-- A class, its superclass, the superclass of that one and so on. -/
def superChain (p : Program) (c : ClassRef) : List ClassRef := p.chainUpTo p.classes.length c

/-- The field that a name denotes in a class: its own, or else the nearest one above it. -/
def resolveField? (p : Program) (c : ClassRef) (name : String) : Option Field :=
  (p.superChain c).findSome? fun c => p.class? c >>= (Class.field? · name)

/-! ### Changing parts -/

/-- Changes the class at a place. -/
def modifyClass (p : Program) (c : ClassRef) (f : Class → Class) : Program :=
  { p with classes := p.classes.modify c.index f }

/-- Puts a method in its place. -/
def setMethod (p : Program) (m : Method) : Program :=
  p.modifyClass m.id.owner fun c => { c with methods := c.methods.set m.id.index m }

/-! ### Printing -/

/-- The signature of a method. -/
def signature (p : Program) (id : MethodId) : String :=
  ((p.method? id).map Method.signature).getD ""

/-- A node as `method[index]`. -/
def pointText (p : Program) (pt : Point) : String :=
  let name := ((p.method? pt.method).map Method.name).getD ""
  let index : Int := match pt.node with
    | .entry => -1
    | .stmt i => i
    | .exit => ((p.cfg? pt.method).map fun g => (g.size : Int)).getD 0
  name ++ "[" ++ toString index ++ "]"

/-- The text of the statement at a site. -/
def siteText (p : Program) (s : Site) : String := ((p.stmt? s).map Stmt.text).getD ""

def lines (p : Program) : List String := p.classes.flatMap Class.lines

/-- Adds an entry method. -/
def addEntry (p : Program) (id : MethodId) : Program := { p with entries := p.entries ++ [id] }

end Program

end HeapFlow
