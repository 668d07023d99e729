import HeapFlow.Ir.Builder
import HeapFlow.Ir.LoadError
import HeapFlow.Json.Reader
/-!
# HeapFlow.Ir.Document

**Reading a program from its JSON description.** The description is read in passes over the list of
classes, so that a declaration may name what is declared further down: first the names of the
classes, then superclasses and interfaces, then fields, then the declarations of methods, then their
bodies in the order of declaration, and last the entry methods. The first fault met is reported.

A statement is read into a `Stmt` on its own, from the variables of its method and the classes of
the program; the draft of the method attaches labels and lines.
-/

namespace HeapFlow

open Json (Object)

namespace Document

/-! ### Parts of a declaration -/

section Parts

variable (spot : Spot)

/-- Refuses with a fault at the spot. -/
def refuse {α : Type} (f : Fault) : Except LoadError α := .error (.fault spot f)

/-- A value that has to be there. -/
def require {α : Type} (x : Option α) (f : Fault) : Except LoadError α :=
  match x with
  | some a => .ok a
  | none => refuse spot f

def string (o : Object) (key : String) : Except LoadError String :=
  require spot (o.string? key) (.missingString key)

def type (p : Program) (o : Object) (key : String) : Except LoadError Ty := do
  let name ← string spot o key
  require spot (p.type? name) (.unknownType name)

def classNamed (p : Program) (o : Object) (key : String) : Except LoadError Class := do
  let name ← string spot o key
  require spot (p.classNamed? name) (.unknownClass name)

def var (m : Method) (o : Object) (key : String) : Except LoadError Var := do
  let name ← string spot o key
  require spot (m.var? name) (.unknownVariable name)

/-- A variable that may be left out. -/
def var? (m : Method) (o : Object) (key : String) : Except LoadError (Option Var) :=
  if o.has key then (var spot m o key).map some else .ok none

/-- Whether an integer has a representation in 32 bits. -/
def inInt32 (n : Int) : Bool := -2147483648 ≤ n && n ≤ 2147483647

def int32 (v : Json.Value) (what : String) : Except LoadError Int32 :=
  match v.int64? with
  | some n => if inInt32 n then .ok (Int32.ofInt n) else refuse spot (.notInt32 what)
  | none => refuse spot (.notInt32 what)

end Parts

/-! ### Statements -/

section Statements

variable (spot : Spot) (p : Program) (m : Method) (o : Object)

def lhs : Except LoadError Var := var spot m o "lhs"

/-- A jump that is not resolved yet. -/
def jump (o : Object) (key : String) : Except LoadError Jump := do
  let label ← string spot o key
  return ⟨label, none⟩

def readNew : Except LoadError Stmt := do
  let l ← lhs spot m o
  let c ← classNamed spot p o "class"
  if c.isAbstract then refuse spot (.cannotInstantiate c.name)
  else return .assign l (.new (.object c.ref))

def readNewArray : Except LoadError Stmt := do
  let l ← lhs spot m o
  let element ← type spot p o "elem"
  let length ← var spot m o "length"
  return .assign l (.new (.array element length))

def readConst : Except LoadError Stmt := do
  let l ← lhs spot m o
  match o.get? "value" with
  | none => refuse spot .constWithoutValue
  | some v =>
    if v.isNull then return .assign l .null
    else
      let n ← int32 spot v "value"
      return .assign l (.int n)

def readCopy : Except LoadError Stmt := do
  let l ← lhs spot m o
  let r ← var spot m o "rhs"
  return .assign l (.var r)

def readCast : Except LoadError Stmt := do
  let l ← lhs spot m o
  let r ← var spot m o "rhs"
  let ty ← type spot p o "type"
  return .assign l (.cast ty r)

def readIf : Except LoadError Stmt := do
  let name ← string spot o "operator"
  let x ← var spot m o "x"
  let y ← var spot m o "y"
  match BinOp.ofName? name with
  | some (.cmp op) =>
    let target ← jump spot o "target"
    return .ifGoto op x y target
  | _ => refuse spot (.notComparison name)

def readBinary : Except LoadError Stmt := do
  let name ← string spot o "operator"
  let x ← var spot m o "x"
  let y ← var spot m o "y"
  let l ← lhs spot m o
  let op ← require spot (BinOp.ofName? name) (.unknownOperator name)
  return .assign l (.binary op x y)

/-- The field that a load or store names: with a base, an instance field of its class; without, a
static field of the named class. -/
def fieldPlace : Except LoadError Place := do
  let name ← string spot o "field"
  let base ← var? spot m o "base"
  let owner ← match base with
    | some b => require spot b.ty.class? (.baseNotClass b.name)
    | none => (classNamed spot p o "class").map Class.ref
  let f ← require spot (p.resolveField? owner name) (.noField owner.name name)
  match base, f.isStatic with
  | some b, false => return .field b f
  | none, true => return .static f
  | _, _ => refuse spot (.wrongStaticness name)

def readLoad : Except LoadError Stmt := do
  let place ← fieldPlace spot p m o
  let l ← lhs spot m o
  return .assign l (.load place)

def readStore : Except LoadError Stmt := do
  let place ← fieldPlace spot p m o
  let r ← var spot m o "rhs"
  return .store place r

/-- The element that an array access names. -/
def elementPlace : Except LoadError Place := do
  let array ← var spot m o "base"
  if !array.ty.isArray then refuse spot (.notArray array.name)
  else
    let index ← var spot m o "index"
    return .element array index

def readArrayLoad : Except LoadError Stmt := do
  let place ← elementPlace spot m o
  let l ← lhs spot m o
  return .assign l (.load place)

def readArrayStore : Except LoadError Stmt := do
  let place ← elementPlace spot m o
  let r ← var spot m o "rhs"
  return .store place r

/-- The receiver of a call, which has to be there for some kinds and must not be for the others. -/
def receiver (kind : CallKind) : Except LoadError (Option Var) :=
  if kind.needsReceiver then (var spot m o "base").map some
  else if o.has "base" then refuse spot (.unexpectedReceiver kind.name)
  else .ok none

def readInvoke : Except LoadError Stmt := do
  let kindName ← string spot o "kind"
  let kind ← require spot (CallKind.ofName? kindName) (.unknownInvokeKind kindName)
  let c ← classNamed spot p o "class"
  let subsignature ← string spot o "method"
  let base ← receiver spot m o kind
  let args ← (o.elements "args").mapM fun v =>
    require spot (v.string? >>= m.var?) (.badArgument subsignature)
  let result ← var? spot m o "lhs"
  return .invoke result ⟨kind, some c.ref, subsignature, base, args⟩

def readCase (v : Json.Value) : Except LoadError (Int32 × Jump) := do
  let c ← require spot v.object? .malformedCase
  let value ← require spot (c.get? "value") .malformedCase
  let n ← int32 spot value "case value"
  let target ← jump spot c "target"
  return (n, target)

def readSwitch : Except LoadError Stmt := do
  let v ← var spot m o "var"
  let cases ← (o.elements "cases").mapM (readCase spot)
  let default ← jump spot o "default"
  return .switch v cases default

def readGoto : Except LoadError Stmt := do
  let target ← jump spot o "target"
  return .goto target

def readReturn : Except LoadError Stmt := do
  let v ← var? spot m o "var"
  return .ret v

/-- The statement that an operation names. -/
def readStmt : Except LoadError Stmt := do
  let op ← string spot o "op"
  match op with
  | "new" => readNew spot p m o
  | "newarray" => readNewArray spot p m o
  | "const" => readConst spot m o
  | "copy" => readCopy spot m o
  | "cast" => readCast spot p m o
  | "binary" => readBinary spot m o
  | "if" => readIf spot m o
  | "load" => readLoad spot p m o
  | "store" => readStore spot p m o
  | "aload" => readArrayLoad spot m o
  | "astore" => readArrayStore spot m o
  | "invoke" => readInvoke spot p m o
  | "switch" => readSwitch spot m o
  | "goto" => readGoto spot o
  | "return" => readReturn spot m o
  | "nop" => return .nop
  | _ => refuse spot (.unknownStatement op)

end Statements

/-! ### Bodies -/

/-- Declares a variable of a method. -/
def readVar (p : Program) (d : Draft) (v : Json.Value) : Except LoadError Draft := do
  let spot := Spot.method d.method.signature
  let o ← require spot v.object? .variableNotObject
  let name ← string spot o "name"
  if (d.method.var? name).isSome then refuse spot (.variableTwice name)
  else
    let ty ← type spot p o "type"
    return d.addVar name ty

/-- Appends a statement with its label and line. -/
def readLine (p : Program) (d : Draft) (v : Json.Value) (index : Nat) : Except LoadError Draft := do
  let spot := Spot.stmt d.method.signature index
  let o ← require spot v.object? .notObject
  let s ← readStmt spot p d.method o
  let d := match o.string? "label" with
    | some l => d.label l
    | none => d
  let d := match o.int64? "line" with
    | some n => d.atLine (Int32.ofInt n)
    | none => d
  return d.emit s

/-- Appends statements, the first of which has the index `index`. -/
def readLines (p : Program) : Draft → Nat → List Json.Value → Except LoadError Draft
  | d, _, [] => .ok d
  | d, index, v :: rest => do
    let d ← readLine p d v index
    readLines p d (index + 1) rest

/-- The method with its variables and its body. -/
def readBody (p : Program) (m : Method) (decl : Object) : Except LoadError Method := do
  let spot := Spot.method m.signature
  let d ← (decl.elements "vars").foldlM (readVar p) (.ofMethod m)
  let body := decl.array? "body"
  if m.hasBody then
    let lines ← require spot body .missingBody
    let d ← readLines p d 0 lines
    match d.finish with
    | (d, none) => return d.method
    | (_, some l) => .error (.undefinedLabel ⟨l, m.signature⟩)
  else if (body.getD []).isEmpty then return d.method
  else refuse spot .abstractWithBody

/-! ### Classes and members -/

/-- A class that is declared, with its description. -/
abbrev Declared := ClassRef × Object

/-- Declares a class. -/
def readClass (b : Builder) (v : Json.Value) : Except LoadError (Builder × Declared) := do
  match v.object? with
  | none => .error .classNotObject
  | some o =>
    let name ← string .classHeader o "name"
    if (b.skeleton.classNamed? name).isSome then .error (.classTwice name)
    else
      let (ref, b) := b.addClass name (o.flag "interface") (o.flag "abstract")
      return (b, ref, o)

/-- Declares the classes. -/
def readClasses : Builder → List Json.Value → Except LoadError (Builder × List Declared)
  | b, [] => .ok (b, [])
  | b, v :: rest => do
    let (b, c) ← readClass b v
    let (b, cs) ← readClasses b rest
    return (b, c :: cs)

/-- Sets the superclass and the interfaces of a class. -/
def readHierarchy (b : Builder) (c : Declared) : Except LoadError Builder := do
  let (ref, o) := c
  let spot := Spot.cls ref.name
  let b ←
    if o.has "super" then
      let super ← classNamed spot b.skeleton o "super"
      if super.isInterface then refuse spot .superIsInterface
      else pure (b.setSuper ref super.ref)
    else pure b
  (o.elements "interfaces").foldlM (fun b v => do
    let interface ← require spot (v.string? >>= b.skeleton.classNamed?) .badInterface
    if interface.isInterface then return b.addInterface ref interface.ref
    else refuse spot .badInterface) b

/-- Declares a field of a class. -/
def readField (ref : ClassRef) (b : Builder) (v : Json.Value) : Except LoadError Builder := do
  let spot := Spot.cls ref.name
  let o ← require spot v.object? .fieldNotObject
  let name ← string spot o "name"
  let ty ← type (.member ref.name name) b.skeleton o "type"
  match b.skeleton.class? ref with
  | some c => return (b.addField c name ty (o.flag "static")).2
  | none => return b

def readFields (b : Builder) (c : Declared) : Except LoadError Builder :=
  (c.2.elements "fields").foldlM (readField c.1) b

/-- The name and type of a parameter. -/
def readParam (spot : Spot) (p : Program) (v : Json.Value) : Except LoadError (String × Ty) := do
  let o ← require spot v.object? .parameterNotObject
  let name ← string spot o "name"
  let ty ← type spot p o "type"
  return (name, ty)

/-- A method whose body is still to be read, with its description. -/
abbrev Pending := MethodId × Object

/-- Declares a method of a class. -/
def readMethod (ref : ClassRef) (b : Builder) (v : Json.Value) :
    Except LoadError (Builder × List Pending) := do
  let spot := Spot.cls ref.name
  let o ← require spot v.object? .methodNotObject
  let name ← string spot o "name"
  let spot := Spot.member ref.name name
  let params ← (o.elements "params").mapM (readParam spot b.skeleton)
  let returnType ← if o.has "return" then type spot b.skeleton o "return" else pure .void
  match b.skeleton.class? ref with
  | none => return (b, [])
  | some c =>
    if (c.method? (Method.subsignatureOf name (params.map Prod.snd) returnType)).isSome then
      refuse spot .methodTwice
    else
      let (m, b) := b.addMethod c name params returnType (o.flag "static") (o.flag "abstract")
      return (b, [(m.id, o)])

/-- Declares the methods of a class. -/
def readMethods (b : Builder) (c : Declared) : Except LoadError (Builder × List Pending) :=
  (c.2.elements "methods").foldlM (fun (b, pending) v => do
    let (b, more) ← readMethod c.1 b v
    return (b, pending ++ more)) (b, [])

/-! ### Entry methods -/

/-- The names of the entry methods: the one under `entry`, then those under `entries`. -/
def entryNames (root : Object) : List String :=
  (root.string? "entry").toList ++ (root.elements "entries").filterMap Json.Value.string?

/-- The entry method with a name. -/
def readEntry (p : Program) (name : String) : Except LoadError MethodId :=
  match p.lookupMethod? name with
  | none => .error (.unknownEntry name)
  | some m => if m.hasBody then .ok m.id else .error (.entryWithoutBody name)

def readEntries (p : Program) (root : Object) : Except LoadError (List MethodId) :=
  match entryNames root with
  | [] => .error .noEntry
  | names => names.mapM (readEntry p)

/-! ### The whole description -/

/-- The program that an object describes. -/
def readProgram (root : Object) : Except LoadError Program := do
  match root.array? "classes" with
  | none => .error .missingClasses
  | some classes =>
    let (b, declared) ← readClasses .empty classes
    let b ← declared.foldlM readHierarchy b
    let b ← declared.foldlM readFields b
    let (b, pending) ← declared.foldlM (fun (b, pending) c => do
      let (b, more) ← readMethods b c
      return (b, pending ++ more)) (b, [])
    let p ← pending.foldlM (fun p (id, decl) =>
      match b.skeleton.method? id with
      | some m => return p.setMethod (← readBody b.skeleton m decl)
      | none => return p) b.skeleton
    let entries ← readEntries p root
    return { p with entries }

/-- The program that a JSON value describes. -/
def ofJson (v : Json.Value) : Except LoadError Program :=
  match v.object? with
  | some root => readProgram root
  | none => .error .notProgram

/-- The program that a text describes. -/
def ofText (text : String) : Except LoadError Program :=
  match Json.parse? text with
  | some v => ofJson v
  | none => .error .notJson

end Document

end HeapFlow
