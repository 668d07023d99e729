import HeapFlow.Ir.Ty
/-!
# HeapFlow.Ir.Stmt

**Three-address statements.** Operands are always variables; a literal stands alone on the right of
an assignment. Variables and fields carry their names and types, so a statement can be typed and
printed without the program around it.

A jump names its target by a label and carries the index of the target statement once labels have
been resolved.
-/

namespace HeapFlow

/-- A local variable of a method: its number there, its name and its type. -/
structure Var where
  index : Nat
  name : String
  ty : Ty
deriving DecidableEq, Repr, Inhabited

instance : Keyed Var := ⟨Var.index⟩

/-- A field: the class that declares it and its place among the fields of that class. -/
structure Field where
  owner : ClassRef
  index : Nat
  name : String
  ty : Ty
  isStatic : Bool
deriving DecidableEq, Repr, Inhabited

instance : Keyed Field := ⟨fun f => Keyed.mix (Keyed.key f.owner) f.index⟩

/-- A field is written with its class and type, as in `<Point: int x>`. -/
def Field.signature (f : Field) : String :=
  "<" ++ f.owner.name ++ ": " ++ f.ty.name ++ " " ++ f.name ++ ">"

/-! ### Operators -/

inductive ArithOp
  | add
  | sub
  | mul
  | div
  | rem
deriving DecidableEq, Repr

inductive CmpOp
  | eq
  | ne
  | lt
  | gt
  | le
  | ge
deriving DecidableEq, Repr

inductive ShiftOp
  | shl
  | shr
  | ushr
deriving DecidableEq, Repr

inductive BitOp
  | and
  | or
  | xor
deriving DecidableEq, Repr

/-- The operators of binary expressions. -/
inductive BinOp
  | arith (op : ArithOp)
  | cmp (op : CmpOp)
  | shift (op : ShiftOp)
  | bit (op : BitOp)
deriving DecidableEq, Repr

def CmpOp.name : CmpOp → String
  | eq => "=="
  | ne => "!="
  | lt => "<"
  | gt => ">"
  | le => "<="
  | ge => ">="

namespace BinOp

def name : BinOp → String
  | arith .add => "+"
  | arith .sub => "-"
  | arith .mul => "*"
  | arith .div => "/"
  | arith .rem => "%"
  | cmp op => op.name
  | shift .shl => "<<"
  | shift .shr => ">>"
  | shift .ushr => ">>>"
  | bit .and => "&"
  | bit .or => "|"
  | bit .xor => "^"

def all : List BinOp :=
  [cmp .eq, cmp .ne, cmp .lt, cmp .gt, cmp .le, cmp .ge,
    arith .add, arith .sub, arith .mul, arith .div, arith .rem,
    shift .shl, shift .shr, shift .ushr, bit .and, bit .or, bit .xor]

/-- The operator with a name. -/
def ofName? (name : String) : Option BinOp := all.find? (·.name == name)

/-- Whether the operator is undefined when its second operand is zero. -/
def divides : BinOp → Bool
  | arith .div | arith .rem => true
  | _ => false

end BinOp

/-! ### Expressions -/

/-- What an allocation creates. -/
inductive Alloc
  | object (c : ClassRef)
  | array (element : Ty) (length : Var)
deriving DecidableEq, Repr

/-- The type of the created object. -/
def Alloc.ty : Alloc → Ty
  | object c => .cls c
  | array element _ => .array element

/-- A place of the heap that a load reads or a store writes. -/
inductive Place
  /-- A field of the object that `base` refers to. -/
  | field (base : Var) (f : Field)
  /-- A static field. -/
  | static (f : Field)
  /-- An element of the array that `array` refers to. -/
  | element (array index : Var)
deriving DecidableEq, Repr

/-- The right-hand sides of assignments. -/
inductive Expr
  | var (v : Var)
  | int (n : Int32)
  | null
  | binary (op : BinOp) (x y : Var)
  | cast (ty : Ty) (x : Var)
  | load (place : Place)
  | new (what : Alloc)
deriving DecidableEq, Repr

/-- How a call selects its callee. -/
inductive CallKind
  | static
  | special
  | virtual
  | interface
  | dynamic
deriving DecidableEq, Repr

/-- A call: the class and subsignature that it names, the receiver and the arguments. -/
structure Call where
  kind : CallKind
  cls : Option ClassRef
  subsignature : String
  receiver : Option Var
  args : List Var
deriving DecidableEq, Repr

/-! ### Statements -/

/-- A jump to a label. The target is missing until the labels of the body are resolved. -/
structure Jump where
  label : String
  target : Option Nat
deriving DecidableEq, Repr

/-- The statements of a body. -/
inductive Stmt
  | assign (lhs : Var) (rhs : Expr)
  | store (place : Place) (source : Var)
  | invoke (result : Option Var) (call : Call)
  | ifGoto (op : CmpOp) (x y : Var) (jump : Jump)
  | switch (scrutinee : Var) (cases : List (Int32 × Jump)) (default : Jump)
  | goto (jump : Jump)
  | ret (value : Option Var)
  | nop
deriving DecidableEq, Repr

/-! ### Variables that are read and written -/

def Alloc.uses : Alloc → List Var
  | object _ => []
  | array _ length => [length]

def Place.uses : Place → List Var
  | field base _ => [base]
  | static _ => []
  | element array index => [array, index]

def Expr.uses : Expr → List Var
  | var v => [v]
  | int _ | null => []
  | binary _ x y => [x, y]
  | cast _ x => [x]
  | load place => place.uses
  | new what => what.uses

def Call.uses (c : Call) : List Var := c.receiver.toList ++ c.args

namespace Stmt

/-- The variable that the statement defines. -/
def defined? : Stmt → Option Var
  | assign lhs _ => some lhs
  | invoke result _ => result
  | _ => none

/-- The variables that the statement reads. -/
def uses : Stmt → List Var
  | assign _ rhs => rhs.uses
  | store place source => place.uses ++ [source]
  | invoke _ call => call.uses
  | ifGoto _ x y _ => [x, y]
  | switch scrutinee _ _ => [scrutinee]
  | goto _ => []
  | ret value => value.toList
  | nop => []

/-- Whether control may pass to the statement that follows. -/
def fallsThrough : Stmt → Bool
  | switch .. | goto _ | ret _ => false
  | _ => true

def isInvoke : Stmt → Bool
  | invoke .. => true
  | _ => false

/-- The call of a call statement. -/
def call? : Stmt → Option Call
  | invoke _ call => some call
  | _ => none

end Stmt

/-! ### Types and purity of right-hand sides -/

def Place.ty : Place → Ty
  | field _ f => f.ty
  | static f => f.ty
  | element array _ => array.ty.element

def Expr.ty : Expr → Ty
  | var v => v.ty
  | int _ => .int
  | null => .null
  | binary (.cmp _) _ _ => .boolean
  | binary _ x _ => x.ty
  | cast ty _ => ty
  | load place => place.ty
  | new what => what.ty

/-- Whether evaluating the expression neither allocates nor can stop the run. -/
def Expr.isPure : Expr → Bool
  | var _ | int _ | null => true
  | binary op _ _ => !op.divides
  | cast .. | load _ | new _ => false

/-! ### Printing -/

/-- A 32-bit integer in decimal. -/
def int32Text (n : Int32) : String := toString n.toInt

def Alloc.text : Alloc → String
  | object c => "new " ++ c.name
  | array element length => "new " ++ element.name ++ "[" ++ length.name ++ "]"

def Place.text : Place → String
  | field base f => base.name ++ "." ++ f.name
  | static f => f.owner.name ++ "." ++ f.name
  | element array index => array.name ++ "[" ++ index.name ++ "]"

def Expr.text : Expr → String
  | var v => v.name
  | int n => int32Text n
  | null => "null"
  | binary op x y => x.name ++ " " ++ op.name ++ " " ++ y.name
  | cast ty x => "(" ++ ty.name ++ ") " ++ x.name
  | load place => place.text
  | new what => what.text

namespace CallKind

/-- The kind as it labels an edge of a call graph. -/
def label : CallKind → String
  | static => "STATIC"
  | special => "SPECIAL"
  | virtual => "VIRTUAL"
  | interface => "INTERFACE"
  | dynamic => "DYNAMIC"

/-- The kind as a program description names it. -/
def name : CallKind → String
  | static => "static"
  | special => "special"
  | virtual => "virtual"
  | interface => "interface"
  | dynamic => "dynamic"

def all : List CallKind := [static, special, virtual, interface, dynamic]

def ofName? (name : String) : Option CallKind := all.find? (·.name == name)

/-- Whether calls of this kind have a receiver. -/
def needsReceiver : CallKind → Bool
  | special | virtual | interface => true
  | static | dynamic => false

end CallKind

def Call.text (c : Call) : String :=
  let cls := (c.cls.map ClassRef.name).getD ""
  let target := (c.receiver.map Var.name).getD cls
  let scope := if c.cls.isSome then cls ++ ": " else ""
  "invoke" ++ c.kind.name ++ " " ++ target ++ ".<" ++ scope ++ c.subsignature ++ ">(" ++
    Text.joined ", " (c.args.map Var.name) ++ ")"

def Jump.text (j : Jump) : String :=
  match j.target with
  | some i => toString i
  | none => "?"

namespace Stmt

def text : Stmt → String
  | assign lhs rhs => lhs.name ++ " = " ++ rhs.text
  | store place source => place.text ++ " = " ++ source.name
  | invoke none call => call.text
  | invoke (some r) call => r.name ++ " = " ++ call.text
  | ifGoto op x y jump =>
    "if (" ++ x.name ++ " " ++ op.name ++ " " ++ y.name ++ ") goto " ++ jump.text
  | switch v cases default =>
    "switch (" ++ v.name ++ ") \x7b" ++
      String.join (cases.map fun (k, j) => " case " ++ int32Text k ++ ": goto " ++ j.text ++ ";") ++
      " default: goto " ++ default.text ++ "; \x7d"
  | goto jump => "goto " ++ jump.text
  | ret none => "return"
  | ret (some v) => "return " ++ v.name
  | nop => "nop"

end Stmt

/-! ### What a statement computes

The value that a statement assigns, stores or obtains from a call, with its text and type. -/

/-- The right-hand side of a statement. -/
inductive Rvalue
  | expr (e : Expr)
  | call (c : Call) (result : Option Var)
deriving DecidableEq, Repr

namespace Rvalue

def text : Rvalue → String
  | expr e => e.text
  | call c _ => c.text

/-- A call has the type of the variable that takes its result, if there is one. -/
def ty : Rvalue → Ty
  | expr e => e.ty
  | call _ result => (result.map Var.ty).getD .void

def isPure : Rvalue → Bool
  | expr e => e.isPure
  | call .. => false

end Rvalue

/-- The right-hand side of an assignment, store or call. -/
def Stmt.rvalue? : Stmt → Option Rvalue
  | assign _ rhs => some (.expr rhs)
  | store _ source => some (.expr (.var source))
  | invoke result call => some (.call call result)
  | _ => none

end HeapFlow
