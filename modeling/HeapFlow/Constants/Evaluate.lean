import HeapFlow.Constants.Fact
/-!
# HeapFlow.Constants.Evaluate

**Evaluating expressions and statements under a fact.** Variables have their known value and integer
literals their own; binary expressions fold constants. What comes from the heap, from a cast or from
a call is not known to be constant.
-/

namespace HeapFlow

/-- The value of `x op y`. Dividing by the constant zero has no value, whatever is divided. -/
def BinOp.evaluate (op : BinOp) (x y : Value) : Value :=
  if op.divides ∧ y = .const 0 then .undefined
  else
    match x, y with
    | .const m, .const n => op.fold m n
    | .nac, _ => .nac
    | _, .nac => .nac
    | _, _ => .undefined

/-- The value of an expression. -/
def Expr.evaluate (f : Fact) : Expr → Value
  | var v => f.get v.index
  | int n => .const n
  | binary op x y => op.evaluate (f.get x.index) (f.get y.index)
  | null | cast .. | load _ | new _ => .nac

/-- The value of a right-hand side. -/
def Rvalue.evaluate (f : Fact) : Rvalue → Value
  | expr e => e.evaluate f
  | call .. => .nac

namespace Stmt

/-- What holds after a statement: an integer variable that it defines has the value of the
right-hand side. -/
def transfer (s : Stmt) (f : Fact) : Fact :=
  match s.defined?, s.rvalue? with
  | some v, some r => if v.ty.holdsInt then f.update v.index (r.evaluate f) else f
  | _, _ => f

end Stmt

end HeapFlow
