import HeapFlow.Constants.Evaluate
import HeapFlow.Dataflow.Solve
import HeapFlow.Ir.Method
/-!
# HeapFlow.Constants.Intra

**Constant propagation within one method.** Nothing is known of the integer parameters, and nothing
is assumed of what calls and loads give.
-/

namespace HeapFlow

namespace Constants

/-- The integer variables among the parameters of a method. -/
def intParams (m : Method) : List Var := m.params.filter fun v => v.ty.holdsInt

/-- The fact at the entry of a method that is called with arbitrary arguments. -/
def entryFact (m : Method) : Fact := .unknown (intParams m)

/-- What holds after a node. -/
def nodeTransfer (m : Method) (n : Node) (f : Fact) : Fact :=
  match n with
  | .stmt i =>
    match m.stmt? i with
    | some s => s.transfer f
    | none => f
  | .entry | .exit => f

/-- Constant propagation as a data-flow problem. -/
def intraProblem (m : Method) : Dataflow.Problem Fact where
  direction := .forward
  top := ∅
  merge := Fact.meet
  transfer := nodeTransfer m
  seeds := Table.set ∅ .entry (entryFact m)

/-- The constant facts of a method over its graph, found in at most `fuel` steps. -/
def intra (fuel : Nat) (m : Method) (g : Cfg) : Option (Dataflow.Solution Fact) :=
  Dataflow.solve g (intraProblem m) fuel

end Constants

end HeapFlow
