import HeapFlow.Constants.Evaluate
import HeapFlow.Data.Reach
import HeapFlow.Liveness
/-!
# HeapFlow.DeadCode

**Statements that can be dropped.** A statement is unreachable if no feasible path leads to it from
the entry: a branch on a known constant is feasible only where the constant leads. An assignment is
dead if its variable is not live afterwards and evaluating its right-hand side neither allocates nor
can stop the run. Calls are never dead.
-/

namespace HeapFlow

namespace DeadCode

/-! ### Feasible edges -/

/-- Whether a branch on a known condition takes an edge. -/
def takesBranch (condition : Int32) : Cfg.EdgeKind → Bool
  | .ifTrue => condition != 0
  | .ifFalse => condition == 0
  | _ => true

/-- Whether a switch on a known value takes an edge. -/
def takesCase (value : Int32) (cases : List Int32) : Cfg.EdgeKind → Bool
  | .switchCase k => k == value
  | .switchDefault => !cases.contains value
  | _ => true

/-- Whether control can pass along an edge that leaves a statement, given what is known before
it. -/
def stmtFeasible (s : Stmt) (f : Fact) (kind : Cfg.EdgeKind) : Bool :=
  match s with
  | .ifGoto op x y _ =>
    match (Expr.binary (.cmp op) x y).evaluate f with
    | .const c => takesBranch c kind
    | _ => true
  | .switch v cases _ =>
    match f.get v.index with
    | .const c => takesCase c (cases.map Prod.fst) kind
    | _ => true
  | _ => true

section Detection

variable (m : Method) (g : Cfg) (constants : Node → Fact) (live : Node → VarSet)

/-- Whether control can pass along an edge. -/
def feasible (e : Cfg.Edge) : Bool :=
  match e.source with
  | .stmt i =>
    match m.stmt? i with
    | some s => stmtFeasible s (constants e.source) e.kind
    | none => true
  | _ => true

/-- The nodes to which control can pass from a node. -/
def feasibleNexts (n : Node) : List Node :=
  ((g.outEdges n).filter (feasible m constants)).map Cfg.Edge.target

/-- The nodes on feasible paths from the entry. -/
def reached : OrderedSet Node :=
  Reach.closure (feasibleNexts m g constants) g.nodes.length [.entry]

/-! ### Dead statements -/

/-- Whether a statement only defines a variable that is not live after it. -/
def isDeadAssignment (i : Nat) (s : Stmt) : Bool :=
  match s.defined?, s.rvalue? with
  | some v, some r => !s.isInvoke && !(live (.stmt i)).contains v && r.isPure
  | _, _ => false

/-- The indexes of the statements that can be dropped, in increasing order. `constants` holds before
the nodes and `live` after them. -/
def detect : List Nat :=
  let reached := reached m g constants
  (List.range g.size).filter fun i =>
    decide (Node.stmt i ∉ reached) ||
      ((m.stmt? i).map (isDeadAssignment live i)).getD false

end Detection

end DeadCode

end HeapFlow
