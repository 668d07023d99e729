import HeapFlow.Data.Table
import HeapFlow.Ir.Method
/-!
# HeapFlow.Ir.Draft

**A method body in the making.** Statements are appended one by one. A label is attached to the
statement that is emitted next, and a label that is attached again moves there. The jumps of a statement
are put on a list: their labels may be attached later. `finish` gives the labels after the last
statement a `nop` of their own, sets the targets of the jumps on the list and builds the control-flow
graph.

If a label was never attached, the jumps before the first one to it have their targets, that jump and
the later ones do not, and the method stays without a graph.
-/

namespace HeapFlow

/-! ### Jumps that are to be patched -/

/-- A jump that waits for its target. -/
structure PendingJump where
  /-- The statement that jumps. -/
  source : Nat
  /-- `-1` for the jump of an `if` or a `goto`, `-2` for the default of a switch, and else the number of a
  case. -/
  caseIndex : Int
  label : String
deriving DecidableEq, Repr

/-- A jump with its target. -/
def Jump.to (j : Jump) (target : Nat) : Jump := { j with target := some target }

namespace Stmt

/-- The jumps that wait for their targets once a statement is emitted, where `i` is its index. -/
def pendingJumps (i : Nat) : Stmt → List PendingJump
  | ifGoto _ _ _ jump => [⟨i, -1, jump.label⟩]
  | switch _ cases default =>
    (cases.zipIdx.map fun (c, k) => ⟨i, k, c.2.label⟩) ++ [⟨i, -2, default.label⟩]
  | goto jump => [⟨i, -1, jump.label⟩]
  | _ => []

/-- Gives a jump of a statement its target. -/
def setTarget (caseIndex : Int) (target : Nat) : Stmt → Stmt
  | ifGoto op x y jump => ifGoto op x y (jump.to target)
  | goto jump => goto (jump.to target)
  | switch v cases default =>
    if caseIndex = -2 then switch v cases (default.to target)
    else switch v (cases.modify caseIndex.toNat fun (k, jump) => (k, jump.to target)) default
  | s => s

end Stmt

/-- A method together with what its unfinished body still has to remember. -/
structure Draft where
  method : Method
  /-- The statement that each label was last attached to. -/
  labels : Table String Nat
  /-- The labels for the statement that comes next. -/
  waiting : List String
  /-- The source line of the statement that comes next. -/
  line : Int32
  /-- The jumps whose targets are set when the body is finished. -/
  jumps : List PendingJump

namespace Draft

/-- No line is known. -/
def noLine : Int32 := -1

/-- A draft of a declared method. -/
def ofMethod (m : Method) : Draft := ⟨m, ∅, [], noLine, []⟩

/-- Attaches a label to the next statement. -/
def label (d : Draft) (name : String) : Draft := { d with waiting := d.waiting ++ [name] }

/-- Sets the source line of the next statement. -/
def atLine (d : Draft) (line : Int32) : Draft := { d with line }

/-- Declares a variable. -/
def addVar (d : Draft) (name : String) (ty : Ty) : Draft :=
  { d with method := d.method.addVar name ty }

/-- Appends a statement; it takes the waiting labels and the line. What it uses is noted down, and its
jumps wait for their targets. -/
def emit (d : Draft) (s : Stmt) : Draft :=
  let i := d.method.body.length
  { method := { d.method with
      body := d.method.body ++ [⟨s, d.line⟩]
      records := d.method.records.enter i s }
    labels := d.waiting.foldl (fun t l => t.set l i) d.labels
    waiting := []
    line := noLine
    jumps := d.jumps ++ s.pendingJumps i }

/-! ### Finishing -/

/-- Gives the labels after the last statement a statement of their own. -/
def closeLabels (d : Draft) : Draft := if d.waiting.isEmpty then d else d.emit .nop

/-- Sets the targets of jumps, one after the other. The first label that is undefined ends it. -/
def patch (labels : Table String Nat) :
    List PendingJump → List Located → List Located × Option String
  | [], body => (body, none)
  | j :: rest, body =>
    match labels.get? j.label with
    | none => (body, some j.label)
    | some target => patch labels rest (body.modify j.source fun l =>
        { l with stmt := l.stmt.setTarget j.caseIndex target })

/-- Sets the targets of the jumps that wait. Gives the draft as it then stands, and the first undefined
label if there is one. -/
def resolveJumps (d : Draft) : Draft × Option String :=
  let (body, missing) := patch d.labels d.jumps d.method.body
  ({ d with method := { d.method with body } }, missing)

/-- Builds the control-flow graph. No jump waits any longer. -/
def buildGraph (d : Draft) : Draft :=
  { d with method := { d.method with cfg := some (.ofBody d.method.stmts) }, jumps := [] }

/-- Completes the body. Gives the draft as it then stands, and the first undefined label if there is
one. A method without a body and a finished one stay as they are. -/
def finish (d : Draft) : Draft × Option String :=
  if !d.method.hasBody || d.method.cfg.isSome then (d, none)
  else
    match d.closeLabels.resolveJumps with
    | (d, some l) => (d, some l)
    | (d, none) => (d.buildGraph, none)

end Draft

/-- A jump to a label that was attached to no statement of the method with that signature. -/
structure UndefinedLabel where
  label : String
  signature : String
deriving DecidableEq, Repr

def UndefinedLabel.message (e : UndefinedLabel) : String :=
  "undefined label '" ++ Text.upToNul e.label ++ "' in " ++ Text.upToNul e.signature

end HeapFlow
