import HeapFlow.CallGraph.Cha
import HeapFlow.Constants.Inter
import HeapFlow.DeadCode
import HeapFlow.Options
import HeapFlow.PointsTo.Solve
/-!
# HeapFlow.Session

**Analyses of one program on demand.** A session runs each whole-program analysis when it is first
asked for and keeps the result: the points-to analysis, the interprocedural control-flow graph over
its call graph, and constant propagation over that graph. Analyses of single methods are not kept.

The heap objects, contexts and events that a failed points-to analysis leaves behind stay in the
session, and asking again runs it again.
-/

namespace HeapFlow

/-- A program under analysis, with the results so far. -/
structure Session where
  program : Program
  options : Options
  heap : Heap
  contexts : Contexts
  events : List Event
  pointsTo? : Option PointsTo
  icfg? : Option Icfg
  constants? : Option Constants.Inter

namespace Session

/-- Why no session can be opened. -/
inductive OpenError
  | unknownEntry (name : String)
  | noEntry
deriving DecidableEq, Repr

def OpenError.message : OpenError → String
  | unknownEntry name => "unknown entry method '" ++ Text.upToNul name ++ "'"
  | noEntry => "the program has no entry method"

/-- The methods that the settings name as entries, or else those of the program. -/
def entriesFor (p : Program) (options : Options) : Except OpenError (List MethodId) :=
  match options.entries with
  | [] => .ok p.entries
  | names => names.mapM fun name =>
    match p.lookupMethod? name with
    | some m => .ok m.id
    | none => .error (.unknownEntry name)

/-- A session on a program that has an entry method. -/
def openOn (p : Program) (options : Options) : Except OpenError Session := do
  let entries ← entriesFor p options
  if entries.isEmpty then .error .noEntry
  else
    return { program := { p with entries }, options, heap := .empty, contexts := .initial,
             events := [], pointsTo? := none, icfg? := none, constants? := none }

/-- Why an analysis has no result. -/
inductive Failure
  | pointsTo (f : PointsTo.Failure)
  /-- The solver was still running after the allowed number of steps. -/
  | outOfSteps
deriving DecidableEq, Repr

def Failure.message (p : Program) : Failure → String
  | pointsTo f => f.message p
  | outOfSteps => "the analysis was stopped"

end Session

/-- A computation on a session. A failure keeps the session as it then is. -/
abbrev Analysis (α : Type) := EStateM Session.Failure Session α

namespace Analysis

/-- The number of steps after which a solver is stopped. -/
def allowedSteps : Nat := 1000000000000000000

/-- A result that is there unless the solver was stopped. -/
def finished {α : Type} : Option α → Analysis α
  | some a => pure a
  | none => throw .outOfSteps

def report (e : Event) : Analysis Unit := modify fun s => { s with events := s.events ++ [e] }

def program : Analysis Program := return (← get).program

/-! ### Whole-program analyses -/

/-- Runs the points-to analysis over the heap and the contexts of the session. -/
def runPointsTo : Analysis PointsTo := do
  let s ← get
  report (.pointsToStarted s.options.policy)
  let answer ← finished
    (PointsTo.solve s.program s.options.policy allowedSteps s.heap s.contexts)
  let state := answer.state
  modify fun s => { s with
    heap := state.heap, contexts := state.contexts, events := s.events ++ state.events }
  match answer.failure with
  | some f => throw (.pointsTo f)
  | none =>
    let r := state.found
    let graph := r.methodGraph
    report (.pointsToFinished graph.reachable.size graph.edges.length r.flowEdges.length
      r.objectsMet.size)
    report (.pointsToReached graph.reachable.size state.contexts.size)
    return r

/-- The points-to result. -/
def pointsTo : Analysis PointsTo := do
  match (← get).pointsTo? with
  | some r => return r
  | none =>
    let r ← runPointsTo
    modify fun s => { s with pointsTo? := some r }
    return r

/-- The interprocedural control-flow graph. -/
def icfg : Analysis Icfg := do
  match (← get).icfg? with
  | some g => return g
  | none =>
    let r ← pointsTo
    let g := Icfg.build (← program) r.methodGraph
    modify fun s => { s with icfg? := some g }
    return g

/-- Runs constant propagation over a graph, with the points-to result of the session. -/
def constantsOver (g : Icfg) : Analysis Constants.Inter := do
  let pts ← pointsTo
  let r ← finished (Constants.inter ⟨← program, g, pts.varObjects⟩ allowedSteps)
  report (.constantsFinished g.nodes.length r.iterations)
  return r

/-- The interprocedural constant facts. -/
def constants : Analysis Constants.Inter := do
  match (← get).constants? with
  | some r => return r
  | none =>
    let r ← constantsOver (← icfg)
    modify fun s => { s with constants? := some r }
    return r

/-! ### Analyses of one method -/

/-- Facts of nothing. -/
def noFacts {α : Type} (top : α) : Dataflow.Solution α := ⟨fun _ => top, fun _ => top, []⟩

/-- The constant facts of a method on its own; a method without a graph has none. -/
def intraConstants (m : Method) : Analysis (Dataflow.Solution Fact) :=
  match m.cfg with
  | some g => finished (Constants.intra allowedSteps m g)
  | none => pure (noFacts ∅)

/-- The live variables of a method. -/
def liveVariables (m : Method) : Analysis (Dataflow.Solution VarSet) :=
  match m.cfg with
  | some g => finished (Liveness.solve allowedSteps m g)
  | none => pure (noFacts ∅)

/-- The dead statements of a method under facts before its nodes. -/
def deadUnder (m : Method) (constants : Node → Fact) : Analysis (List Nat) := do
  match m.cfg with
  | some g =>
    let live ← liveVariables m
    return DeadCode.detect m g constants live.after
  | none => return []

/-- The dead statements of a method by its own constant facts. -/
def intraDeadCode (m : Method) : Analysis (List Nat) := do
  deadUnder m (← intraConstants m).before

/-- The dead statements of a method by the interprocedural constant facts. -/
def deadCode (m : Method) : Analysis (List Nat) := do
  let r ← constants
  deadUnder m fun n => r.factBefore ⟨m.id, n⟩

end Analysis

end HeapFlow
