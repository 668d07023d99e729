import HeapFlow.Ir.Document
import HeapFlow.Session
/-!
# HeapFlow.Tool

**The command-line tool.** It reads a program description, runs the analyses and prints points-to
sets, the call graph, constant facts and, if asked for, dead code. The tool is a function of its
flags and of what the input file holds; reading the file and writing the lines is left to its
caller.
-/

namespace HeapFlow

namespace Tool

/-! ### Sections of the report -/

/-- The points-to sets of all variables. -/
def pointsToSection (p : Program) (r : PointsTo) : List String :=
  ["=== Points-to Sets ==="] ++ p.pointsToLines r ++ [""]

/-- The calls between methods. -/
def callGraphSection (p : Program) (g : MethodGraph) : List String :=
  ["=== Call Graph (" ++ toString g.reachable.size ++ " methods, " ++ toString g.edges.length ++
    " edges) ==="] ++
  (g.edges.map fun e => "  " ++ p.edgeText ":" "" e) ++ [""]

/-- A statement of a method with its index. -/
def stmtLine (i : Nat) (s : Stmt) : String := "  " ++ toString i ++ ": " ++ s.text

/-- The facts after every statement of a method. -/
def methodConstants (p : Program) (r : Constants.Inter) (id : MethodId) : List String :=
  match p.method? id with
  | none => []
  | some m => m.signature :: m.stmts.zipIdx.map fun (s, i) =>
    stmtLine i s ++ "  " ++ (r.factAfter ⟨id, .stmt i⟩).text m.vars

def constantsSection (p : Program) (g : Icfg) (r : Constants.Inter) : List String :=
  ["=== Constant Propagation ==="] ++ g.methods.flatMap (methodConstants p r) ++ [""]

/-- The dead statements of a method; a method without any is left out. -/
def methodDeadCode (id : MethodId) : Analysis (List String) := do
  match (← Analysis.program).method? id with
  | none => return []
  | some m =>
    let dead ← Analysis.deadCode m
    if dead.isEmpty then return []
    else return m.signature :: dead.filterMap fun i => (m.stmt? i).map (stmtLine i)

def deadCodeSection : Analysis (List String) := do
  let g ← Analysis.icfg
  let blocks ← g.methods.mapM methodDeadCode
  return ["=== Dead Code ==="] ++ blocks.flatten ++ [""]

/-- The sections that flags ask for. -/
def report (f : Flags) (deadCode : Bool) : Analysis (List String) := do
  let p ← Analysis.program
  let r ← Analysis.pointsTo
  let constants ← Analysis.constants
  let g ← Analysis.icfg
  let dead ← if deadCode then deadCodeSection else pure []
  return (if f.printPointsTo then pointsToSection p r else []) ++
    (if f.printCallGraph then callGraphSection p r.methodGraph else []) ++
    (if f.printConstants then constantsSection p g constants else []) ++
    dead

/-! ### Runs -/

/-- Why a run gives up before any analysis. -/
inductive StartError
  | options (e : OptionsError)
  | noSuchFile (path : String)
  | load (path : String) (e : LoadError)
  | session (e : Session.OpenError)

def StartError.message : StartError → String
  | options e => e.message
  | noSuchFile path => "'" ++ path ++ "': No such file or directory"
  | load path e => "'" ++ path ++ "': " ++ e.message
  | session e => e.message

/-- What a run leaves behind. -/
inductive Outcome
  /-- The run gave up; the line goes to the error output. -/
  | refused (line : String)
  /-- The lines of the report and the messages of the events. -/
  | done (report messages : List String)
  /-- An analysis failed. -/
  | failed (message : String) (messages : List String)

/-- The session that flags ask for, where `files` gives what a file holds. -/
def start (f : Flags) (files : String → Option (Except LoadError Program)) :
    Except StartError Session := do
  let options ← match Options.ofFlags f with
    | .ok o => pure o
    | .error e => .error (.options e)
  let path := f.input.getD ""
  let program ← match files path with
    | none => .error (.noSuchFile path)
    | some (.error e) => .error (.load path e)
    | some (.ok p) => pure p
  match Session.openOn program options with
  | .ok s => return s
  | .error e => .error (.session e)

/-- Runs the tool under the name by which it was called. -/
def run (name : String) (f : Flags) (files : String → Option (Except LoadError Program)) :
    Outcome :=
  match start f files with
  | .error e => .refused (name ++ ": error: " ++ e.message)
  | .ok session =>
    match (report f session.options.deadCode).run session with
    | .ok lines s => .done lines (Event.messages s.program f.shownLevel s.events)
    | .error e s =>
      .failed (e.message s.program) (Event.messages s.program f.shownLevel s.events)

end Tool

end HeapFlow
