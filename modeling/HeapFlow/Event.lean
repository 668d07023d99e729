import HeapFlow.Context.Policy
/-!
# HeapFlow.Event

**What an analysis reports while it runs.** Events carry what they are about; their text is made
from the program. Warnings tell of calls that the program description does not explain, the rest is
information about the size of results.
-/

namespace HeapFlow

/-- How much of what happens is shown: everything at a level or above it. -/
inductive Level
  | trace
  | debug
  | info
  | warn
  | error
  | off
deriving DecidableEq, Repr

namespace Level

def rank : Level → Nat
  | trace => 0
  | debug => 1
  | info => 2
  | warn => 3
  | error => 4
  | off => 5

def name : Level → String
  | trace => "trace"
  | debug => "debug"
  | info => "info"
  | warn => "warn"
  | error => "error"
  | off => "off"

def all : List Level := [trace, debug, info, warn, error, off]

def ofName? (name : String) : Option Level := all.find? (·.name == name)

end Level

/-- Something that an analysis reports. -/
inductive Event
  /-- The points-to analysis starts. -/
  | pointsToStarted (policy : Policy)
  /-- A call on a receiver was resolved to a static method. -/
  | staticCallee (site : Site) (callee : MethodId)
  /-- A call passes another number of arguments than its callee has parameters. -/
  | argumentCount (site : Site) (callee : MethodId)
  /-- The points-to analysis has found its result. -/
  | pointsToFinished (methods calls flows objects : Nat)
  | pointsToReached (methods contexts : Nat)
  /-- Interprocedural constant propagation has found its result. -/
  | constantsFinished (nodes iterations : Nat)
deriving DecidableEq, Repr

namespace Event

def level : Event → Level
  | staticCallee .. | argumentCount .. => .warn
  | _ => .info

def message (p : Program) : Event → String
  | pointsToStarted policy => "Running " ++ policy.text ++ " pointer analysis"
  | staticCallee site callee =>
    "Instance call " ++ p.siteText site ++ " resolved to static method " ++ p.signature callee ++
      ", skipped"
  | argumentCount site callee =>
    "Argument count of " ++ p.siteText site ++ " does not match " ++ p.signature callee ++
      ", parameters not wired"
  | pointsToFinished methods calls flows objects =>
    "Pointer analysis finished: " ++ toString methods ++ " reachable methods, " ++
      toString calls ++ " call edges, " ++ toString flows ++ " pointer flow edges, " ++
      toString objects ++ " objects"
  | pointsToReached methods contexts =>
    "Pointer analysis reached " ++ toString methods ++ " methods, " ++ toString contexts ++
      " contexts"
  | constantsFinished nodes iterations =>
    "Interprocedural constant propagation finished: " ++ toString nodes ++ " nodes, " ++
      toString iterations ++ " iterations"

/-- The messages of the events at a level or above it. -/
def messages (p : Program) (level : Level) (events : List Event) : List String :=
  (events.filter fun e => level.rank ≤ e.level.rank).map (message p)

end Event

end HeapFlow
