import HeapFlow.Data.Queue
import HeapFlow.Event
import HeapFlow.PointsTo.Basic
/-!
# HeapFlow.PointsTo.State

**The state of a points-to analysis.** What was found so far, the propagations that are still to be
made, and what outlives the analysis: the heap, the contexts and the reported events. Every
operation only adds.
-/

namespace HeapFlow

namespace PointsTo

/-- The state of a points-to analysis. -/
structure State where
  heap : Heap
  contexts : Contexts
  found : PointsTo
  /-- Objects on their way into the set of a pointer, the oldest first. -/
  queue : Queue (Pointer × List CObj)
  events : List Event

namespace State

/-- The start of an analysis over a heap and contexts that earlier ones left. -/
def start (heap : Heap) (contexts : Contexts) : State :=
  ⟨heap, contexts, .empty, ∅, []⟩

def report (s : State) (e : Event) : State := { s with events := s.events ++ [e] }

/-- Remembers a context. -/
def meet (s : State) (c : Context) : State := { s with contexts := s.contexts.insert c }

/-- Remembers an object under a heap context. -/
def addObject (s : State) (o : CObj) : State :=
  { s with found := { s.found with objects := s.found.objects.insert o } }

/-- Lists a pointer, without objects if it is new. -/
def mention (s : State) (ptr : Pointer) : State :=
  { s with found := { s.found with sets := s.found.sets.set ptr (s.found.get ptr) } }

/-- Sends objects to a pointer. -/
def send (s : State) (ptr : Pointer) (objs : List CObj) : State :=
  let s := s.mention ptr
  { s with queue := s.queue.push (ptr, objs) }

/-- Adds a flow edge. A new one at once passes on what its source refers to. -/
def addFlow (s : State) (source target : Pointer) : State :=
  let s := (s.mention target).mention source
  let targets := s.found.flowsFrom source
  if target ∈ targets then s
  else
    let flows := s.found.flows.set source (targets.insert target)
    let s := { s with found := { s.found with flows } }
    let objs := (s.found.get source).toList
    if objs.isEmpty then s else s.send target objs

/-- Adds several flow edges in order. -/
def addFlows (s : State) (flows : List (Pointer × Pointer)) : State :=
  flows.foldl (fun s f => s.addFlow f.1 f.2) s

/-- Puts into the set of a pointer what it lacks of the arriving objects, and passes those on.
Gives the objects that were lacking. -/
def absorb (s : State) (ptr : Pointer) (objs : List CObj) : List CObj × State :=
  let old := s.found.get ptr
  let fresh := old.missing objs
  if fresh.isEmpty then (fresh, s)
  else
    let sets := s.found.sets.set ptr (old.insertAll fresh)
    let s := { s with found := { s.found with sets } }
    (fresh, (s.found.flowsFrom ptr).toList.foldl (fun s succ => s.send succ fresh) s)

def addEntry (s : State) (m : CMethod) : State :=
  { s with found := { s.found with graph := s.found.graph.addEntry m } }

def addReachable (s : State) (m : CMethod) : State :=
  { s with found := { s.found with graph := s.found.graph.addReachable m } }

def addCall (s : State) (e : CallGraph.Edge CSite CMethod) : State :=
  { s with found := { s.found with graph := s.found.graph.addEdge e } }

end State

end PointsTo

end HeapFlow
