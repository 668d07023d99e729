import HeapFlow.CallGraph.Resolve
import HeapFlow.Data.Queue
/-!
# HeapFlow.CallGraph.Cha

**The call graph of class hierarchy analysis.** A method is reachable if it is an entry or a target
of a call in a reachable method; the edges are the calls of the reachable methods with their
targets.

The graph grows while methods wait in a queue, the entries first. A method that is taken from the queue
becomes reachable, unless it is already; its calls are entered as edges, and their targets have to wait
in turn, each time they are met.
-/

namespace HeapFlow

/-- A call graph under construction, with the methods that wait. -/
structure ChaState where
  graph : MethodGraph
  todo : Queue MethodId

namespace ChaState

/-- An entry method is entered, and waits. -/
def enter (s : ChaState) (id : MethodId) : ChaState := ⟨s.graph.addEntry id, s.todo.push id⟩

/-- A call is entered, and its target waits. -/
def call (s : ChaState) (e : CallGraph.Edge Site MethodId) : ChaState :=
  ⟨s.graph.addEdge e, s.todo.push e.callee⟩

end ChaState

namespace Program

/-- The calls of a method with their targets. -/
def chaEdges (p : Program) (id : MethodId) : List (CallGraph.Edge Site MethodId) :=
  match p.method? id with
  | none => []
  | some m => m.calls.flatMap fun (i, call) =>
    (p.resolveByHierarchy none call).map fun callee => ⟨call.kind, ⟨id, i⟩, callee⟩

/-- The methods that a method may call. -/
def chaCallees (p : Program) (id : MethodId) : List MethodId :=
  (p.chaEdges id).map CallGraph.Edge.callee

/-- The entry methods wait. -/
def chaStart (p : Program) : ChaState := p.entries.foldl ChaState.enter ⟨∅, ∅⟩

/-- One step of the construction takes a method from the queue. -/
def chaStep (p : Program) (s : ChaState) : Step ChaState MethodGraph :=
  match s.todo.pop? with
  | none => .halt s.graph
  | some (id, todo) =>
    if id ∈ s.graph.reachable then .next { s with todo }
    else .next ((p.chaEdges id).foldl ChaState.call ⟨s.graph.addReachable id, todo⟩)

/-- The references that the methods of a program carry. -/
def methodIds (p : Program) : List MethodId := p.methods.map Method.id

/-- The call graph that is reachable from the entry methods. -/
def chaGraph (p : Program) : MethodGraph :=
  let limit := Search.limit p.chaCallees (p.entries ++ p.methodIds) p.entries
  (Step.run p.chaStep limit p.chaStart).getD ∅

end Program

end HeapFlow
