import HeapFlow.Data.Run
import HeapFlow.Data.Table
import HeapFlow.Ir.Cfg
/-!
# HeapFlow.Dataflow.Solve

**Data-flow analysis of one control-flow graph.** A problem gives a direction, the fact that every
node starts with, a transfer function for nodes, a merge of facts and facts at the boundary. The
solver keeps, for each node, the fact that flows into it along the direction of the analysis, and
a queue of edges along which it may have to be computed again.

When an edge is taken, the fact that flows into its target is made from the target's predecessors
and its boundary fact; if it differs from the one known so far, it replaces that one and the edges
that leave the target are queued. The edges that leave the boundary come first.

`Solution` turns the facts around for a backward problem, so that `before` and `after` follow the
program.
-/

namespace HeapFlow

namespace Dataflow

/-- The direction in which facts flow. -/
inductive Direction
  | forward
  | backward
deriving DecidableEq, Repr

/-- A data-flow problem over facts `α`. Facts are compared by equality: what counts as a change is
that a fact is another one. -/
structure Problem (α : Type) where
  direction : Direction
  /-- The fact of every node to begin with, unless it is at the boundary. -/
  top : α
  merge : α → α → α
  /-- The fact that leaves a node, given the fact that flows into it. -/
  transfer : Node → α → α
  /-- The facts at the boundary. -/
  seeds : Table Node α

/-- The fact of a node to begin with. -/
def Problem.first {α : Type} (problem : Problem α) (n : Node) : α :=
  problem.seeds.getD n problem.top

/-- Facts on both sides of each node, in the order of the program. -/
structure Solution (α : Type) where
  before : Node → α
  after : Node → α
  /-- The nodes that have facts. -/
  nodes : List Node

section Solver

variable {α : Type} [DecidableEq α] (g : Cfg) (problem : Problem α)

/-! ### The graph along the direction -/

/-- The nodes that facts flow to from a node. -/
def nexts (n : Node) : List Node :=
  match problem.direction with
  | .forward => (g.succs n).toList
  | .backward => (g.preds n).toList

/-- The nodes from which facts flow into a node. -/
def sources (n : Node) : List Node :=
  match problem.direction with
  | .forward => (g.preds n).toList
  | .backward => (g.succs n).toList

/-- The edges that leave a node. -/
def leaving (n : Node) : List (Node × Node) := (nexts g problem n).map (n, ·)

/-! ### The machine -/

/-- The facts that flow into nodes, and the edges to take. -/
structure State (α : Type) where
  facts : Table Node α
  queue : List (Node × Node)

/-- The fact that flows into a node. -/
def State.get (s : State α) (n : Node) : α := s.facts.getD n problem.top

/-- What flows into `target` along an edge from `source` and along its other edges. -/
def incoming (s : State α) (source target : Node) : α :=
  let out (n : Node) := problem.transfer n (s.get problem n)
  let others := (sources g problem target).filter (· ≠ source)
  let merged := others.foldl (fun fact n => problem.merge fact (out n)) (out source)
  match problem.seeds.get? target with
  | some seed => problem.merge merged seed
  | none => merged

/-- Takes an edge, where `queue` waits behind it. -/
def follow (s : State α) (source target : Node) (queue : List (Node × Node)) : State α :=
  let fact := incoming g problem s source target
  if fact = s.get problem target then { s with queue }
  else ⟨s.facts.set target fact, queue ++ leaving g problem target⟩

/-- One step: the oldest edge of the queue. -/
def step (s : State α) : Step (State α) (State α) :=
  match s.queue with
  | [] => .halt s
  | (source, target) :: queue => .next (follow g problem s source target queue)

/-- Every node with its first fact, and all edges. -/
def init : State α :=
  let boundary := problem.seeds.keys.flatMap (leaving g problem)
  ⟨(g.nodes ++ problem.seeds.keys).foldl (fun t n => t.set n (problem.first n)) ∅,
    boundary.reverse ++ g.nodes.flatMap (leaving g problem)⟩

/-- The facts in the order of the program. -/
def solution (s : State α) : Solution α :=
  let inward (n : Node) : α := s.get problem n
  let outward (n : Node) : α := match s.facts.get? n with
    | some fact => problem.transfer n fact
    | none => problem.top
  match problem.direction with
  | .forward => ⟨inward, outward, s.facts.keys⟩
  | .backward => ⟨outward, inward, s.facts.keys⟩

/-- Solves a problem in at most `fuel` steps. -/
def solve (fuel : Nat) : Option (Solution α) :=
  (Step.run (step g problem) fuel (init g problem)).map (solution problem)

end Solver

end Dataflow

end HeapFlow
