import HeapFlow.CallGraph.Basic
/-!
# HeapFlow.Icfg

**The interprocedural control-flow graph.** It joins the control-flow graphs of the methods that a
call graph reaches. The edges that leave a call inside its method become call-to-return edges. Each
callee with a body adds an edge into its entry and, from its exit, one edge back to every distinct
successor of the call.
-/

namespace HeapFlow

namespace Icfg

/-- What an edge stands for. -/
inductive EdgeKind
  /-- Control flow inside a method. -/
  | normal
  /-- Past a call, inside the caller. -/
  | callToReturn
  /-- From a call into the entry of a callee. -/
  | call (callee : MethodId)
  /-- From the exit of a callee to a successor of the call. -/
  | ret (site : Site) (callee : MethodId)
deriving DecidableEq, Repr

def EdgeKind.name : EdgeKind → String
  | normal => "NORMAL"
  | callToReturn => "CALL_TO_RETURN"
  | call _ => "CALL"
  | ret .. => "RETURN"

/-- An edge between points of the program. -/
structure Edge where
  kind : EdgeKind
  source : Point
  target : Point
deriving DecidableEq, Repr

end Icfg

/-- An interprocedural control-flow graph. -/
structure Icfg where
  graph : MethodGraph
  /-- The reachable methods with a body, in the order in which they are reached. -/
  methods : List MethodId
  nodes : List Point
  adjacency : Adjacency Icfg.Edge Point Point
  filed : adjacency.Filed Icfg.Edge.source Icfg.Edge.target

namespace Icfg

/-! ### Construction -/

/-- Whether a node of a method is a call. -/
def isCall (m : Method) : Node → Bool
  | .stmt i => ((m.stmt? i).map Stmt.isInvoke).getD false
  | _ => false

/-- The edges into and out of the callees of a call. -/
def calleeEdges (p : Program) (graph : MethodGraph) (g : Cfg) (site : Site) : List Edge :=
  ((graph.callees site).filter fun c => (p.cfg? c).isSome).flatMap fun callee =>
    ⟨.call callee, site.point, ⟨callee, .entry⟩⟩ ::
      (g.succs (.stmt site.index)).toList.map fun next =>
        ⟨.ret site callee, ⟨callee, .exit⟩, ⟨site.method, next⟩⟩

/-- The edges that a node of a method adds. -/
def nodeEdges (p : Program) (graph : MethodGraph) (m : Method) (g : Cfg) (n : Node) : List Edge :=
  let kind := if isCall m n then EdgeKind.callToReturn else .normal
  let inside := (g.outEdges n).map fun e => ⟨kind, ⟨m.id, n⟩, ⟨m.id, e.target⟩⟩
  match n with
  | .stmt i => if isCall m n then inside ++ calleeEdges p graph g ⟨m.id, i⟩ else inside
  | _ => inside

/-- What `f` makes of a method with a complete body; nothing for any other method. -/
def overBody {α : Type} (p : Program) (f : Method → Cfg → List α) (id : MethodId) : List α :=
  match p.method? id with
  | none => []
  | some m =>
    match m.cfg with
    | some g => f m g
    | none => []

/-- The reachable methods with a body. -/
def joined (p : Program) (graph : MethodGraph) : List MethodId :=
  graph.reachable.toList.filter fun id => (p.cfg? id).isSome

/-- The edges that the nodes of the methods add, method by method. -/
def joinedEdges (p : Program) (graph : MethodGraph) : List Edge :=
  (joined p graph).flatMap (overBody p fun m g => g.nodes.flatMap (nodeEdges p graph m g))

/-- The interprocedural control-flow graph over a call graph. -/
def build (p : Program) (graph : MethodGraph) : Icfg where
  graph
  methods := joined p graph
  nodes := (joined p graph).flatMap (overBody p fun m g => g.nodes.map (⟨m.id, ·⟩))
  adjacency := .ofEdges Edge.source Edge.target (joinedEdges p graph)
  filed := Adjacency.filed_ofEdges ..

/-! ### Queries -/

/-- The edges in the order in which they were added. -/
def edges (g : Icfg) : List Edge := g.adjacency.edges

/-- The edges that enter a point. -/
def inEdges (g : Icfg) (pt : Point) : List Edge := g.adjacency.edgesInto pt

/-- The edges that leave a point. -/
def outEdges (g : Icfg) (pt : Point) : List Edge := g.adjacency.edgesFrom pt

/-- The distinct successors of a point, in the order of its edges. -/
def succs (g : Icfg) (pt : Point) : OrderedSet Point :=
  OrderedSet.ofList ((g.outEdges pt).map Edge.target)

/-- The distinct predecessors of a point, in the order of its edges. -/
def preds (g : Icfg) (pt : Point) : OrderedSet Point :=
  OrderedSet.ofList ((g.inEdges pt).map Edge.source)

/-- Whether the point has a row of edges that enter or leave it. -/
def hasNode (g : Icfg) (pt : Point) : Bool := g.adjacency.hasRow pt

/-! ### What the rows hold -/

theorem edges_build (p : Program) (graph : MethodGraph) :
    (build p graph).edges = joinedEdges p graph :=
  Adjacency.edges_ofEdges ..

theorem inEdges_eq (g : Icfg) (pt : Point) : g.inEdges pt = g.edges.filter fun e => e.target = pt :=
  g.filed.edgesInto_eq pt

theorem outEdges_eq (g : Icfg) (pt : Point) :
    g.outEdges pt = g.edges.filter fun e => e.source = pt :=
  g.filed.edgesFrom_eq pt

theorem hasNode_eq_true_iff {g : Icfg} {pt : Point} :
    g.hasNode pt = true ↔ ∃ e ∈ g.edges, e.source = pt ∨ e.target = pt :=
  g.filed.hasRow_iff

/-! ### Printing -/

def edgeText (p : Program) (e : Edge) : String :=
  e.kind.name ++ ": " ++ p.pointText e.source ++ " -> " ++ p.pointText e.target

def lines (p : Program) (g : Icfg) : List String := g.edges.map (edgeText p)

end Icfg

end HeapFlow
