import HeapFlow.Data.Adjacency
import HeapFlow.Data.OrderedSet
import HeapFlow.Ir.Stmt
/-!
# HeapFlow.Ir.Cfg

**The control-flow graph of a body.** Its nodes are the statements of the body between an entry and
an exit node. The exit carries the index after the last statement, the entry the index before the
first one. The edges are added statement by statement, and each is filed with those that leave its
source and with those that enter its target; every list keeps the order in which they were added.
-/

namespace HeapFlow

/-- A node of a control-flow graph. -/
inductive Node
  | entry
  | stmt (index : Nat)
  | exit
deriving DecidableEq, Repr, Inhabited

instance : Keyed Node where
  key
    | .entry => 0
    | .exit => 1
    | .stmt i => i + 2

namespace Cfg

/-- Why control passes from one node to another. -/
inductive EdgeKind
  | entry
  | fallThrough
  | goto
  | ifTrue
  | ifFalse
  | switchCase (value : Int32)
  | switchDefault
  | ret
deriving DecidableEq, Repr

namespace EdgeKind

def name : EdgeKind → String
  | entry => "ENTRY"
  | fallThrough => "FALL_THROUGH"
  | goto => "GOTO"
  | ifTrue => "IF_TRUE"
  | ifFalse => "IF_FALSE"
  | switchCase _ => "SWITCH_CASE"
  | switchDefault => "SWITCH_DEFAULT"
  | ret => "RETURN"

/-- The name, with the value of a case. -/
def text (k : EdgeKind) : String :=
  match k with
  | switchCase value => k.name ++ " " ++ int32Text value
  | _ => k.name

end EdgeKind

/-- An edge of a control-flow graph. -/
structure Edge where
  kind : EdgeKind
  source : Node
  target : Node
deriving DecidableEq, Repr

end Cfg

/-- The control-flow graph of a body of `size` statements. -/
structure Cfg where
  size : Nat
  adjacency : Adjacency Cfg.Edge Node Node
  filed : adjacency.Filed Cfg.Edge.source Cfg.Edge.target

namespace Cfg

/-! ### Construction -/

/-- A graph to which edges are added one after the other. -/
def ofEdges (size : Nat) (es : List Edge) : Cfg :=
  ⟨size, .ofEdges Edge.source Edge.target es, Adjacency.filed_ofEdges ..⟩

/-- The node after the statement at `i` in a body of `size` statements. -/
def next (size i : Nat) : Node := if i + 1 < size then .stmt (i + 1) else .exit

/-- An edge along a jump; a jump whose label is not resolved leads nowhere. -/
def jumpEdge (kind : EdgeKind) (i : Nat) (j : Jump) : List Edge :=
  (j.target.map fun t => ⟨kind, .stmt i, .stmt t⟩).toList

/-- The edges that leave the statement at `i`. -/
def stmtEdges (size i : Nat) : Stmt → List Edge
  | .ifGoto _ _ _ jump => jumpEdge .ifTrue i jump ++ [⟨.ifFalse, .stmt i, next size i⟩]
  | .switch _ cases default =>
    (cases.flatMap fun (k, j) => jumpEdge (.switchCase k) i j) ++ jumpEdge .switchDefault i default
  | .goto jump => jumpEdge .goto i jump
  | .ret _ => [⟨.ret, .stmt i, .exit⟩]
  | _ => [⟨.fallThrough, .stmt i, next size i⟩]

/-- The edge from the entry. -/
def entryEdge (size : Nat) : Edge :=
  ⟨.entry, .entry, if size = 0 then .exit else .stmt 0⟩

/-- The edges of a list of statements. -/
def bodyEdges (body : List Stmt) : List Edge :=
  entryEdge body.length :: body.zipIdx.flatMap fun (s, i) => stmtEdges body.length i s

/-- The control-flow graph of a list of statements. -/
def ofBody (body : List Stmt) : Cfg := ofEdges body.length (bodyEdges body)

/-! ### Nodes and edges -/

/-- Entry, statements in order, exit. -/
def nodes (g : Cfg) : List Node := .entry :: (List.range g.size).map .stmt ++ [.exit]

/-- The index by which a node is written. -/
def index (g : Cfg) : Node → Int
  | .entry => -1
  | .stmt i => i
  | .exit => g.size

/-- The node with an index. -/
def node? (g : Cfg) (i : Int) : Option Node := g.nodes.find? (g.index · == i)

/-- The edges in the order in which they were added. -/
def edges (g : Cfg) : List Edge := g.adjacency.edges

/-- The edges that leave a node. -/
def outEdges (g : Cfg) (n : Node) : List Edge := g.adjacency.edgesFrom n

/-- The edges that enter a node. -/
def inEdges (g : Cfg) (n : Node) : List Edge := g.adjacency.edgesInto n

/-- The distinct successors of a node, in the order of its edges. -/
def succs (g : Cfg) (n : Node) : OrderedSet Node :=
  OrderedSet.ofList ((g.outEdges n).map Edge.target)

/-- The distinct predecessors of a node, in the order of its edges. -/
def preds (g : Cfg) (n : Node) : OrderedSet Node :=
  OrderedSet.ofList ((g.inEdges n).map Edge.source)

/-! ### What the rows hold -/

theorem edges_ofBody (body : List Stmt) : (ofBody body).edges = bodyEdges body :=
  Adjacency.edges_ofEdges ..

theorem entryEdge_mem_ofBody (body : List Stmt) : entryEdge body.length ∈ (ofBody body).edges := by
  rw [edges_ofBody]
  exact List.mem_cons_self

theorem outEdges_eq (g : Cfg) (n : Node) : g.outEdges n = g.edges.filter fun e => e.source = n :=
  g.filed.edgesFrom_eq n

theorem inEdges_eq (g : Cfg) (n : Node) : g.inEdges n = g.edges.filter fun e => e.target = n :=
  g.filed.edgesInto_eq n

/-! ### Printing -/

/-- A node and the edges that leave it, where `body` gives the statements. -/
def nodeLines (g : Cfg) (body : List Stmt) (n : Node) : List String :=
  let text := match n with
    | .entry => "<entry>"
    | .exit => "<exit>"
    | .stmt i => (body[i]?.map Stmt.text).getD ""
  ("  [" ++ toString (g.index n) ++ "] " ++ text) ::
    (g.outEdges n).map fun e => "      -> [" ++ toString (g.index e.target) ++ "] " ++ e.kind.text

/-- The graph of the method with a signature. -/
def lines (g : Cfg) (signature : String) (body : List Stmt) : List String :=
  ("CFG of " ++ signature) :: g.nodes.flatMap (g.nodeLines body)

end Cfg

end HeapFlow
