import HeapFlow.Data.Adjacency
import HeapFlow.Data.OrderedSet
import HeapFlow.Ir.Program
/-!
# HeapFlow.CallGraph.Basic

**Call graphs.** A graph lists the entry methods, the reachable methods and the calls from call
sites to callees. Everything is only ever added, and an edge is unique for its call site and
callee: a second one of another kind is not entered. Four indexes are kept side by side: the set of the
ends of edges, the list of the edges, and the edges at each call site and at each callee.

The graph is generic in what stands for call sites and methods, so that one structure serves with
and without contexts.
-/

namespace HeapFlow

namespace CallGraph

/-- A call from a site to a callee. -/
structure Edge (σ μ : Type) where
  kind : CallKind
  site : σ
  callee : μ
deriving DecidableEq, Repr

/-- The ends of an edge. -/
def Edge.ends {σ μ : Type} (e : Edge σ μ) : σ × μ := (e.site, e.callee)

end CallGraph

/-- A call graph over call sites `σ` and methods `μ`. -/
structure CallGraph (σ μ : Type) [DecidableEq σ] [Keyed σ] [DecidableEq μ] [Keyed μ] where
  entries : OrderedSet μ
  reachable : OrderedSet μ
  /-- The ends of the edges. -/
  ends : OrderedSet (σ × μ)
  adjacency : Adjacency (CallGraph.Edge σ μ) σ μ

namespace CallGraph

variable {σ μ : Type} [DecidableEq σ] [Keyed σ] [DecidableEq μ] [Keyed μ]

def empty : CallGraph σ μ := ⟨∅, ∅, ∅, .empty⟩

instance : EmptyCollection (CallGraph σ μ) := ⟨empty⟩

instance : Inhabited (CallGraph σ μ) := ⟨empty⟩

def addEntry (g : CallGraph σ μ) (m : μ) : CallGraph σ μ :=
  { g with entries := g.entries.insert m }

def addReachable (g : CallGraph σ μ) (m : μ) : CallGraph σ μ :=
  { g with reachable := g.reachable.insert m }

/-- Whether the site calls the callee. -/
def hasEdge (g : CallGraph σ μ) (site : σ) (callee : μ) : Bool := decide ((site, callee) ∈ g.ends)

/-- Adds an edge, unless the site already calls the callee. -/
def addEdge (g : CallGraph σ μ) (e : Edge σ μ) : CallGraph σ μ :=
  if g.hasEdge e.site e.callee then g
  else { g with
    ends := g.ends.insert e.ends
    adjacency := g.adjacency.add Edge.site Edge.callee e }

/-- The edges in the order in which they were added. -/
def edges (g : CallGraph σ μ) : List (Edge σ μ) := g.adjacency.edges

/-- The edges that leave a call site. -/
def edgesFrom (g : CallGraph σ μ) (site : σ) : List (Edge σ μ) := g.adjacency.edgesFrom site

/-- The edges that enter a method. -/
def edgesInto (g : CallGraph σ μ) (callee : μ) : List (Edge σ μ) := g.adjacency.edgesInto callee

def callees (g : CallGraph σ μ) (site : σ) : List μ := (g.edgesFrom site).map Edge.callee

def callers (g : CallGraph σ μ) (callee : μ) : List σ := (g.edgesInto callee).map Edge.site

/-! ### What adding an edge does -/

variable {g : CallGraph σ μ} {e d : Edge σ μ}

theorem addEdge_of_hasEdge (h : g.hasEdge e.site e.callee = true) : g.addEdge e = g := if_pos h

theorem edges_addEdge_of_new (h : g.hasEdge e.site e.callee ≠ true) :
    (g.addEdge e).edges = g.edges ++ [e] := by
  rw [addEdge, if_neg h]
  exact Adjacency.edges_add ..

theorem reachable_addEdge (g : CallGraph σ μ) (e : Edge σ μ) :
    (g.addEdge e).reachable = g.reachable := by
  rw [addEdge]
  split <;> rfl

theorem entries_addEdge (g : CallGraph σ μ) (e : Edge σ μ) : (g.addEdge e).entries = g.entries := by
  rw [addEdge]
  split <;> rfl

/-- Edges that are there stay. -/
theorem mem_edges_addEdge_of_mem (h : d ∈ g.edges) : d ∈ (g.addEdge e).edges := by
  by_cases hnew : g.hasEdge e.site e.callee = true
  · rwa [addEdge_of_hasEdge hnew]
  · rw [edges_addEdge_of_new hnew]
    exact List.mem_append_left _ h

/-- An edge that is there was there before or is the one that is added. -/
theorem mem_or_eq_of_mem_edges_addEdge (h : d ∈ (g.addEdge e).edges) : d ∈ g.edges ∨ d = e := by
  by_cases hnew : g.hasEdge e.site e.callee = true
  · exact .inl (by rwa [addEdge_of_hasEdge hnew] at h)
  · rw [edges_addEdge_of_new hnew, List.mem_append, List.mem_singleton] at h
    exact h

end CallGraph

/-- The call graph of a program, without contexts. -/
abbrev MethodGraph := CallGraph Site MethodId

/-- An edge as `[KIND] caller` , the index of the call between `before` and `after`, and the
callee. -/
def Program.edgeText (p : Program) (before after : String) (e : CallGraph.Edge Site MethodId) :
    String :=
  "[" ++ e.kind.label ++ "] " ++ p.signature e.site.method ++ before ++ toString e.site.index ++
    after ++ " -> " ++ p.signature e.callee

end HeapFlow
