import HeapFlow.Icfg
import HeapFlow.Proofs.CallGraph.Edges
import HeapFlow.Proofs.Ir.Loaded
/-!
# HeapFlow.Proofs.Icfg.Edges

**What is in an interprocedural control-flow graph.** The nodes are those of the bodies that the call
graph reaches. An edge (`Joins`) stays inside a body, enters a callee or comes back from its exit.
Nothing here depends on where the call graph comes from; for one that reaches all its callees, every
edge leaves a node, and the statements at the ends of edges are those of nodes.
-/

namespace HeapFlow

namespace Icfg

variable {p : Program} {graph : MethodGraph}

theorem mem_overBody {α : Type} {f : Method → Cfg → List α} {id : MethodId} {x : α} :
    x ∈ overBody p f id ↔ ∃ m g, p.method? id = some m ∧ m.cfg = some g ∧ x ∈ f m g := by
  unfold overBody
  cases hm : p.method? id with
  | none => simp
  | some m => cases hg : m.cfg <;> simp [hg]

/-- A body that the graph joins to others: that of a reachable method, with its own graph. -/
structure HasBody (p : Program) (graph : MethodGraph) (m : Method) (g : Cfg) : Prop where
  reachable : ∃ id ∈ graph.reachable, p.method? id = some m
  cfg : m.cfg = some g

theorem exists_hasBody_of_mem_methods {id : MethodId} (h : id ∈ (build p graph).methods) :
    ∃ m g, p.method? id = some m ∧ HasBody p graph m g := by
  obtain ⟨hreachable, hcfg⟩ := List.mem_filter.1 h
  obtain ⟨g, hg⟩ := Option.isSome_iff_exists.1 hcfg
  obtain ⟨m, hm, hg⟩ := Option.bind_eq_some_iff.1 hg
  exact ⟨m, g, hm, ⟨id, hreachable, hm⟩, hg⟩

theorem mem_flatMap_overBody {α : Type} {f : Method → Cfg → List α} {x : α} :
    x ∈ (build p graph).methods.flatMap (overBody p f) ↔
      ∃ m g, HasBody p graph m g ∧ x ∈ f m g := by
  simp only [List.mem_flatMap, mem_overBody]
  constructor
  · intro ⟨id, hid, m, g, hm, hg, hx⟩
    exact ⟨m, g, ⟨⟨id, (List.mem_filter.1 hid).1, hm⟩, hg⟩, hx⟩
  · intro ⟨m, g, ⟨⟨id, hid, hm⟩, hg⟩, hx⟩
    refine ⟨id, List.mem_filter.2 ⟨hid, ?_⟩, m, g, hm, hg, hx⟩
    simp [Program.cfg?, hm, hg]

/-- **The nodes are those of bodies.** -/
theorem mem_nodes {pt : Point} : pt ∈ (build p graph).nodes ↔
    ∃ m g n, HasBody p graph m g ∧ n ∈ g.nodes ∧ pt = ⟨m.id, n⟩ := by
  refine mem_flatMap_overBody.trans ⟨?_, ?_⟩
  · intro ⟨m, g, hbody, hpt⟩
    obtain ⟨n, hn, rfl⟩ := List.mem_map.1 hpt
    exact ⟨m, g, n, hbody, hn, rfl⟩
  · intro ⟨m, g, n, hbody, hn, hpt⟩
    exact ⟨m, g, hbody, List.mem_map.2 ⟨n, hn, hpt.symm⟩⟩

/-- The edges of the graph. -/
inductive Joins (p : Program) (graph : MethodGraph) : Edge → Prop
  /-- Control flow inside a body; past a call it is of a kind of its own. -/
  | inside {m : Method} {g : Cfg} {n : Node} {e : Cfg.Edge} (hbody : HasBody p graph m g)
      (hn : n ∈ g.nodes) (he : e ∈ g.outEdges n) :
      Joins p graph
        ⟨if isCall m n then .callToReturn else .normal, ⟨m.id, n⟩, ⟨m.id, e.target⟩⟩
  /-- From a call into a callee with a body. -/
  | call {m : Method} {g : Cfg} {i : Nat} {callee : MethodId} (hbody : HasBody p graph m g)
      (hn : .stmt i ∈ g.nodes) (hcall : isCall m (.stmt i) = true)
      (hcallee : callee ∈ graph.callees ⟨m.id, i⟩) (hcfg : (p.cfg? callee).isSome = true) :
      Joins p graph ⟨.call callee, ⟨m.id, .stmt i⟩, ⟨callee, .entry⟩⟩
  /-- From the exit of the callee to a successor of the call. -/
  | ret {m : Method} {g : Cfg} {i : Nat} {callee : MethodId} {next : Node}
      (hbody : HasBody p graph m g) (hn : .stmt i ∈ g.nodes)
      (hcall : isCall m (.stmt i) = true) (hcallee : callee ∈ graph.callees ⟨m.id, i⟩)
      (hcfg : (p.cfg? callee).isSome = true) (hnext : next ∈ g.succs (.stmt i)) :
      Joins p graph ⟨.ret ⟨m.id, i⟩ callee, ⟨callee, .exit⟩, ⟨m.id, next⟩⟩

theorem mem_calleeEdges {g : Cfg} {site : Site} {e : Edge} :
    e ∈ calleeEdges p graph g site ↔
      ∃ callee ∈ graph.callees site, (p.cfg? callee).isSome = true ∧
        (e = ⟨.call callee, site.point, ⟨callee, .entry⟩⟩ ∨
          ∃ next ∈ g.succs (.stmt site.index),
            e = ⟨.ret site callee, ⟨callee, .exit⟩, ⟨site.method, next⟩⟩) := by
  simp only [calleeEdges, List.mem_flatMap, List.mem_filter, List.mem_cons, List.mem_map,
    and_assoc, eq_comm, OrderedSet.mem_iff]

theorem mem_nodeEdges {m : Method} {g : Cfg} {n : Node} {e : Edge} :
    e ∈ nodeEdges p graph m g n ↔
      (∃ d ∈ g.outEdges n,
        e = ⟨if isCall m n then .callToReturn else .normal, ⟨m.id, n⟩, ⟨m.id, d.target⟩⟩) ∨
      isCall m n = true ∧ ∃ i, n = .stmt i ∧ e ∈ calleeEdges p graph g ⟨m.id, i⟩ := by
  cases n with
  | stmt i =>
    by_cases hcall : isCall m (.stmt i) = true
    · simp [nodeEdges, hcall, eq_comm]
    · simp [nodeEdges, hcall, eq_comm]
  | _ => simp [nodeEdges, isCall, eq_comm]

/-- **The edges are those that `Joins` lists.** -/
theorem mem_edges {e : Edge} : e ∈ (build p graph).edges ↔ Joins p graph e := by
  rw [edges_build]
  refine mem_flatMap_overBody.trans ⟨?_, ?_⟩
  · intro ⟨m, g, hbody, he⟩
    obtain ⟨n, hn, he⟩ := List.mem_flatMap.1 he
    obtain ⟨d, hd, rfl⟩ | ⟨hcall, i, rfl, hcallees⟩ := mem_nodeEdges.1 he
    · exact .inside hbody hn hd
    · obtain ⟨callee, hcallee, hcfg, rfl | ⟨next, hnext, rfl⟩⟩ := mem_calleeEdges.1 hcallees
      · exact .call hbody hn hcall hcallee hcfg
      · exact .ret hbody hn hcall hcallee hcfg hnext
  · intro he
    cases he with
    | inside hbody hn hd =>
      exact ⟨_, _, hbody, List.mem_flatMap.2 ⟨_, hn, mem_nodeEdges.2 (.inl ⟨_, hd, rfl⟩)⟩⟩
    | call hbody hn hcall hcallee hcfg =>
      refine ⟨_, _, hbody, List.mem_flatMap.2 ⟨_, hn, mem_nodeEdges.2 (.inr ⟨hcall, _, rfl, ?_⟩)⟩⟩
      exact mem_calleeEdges.2 ⟨_, hcallee, hcfg, .inl rfl⟩
    | ret hbody hn hcall hcallee hcfg hnext =>
      refine ⟨_, _, hbody, List.mem_flatMap.2 ⟨_, hn, mem_nodeEdges.2 (.inr ⟨hcall, _, rfl, ?_⟩)⟩⟩
      exact mem_calleeEdges.2 ⟨_, hcallee, hcfg, .inr ⟨_, hnext, rfl⟩⟩

/-! ### The edges of a body -/

theorem source_of_mem_stmtEdges {size i : Nat} {s : Stmt} {e : Cfg.Edge}
    (he : e ∈ Cfg.stmtEdges size i s) : e.source = .stmt i := by
  have hjump {kind : Cfg.EdgeKind} {j : Jump} (he : e ∈ Cfg.jumpEdge kind i j) :
      e.source = .stmt i := by
    obtain ⟨t, -, rfl⟩ := Option.map_eq_some_iff.1 (Option.mem_toList.1 he)
    rfl
  cases s with
  | ifGoto op x y jump =>
    obtain he | he := List.mem_append.1 he
    · exact hjump he
    · rw [List.mem_singleton.1 he]
  | switch v cases default =>
    obtain he | he := List.mem_append.1 he
    · obtain ⟨⟨k, j⟩, -, he⟩ := List.mem_flatMap.1 he
      exact hjump he
    · exact hjump he
  | goto jump => exact hjump he
  | _ => rw [List.mem_singleton.1 he]

/-- The edges of a statement leave it in the graph of its body. -/
theorem mem_outEdges_ofBody {body : List Stmt} {i : Nat} {s : Stmt} {e : Cfg.Edge}
    (hs : body[i]? = some s) (he : e ∈ Cfg.stmtEdges body.length i s) :
    e ∈ (Cfg.ofBody body).outEdges (.stmt i) := by
  rw [Cfg.outEdges_eq, Cfg.edges_ofBody]
  refine List.mem_filter.2 ⟨List.mem_cons_of_mem _ (List.mem_flatMap.2 ?_),
    decide_eq_true (source_of_mem_stmtEdges he)⟩
  exact ⟨(s, i), List.mem_zipIdx_iff_getElem?.2 hs, he⟩

/-! ### Graphs that reach their callees -/

/-- A call graph whose indexes agree and whose callees are reachable, each under the reference that
the method carries. -/
structure ReachesCallees (p : Program) (graph : MethodGraph) : Prop where
  indexed : graph.Indexed
  callee : ∀ e ∈ graph.edges, e.callee ∈ graph.reachable ∧
    ∃ m, p.method? e.callee = some m ∧ m.id = e.callee

theorem ReachesCallees.hasBody (h : ReachesCallees p graph) {site : Site} {callee : MethodId}
    (hcallee : callee ∈ graph.callees site) (hcfg : (p.cfg? callee).isSome = true) :
    ∃ m g, HasBody p graph m g ∧ m.id = callee := by
  obtain ⟨e, he, hends⟩ := h.indexed.mem_callees.1 hcallee
  obtain ⟨-, rfl⟩ := Prod.mk.inj hends
  obtain ⟨hreachable, m, hm, hid⟩ := h.callee e he
  simp only [Program.cfg?, hm] at hcfg
  obtain ⟨g, hg⟩ := Option.isSome_iff_exists.1 hcfg
  exact ⟨m, g, ⟨⟨e.callee, hreachable, hm⟩, hg⟩, hid⟩

theorem entry_mem_nodes (g : Cfg) : .entry ∈ g.nodes := List.mem_cons_self

theorem exit_mem_nodes (g : Cfg) : .exit ∈ g.nodes := by simp [Cfg.nodes]

theorem stmt_mem_nodes {g : Cfg} {i : Nat} : .stmt i ∈ g.nodes ↔ i < g.size := by
  simp [Cfg.nodes]

/-- The statements of a body are nodes of its graph. -/
theorem stmt_mem_ofBody {body : List Stmt} {i : Nat} {s : Stmt} (hs : body[i]? = some s) :
    .stmt i ∈ (Cfg.ofBody body).nodes :=
  stmt_mem_nodes.2 (List.getElem?_eq_some_iff.1 hs).1

theorem isCall_stmt {m : Method} {i : Nat} {s : Stmt} (hs : m.stmts[i]? = some s) :
    isCall m (.stmt i) = s.isInvoke := by
  simp [isCall, m.stmt?_eq, hs]

/-- Every edge leaves a node. -/
theorem source_mem_nodes (h : ReachesCallees p graph) {e : Edge}
    (he : e ∈ (build p graph).edges) : e.source ∈ (build p graph).nodes := by
  rw [mem_nodes]
  cases mem_edges.1 he with
  | inside hbody hn => exact ⟨_, _, _, hbody, hn, rfl⟩
  | call hbody hn => exact ⟨_, _, _, hbody, hn, rfl⟩
  | ret _ _ _ hcallee hcfg =>
    obtain ⟨m, g, hbody, hid⟩ := h.hasBody hcallee hcfg
    exact ⟨m, g, .exit, hbody, exit_mem_nodes g, by rw [hid]⟩

/-- A statement of a reachable body is a node. -/
theorem stmt_mem_build (hp : p.WellFormed) {m : Method} {g : Cfg} (hbody : HasBody p graph m g)
    {i : Nat} {s : Stmt} (hs : p.stmt? ⟨m.id, i⟩ = some s) :
    (⟨m.id, .stmt i⟩ : Point) ∈ (build p graph).nodes := by
  obtain ⟨⟨id, hid, hm⟩, hg⟩ := hbody
  obtain ⟨hplace, hgraph⟩ := hp id m hm
  obtain ⟨m', hm', hs⟩ := Program.stmt?_eq_some.1 hs
  obtain rfl : m = m' := Option.some.inj (hplace.symm.trans hm')
  refine mem_nodes.2 ⟨m, g, .stmt i, ⟨⟨id, hid, hm⟩, hg⟩, ?_, rfl⟩
  rw [stmt_mem_nodes, hgraph g hg]
  rw [m.stmt?_eq] at hs
  exact (List.getElem?_eq_some_iff.1 hs).1

/-- Where an edge ends at a statement, the statement is a node. -/
theorem target_mem_nodes (hp : p.WellFormed) {e : Edge} (he : e ∈ (build p graph).edges)
    {id : MethodId} {i : Nat} {s : Stmt} (htarget : e.target = ⟨id, .stmt i⟩)
    (hs : p.stmt? ⟨id, i⟩ = some s) : e.target ∈ (build p graph).nodes := by
  rw [htarget]
  cases mem_edges.1 he with
  | inside hbody =>
    obtain ⟨rfl, -⟩ := Point.mk.inj htarget
    exact stmt_mem_build hp hbody hs
  | call => cases htarget
  | ret hbody =>
    obtain ⟨rfl, -⟩ := Point.mk.inj htarget
    exact stmt_mem_build hp hbody hs

end Icfg

end HeapFlow
