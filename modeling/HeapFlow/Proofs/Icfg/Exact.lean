import HeapFlow.Proofs.CallGraph.Tied
import HeapFlow.Proofs.Ir.Graph
import HeapFlow.Proofs.Ir.Regular
/-!
# HeapFlow.Proofs.Icfg.Exact

**The interprocedural control-flow graph is what its call graph and its bodies say** (`Exact`). The edges
are listed node by node, and no node is listed twice. So the edges that a call graph adds at a call are
found at one node only: of the lists that are appended to each other, all but one have no such edge
(`flatMap_eq_of_unique`). What remains are the edges of the control-flow graphs, one after the other.
-/

namespace HeapFlow

namespace Icfg

/-! ### What there is to be -/

/-- Whether an edge stays inside a method. -/
def EdgeKind.isInside : EdgeKind → Bool
  | normal | callToReturn => true
  | call _ | ret .. => false

/-- Whether an edge leads from a call into a callee, or back to the call. -/
def Edge.isPass (site : Site) (callee : MethodId) (e : Edge) : Bool :=
  (e.kind = .call callee && e.source = site.point) || e.kind = .ret site callee

/-- The edge that stands for a control-flow edge of a method. -/
def lift (m : Method) (e : Cfg.Edge) : Edge :=
  ⟨if isCall m e.source then .callToReturn else .normal, ⟨m.id, e.source⟩, ⟨m.id, e.target⟩⟩

/-- What an interprocedural control-flow graph over a call graph has to be. -/
structure Exact (p : Program) (graph : MethodGraph) (icfg : Icfg) : Prop where
  /-- The methods are the reachable ones with a body, each of them once. -/
  methods : icfg.methods.Nodup ∧ ∀ id, id ∈ icfg.methods ↔
    id ∈ graph.reachable ∧ ∃ m, p.method? id = some m ∧ m.hasBody = true
  bodies : ∀ id ∈ icfg.methods, ∃ m, p.method? id = some m ∧ m.id = id ∧
    m.cfg = some (.ofBody m.stmts)
  /-- The nodes are those of the control-flow graphs, each of them once. -/
  nodes : icfg.nodes.Nodup ∧ ∀ pt, pt ∈ icfg.nodes ↔
    pt.method ∈ icfg.methods ∧ ∃ g, p.cfg? pt.method = some g ∧ pt.node ∈ g.nodes
  /-- The edges that stay inside a method are those of the control-flow graphs, one for one. -/
  inside : icfg.edges.filter (·.kind.isInside) =
    icfg.methods.flatMap (overBody p fun m g => g.edges.map (lift m))
  /-- A call has one edge into each callee with a body, and one back to each distinct successor. -/
  passes : ∀ d ∈ graph.edges, d.callee ∈ icfg.methods →
    ∃ (g : Cfg) (nexts : List Node), p.cfg? d.site.method = some g ∧
    nexts.Nodup ∧
    (∀ n, n ∈ nexts ↔ ∃ e ∈ g.edges, e.source = .stmt d.site.index ∧ e.target = n) ∧
    icfg.edges.filter (Edge.isPass d.site d.callee) =
      ⟨.call d.callee, d.site.point, ⟨d.callee, .entry⟩⟩ ::
        nexts.map fun n => ⟨.ret d.site d.callee, ⟨d.callee, .exit⟩, ⟨d.site.method, n⟩⟩
  /-- There are no other edges. -/
  only : ∀ e ∈ icfg.edges, e.kind.isInside = true ∨
    ∃ d ∈ graph.edges, d.callee ∈ icfg.methods ∧ e.isPass d.site d.callee = true
  ends : ∀ e ∈ icfg.edges, e.source ∈ icfg.nodes ∧ e.target ∈ icfg.nodes
  /-- Each edge is listed where it leaves and where it arrives, as often as it is in the graph. -/
  out : ∀ pt e, (icfg.outEdges pt).count e = if e.source = pt then icfg.edges.count e else 0
  into : ∀ pt e, (icfg.inEdges pt).count e = if e.target = pt then icfg.edges.count e else 0

/-! ### Methods and nodes -/

variable {p : Program} {graph : MethodGraph} {m : Method} {g : Cfg} {id : MethodId}

/-- A method of the graph stands in its place and has the graph of its body. -/
theorem exists_body (hp : p.Loaded) (ht : graph.Tied p) (hid : id ∈ (build p graph).methods) :
    ∃ m, p.method? id = some m ∧ m.id = id ∧ m.cfg = some (.ofBody m.stmts) := by
  obtain ⟨hreachable, hcfg⟩ := List.mem_filter.1 hid
  obtain ⟨m, hm, heq⟩ := ht.inPlace id hreachable
  refine ⟨m, hm, heq, ?_⟩
  have hgraph := hp.cfg_eq hm
  split at hgraph
  · exact hgraph
  · simp [Program.cfg?, hm, hgraph] at hcfg

theorem mem_methods (hp : p.Loaded) : id ∈ (build p graph).methods ↔
    id ∈ graph.reachable ∧ ∃ m, p.method? id = some m ∧ m.hasBody = true := by
  refine List.mem_filter.trans (and_congr_right fun _ => ?_)
  cases hm : p.method? id with
  | none => simp [Program.cfg?, hm]
  | some m => cases hbody : m.hasBody <;> simp [Program.cfg?, hm, hp.cfg_eq hm, hbody]

theorem nodup_methods (p : Program) (graph : MethodGraph) : (build p graph).methods.Nodup :=
  graph.reachable.nodup.filter _

theorem overBody_eq {α : Type} (f : Method → Cfg → List α) (hm : p.method? id = some m)
    (hg : m.cfg = some g) : overBody p f id = f m g := by
  rw [overBody, hm]
  simp only [hg]

theorem nodup_cfgNodes (g : Cfg) : g.nodes.Nodup := by
  have hstmts : ((List.range g.size).map Node.stmt).Nodup :=
    List.nodup_range.map fun _ _ => Node.stmt.inj
  simp [Cfg.nodes, List.nodup_append, hstmts]

theorem mem_nodes_iff (hp : p.Loaded) (ht : graph.Tied p) {pt : Point} :
    pt ∈ (build p graph).nodes ↔ pt.method ∈ (build p graph).methods ∧
      ∃ g, p.cfg? pt.method = some g ∧ pt.node ∈ g.nodes := by
  constructor
  · intro hpt
    obtain ⟨id, hid, hpt⟩ := List.mem_flatMap.1 hpt
    obtain ⟨m, hm, rfl, hg⟩ := exists_body hp ht hid
    rw [overBody_eq _ hm hg] at hpt
    obtain ⟨n, hn, rfl⟩ := List.mem_map.1 hpt
    exact ⟨hid, _, Option.bind_eq_some_iff.2 ⟨m, hm, hg⟩, hn⟩
  · rintro ⟨hid, g, hg, hn⟩
    obtain ⟨m, hm, heq, -⟩ := exists_body hp ht hid
    refine List.mem_flatMap.2 ⟨pt.method, hid, ?_⟩
    have hg : m.cfg = some g := by
      rw [Program.cfg?, hm] at hg
      exact hg
    rw [overBody_eq _ hm hg]
    exact List.mem_map.2 ⟨pt.node, hn, by rw [heq]⟩

theorem nodup_nodes (hp : p.Loaded) (ht : graph.Tied p) : (build p graph).nodes.Nodup := by
  have hof {id : MethodId} (hid : id ∈ (build p graph).methods) {pt : Point}
      (hpt : pt ∈ overBody p (fun m g => g.nodes.map (⟨m.id, ·⟩)) id) : pt.method = id := by
    obtain ⟨m, hm, rfl, hg⟩ := exists_body hp ht hid
    rw [overBody_eq _ hm hg] at hpt
    obtain ⟨n, -, rfl⟩ := List.mem_map.1 hpt
    rfl
  refine List.nodup_flatMap.2 ⟨fun id hid => ?_, ?_⟩
  · obtain ⟨m, hm, -, hg⟩ := exists_body hp ht hid
    rw [overBody_eq _ hm hg]
    exact (nodup_cfgNodes _).map fun _ _ h => (Point.mk.inj h).2
  · refine (nodup_methods p graph).pairwise_of_forall_ne fun id hid id' hid' hne => ?_
    -- the points of two methods are of different methods
    exact fun pt hpt hpt' => hne ((hof hid hpt).symm.trans (hof hid' hpt'))

/-! ### Edges inside methods -/

theorem filter_overBody {α : Type} (test : α → Bool) (f : Method → Cfg → List α) (id : MethodId) :
    (overBody p f id).filter test = overBody p (fun m g => (f m g).filter test) id := by
  unfold overBody
  split
  · rfl
  · split <;> rfl

theorem isPass_iff {site : Site} {callee : MethodId} {e : Edge} : e.isPass site callee = true ↔
    e.kind = .call callee ∧ e.source = site.point ∨ e.kind = .ret site callee := by
  simp [Edge.isPass]

theorem isInside_lift (m : Method) (e : Cfg.Edge) : (lift m e).kind.isInside = true := by
  unfold lift
  split <;> rfl

theorem isInside_of_isPass {site : Site} {callee : MethodId} {e : Edge}
    (h : e.isPass site callee = true) : e.kind.isInside = false := by
  obtain ⟨hkind, -⟩ | hkind := isPass_iff.1 h <;> rw [hkind] <;> rfl

/-- The edges that the call at a node adds. -/
def passEdges (p : Program) (graph : MethodGraph) (m : Method) (g : Cfg) : Node → List Edge
  | .stmt i => if isCall m (.stmt i) then calleeEdges p graph g ⟨m.id, i⟩ else []
  | _ => []

/-- The edges of a node are those of its control flow and those of its call. -/
theorem nodeEdges_eq (p : Program) (graph : MethodGraph) (m : Method) (g : Cfg) (n : Node) :
    nodeEdges p graph m g n = (g.outEdges n).map (lift m) ++ passEdges p graph m g n := by
  have hlift : (g.outEdges n).map (lift m) = (g.outEdges n).map fun e =>
      ⟨if isCall m n then EdgeKind.callToReturn else .normal, ⟨m.id, n⟩, ⟨m.id, e.target⟩⟩ := by
    refine List.map_congr_left fun e he => ?_
    rw [lift, (Cfg.mem_outEdges.1 he).2]
  rw [hlift]
  cases n with
  | stmt i =>
    simp only [nodeEdges, passEdges]
    split
    · rfl
    · rw [List.append_nil]
  | _ => exact (List.append_nil _).symm

/-- The edges that a call adds lead into a callee with a body or back from it. -/
theorem isPass_of_mem_passEdges {n : Node} {e : Edge} (he : e ∈ passEdges p graph m g n) :
    ∃ site callee, site.point = ⟨m.id, n⟩ ∧ callee ∈ graph.callees site ∧
      (p.cfg? callee).isSome = true ∧ e.isPass site callee = true := by
  unfold passEdges at he
  split at he
  · rename_i i
    split at he
    · obtain ⟨callee, hcallee, hcfg, rfl | ⟨next, -, rfl⟩⟩ := mem_calleeEdges.1 he
      · exact ⟨⟨m.id, i⟩, callee, rfl, hcallee, hcfg, isPass_iff.2 (.inl ⟨rfl, rfl⟩)⟩
      · exact ⟨⟨m.id, i⟩, callee, rfl, hcallee, hcfg, isPass_iff.2 (.inr rfl)⟩
    · cases he
  · cases he

/-- The edges that stay inside the method are those of its control flow. -/
theorem filter_nodeEdges_isInside (p : Program) (graph : MethodGraph) (m : Method) (g : Cfg)
    (n : Node) :
    (nodeEdges p graph m g n).filter (·.kind.isInside) = (g.outEdges n).map (lift m) := by
  have hinside : ((g.outEdges n).map (lift m)).filter (·.kind.isInside) =
      (g.outEdges n).map (lift m) := by
    refine List.filter_eq_self.2 fun e he => ?_
    obtain ⟨d, -, rfl⟩ := List.mem_map.1 he
    exact isInside_lift m d
  have hpasses : (passEdges p graph m g n).filter (·.kind.isInside) = [] := by
    refine List.filter_eq_nil_iff.2 fun e he hkind => ?_
    obtain ⟨_, _, -, -, -, hpass⟩ := isPass_of_mem_passEdges he
    cases (isInside_of_isPass hpass).symm.trans hkind
  rw [nodeEdges_eq, List.filter_append, hinside, hpasses, List.append_nil]

/-- **The edges inside methods are those of the control-flow graphs.** -/
theorem filter_edges_isInside (hp : p.Loaded) (ht : graph.Tied p) :
    (build p graph).edges.filter (·.kind.isInside) =
      (build p graph).methods.flatMap (overBody p fun m g => g.edges.map (lift m)) := by
  rw [edges_build]
  refine List.filter_flatMap.trans (List.flatMap_congr fun id hid => ?_)
  obtain ⟨m, hm, -, hg⟩ := exists_body hp ht hid
  rw [filter_overBody, overBody_eq _ hm hg, overBody_eq _ hm hg, List.filter_flatMap]
  simp only [filter_nodeEdges_isInside]
  rw [← List.map_flatMap, Cfg.flatMap_outEdges]

/-! ### Edges of calls -/

/-- Where only one element contributes to a list, the list is what that one contributes. -/
theorem flatMap_eq_of_unique {α β : Type} {xs : List α} (hxs : xs.Nodup) {a : α} (ha : a ∈ xs)
    {f : α → List β} (hf : ∀ b ∈ xs, b ≠ a → f b = []) : xs.flatMap f = f a := by
  obtain ⟨before, after, rfl⟩ := List.append_of_mem ha
  obtain ⟨-, hafter, hne⟩ := List.nodup_append.1 hxs
  have hbefore : before.flatMap f = [] := List.flatMap_eq_nil_iff.2 fun b hb =>
    hf b (List.mem_append_left _ hb) (hne b hb a List.mem_cons_self)
  have hrest : after.flatMap f = [] := List.flatMap_eq_nil_iff.2 fun b hb =>
    hf b (List.mem_append_right _ (List.mem_cons_of_mem _ hb)) fun heq =>
      (List.nodup_cons.1 hafter).1 (heq ▸ hb)
  rw [List.flatMap_append, List.flatMap_cons, hbefore, hrest, List.nil_append, List.append_nil]

/-- The edges that a point adds. -/
def pointEdges (p : Program) (graph : MethodGraph) (pt : Point) : List Edge :=
  overBody p (fun m g => nodeEdges p graph m g pt.node) pt.method

/-- The edges are listed node by node. -/
theorem edges_eq (hp : p.Loaded) (ht : graph.Tied p) :
    (build p graph).edges = (build p graph).nodes.flatMap (pointEdges p graph) := by
  rw [edges_build]
  refine Eq.trans (List.flatMap_congr fun id hid => ?_) List.flatMap_assoc.symm
  obtain ⟨m, hm, rfl, hg⟩ := exists_body hp ht hid
  rw [overBody_eq _ hm hg, overBody_eq _ hm hg, List.flatMap_map]
  exact List.flatMap_congr fun n _ => (overBody_eq (nodeEdges p graph · · n) hm hg).symm

theorem point_injective : Function.Injective Site.point := by
  rintro ⟨method, index⟩ ⟨method', index'⟩ h
  cases h
  rfl

/-- An edge belongs to one call and one callee. -/
theorem eq_of_isPass {site site' : Site} {callee callee' : MethodId} {e : Edge}
    (h : e.isPass site callee = true) (h' : e.isPass site' callee' = true) :
    site = site' ∧ callee = callee' := by
  obtain ⟨hkind, hsource⟩ | hkind := isPass_iff.1 h
  · obtain ⟨hkind', hsource'⟩ | hkind' := isPass_iff.1 h'
    · exact ⟨point_injective (hsource.symm.trans hsource'),
        EdgeKind.call.inj (hkind.symm.trans hkind')⟩
    · cases hkind.symm.trans hkind'
  · obtain ⟨hkind', -⟩ | hkind' := isPass_iff.1 h'
    · cases hkind.symm.trans hkind'
    · exact EdgeKind.ret.inj (hkind.symm.trans hkind')

/-- Of the edges of a node, those of a call that is elsewhere. -/
theorem filter_nodeEdges_of_ne {site : Site} {callee : MethodId} {n : Node}
    (hne : (⟨m.id, n⟩ : Point) ≠ site.point) :
    (nodeEdges p graph m g n).filter (Edge.isPass site callee) = [] := by
  refine List.filter_eq_nil_iff.2 fun e he hpass => ?_
  rw [nodeEdges_eq] at he
  obtain he | he := List.mem_append.1 he
  · obtain ⟨d, -, rfl⟩ := List.mem_map.1 he
    cases (isInside_of_isPass hpass).symm.trans (isInside_lift m d)
  · obtain ⟨site', callee', hpoint, -, -, hpass'⟩ := isPass_of_mem_passEdges he
    rw [← (eq_of_isPass hpass hpass').1] at hpoint
    exact hne hpoint.symm

/-- Of the edges of a node, those of its call. -/
theorem filter_nodeEdges_stmt {i : Nat} {callee : MethodId} (hcall : isCall m (.stmt i) = true) :
    (nodeEdges p graph m g (.stmt i)).filter (Edge.isPass ⟨m.id, i⟩ callee) =
      (calleeEdges p graph g ⟨m.id, i⟩).filter (Edge.isPass ⟨m.id, i⟩ callee) := by
  have hinside : ((g.outEdges (.stmt i)).map (lift m)).filter (Edge.isPass ⟨m.id, i⟩ callee) = [] := by
    refine List.filter_eq_nil_iff.2 fun e he hpass => ?_
    obtain ⟨d, -, rfl⟩ := List.mem_map.1 he
    cases (isInside_of_isPass hpass).symm.trans (isInside_lift m d)
  rw [nodeEdges_eq, List.filter_append, hinside, passEdges, if_pos hcall, List.nil_append]

/-- Of the edges of a call, those of one callee. -/
theorem filter_calleeEdges (hindexed : graph.Indexed) {site : Site} {callee : MethodId}
    (hcallee : callee ∈ graph.callees site)
    (hcfg : (p.cfg? callee).isSome = true) :
    (calleeEdges p graph g site).filter (Edge.isPass site callee) =
      ⟨.call callee, site.point, ⟨callee, .entry⟩⟩ ::
        (g.succs (.stmt site.index)).toList.map fun next =>
          ⟨.ret site callee, ⟨callee, .exit⟩, ⟨site.method, next⟩⟩ := by
  have hnodup : ((graph.callees site).filter fun c => (p.cfg? c).isSome).Nodup :=
    (hindexed.listsOnce.callees site).1.filter _
  have hpass (other : MethodId) : ∀ e ∈ (⟨.call other, site.point, ⟨other, .entry⟩⟩ ::
      (g.succs (.stmt site.index)).toList.map fun next =>
        ⟨.ret site other, ⟨other, .exit⟩, ⟨site.method, next⟩⟩ : List Edge),
      e.isPass site other = true := by
    intro e he
    obtain rfl | he := List.mem_cons.1 he
    · exact isPass_iff.2 (.inl ⟨rfl, rfl⟩)
    · obtain ⟨next, -, rfl⟩ := List.mem_map.1 he
      exact isPass_iff.2 (.inr rfl)
  rw [calleeEdges, List.filter_flatMap,
    flatMap_eq_of_unique hnodup (List.mem_filter.2 ⟨hcallee, hcfg⟩)]
  · exact List.filter_eq_self.2 (hpass callee)
  · intro other _ hne
    exact List.filter_eq_nil_iff.2 fun e he h => hne (eq_of_isPass (hpass other e he) h).2

/-- A call of the call graph is a call statement of a reachable body. -/
theorem exists_call (hp : p.Loaded) (ht : graph.Tied p) {d : CallGraph.Edge Site MethodId}
    (hd : d ∈ graph.edges) : ∃ m result call, p.method? d.site.method = some m ∧
      m.id = d.site.method ∧ HasBody p graph m (.ofBody m.stmts) ∧
      m.stmts[d.site.index]? = some (.invoke result call) := by
  obtain ⟨m, hm, hid⟩ := ht.inPlace d.site.method (ht.site d hd)
  obtain ⟨result, call, hstmt⟩ := ht.invoke d hd
  have hs : m.stmts[d.site.index]? = some (.invoke result call) := by
    obtain ⟨m', hm', hs⟩ := Program.stmt?_eq_some.1 hstmt
    obtain rfl : m = m' := Option.some.inj (hm.symm.trans hm')
    rwa [m.stmt?_eq] at hs
  obtain ⟨named, hregular⟩ := Document.exists_regular_of_loaded hp hm
  have hbody : m.hasBody = true := by
    by_contra hnot
    rw [hregular.body (Bool.eq_false_of_not_eq_true hnot)] at hs
    cases hs
  exact ⟨m, result, call, hm, hid, ⟨⟨_, ht.site d hd, hm⟩, hregular.cfg hbody⟩, hs⟩

/-- **The edges between a call and a callee with a body.** -/
theorem filter_edges_isPass (hp : p.Loaded) (ht : graph.Tied p)
    {d : CallGraph.Edge Site MethodId} (hd : d ∈ graph.edges)
    (hcallee : d.callee ∈ (build p graph).methods) : ∃ g, p.cfg? d.site.method = some g ∧
      (build p graph).edges.filter (Edge.isPass d.site d.callee) =
        ⟨.call d.callee, d.site.point, ⟨d.callee, .entry⟩⟩ ::
          (g.succs (.stmt d.site.index)).toList.map fun next =>
            ⟨.ret d.site d.callee, ⟨d.callee, .exit⟩, ⟨d.site.method, next⟩⟩ := by
  obtain ⟨kind, ⟨caller, i⟩, callee⟩ := d
  -- the call is a node of its method
  obtain ⟨m, result, call, hm, rfl, hcaller, hs⟩ := exists_call hp ht hd
  dsimp only at hcallee hm hs ⊢
  have hg := hcaller.cfg
  have hnode : (⟨m.id, .stmt i⟩ : Point) ∈ (build p graph).nodes :=
    mem_nodes.2 ⟨m, _, .stmt i, hcaller, stmt_mem_ofBody hs, rfl⟩
  refine ⟨_, Option.bind_eq_some_iff.2 ⟨m, hm, hg⟩, ?_⟩
  rw [edges_eq hp ht, List.filter_flatMap, flatMap_eq_of_unique (nodup_nodes hp ht) hnode]
  · rw [pointEdges, overBody_eq _ hm hg, filter_nodeEdges_stmt (isCall_stmt hs)]
    exact filter_calleeEdges ht.indexed (ht.indexed.mem_callees.2 ⟨_, hd, rfl⟩) (List.mem_filter.1 hcallee).2
  · intro pt hpt hne
    obtain ⟨m', g', n, ⟨⟨id, -, hm'⟩, hg'⟩, -, rfl⟩ := mem_nodes.1 hpt
    rw [pointEdges, overBody_eq _ (hp.wellFormed id m' hm').1 hg']
    exact filter_nodeEdges_of_ne hne

/-! ### The whole graph -/

/-- An edge stays inside a method or belongs to a call of the call graph. -/
theorem isInside_or_isPass (ht : graph.Tied p) {e : Edge} (he : e ∈ (build p graph).edges) :
    e.kind.isInside = true ∨
      ∃ d ∈ graph.edges, d.callee ∈ (build p graph).methods ∧ e.isPass d.site d.callee = true := by
  rw [edges_build] at he
  obtain ⟨m, g, -, he⟩ := mem_flatMap_overBody.1 he
  obtain ⟨n, -, he⟩ := List.mem_flatMap.1 he
  rw [nodeEdges_eq] at he
  obtain he | he := List.mem_append.1 he
  · obtain ⟨d, -, rfl⟩ := List.mem_map.1 he
    exact .inl (isInside_lift m d)
  · obtain ⟨site, callee, -, hcallee, hcfg, hpass⟩ := isPass_of_mem_passEdges he
    obtain ⟨d, hd, hends⟩ := ht.indexed.mem_callees.1 hcallee
    obtain ⟨rfl, rfl⟩ := Prod.mk.inj hends
    exact .inr ⟨d, hd, List.mem_filter.2 ⟨ht.callee d hd, hcfg⟩, hpass⟩

theorem HasBody.closed (hp : p.Loaded) (h : HasBody p graph m g) : g.Closed := by
  obtain ⟨⟨id, -, hm⟩, hg⟩ := h
  exact hp.closed hm hg

/-- Every edge arrives at a node. -/
theorem target_mem (hp : p.Loaded) (ht : graph.Tied p) {e : Edge}
    (he : e ∈ (build p graph).edges) : e.target ∈ (build p graph).nodes := by
  rw [mem_nodes]
  cases mem_edges.1 he with
  | inside hbody hn hd =>
    exact ⟨_, _, _, hbody, (hbody.closed hp _ (Cfg.mem_outEdges.1 hd).1).2, rfl⟩
  | call _ _ _ hcallee hcfg =>
    obtain ⟨m, g, hbody, rfl⟩ := ht.reachesCallees.hasBody hcallee hcfg
    exact ⟨m, g, .entry, hbody, entry_mem_nodes g, rfl⟩
  | ret hbody _ _ _ _ hnext =>
    obtain ⟨d, hd, -, rfl⟩ := Cfg.mem_succs.1 hnext
    exact ⟨_, _, _, hbody, (hbody.closed hp d hd).2, rfl⟩

theorem exact_of_tied (hp : p.Loaded) (ht : graph.Tied p) : Exact p graph (build p graph) where
  methods := ⟨nodup_methods p graph, fun _ => mem_methods hp⟩
  bodies _ hid := exists_body hp ht hid
  nodes := ⟨nodup_nodes hp ht, fun _ => mem_nodes_iff hp ht⟩
  inside := filter_edges_isInside hp ht
  passes d hd hcallee := by
    obtain ⟨g, hg, hedges⟩ := filter_edges_isPass hp ht hd hcallee
    exact ⟨g, _, hg, OrderedSet.nodup _, fun _ => Cfg.mem_succs, hedges⟩
  only _ he := isInside_or_isPass ht he
  ends _ he := ⟨source_mem_nodes ht.reachesCallees he, target_mem hp ht he⟩
  out pt e := by simp [outEdges_eq, Cfg.count_filter_eq_ite]
  into pt e := by simp [inEdges_eq, Cfg.count_filter_eq_ite]

/-- **The interprocedural control-flow graph over either call graph of a program is exact.** -/
theorem build_exact (hp : p.Opened) (h : p.CallGraphOf graph) : Exact p graph (build p graph) :=
  exact_of_tied hp.loaded (h.tied hp)

/-- A method that calls itself twice, the second time in its last statement. Two cases of its switch
lead to the first call. -/
def repeatDocument : Json.Value :=
  let toAgain (value : Int) : Json.Value :=
    .obj [("value", .num (.int value)), ("target", .str "again")]
  let call (label : String) : Json.Value := .obj [("label", .str label), ("op", .str "invoke"),
    ("kind", .str "static"), ("class", .str "Repeat"), ("method", .str "void run(int)"),
    ("args", .arr [.str "n"])]
  let run : Json.Value := .obj [("name", .str "run"), ("static", .bool true),
    ("params", .arr [.obj [("name", .str "n"), ("type", .str "int")]]), ("body", .arr [
      .obj [("op", .str "switch"), ("var", .str "n"), ("cases", .arr [toAgain 1, toAgain 2]),
        ("default", .str "done")],
      call "again",
      call "done"])]
  .obj [("classes", .arr [.obj [("name", .str "Repeat"), ("methods", .arr [run])]]),
    ("entry", .str "Repeat.run")]

/-- Both graphs of this method are exact. The edges of the two cases are both there, and the last call
has an edge back from the exit to the exit. -/
theorem repeatDocument_exact :
    let p := Program.described repeatDocument
    let run : MethodId := ⟨⟨0, "Repeat"⟩, 0⟩
    Exact p p.chaGraph (build p p.chaGraph) ∧
      (∃ ans, PointsTo.solve p .insensitive 40 .empty .initial = some ans ∧ ans.failure = none ∧
        Exact p ans.state.found.methodGraph (build p ans.state.found.methodGraph)) ∧
      (build p p.chaGraph).edges.count ⟨.normal, ⟨run, .stmt 0⟩, ⟨run, .stmt 1⟩⟩ = 2 ∧
      (build p p.chaGraph).edges.filter (Edge.isPass ⟨run, 2⟩ run) =
        [⟨.call run, ⟨run, .stmt 2⟩, ⟨run, .entry⟩⟩,
          ⟨.ret ⟨run, 2⟩ run, ⟨run, .exit⟩, ⟨run, .exit⟩⟩] := by
  intro p run
  have hp : p.Opened := Program.opened_described (by decide +kernel) (by decide +kernel)
  have hrun : (PointsTo.solve p .insensitive 40 .empty .initial).map PointsTo.Answer.failure =
      some none := by
    decide +kernel
  obtain ⟨ans, hans, hok⟩ := Option.map_eq_some_iff.1 hrun
  exact ⟨build_exact hp .cha, ⟨ans, hans, hok, build_exact hp (.pointsTo hans hok)⟩,
    by decide +kernel, by decide +kernel⟩

end Icfg

end HeapFlow
