import HeapFlow.Proofs.Icfg.Exact
/-!
# HeapFlow.Proofs.Icfg.Isolated

**Which nodes of the interprocedural control-flow graph have no edge** (`hasNode_iff`). The graph
tells its nodes by their edges, and a node without edges is not found. An entry has the edge into
its body and every statement one that leaves it. An exit has the edges that lead to the end of its
body and those back to the callers. So what is not found is the exit of a body that never ends in a
method that nothing calls.
-/

namespace HeapFlow

namespace Cfg

/-! ### Where bodies end -/

/-- A body that control does not leave: no statement returns, and the last one leads to another. -/
structure NeverEnds (body : List Stmt) : Prop where
  nonempty : body ≠ []
  noReturn : ∀ value, Stmt.ret value ∉ body
  last : ∀ s ∈ body.getLast?, s.fallsThrough = false

variable {body : List Stmt} {size i : Nat} {s : Stmt}

theorem next_eq_exit_iff : next size i = .exit ↔ size ≤ i + 1 := by
  unfold next
  split <;> simp <;> omega

/-- Jumps do not lead to the exit. -/
theorem target_of_mem_jumpEdge {kind : EdgeKind} {j : Jump} {e : Edge} (he : e ∈ jumpEdge kind i j) :
    e.target ≠ .exit := by
  obtain ⟨t, -, rfl⟩ := Option.map_eq_some_iff.1 (Option.mem_toList.1 he)
  exact nofun

/-- Only a return, or a last statement that falls through, has an edge to the exit. -/
theorem of_mem_stmtEdges_exit {e : Edge} (he : e ∈ stmtEdges size i s) (hexit : e.target = .exit) :
    (∃ value, s = .ret value) ∨ s.fallsThrough = true ∧ size ≤ i + 1 := by
  cases s with
  | ifGoto op x y jump =>
    obtain he | he := List.mem_append.1 he
    · exact absurd hexit (target_of_mem_jumpEdge he)
    · obtain rfl := List.mem_singleton.1 he
      exact .inr ⟨rfl, next_eq_exit_iff.1 hexit⟩
  | switch v cases default =>
    obtain he | he := List.mem_append.1 he
    · obtain ⟨case, -, he⟩ := List.mem_flatMap.1 he
      exact absurd hexit (target_of_mem_jumpEdge he)
    · exact absurd hexit (target_of_mem_jumpEdge he)
  | goto jump => exact absurd hexit (target_of_mem_jumpEdge he)
  | ret value => exact .inl ⟨value, rfl⟩
  | _ =>
    obtain rfl := List.mem_singleton.1 he
    exact .inr ⟨rfl, next_eq_exit_iff.1 hexit⟩

/-- A statement that falls through has an edge to the next node. -/
theorem exists_mem_stmtEdges_next (size i : Nat) (hs : s.fallsThrough = true) :
    ∃ e ∈ stmtEdges size i s, e.target = next size i := by
  cases s with
  | ifGoto => exact ⟨_, List.mem_append_right _ (List.mem_singleton_self _), rfl⟩
  | switch => cases hs
  | goto => cases hs
  | ret => cases hs
  | _ => exact ⟨_, List.mem_singleton_self _, rfl⟩

/-- A statement whose jumps are resolved has an edge. -/
theorem stmtEdges_ne_nil (size i : Nat) (hs : ∀ j ∈ s.jumps, ∃ t, j.target = some t) :
    stmtEdges size i s ≠ [] := by
  cases hfalls : s.fallsThrough with
  | true =>
    obtain ⟨e, he, -⟩ := exists_mem_stmtEdges_next size i hfalls
    exact List.ne_nil_of_mem he
  | false =>
    have hjump {kind : EdgeKind} {j : Jump} (hj : j ∈ s.jumps) : jumpEdge kind i j ≠ [] := by
      obtain ⟨t, ht⟩ := hs j hj
      simp [jumpEdge, ht]
    cases s with
    | switch v cases default =>
      exact List.append_ne_nil_of_right_ne_nil _
        (hjump (List.mem_append_right _ (List.mem_singleton_self _)))
    | goto jump => exact hjump (List.mem_singleton_self _)
    | ret value => exact List.cons_ne_nil _ _
    | _ => cases hfalls

/-- **A body never ends exactly if no edge of its graph leads to the exit.** -/
theorem neverEnds_iff : NeverEnds body ↔ ∀ e ∈ (ofBody body).edges, e.target ≠ .exit := by
  constructor
  · intro h e he hexit
    rw [edges_ofBody] at he
    obtain rfl | he := List.mem_cons.1 he
    · have hsize : body.length ≠ 0 := fun hzero => h.nonempty (List.length_eq_zero_iff.1 hzero)
      simp [entryEdge, hsize] at hexit
    · obtain ⟨⟨s, i⟩, hs, he⟩ := List.mem_flatMap.1 he
      have hs : body[i]? = some s := List.mem_zipIdx_iff_getElem?.1 hs
      obtain ⟨value, rfl⟩ | ⟨hfalls, hlast⟩ := of_mem_stmtEdges_exit he hexit
      · exact h.noReturn value (List.mem_of_getElem? hs)
      · have hlt := (List.getElem?_eq_some_iff.1 hs).1
        obtain rfl : i = body.length - 1 := by omega
        rw [← List.getLast?_eq_getElem?] at hs
        cases hfalls.symm.trans (h.last s hs)
  · intro h
    have hstmt {i : Nat} {s : Stmt} (hs : body[i]? = some s) {e : Edge}
        (he : e ∈ stmtEdges body.length i s) : e.target ≠ .exit :=
      h e (mem_outEdges.1 (Icfg.mem_outEdges_ofBody hs he)).1
    refine ⟨fun hnil => ?_, fun value hvalue => ?_, fun s hs => ?_⟩
    · subst hnil
      exact h _ (entryEdge_mem_ofBody []) rfl
    · obtain ⟨i, hi⟩ := List.mem_iff_getElem?.1 hvalue
      exact hstmt hi (List.mem_singleton_self _) rfl
    · by_contra hfalls
      rw [Option.mem_def, List.getLast?_eq_getElem?] at hs
      obtain ⟨e, he, hnext⟩ := exists_mem_stmtEdges_next body.length (body.length - 1)
        (Bool.eq_true_of_not_eq_false hfalls)
      exact hstmt hs he (hnext.trans (next_eq_exit_iff.2 (by omega)))

end Cfg

namespace Icfg

variable {p : Program} {graph : MethodGraph} {pt : Point}

/-- The exit of a body that never ends, in a method that no call of the graph enters. -/
structure Isolated (p : Program) (graph : MethodGraph) (pt : Point) : Prop where
  exit : pt.node = .exit
  body : ∃ m, p.method? pt.method = some m ∧ Cfg.NeverEnds m.stmts
  uncalled : ∀ e ∈ graph.edges, e.callee ≠ pt.method

section

variable {m : Method} {g : Cfg}

/-- A body that the graph joins to others is regular and in its place. -/
theorem HasBody.regular (hp : p.Loaded) (h : HasBody p graph m g) :
    p.method? m.id = some m ∧ g = .ofBody m.stmts ∧
      ∀ s ∈ m.stmts, ∀ j ∈ s.jumps, ∃ t, j.target = some t ∧ t < m.stmts.length := by
  obtain ⟨⟨id, -, hm⟩, hg⟩ := h
  obtain ⟨hplace, hbody⟩ := hp.wellFormed id m hm
  obtain ⟨named, hregular⟩ := Document.exists_regular_of_loaded hp hm
  exact ⟨hplace, hbody g hg, hregular.jumps⟩

/-- The edges of a body are there between the points of its method. -/
theorem HasBody.exists_mem_edges (hp : p.Loaded) (h : HasBody p graph m g) {d : Cfg.Edge}
    (hd : d ∈ g.edges) : ∃ e ∈ (build p graph).edges,
      e.source = ⟨m.id, d.source⟩ ∧ e.target = ⟨m.id, d.target⟩ :=
  ⟨_, mem_edges.2 (.inside h (h.closed hp d hd).1 (Cfg.mem_outEdges.2 ⟨hd, rfl⟩)), rfl, rfl⟩

/-- The end of a call has an edge to what follows the call. -/
theorem exists_mem_edges_of_callee (hp : p.Loaded) (ht : graph.Tied p)
    {d : CallGraph.Edge Site MethodId} (hd : d ∈ graph.edges)
    (hcallee : d.callee ∈ (build p graph).methods) :
    ∃ e ∈ (build p graph).edges, e.source = ⟨d.callee, .exit⟩ := by
  obtain ⟨caller, result, call, -, hid, hcaller, hs⟩ := exists_call hp ht hd
  obtain ⟨next, hnext, -⟩ :=
    Cfg.exists_mem_stmtEdges_next caller.stmts.length d.site.index (s := .invoke result call) rfl
  have hsucc : next.target ∈ (Cfg.ofBody caller.stmts).succs (.stmt d.site.index) :=
    Cfg.mem_succs.2 ⟨next, (Cfg.mem_outEdges.1 (mem_outEdges_ofBody hs hnext)).1,
      source_of_mem_stmtEdges hnext, rfl⟩
  refine ⟨⟨.ret ⟨caller.id, d.site.index⟩ d.callee, ⟨d.callee, .exit⟩, ⟨caller.id, next.target⟩⟩,
    mem_edges.2 ?_, rfl⟩
  refine .ret hcaller (stmt_mem_ofBody hs) (isCall_stmt hs) ?_ (List.mem_filter.1 hcallee).2 hsucc
  exact ht.indexed.mem_callees.2 ⟨d, hd, by rw [hid]; rfl⟩

end

/-- The exit of a body that never ends is no end of an edge of its control flow. -/
theorem Isolated.of_hasBody (hp : p.Loaded) (h : Isolated p graph pt) {m : Method} {g : Cfg}
    (hbody : HasBody p graph m g) {d : Cfg.Edge} (hd : d ∈ g.edges) :
    (⟨m.id, d.source⟩ : Point) ≠ pt ∧ (⟨m.id, d.target⟩ : Point) ≠ pt := by
  obtain ⟨hplace, rfl, -⟩ := hbody.regular hp
  constructor
  · rintro rfl
    have hleaves : d ∈ (Cfg.ofBody m.stmts).outEdges .exit := Cfg.mem_outEdges.2 ⟨hd, h.exit⟩
    rw [Cfg.outEdges_exit] at hleaves
    cases hleaves
  · rintro rfl
    obtain ⟨m', hm', hnever⟩ := h.body
    obtain rfl : m = m' := Option.some.inj (hplace.symm.trans hm')
    exact Cfg.neverEnds_iff.1 hnever d hd h.exit

/-- **An isolated point is no end of an edge.** -/
theorem Isolated.not_mem (hp : p.Loaded) (hindexed : graph.Indexed) (h : Isolated p graph pt)
    {e : Edge} (he : e ∈ (build p graph).edges) : e.source ≠ pt ∧ e.target ≠ pt := by
  cases mem_edges.1 he with
  | inside hbody hn hleaves =>
    obtain ⟨hd, rfl⟩ := Cfg.mem_outEdges.1 hleaves
    exact h.of_hasBody hp hbody hd
  | call =>
    refine ⟨?_, ?_⟩ <;> (rintro rfl; cases h.exit)
  | ret hbody hn hcall hcallee hcfg hnext =>
    constructor
    · rintro rfl
      obtain ⟨d, hd, hends⟩ := hindexed.mem_callees.1 hcallee
      exact h.uncalled d hd (Prod.mk.inj hends).2
    · obtain ⟨d, hd, -, rfl⟩ := Cfg.mem_succs.1 hnext
      exact (h.of_hasBody hp hbody hd).2

/-- **A node that is no end of an edge is isolated.** -/
theorem isolated_of_not_mem (hp : p.Loaded) (ht : graph.Tied p) (hpt : pt ∈ (build p graph).nodes)
    (hnone : ∀ e ∈ (build p graph).edges, e.source ≠ pt ∧ e.target ≠ pt) : Isolated p graph pt := by
  have hmethod := ((mem_nodes_iff hp ht).1 hpt).1
  obtain ⟨m, g, n, hbody, hn, rfl⟩ := mem_nodes.1 hpt
  obtain ⟨hplace, rfl, hjumps⟩ := hbody.regular hp
  have hends {d : Cfg.Edge} (hd : d ∈ (Cfg.ofBody m.stmts).edges) : d.source ≠ n ∧ d.target ≠ n := by
    obtain ⟨e, he, hsource, htarget⟩ := hbody.exists_mem_edges hp hd
    obtain ⟨hsource', htarget'⟩ := hnone e he
    rw [hsource] at hsource'
    rw [htarget] at htarget'
    exact ⟨fun heq => hsource' (heq ▸ rfl), fun heq => htarget' (heq ▸ rfl)⟩
  cases n with
  | entry => exact absurd rfl (hends (Cfg.entryEdge_mem_ofBody _)).1
  | stmt i =>
    obtain ⟨s, hs⟩ : ∃ s, m.stmts[i]? = some s := ⟨_, List.getElem?_eq_getElem (stmt_mem_nodes.1 hn)⟩
    obtain ⟨d, hd⟩ := List.exists_mem_of_ne_nil _ (Cfg.stmtEdges_ne_nil m.stmts.length i fun j hj =>
      (hjumps s (List.mem_of_getElem? hs) j hj).imp fun _ => And.left)
    exact absurd (source_of_mem_stmtEdges hd)
      (hends (Cfg.mem_outEdges.1 (mem_outEdges_ofBody hs hd)).1).1
  | exit =>
    refine ⟨rfl, ⟨m, hplace, Cfg.neverEnds_iff.2 fun d hd => (hends hd).2⟩, ?_⟩
    intro d hd hcallee
    obtain ⟨e, he, hsource⟩ := exists_mem_edges_of_callee hp ht hd (hcallee ▸ hmethod)
    exact (hnone e he).1 (hsource.trans (hcallee ▸ rfl))

/-- **Which points of the program the interprocedural control-flow graph finds**: its nodes, but for the
exits of bodies that never end in methods that nothing calls. -/
theorem hasNode_iff (hp : p.Opened) (h : p.CallGraphOf graph) (pt : Point) :
    (build p graph).hasNode pt = true ↔ pt ∈ (build p graph).nodes ∧ ¬ Isolated p graph pt := by
  have ht := h.tied hp
  rw [hasNode_eq_true_iff]
  constructor
  · rintro ⟨e, he, hends⟩
    refine ⟨?_, fun hisolated => ?_⟩
    · obtain rfl | rfl := hends
      · exact source_mem_nodes ht.reachesCallees he
      · exact target_mem hp.loaded ht he
    · obtain ⟨hsource, htarget⟩ := hisolated.not_mem hp.loaded ht.indexed he
      exact hends.elim hsource htarget
  · rintro ⟨hpt, hconnected⟩
    by_contra hnone
    refine hconnected (isolated_of_not_mem hp.loaded ht hpt fun e he => ?_)
    exact ⟨fun hsource => hnone ⟨e, he, .inl hsource⟩, fun htarget => hnone ⟨e, he, .inr htarget⟩⟩

/-- Two methods that go round in a circle. The entry method calls the other one before it does. -/
def spinDocument : Json.Value :=
  let spin : Json.Value :=
    .obj [("label", .str "again"), ("op", .str "goto"), ("target", .str "again")]
  let call : Json.Value := .obj [("op", .str "invoke"), ("kind", .str "static"),
    ("class", .str "Spin"), ("method", .str "void idle()")]
  let method (name : String) (body : List Json.Value) : Json.Value :=
    .obj [("name", .str name), ("static", .bool true), ("body", .arr body)]
  .obj [("classes", .arr [.obj [("name", .str "Spin"),
      ("methods", .arr [method "main" [call, spin], method "idle" [spin]])]]),
    ("entry", .str "Spin.main")]

/-- Neither method ends. The exit of the one that is called is found, because it leads back to the call,
and the exit of the other is not, although both are nodes. -/
theorem spinDocument_hasNode :
    let p := Program.described spinDocument
    let icfg := build p p.chaGraph
    let exit (index : Nat) : Point := ⟨⟨⟨0, "Spin"⟩, index⟩, .exit⟩
    p.Opened ∧ exit 0 ∈ icfg.nodes ∧ exit 1 ∈ icfg.nodes ∧
      icfg.hasNode (exit 1) = true ∧ Isolated p p.chaGraph (exit 0) := by
  intro p icfg exit
  have hp : p.Opened := Program.opened_described (by decide +kernel) (by decide +kernel)
  have hnodes : exit 0 ∈ icfg.nodes ∧ exit 1 ∈ icfg.nodes := by decide +kernel
  refine ⟨hp, hnodes.1, hnodes.2, (hasNode_iff hp .cha (exit 1)).2 ⟨hnodes.2, fun h => ?_⟩, ?_⟩
  · exact absurd h.uncalled (by decide +kernel)
  · by_contra hconnected
    have hfound := (hasNode_iff hp .cha (exit 0)).2 ⟨hnodes.1, hconnected⟩
    exact absurd hfound (by decide +kernel)

/-- A node that is not found: the exit of the entry method, over either call graph. -/
theorem spinDocument_exit_not_found :
    let p := Program.described spinDocument
    let exit : Point := ⟨⟨⟨0, "Spin"⟩, 0⟩, .exit⟩
    let Missed (graph : MethodGraph) : Prop := p.CallGraphOf graph ∧
      exit ∈ (build p graph).nodes ∧ (build p graph).hasNode exit = false
    p.Opened ∧ Missed p.chaGraph ∧
      ∃ ans, PointsTo.solve p .insensitive 40 .empty .initial = some ans ∧ ans.failure = none ∧
        Missed ans.state.found.methodGraph := by
  intro p exit Missed
  have hrun : (PointsTo.solve p .insensitive 40 .empty .initial).map (fun ans =>
      let icfg := build p ans.state.found.methodGraph
      (ans.failure, decide (exit ∈ icfg.nodes), icfg.hasNode exit)) = some (none, true, false) := by
    decide +kernel
  obtain ⟨ans, hans, hresult⟩ := Option.map_eq_some_iff.1 hrun
  obtain ⟨hok, hresult⟩ := Prod.mk.inj hresult
  obtain ⟨hnode, hmissed⟩ := Prod.mk.inj hresult
  exact ⟨Program.opened_described (by decide +kernel) (by decide +kernel),
    ⟨.cha, by decide +kernel, by decide +kernel⟩, ans, hans, hok,
    .pointsTo hans hok, of_decide_eq_true hnode, hmissed⟩

end Icfg

end HeapFlow
