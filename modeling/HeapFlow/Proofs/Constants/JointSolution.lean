import HeapFlow.PointsTo.Solve
import HeapFlow.Proofs.Constants.Effects
import HeapFlow.Proofs.Icfg.Edges
/-!
# HeapFlow.Proofs.Constants.JointSolution

**The result of constant propagation solves all its equations at once.** The facts before and after
the points and the heap that they share depend on each other. A point is settled if its equations
hold: what flows into it is its fact before, its effect under the present heap gives its fact after,
and what it stores is in the heap. Every point of the graph is settled or waits in the queue. The
solver halts when nothing waits, and then every point is settled.
-/

namespace HeapFlow

namespace Constants

/-- What constant propagation has to find: facts and a heap that agree with each other at every
point. -/
structure JointSolution (c : Setting) (r : Inter) : Prop where
  /-- The fact before a point is the meet of its boundary fact and of what its edges bring. -/
  before : ∀ pt ∈ c.icfg.nodes,
    IsLUB ({f | (pt, f) ∈ boundary c} ∪
      {f | ∃ e ∈ c.icfg.edges, e.target = pt ∧ f = along c e (r.factAfter e.source)})
      (r.factBefore pt)
  /-- The fact after a point is what the point makes of the fact before it over the final heap. -/
  after : ∀ pt ∈ c.icfg.nodes, r.factAfter pt = (effect c pt r.heap (r.factBefore pt)).after
  /-- Executing a point once more changes no slot. -/
  stored : ∀ pt ∈ c.icfg.nodes, (effect c pt r.heap (r.factBefore pt)).heap = r.heap
  /-- A load has the least value above the slots that it sees. -/
  loaded : ∀ pt ∈ c.icfg.nodes, ∀ lhs place, LoadsInt c pt lhs place →
    IsLUB (r.heap.get '' readSlots c pt (r.factBefore pt) place) ((r.factAfter pt).get lhs.index)
  /-- What a point stores in a slot arrives at every load that sees the slot through any alias. -/
  aliased : ∀ source ∈ c.icfg.nodes, ∀ pt ∈ c.icfg.nodes, ∀ lhs place, LoadsInt c pt lhs place →
    ∀ slot ∈ writtenSlots c source (r.factBefore source),
      slot ∈ readSlots c pt (r.factBefore pt) place →
      writtenValue c source (r.factBefore source) ≤ (r.factAfter pt).get lhs.index

variable {c : Setting} {r : Inter}

/-! ### What flows into a point -/

/-- Boundary facts are entry facts. -/
theorem exists_of_mem_boundary {pt : Point} {f : Fact} (h : (pt, f) ∈ boundary c) :
    ∃ m, c.program.method? pt.method = some m ∧ pt.node = .entry ∧ f = entryFact m := by
  obtain ⟨id, -, hid⟩ := List.mem_filterMap.1 h
  split at hid
  · rename_i m hm
    split at hid
    · cases hid
      exact ⟨m, hm, rfl, rfl⟩
    · cases hid
  · cases hid

/-- A point has one boundary fact. -/
theorem boundary_unique {pt : Point} {f g : Fact} (hf : (pt, f) ∈ boundary c)
    (hg : (pt, g) ∈ boundary c) : f = g := by
  obtain ⟨m, hm, -, rfl⟩ := exists_of_mem_boundary hf
  obtain ⟨m', hm', -, rfl⟩ := exists_of_mem_boundary hg
  rw [Option.some.inj (hm.symm.trans hm')]

/-- What flows into a point is below what its boundary fact and all its edges are below. -/
theorem incomingFact_le_iff {pt : Point} {g : Fact} : incomingFact c r pt ≤ g ↔
    (∀ f, (pt, f) ∈ boundary c → f ≤ g) ∧
      ∀ e ∈ c.icfg.edges, e.target = pt → along c e (r.factAfter e.source) ≤ g := by
  have hedges : (∀ e ∈ c.icfg.inEdges pt, along c e (r.factAfter e.source) ≤ g) ↔
      ∀ e ∈ c.icfg.edges, e.target = pt → along c e (r.factAfter e.source) ≤ g := by
    simp only [Icfg.inEdges_eq, List.mem_filter, decide_eq_true_eq, and_imp]
  unfold incomingFact
  rw [Fact.foldl_meet_le_iff, hedges]
  refine and_congr_left fun _ => ?_
  cases hfind : (boundary c).find? (·.1 = pt) with
  | none =>
    refine iff_of_true bot_le fun f hf => ?_
    have hno := List.find?_eq_none.1 hfind (pt, f) hf
    exact absurd (decide_eq_true rfl) hno
  | some b =>
    obtain ⟨pt', f⟩ := b
    obtain rfl : pt' = pt := by simpa using List.find?_some hfind
    have hmem : (pt', f) ∈ boundary c := List.mem_of_find?_eq_some hfind
    have hbot : Fact.meet ∅ f = f := bot_sup_eq f
    simp only [hbot]
    exact ⟨fun hle f' hf' => boundary_unique hmem hf' ▸ hle, fun hall => hall f hmem⟩

theorem incomingFact_isLUB (c : Setting) (r : Inter) (pt : Point) :
    IsLUB ({f | (pt, f) ∈ boundary c} ∪
      {f | ∃ e ∈ c.icfg.edges, e.target = pt ∧ f = along c e (r.factAfter e.source)})
      (incomingFact c r pt) := by
  rw [isLUB_iff_le_iff]
  intro g
  rw [incomingFact_le_iff, upperBounds_union, Set.mem_inter_iff]
  refine and_congr Iff.rfl ⟨fun hall f hf => ?_, fun hall e he htarget => ?_⟩
  · obtain ⟨e, he, htarget, rfl⟩ := hf
    exact hall e he htarget
  · exact hall ⟨e, he, htarget, rfl⟩

/-- What flows into a point changes only with a fact after a predecessor. -/
theorem incomingFact_congr {r' : Inter} {pt : Point}
    (h : ∀ e ∈ c.icfg.edges, e.target = pt → r.factAfter e.source = r'.factAfter e.source) :
    incomingFact c r pt = incomingFact c r' pt := by
  refine eq_of_forall_ge_iff fun g => ?_
  rw [incomingFact_le_iff, incomingFact_le_iff]
  refine and_congr_right fun _ => forall₃_congr fun e he htarget => ?_
  rw [h e he htarget]

/-! ### One step -/

/-- A point that waits in a state, and what else waits there. -/
def Takes (s : InterState) (pt : Point) (queue : Worklist Point) : Prop :=
  s.queue.toList.Perm (pt :: queue.toList)

theorem Takes.of_pop? {s : InterState} {pt : Point} {queue : Worklist Point}
    (h : s.queue.pop? = some (pt, queue)) : Takes s pt queue := by
  rw [Takes, Worklist.toList_of_pop? h]

theorem Takes.mem_iff {s : InterState} {pt n : Point} {queue : Worklist Point}
    (h : Takes s pt queue) : n ∈ s.queue.toList ↔ n = pt ∨ n ∈ queue.toList :=
  (List.Perm.mem_iff h).trans List.mem_cons

theorem interStep_eq_next {s s' : InterState} : interStep c s = .next s' ↔
    ∃ pt queue, s.queue.pop? = some (pt, queue) ∧ s' = compute c s.found queue pt := by
  unfold interStep
  cases s.queue.pop? with
  | none => simp
  | some taken =>
    obtain ⟨pt, queue⟩ := taken
    simp [eq_comm]

theorem interStep_eq_halt {s : InterState} :
    interStep c s = .halt r ↔ s.queue.toList = [] ∧ r = s.found := by
  unfold interStep
  rw [← Worklist.pop?_eq_none]
  cases s.queue.pop? with
  | none => simp [eq_comm]
  | some taken => simp

section Step

variable {queue : Worklist Point} {pt : Point}

theorem mem_succs {g : Icfg} {e : Icfg.Edge} (he : e ∈ g.edges) :
    e.target ∈ (g.succs e.source).toList := by
  have hout : e ∈ g.outEdges e.source := by
    rw [Icfg.outEdges_eq]
    exact List.mem_filter.2 ⟨he, decide_eq_true rfl⟩
  exact OrderedSet.mem_ofList.2 (List.mem_map.2 ⟨e, hout, rfl⟩)

theorem factBefore_compute (c : Setting) (r : Inter) (queue : Worklist Point) (pt n : Point) :
    (compute c r queue pt).found.factBefore n =
      if pt = n then incomingFact c r pt else r.factBefore n :=
  Table.getD_set ..

/-- The fact after the point is computed; that of any other point stays. -/
theorem factAfter_compute (c : Setting) (r : Inter) (queue : Worklist Point) (pt n : Point) :
    (compute c r queue pt).found.factAfter n =
      if pt = n then (effect c pt r.heap (incomingFact c r pt)).after else r.factAfter n := by
  unfold compute Inter.factAfter
  simp only
  by_cases hchanged : (effect c pt r.heap (incomingFact c r pt)).after ≠ r.after.getD pt ∅
  · rw [if_pos hchanged]
    exact Table.getD_set ..
  · rw [if_neg hchanged]
    split
    · rename_i heq
      subst heq
      exact (Decidable.not_not.1 hchanged).symm
    · rfl

theorem heap_compute (c : Setting) (r : Inter) (queue : Worklist Point) (pt : Point) :
    (compute c r queue pt).found.heap = (effect c pt r.heap (incomingFact c r pt)).heap := rfl

theorem queue_compute (c : Setting) (r : Inter) (queue : Worklist Point) (pt : Point) :
    (compute c r queue pt).queue =
      (if (effect c pt r.heap (incomingFact c r pt)).after ≠ r.factAfter pt then
        queue.pushAll (c.icfg.succs pt).toList
      else queue).pushAll
        ((effect c pt r.heap (incomingFact c r pt)).awake.filter c.icfg.hasNode) := rfl

/-- What waits after a step: what waited, the successors if the fact after the point changed, and
the loads that the point woke. -/
theorem mem_queue_compute {n : Point} : n ∈ (compute c r queue pt).queue.toList ↔
    n ∈ queue.toList ∨
    ((effect c pt r.heap (incomingFact c r pt)).after ≠ r.factAfter pt ∧
      n ∈ (c.icfg.succs pt).toList) ∨
    (n ∈ (effect c pt r.heap (incomingFact c r pt)).awake ∧ c.icfg.hasNode n = true) := by
  rw [queue_compute, Worklist.mem_pushAll, List.mem_filter, ← or_assoc]
  refine or_congr_left ?_
  split
  · rename_i hchanged
    rw [Worklist.mem_pushAll]
    exact or_congr_right (iff_and_self.2 fun _ => hchanged)
  · rename_i hchanged
    exact ⟨Or.inl, fun h => h.elim id fun h => absurd h.1 hchanged⟩

/-- What flows into a point stays as it is unless the point waits after the step. -/
theorem incomingFact_compute {n : Point} (hn : n ∉ (compute c r queue pt).queue.toList) :
    incomingFact c (compute c r queue pt).found n = incomingFact c r n := by
  refine incomingFact_congr fun e he htarget => ?_
  rw [factAfter_compute]
  split
  · rename_i hsource
    by_contra hchanged
    refine hn (mem_queue_compute.2 (.inr (.inl ⟨?_, ?_⟩)))
    · rw [hsource]
      rw [hsource] at hchanged
      exact hchanged
    · rw [← htarget, hsource]
      exact mem_succs he
  · rfl

/-- The equations of a point hold. -/
structure Settled (c : Setting) (r : Inter) (pt : Point) : Prop where
  before : r.factBefore pt = incomingFact c r pt
  after : r.factAfter pt = (effect c pt r.heap (r.factBefore pt)).after
  stored : ∀ slot ∈ writtenSlots c pt (r.factBefore pt),
    writtenValue c pt (r.factBefore pt) ≤ r.heap.get slot

/-- Loads can be woken: each of them has an edge. -/
def LoadsHaveEdges (c : Setting) : Prop :=
  ∀ pt ∈ c.icfg.nodes, ∀ lhs place, LoadsInt c pt lhs place → c.icfg.hasNode pt = true

/-- Computing a point settles it unless it has to be computed again. -/
theorem settled_compute (hpt : pt ∉ (compute c r queue pt).queue.toList) :
    Settled c (compute c r queue pt).found pt := by
  have hbefore : (compute c r queue pt).found.factBefore pt = incomingFact c r pt := by
    rw [factBefore_compute, if_pos rfl]
  refine ⟨?_, ?_, ?_⟩
  · rw [hbefore, incomingFact_compute hpt]
  · rw [factAfter_compute, if_pos rfl, hbefore, heap_compute, after_effect_heap]
  · intro slot hslot
    rw [hbefore] at hslot ⊢
    rw [heap_compute]
    exact writtenValue_le hslot

/-- A settled point stays settled when another point is computed, unless it has to wait again. -/
theorem Settled.compute {n : Point} (hedges : LoadsHaveEdges c) (hnode : n ∈ c.icfg.nodes)
    (hne : pt ≠ n) (hn : n ∉ (compute c r queue pt).queue.toList) (h : Settled c r n) :
    Settled c (compute c r queue pt).found n := by
  have hbefore : (Constants.compute c r queue pt).found.factBefore n = r.factBefore n := by
    rw [factBefore_compute, if_neg hne]
  refine ⟨?_, ?_, ?_⟩
  · rw [hbefore, incomingFact_compute hn]
    exact h.before
  · rw [factAfter_compute, if_neg hne, hbefore, heap_compute, h.after]
    refine after_congr fun lhs place hload slot hslot => ?_
    -- a load that sees a slot which rose would have been woken
    by_contra hchanged
    have hreader : n ∈ readers c slot := mem_readers hload hslot hnode
    have hawake := readers_of_changed (Ne.symm hchanged) hreader
    exact hn (mem_queue_compute.2 (.inr (.inr ⟨hawake, hedges n hnode lhs place hload⟩)))
  · intro slot hslot
    rw [hbefore] at hslot ⊢
    rw [heap_compute]
    exact (h.stored slot hslot).trans (le_effect_heap c pt r.heap _ slot)

end Step

/-! ### Runs -/

/-- Every point of the graph waits or is settled. -/
def Complete (c : Setting) (s : InterState) : Prop :=
  ∀ pt ∈ c.icfg.nodes, pt ∈ s.queue.toList ∨ Settled c s.found pt

/-- At the start every point waits. -/
theorem complete_interInit (c : Setting) : Complete c (interInit c) := by
  intro pt hpt
  exact .inl (Worklist.mem_pushAll.2 (.inr (List.mem_append_right _ hpt)))

/-- Computing a point that waits keeps this, whichever point it is. -/
theorem Complete.compute {s : InterState} (hedges : LoadsHaveEdges c) (h : Complete c s)
    {pt : Point} {queue : Worklist Point} (htakes : Takes s pt queue) :
    Complete c (compute c s.found queue pt) := by
  intro n hnode
  by_cases hn : n ∈ (Constants.compute c s.found queue pt).queue.toList
  · exact .inl hn
  · refine .inr ?_
    by_cases hne : pt = n
    · subst hne
      exact settled_compute hn
    · -- what waited and was not taken still waits
      have hwaits : n ∉ s.queue.toList := by
        intro hold
        obtain heq | hrest := htakes.mem_iff.1 hold
        · exact hne heq.symm
        · exact hn (mem_queue_compute.2 (.inl hrest))
      exact ((h n hnode).resolve_left hwaits).compute hedges hnode hne hn

theorem Complete.step {s s' : InterState} (hedges : LoadsHaveEdges c) (h : Complete c s)
    (hstep : interStep c s = .next s') : Complete c s' := by
  obtain ⟨pt, queue, hpop, rfl⟩ := interStep_eq_next.1 hstep
  exact h.compute hedges (.of_pop? hpop)

/-- Where every point is settled, the equations of all points hold together. -/
theorem jointSolution_of_settled (h : ∀ pt ∈ c.icfg.nodes, Settled c r pt) :
    JointSolution c r := by
  have hloaded {pt : Point} (hpt : pt ∈ c.icfg.nodes) {lhs : Var} {place : Place}
      (hload : LoadsInt c pt lhs place) :
      (r.factAfter pt).get lhs.index = loaded c pt r.heap (r.factBefore pt) place := by
    rw [(h pt hpt).after, after_of_loadsInt hload, Fact.get_update, if_pos rfl]
  refine ⟨?_, fun pt hpt => (h pt hpt).after, ?_, ?_, ?_⟩
  · intro pt hpt
    rw [(h pt hpt).before]
    exact incomingFact_isLUB c r pt
  · intro pt hpt
    exact (effect_of_stored (h pt hpt).stored).1
  · intro pt hpt lhs place hload
    rw [hloaded hpt hload]
    exact loaded_isLUB
  · intro source hsource pt hpt lhs place hload slot hwritten hread
    rw [hloaded hpt hload]
    exact ((h source hsource).stored slot hwritten).trans (loaded_le_iff.1 le_rfl slot hread)

/-- A load has the edge to the statement that follows it. -/
theorem loadsHaveEdges_build {p : Program} (hp : p.WellFormed) (graph : MethodGraph)
    (objects : VarObjects) : LoadsHaveEdges ⟨p, Icfg.build p graph, objects⟩ := by
  intro pt hpt lhs place hload
  obtain ⟨m, g, n, hbody, hn, rfl⟩ := Icfg.mem_nodes.1 hpt
  obtain ⟨id, hid, hm⟩ := hbody.reachable
  obtain ⟨i, m', hi, hm', hs⟩ := stmtAt?_eq_some.1 hload.1
  -- the method of the node is the one in whose body the load stands
  obtain ⟨hplace, hgraph⟩ := hp id m hm
  obtain rfl : m = m' := Option.some.inj (hplace.symm.trans hm')
  obtain rfl : n = .stmt i := hi
  have hbody' : m.stmts[i]? = some (.assign lhs (.load place)) := (m.stmt?_eq i).symm.trans hs
  have he : (⟨.fallThrough, .stmt i, Cfg.next m.stmts.length i⟩ : Cfg.Edge) ∈
      g.outEdges (.stmt i) := by
    rw [hgraph g hbody.cfg]
    exact Icfg.mem_outEdges_ofBody hbody' (List.mem_singleton_self _)
  exact Icfg.hasNode_eq_true_iff.2 ⟨_, Icfg.mem_edges.2 (.inside hbody hn he), .inl rfl⟩

/-- Where constant propagation ends, every point is settled. -/
theorem settled_of_inter (hedges : LoadsHaveEdges c) {fuel : Nat} (h : inter c fuel = some r) :
    ∀ pt ∈ c.icfg.nodes, Settled c r pt := by
  obtain ⟨s, hcomplete, hhalt⟩ :=
    Step.run_invariant (fun _ _ => Complete.step hedges) (complete_interInit c) h
  obtain ⟨hqueue, rfl⟩ := interStep_eq_halt.1 hhalt
  intro pt hpt
  refine (hcomplete pt hpt).resolve_left ?_
  rw [hqueue]
  exact List.not_mem_nil

/-- **A result of constant propagation solves all its equations at once.** -/
theorem inter_isJointSolution {p : Program} (hp : p.Loaded) (graph : MethodGraph)
    (objects : VarObjects) {fuel : Nat} {r : Inter}
    (h : inter ⟨p, Icfg.build p graph, objects⟩ fuel = some r) :
    JointSolution ⟨p, Icfg.build p graph, objects⟩ r :=
  jointSolution_of_settled (settled_of_inter (loadsHaveEdges_build hp.wellFormed graph objects) h)

/-! ### A load that waits for its store -/

/-- What constant propagation runs on after a points-to analysis. -/
def settingOf (p : Program) (pts : PointsTo) : Setting :=
  ⟨p, Icfg.build p pts.methodGraph, pts.varObjects⟩

/-- A program that loads a field of a cell through one variable before it stores the number seven
there through another. -/
def aliasDocument : Json.Value :=
  let var (name type : String) : Json.Value := .obj [("name", .str name), ("type", .str type)]
  let access (op base other value : String) : Json.Value :=
    .obj [("op", .str op), ("base", .str base), ("field", .str "value"), (other, .str value)]
  let main : Json.Value := .obj [("name", .str "main"), ("static", .bool true),
    ("vars", .arr [var "a" "Cell", var "b" "Cell", var "x" "int", var "y" "int"]),
    ("body", .arr [
      .obj [("op", .str "new"), ("lhs", .str "a"), ("class", .str "Cell")],
      .obj [("op", .str "copy"), ("lhs", .str "b"), ("rhs", .str "a")],
      access "load" "b" "lhs" "y",
      .obj [("op", .str "const"), ("lhs", .str "x"), ("value", .num (.int 7))],
      access "store" "a" "rhs" "x",
      .obj [("op", .str "return")]])]
  .obj [("classes", .arr [.obj [("name", .str "Cell"), ("fields", .arr [var "value" "int"]),
    ("methods", .arr [main])]]), ("entry", .str "Cell.main")]

/-- The load sees what is stored later through the other variable. -/
theorem aliasDocument_isJointSolution : ∃ ans r,
    PointsTo.solve (.described aliasDocument) .insensitive 100 .empty .initial = some ans ∧
      ans.failure = none ∧
      inter (settingOf (.described aliasDocument) ans.state.found) 100 = some r ∧
      (r.factAfter ⟨⟨⟨0, "Cell"⟩, 0⟩, .stmt 2⟩).get 3 = .const 7 ∧
      JointSolution (settingOf (.described aliasDocument) ans.state.found) r := by
  have hrun : (PointsTo.solve (.described aliasDocument) .insensitive 100 .empty .initial).bind
      (fun ans => (inter (settingOf (.described aliasDocument) ans.state.found) 100).map fun r =>
        (ans.failure, (r.factAfter ⟨⟨⟨0, "Cell"⟩, 0⟩, .stmt 2⟩).get 3)) =
      some (none, .const 7) := by
    decide +kernel
  obtain ⟨ans, hans, hresult⟩ := Option.bind_eq_some_iff.1 hrun
  obtain ⟨r, hr, hvalues⟩ := Option.map_eq_some_iff.1 hresult
  obtain ⟨hok, hseven⟩ := Prod.mk.inj hvalues
  have hloaded : (Program.described aliasDocument).Loaded := loaded_described (by decide +kernel)
  exact ⟨ans, r, hans, hok, hr, hseven, inter_isJointSolution hloaded _ _ hr⟩

end Constants

end HeapFlow
