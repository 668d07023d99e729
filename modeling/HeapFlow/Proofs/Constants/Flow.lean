import HeapFlow.Proofs.Constants.JointSolution
import HeapFlow.Proofs.Icfg.PointsToGraph
import HeapFlow.Proofs.Ir.Entries
import HeapFlow.Proofs.Ir.Scoped
/-!
# HeapFlow.Proofs.Constants.Flow

**How facts flow through a result of constant propagation.** In a settled result the fact before a
point admits what each edge brings. For the methods of the call graph these edges are the ways that
control can take: from the entry to the first statement, from a statement to the next one, past a
call, into a callee, and back from its exit. One lemma for each of them says which fact is below which.
-/

namespace HeapFlow

namespace Constants

variable {c : Setting} {r : Inter} {pt : Point}

/-! ### One point -/

/-- What comes in along an edge is below the fact before its target. -/
theorem Settled.along_le (h : Settled c r pt) {e : Icfg.Edge} (he : e ∈ c.icfg.edges)
    (htarget : e.target = pt) : along c e (r.factAfter e.source) ≤ r.factBefore pt := by
  rw [h.before]
  exact (incomingFact_le_iff.1 le_rfl).2 e he htarget

theorem Settled.boundary_le (h : Settled c r pt) {f : Fact} (hf : (pt, f) ∈ boundary c) :
    f ≤ r.factBefore pt := by
  rw [h.before]
  exact (incomingFact_le_iff.1 le_rfl).1 f hf

/-- The value that an assignment at a point gives its variable: a load sees the heap. -/
def assigned (c : Setting) (pt : Point) (h : HeapStore) (f : Fact) : Expr → Value
  | .load place => loaded c pt h f place
  | e => e.evaluate f

theorem after_of_assign {lhs : Var} {e : Expr} (hs : stmtAt? c pt = some (.assign lhs e))
    (h : HeapStore) (f : Fact) : (effect c pt h f).after =
      if lhs.ty.holdsInt then f.update lhs.index (assigned c pt h f e) else f := by
  unfold effect
  rw [hs]
  cases e <;> rfl

theorem after_of_keeps (hs : ∀ lhs e, stmtAt? c pt ≠ some (.assign lhs e)) (h : HeapStore)
    (f : Fact) : (effect c pt h f).after = f := by
  obtain ⟨lhs, place, hload⟩ | ⟨lhs, e, hassign, -⟩ | hafter := after_cases c pt
  · exact absurd hload.1 (hs _ _)
  · exact absurd hassign (hs _ _)
  · exact hafter h f

theorem Settled.after_of_keeps (h : Settled c r pt)
    (hs : ∀ lhs e, stmtAt? c pt ≠ some (.assign lhs e)) : r.factAfter pt = r.factBefore pt := by
  rw [h.after, Constants.after_of_keeps hs]

/-- The entry and the exit of a method keep the fact. -/
theorem Settled.after_of_no_stmt (h : Settled c r pt) (hs : stmtAt? c pt = none) :
    r.factAfter pt = r.factBefore pt := by
  refine h.after_of_keeps fun lhs e => ?_
  rw [hs]
  simp

/-! ### What edges make of a fact -/

/-- Updates of other variables keep what is known of a variable. -/
theorem get_foldl_update_of_ne {α : Type} (index : α → Nat) (value : α → Value) (select : α → Bool)
    {xs : List α} {j : Nat} (hne : ∀ x ∈ xs, index x ≠ j) (f : Fact) :
    (xs.foldl (fun out x => if select x then out.update (index x) (value x) else out) f).get j =
      f.get j := by
  induction xs generalizing f with
  | nil => rfl
  | cons x xs ih =>
    obtain ⟨hx, hxs⟩ := List.forall_mem_cons.1 hne
    rw [List.foldl_cons, ih hxs]
    split
    · rw [Fact.get_update, if_neg hx]
    · rfl

/-- Updates of different variables give each of them its value. -/
theorem get_foldl_update {α : Type} (index : α → Nat) (value : α → Value) (select : α → Bool)
    {xs : List α} (hdistinct : xs.Pairwise fun x y => index x ≠ index y) {x : α} (hx : x ∈ xs)
    (hselect : select x = true) (f : Fact) :
    (xs.foldl (fun out x => if select x then out.update (index x) (value x) else out) f).get
      (index x) = value x := by
  induction xs generalizing f with
  | nil => cases hx
  | cons y xs ih =>
    obtain ⟨hy, hxs⟩ := List.pairwise_cons.1 hdistinct
    rw [List.foldl_cons]
    obtain rfl | hx := List.mem_cons.1 hx
    · rw [get_foldl_update_of_ne index value select fun z hz => (hy z hz).symm, if_pos hselect,
        Fact.get_update, if_pos rfl]
    · exact ih hxs hx _

/-- Nothing is known of the integer parameters of an entry method. -/
theorem get_entryFact {m : Method} (hm : m.Scoped) {v : Var} (hv : v ∈ m.params)
    (hint : v.ty.holdsInt = true) : (entryFact m).get v.index = .nac := by
  have hmem : v ∈ intParams m := List.mem_filter.2 ⟨hv, hint⟩
  have hdistinct : (intParams m).Pairwise fun v w => v.index ≠ w.index := hm.params_distinct.filter _
  exact get_foldl_update Var.index (fun _ => .nac) (fun _ => true) hdistinct hmem rfl _

section Calls

variable {result : Option Var} {call : Call} {callee : MethodId} {m : Method} {v : Var} {site : Site}

/-- An integer parameter has the value of its argument. -/
theorem get_intoCallee (hs : stmtAt? c pt = some (.invoke result call))
    (hm : c.program.method? callee = some m) (hscoped : m.Scoped) (hkind : call.kind ≠ .dynamic)
    (hsub : call.subsignature = m.subsignature) (hlength : call.args.length = m.params.length)
    {a q : Var} (hmem : (a, q) ∈ call.args.zip m.params) (hint : q.ty.holdsInt = true) (f : Fact) :
    (intoCallee c pt callee f).get q.index = f.get a.index := by
  have hdistinct : (call.args.zip m.params).Pairwise fun x y => x.2.index ≠ y.2.index := by
    have hparams := hscoped.params_distinct
    rw [← List.map_snd_zip (Nat.le_of_eq hlength.symm)] at hparams
    rw [List.pairwise_map] at hparams
    exact hparams
  unfold intoCallee
  rw [hs, hm]
  simp only [if_pos (And.intro hkind (And.intro hsub hlength))]
  exact get_foldl_update (fun x => x.2.index) (fun x => f.get x.1.index) (fun x => x.2.ty.holdsInt)
    hdistinct hmem hint ∅

/-- The result of a call has the values of the variables that the callee returns. -/
theorem le_get_outOfCallee {w : Var} (hw : intResult? c site.point = some w)
    (hm : c.program.method? callee = some m) (hv : v ∈ m.returnVars) (f : Fact) :
    f.get v.index ≤ (outOfCallee c site callee f).get w.index := by
  unfold outOfCallee
  rw [hw, hm]
  simp only [Fact.get_update, if_true]
  exact Value.meetAll_le_iff.1 le_rfl _ (List.mem_map_of_mem (f := fun v : Var => f.get v.index) hv)

theorem get_pastCall_of_ne {j : Nat} (hne : ∀ w, intResult? c pt = some w → w.index ≠ j)
    (f : Fact) : (pastCall c pt f).get j = f.get j := by
  unfold pastCall
  split
  · rename_i w hw
    rw [Fact.get_update, if_neg (hne w hw)]
  · rfl

/-- Nothing is known of the result of a call without callees. -/
theorem get_pastCall_of_noCallee {w : Var} (hw : intResult? c pt = some w)
    (hno : hasCallee c pt = false) (f : Fact) : (pastCall c pt f).get w.index = .nac := by
  unfold pastCall
  rw [hw]
  simp [hno]

theorem intResult?_eq_some {w : Var} (hs : stmtAt? c pt = some (.invoke result call)) :
    intResult? c pt = some w ↔ result = some w ∧ w.ty.holdsInt = true := by
  unfold intResult?
  rw [hs]
  cases result with
  | none => simp
  | some v =>
    simp only [Option.ite_none_right_eq_some, Option.some.injEq]
    constructor
    · rintro ⟨hint, rfl⟩
      exact ⟨rfl, hint⟩
    · rintro ⟨rfl, hint⟩
      exact ⟨hint, rfl⟩

end Calls

/-! ### Methods of the call graph -/

/-- What constant propagation ran on, and its result: a program that was read, a call graph that lists
its entries and calls its methods as the statements do, and facts that are settled at every point. -/
structure Analysed (p : Program) (pts : PointsTo) (r : Inter) : Prop where
  wellFormed : p.WellFormed
  complete : ∀ id m, p.method? id = some m → Document.Complete m
  inPlace : p.InPlace p.entries
  listed : ∀ id ∈ p.entries, id ∈ pts.methodGraph.entries
  calls : ∀ e ∈ pts.methodGraph.edges, PointsTo.CallsMethod p e.site e.callee
  settled : ∀ pt ∈ (settingOf p pts).icfg.nodes, Settled (settingOf p pts) r pt

/-- **Constant propagation that ends after a points-to analysis has analysed the program.** -/
theorem analysed_of_inter {p : Program} (hp : p.Opened) {policy : Policy} {heap : Heap}
    {contexts : Contexts} {fuel limit : Nat} {ans : PointsTo.Answer}
    (h : PointsTo.solve p policy fuel heap contexts = some ans) (hok : ans.failure = none)
    (hr : inter (settingOf p ans.state.found) limit = some r) : Analysed p ans.state.found r where
  wellFormed := hp.loaded.wellFormed
  complete _ _ := hp.loaded.complete
  inPlace := hp.inPlace
  listed _ := PointsTo.mem_entries_of_solve h hok
  calls _ := PointsTo.callsMethod_of_solve hp.loaded.wellFormed h
  settled := settled_of_inter (loadsHaveEdges_build hp.loaded.wellFormed _ _) hr

/-- A method of the call graph. -/
structure Joined (p : Program) (pts : PointsTo) (m : Method) : Prop where
  inPlace : p.method? m.id = some m
  reachable : m.id ∈ pts.methodGraph.reachable

section Flow

variable {p : Program} {pts : PointsTo} {m callee : Method} {i : Nat} {s : Stmt} {d : Cfg.Edge}

theorem Joined.stmtAt? (hm : Joined p pts m) (i : Nat) :
    stmtAt? (settingOf p pts) ⟨m.id, .stmt i⟩ = m.stmts[i]? := by
  show p.stmt? ⟨m.id, i⟩ = _
  simp [Program.stmt?, hm.inPlace, Method.stmt?_eq]

theorem Joined.hasBody_of_cfg (ha : Analysed p pts r) (hm : Joined p pts m) {g : Cfg}
    (hg : m.cfg = some g) : Icfg.HasBody p pts.methodGraph m (Cfg.ofBody m.stmts) := by
  obtain ⟨-, hgraph⟩ := ha.wellFormed m.id m hm.inPlace
  exact ⟨⟨m.id, hm.reachable, hm.inPlace⟩, hgraph g hg ▸ hg⟩

/-- A method with a statement has its body in the graph. -/
theorem Joined.hasBody_of_stmt (ha : Analysed p pts r) (hm : Joined p pts m)
    (hs : m.stmts[i]? = some s) : Icfg.HasBody p pts.methodGraph m (Cfg.ofBody m.stmts) := by
  cases hcfg : m.cfg with
  | none =>
    rw [(ha.complete m.id m hm.inPlace).cfg hcfg] at hs
    cases hs
  | some g => exact hm.hasBody_of_cfg ha hcfg

/-- A method with a node has its body in the graph. -/
theorem Joined.hasBody_of_mem (ha : Analysed p pts r) (hm : Joined p pts m) {n : Node}
    (hn : ⟨m.id, n⟩ ∈ (settingOf p pts).icfg.nodes) :
    Icfg.HasBody p pts.methodGraph m (Cfg.ofBody m.stmts) := by
  obtain ⟨m', g, n', hbody, -, hpt⟩ := Icfg.mem_nodes.1 hn
  obtain ⟨id, -, hid⟩ := hbody.reachable
  obtain ⟨hplace, -⟩ := ha.wellFormed id m' hid
  rw [← (Point.mk.inj hpt).1, hm.inPlace] at hplace
  obtain rfl := Option.some.inj hplace
  exact hm.hasBody_of_cfg ha hbody.cfg

theorem Joined.stmt_mem (ha : Analysed p pts r) (hm : Joined p pts m)
    (hs : m.stmts[i]? = some s) : ⟨m.id, .stmt i⟩ ∈ (settingOf p pts).icfg.nodes := by
  have hbody := hm.hasBody_of_stmt ha hs
  exact Icfg.mem_nodes.2 ⟨m, _, .stmt i, hbody, Icfg.stmt_mem_ofBody hs, rfl⟩

theorem Joined.exit_mem (ha : Analysed p pts r) (hm : Joined p pts m)
    (hs : m.stmts[i]? = some s) : ⟨m.id, .exit⟩ ∈ (settingOf p pts).icfg.nodes :=
  Icfg.mem_nodes.2 ⟨m, _, .exit, hm.hasBody_of_stmt ha hs, Icfg.exit_mem_nodes _, rfl⟩

/-- What is no assignment keeps the fact. -/
theorem Joined.factAfter (ha : Analysed p pts r) (hm : Joined p pts m)
    (hs : m.stmts[i]? = some s) (hkeeps : ∀ lhs e, s ≠ .assign lhs e) :
    r.factAfter ⟨m.id, .stmt i⟩ = r.factBefore ⟨m.id, .stmt i⟩ := by
  refine (ha.settled _ (hm.stmt_mem ha hs)).after_of_keeps fun lhs e => ?_
  rw [hm.stmtAt?, hs]
  exact fun heq => hkeeps lhs e (Option.some.inj heq)

/-- The edges of a statement are edges of the graph, of a kind of their own where it is a call. -/
theorem Joined.inside_mem (ha : Analysed p pts r) (hm : Joined p pts m)
    (hs : m.stmts[i]? = some s) (hd : d ∈ Cfg.stmtEdges m.stmts.length i s) :
    ⟨if s.isInvoke then .callToReturn else .normal, ⟨m.id, .stmt i⟩, ⟨m.id, d.target⟩⟩ ∈
      (settingOf p pts).icfg.edges := by
  have hbody := hm.hasBody_of_stmt ha hs
  rw [← Icfg.isCall_stmt hs]
  exact Icfg.mem_edges.2
    (.inside hbody (Icfg.stmt_mem_ofBody hs) (Icfg.mem_outEdges_ofBody hs hd))

/-- **From a statement to the next one.** -/
theorem Joined.factAfter_le (ha : Analysed p pts r) (hm : Joined p pts m)
    (hs : m.stmts[i]? = some s) (hcall : s.isInvoke = false)
    (hd : d ∈ Cfg.stmtEdges m.stmts.length i s)
    (htarget : ⟨m.id, d.target⟩ ∈ (settingOf p pts).icfg.nodes) :
    r.factAfter ⟨m.id, .stmt i⟩ ≤ r.factBefore ⟨m.id, d.target⟩ := by
  have he := hm.inside_mem ha hs hd
  rw [hcall] at he
  exact (ha.settled _ htarget).along_le he rfl

/-- **Past a call.** -/
theorem Joined.pastCall_le (ha : Analysed p pts r) (hm : Joined p pts m) {result : Option Var}
    {call : Call} (hs : m.stmts[i]? = some (.invoke result call))
    (hd : d ∈ Cfg.stmtEdges m.stmts.length i (.invoke result call))
    (htarget : ⟨m.id, d.target⟩ ∈ (settingOf p pts).icfg.nodes) :
    pastCall (settingOf p pts) ⟨m.id, .stmt i⟩ (r.factBefore ⟨m.id, .stmt i⟩) ≤
      r.factBefore ⟨m.id, d.target⟩ := by
  have hle := (ha.settled _ htarget).along_le (hm.inside_mem ha hs hd) rfl
  rwa [hm.factAfter ha hs (by simp)] at hle

theorem Joined.isSome_cfg? (ha : Analysed p pts r) (hm : Joined p pts m) {n : Node}
    (hn : ⟨m.id, n⟩ ∈ (settingOf p pts).icfg.nodes) : (p.cfg? m.id).isSome = true := by
  simp [Program.cfg?, hm.inPlace, (hm.hasBody_of_mem ha hn).cfg]

/-- Before a body nothing happens. -/
theorem Joined.factBefore_entry_le (ha : Analysed p pts r) (hm : Joined p pts m)
    (hfirst : ⟨m.id, (Cfg.entryEdge m.stmts.length).target⟩ ∈ (settingOf p pts).icfg.nodes) :
    ⟨m.id, .entry⟩ ∈ (settingOf p pts).icfg.nodes ∧
      r.factBefore ⟨m.id, .entry⟩ ≤ r.factBefore ⟨m.id, (Cfg.entryEdge m.stmts.length).target⟩ := by
  have hbody := hm.hasBody_of_mem ha hfirst
  have hnode : ⟨m.id, .entry⟩ ∈ (settingOf p pts).icfg.nodes :=
    Icfg.mem_nodes.2 ⟨m, _, .entry, hbody, Icfg.entry_mem_nodes _, rfl⟩
  have hout : Cfg.entryEdge m.stmts.length ∈ (Cfg.ofBody m.stmts).outEdges .entry := by
    rw [Cfg.outEdges_eq]
    exact List.mem_filter.2 ⟨Cfg.entryEdge_mem_ofBody _, decide_eq_true rfl⟩
  have he := Icfg.mem_edges.2 (.inside hbody (Icfg.entry_mem_nodes _) hout)
  have hafter : r.factAfter ⟨m.id, .entry⟩ = r.factBefore ⟨m.id, .entry⟩ :=
    (ha.settled _ hnode).after_of_no_stmt rfl
  have hle := (ha.settled _ hfirst).along_le he rfl
  rw [hafter] at hle
  exact ⟨hnode, hle⟩

/-- **Into an entry method.** -/
theorem Joined.entryFact_le (ha : Analysed p pts r) (hm : Joined p pts m) (hid : m.id ∈ p.entries)
    (hfirst : ⟨m.id, (Cfg.entryEdge m.stmts.length).target⟩ ∈ (settingOf p pts).icfg.nodes) :
    entryFact m ≤ r.factBefore ⟨m.id, (Cfg.entryEdge m.stmts.length).target⟩ := by
  obtain ⟨hnode, hle⟩ := hm.factBefore_entry_le ha hfirst
  have hplace : (settingOf p pts).program.method? m.id = some m := hm.inPlace
  have hcfg := (hm.hasBody_of_mem ha hfirst).cfg
  refine ((ha.settled _ hnode).boundary_le ?_).trans hle
  exact List.mem_filterMap.2 ⟨m.id, ha.listed m.id hid, by simp [hplace, hcfg]⟩

/-- **Into a callee.** -/
theorem Joined.intoCallee_le (ha : Analysed p pts r) (hm : Joined p pts m)
    {result : Option Var} {call : Call} (hs : m.stmts[i]? = some (.invoke result call))
    (hcallee : Joined p pts callee) (hmem : callee.id ∈ pts.methodGraph.callees ⟨m.id, i⟩)
    (hfirst : ⟨callee.id, (Cfg.entryEdge callee.stmts.length).target⟩ ∈
      (settingOf p pts).icfg.nodes) :
    intoCallee (settingOf p pts) ⟨m.id, .stmt i⟩ callee.id (r.factBefore ⟨m.id, .stmt i⟩) ≤
      r.factBefore ⟨callee.id, (Cfg.entryEdge callee.stmts.length).target⟩ := by
  obtain ⟨hnode, hle⟩ := hcallee.factBefore_entry_le ha hfirst
  have he := Icfg.mem_edges.2 (.call (hm.hasBody_of_stmt ha hs) (Icfg.stmt_mem_ofBody hs)
    (Icfg.isCall_stmt hs) hmem (hcallee.isSome_cfg? ha hfirst))
  have hinto := (ha.settled _ hnode).along_le he rfl
  rw [hm.factAfter ha hs (by simp)] at hinto
  exact hinto.trans hle

/-- **Back from a callee.** -/
theorem Joined.outOfCallee_le (ha : Analysed p pts r) (hm : Joined p pts m)
    {result : Option Var} {call : Call} (hs : m.stmts[i]? = some (.invoke result call))
    (hd : d ∈ Cfg.stmtEdges m.stmts.length i (.invoke result call))
    (hcallee : Joined p pts callee) (hmem : callee.id ∈ pts.methodGraph.callees ⟨m.id, i⟩)
    (hexit : ⟨callee.id, .exit⟩ ∈ (settingOf p pts).icfg.nodes)
    (htarget : ⟨m.id, d.target⟩ ∈ (settingOf p pts).icfg.nodes) :
    outOfCallee (settingOf p pts) ⟨m.id, i⟩ callee.id (r.factBefore ⟨callee.id, .exit⟩) ≤
      r.factBefore ⟨m.id, d.target⟩ := by
  have hnext : d.target ∈ (Cfg.ofBody m.stmts).succs (.stmt i) :=
    OrderedSet.mem_ofList.2 (List.mem_map_of_mem (Icfg.mem_outEdges_ofBody hs hd))
  have he := Icfg.mem_edges.2 (.ret (hm.hasBody_of_stmt ha hs) (Icfg.stmt_mem_ofBody hs)
    (Icfg.isCall_stmt hs) hmem (hcallee.isSome_cfg? ha hexit) hnext)
  have hafter : r.factAfter ⟨callee.id, .exit⟩ = r.factBefore ⟨callee.id, .exit⟩ :=
    (ha.settled _ hexit).after_of_no_stmt rfl
  have hle := (ha.settled _ htarget).along_le he rfl
  rwa [hafter] at hle

/-- What is stored at a statement is in the heap. -/
theorem Joined.stored_le (ha : Analysed p pts r) (hm : Joined p pts m) {place : Place}
    {source : Var} (hs : m.stmts[i]? = some (.store place source))
    (hint : source.ty.holdsInt = true) {slot : Slot}
    (hslot : slot ∈ storeSlots (settingOf p pts) ⟨m.id, .stmt i⟩
      (r.factBefore ⟨m.id, .stmt i⟩) place) :
    (r.factBefore ⟨m.id, .stmt i⟩).get source.index ≤ r.heap.get slot := by
  have hat : Constants.stmtAt? (settingOf p pts) ⟨m.id, .stmt i⟩ = some (.store place source) :=
    (hm.stmtAt? i).trans hs
  have hle := (ha.settled _ (hm.stmt_mem ha hs)).stored slot
  simp only [writtenSlots, writtenValue, hat, if_pos hint] at hle
  exact hle hslot

end Flow

end Constants

end HeapFlow
