import HeapFlow.Proofs.Ir.Labels
import Mathlib.Data.List.Forall2
/-!
# HeapFlow.Proofs.Ir.Graph

**Finishing a body resolves its labels and builds its graph** (`Draft.finish_exact`). It fails exactly if
a jump names a label that was never attached, and then there is no graph. Otherwise every jump leads to
the statement that its label denotes, and the edges that leave a node are given by its statement alone:
the graph is a list of edges, statement by statement, and the edges at a node are those of its statement.
-/

namespace HeapFlow

namespace Cfg

/-! ### The edges that leave a node -/

/-- The edges of a statement leave it and no other. -/
theorem filter_stmtEdges (size i j : Nat) (s : Stmt) :
    (stmtEdges size j s).filter (fun e => e.source = .stmt i) =
      if j = i then stmtEdges size j s else [] := by
  split
  · rename_i heq
    refine List.filter_eq_self.2 fun e he => ?_
    exact decide_eq_true (heq ▸ Icfg.source_of_mem_stmtEdges he)
  · rename_i hne
    refine List.filter_eq_nil_iff.2 fun e he hsource => hne ?_
    rw [Icfg.source_of_mem_stmtEdges he, decide_eq_true_iff] at hsource
    exact Node.stmt.inj hsource

/-- Of the edges of statements that are numbered from `start` on, those that leave one of them. -/
theorem filter_edges_zipIdx (size : Nat) (body : List Stmt) (start i : Nat) :
    ((body.zipIdx start).flatMap fun (s, j) => stmtEdges size j s).filter
        (fun e => e.source = .stmt (start + i)) =
      (body[i]?.map (stmtEdges size (start + i))).getD [] := by
  induction body generalizing start i with
  | nil => rfl
  | cons s rest ih =>
    rw [List.zipIdx_cons, List.flatMap_cons, List.filter_append, filter_stmtEdges]
    cases i with
    | zero =>
      have hrest : ((rest.zipIdx (start + 1)).flatMap fun (s, j) => stmtEdges size j s).filter
          (fun e => e.source = .stmt (start + 0)) = [] := by
        refine List.filter_eq_nil_iff.2 fun e he hsource => ?_
        obtain ⟨⟨s', j⟩, hj, he⟩ := List.mem_flatMap.1 he
        rw [Icfg.source_of_mem_stmtEdges he, decide_eq_true_iff] at hsource
        have hlater : start + 1 ≤ j := (List.mem_zipIdx hj).1
        exact absurd (Node.stmt.inj hsource) (by omega)
      rw [hrest, if_pos (Nat.add_zero start).symm]
      simp
    | succ i =>
      rw [if_neg (by omega), List.nil_append, Nat.add_comm i 1, ← Nat.add_assoc, ih]
      simp [Nat.add_comm 1 i]

variable {body : List Stmt}

theorem outEdges_stmt {i : Nat} {s : Stmt} (hs : body[i]? = some s) :
    (ofBody body).outEdges (.stmt i) = stmtEdges body.length i s := by
  have hrest := filter_edges_zipIdx body.length body 0 i
  rw [Nat.zero_add] at hrest
  rw [outEdges_eq, edges_ofBody, bodyEdges, List.filter_cons_of_neg (by simp [entryEdge]), hrest, hs]
  rfl

/-- Every edge but the first leaves a statement. -/
theorem filter_edges_eq_nil {n : Node} (hn : ∀ i, n ≠ .stmt i) :
    (body.zipIdx.flatMap fun (s, i) => stmtEdges body.length i s).filter (fun e => e.source = n) = [] := by
  refine List.filter_eq_nil_iff.2 fun e he hsource => ?_
  obtain ⟨⟨s, i⟩, -, he⟩ := List.mem_flatMap.1 he
  rw [Icfg.source_of_mem_stmtEdges he, decide_eq_true_iff] at hsource
  exact hn i hsource.symm

theorem outEdges_entry (body : List Stmt) :
    (ofBody body).outEdges .entry = [entryEdge body.length] := by
  rw [outEdges_eq, edges_ofBody, bodyEdges, List.filter_cons_of_pos rfl,
    filter_edges_eq_nil (n := .entry) (by simp)]

theorem outEdges_exit (body : List Stmt) : (ofBody body).outEdges .exit = [] := by
  rw [outEdges_eq, edges_ofBody, bodyEdges, List.filter_cons_of_neg (by simp [entryEdge]),
    filter_edges_eq_nil (n := .exit) (by simp)]

/-- The edges of a body are listed node by node. -/
theorem flatMap_outEdges (body : List Stmt) :
    (ofBody body).nodes.flatMap (ofBody body).outEdges = (ofBody body).edges := by
  have hstmts : ((List.range body.length).map Node.stmt).flatMap (ofBody body).outEdges =
      body.zipIdx.flatMap fun (s, i) => stmtEdges body.length i s := by
    rw [List.range_eq_range', ← List.zipIdx_map_snd 0 body, List.flatMap_map, List.flatMap_map]
    refine List.flatMap_congr fun (s, i) hi => ?_
    exact outEdges_stmt (List.mem_zipIdx_iff_getElem?.1 hi)
  have hnodes : (ofBody body).nodes =
      Node.entry :: (List.range body.length).map Node.stmt ++ [.exit] := rfl
  rw [hnodes, List.flatMap_append, List.flatMap_cons, hstmts, outEdges_entry,
    List.flatMap_singleton, outEdges_exit, List.append_nil, edges_ofBody]
  rfl

/-- Each edge is listed where it leaves and where it arrives, as often as it is in the graph, and
nowhere else. -/
structure ListsEdges (g : Cfg) : Prop where
  out : ∀ n e, (g.outEdges n).count e = if e.source = n then g.edges.count e else 0
  into : ∀ n e, (g.inEdges n).count e = if e.target = n then g.edges.count e else 0

theorem count_filter_eq_ite {ε : Type} [DecidableEq ε] {es : List ε} {test : ε → Bool} (e : ε) :
    (es.filter test).count e = if test e = true then es.count e else 0 := by
  split
  · rename_i hpass
    exact List.count_filter hpass
  · rename_i hfail
    exact List.count_eq_zero.2 fun he => hfail (List.mem_filter.1 he).2

theorem listsEdges (g : Cfg) : g.ListsEdges where
  out n e := by simp [outEdges_eq, count_filter_eq_ite]
  into n e := by simp [inEdges_eq, count_filter_eq_ite]

end Cfg

namespace Draft

/-! ### The graph of a finished body -/

/-- The edge of a case of the switch at an index. -/
def CaseEdge (actions : List Action) (i : Nat) (c : Int32 × Jump) (e : Cfg.Edge) : Prop :=
  ∃ t, Denotes actions c.2.label t ∧ e = ⟨.switchCase c.1, .stmt i, .stmt t⟩

/-- The edges that leave the statement at an index of a body of `size` statements, in order. A jump
leads to the statement that its label denotes. -/
inductive Leaves (actions : List Action) (size i : Nat) : Stmt → List Cfg.Edge → Prop
  | ifGoto {op : CmpOp} {x y : Var} {jump : Jump} {t : Nat} (ht : Denotes actions jump.label t) :
      Leaves actions size i (.ifGoto op x y jump)
        [⟨.ifTrue, .stmt i, .stmt t⟩, ⟨.ifFalse, .stmt i, Cfg.next size i⟩]
  | switch {v : Var} {cases : List (Int32 × Jump)} {default : Jump} {es : List Cfg.Edge} {t : Nat}
      (hcases : List.Forall₂ (CaseEdge actions i) cases es) (ht : Denotes actions default.label t) :
      Leaves actions size i (.switch v cases default)
        (es ++ [⟨.switchDefault, .stmt i, .stmt t⟩])
  | goto {jump : Jump} {t : Nat} (ht : Denotes actions jump.label t) :
      Leaves actions size i (.goto jump) [⟨.goto, .stmt i, .stmt t⟩]
  | ret {value : Option Var} : Leaves actions size i (.ret value) [⟨.ret, .stmt i, .exit⟩]
  | other {s : Stmt} (hjumps : s.jumps = []) (hfalls : s.fallsThrough = true) :
      Leaves actions size i s [⟨.fallThrough, .stmt i, Cfg.next size i⟩]

/-- The graph of the body that some actions amount to. -/
structure GraphOf (actions : List Action) (body : List Stmt) (g : Cfg) : Prop where
  nodes : g.nodes = .entry :: (List.range body.length).map .stmt ++ [.exit]
  entry : g.outEdges .entry = [⟨.entry, .entry, if body.length = 0 then .exit else .stmt 0⟩]
  stmt : ∀ i s, body[i]? = some s → Leaves actions body.length i s (g.outEdges (.stmt i))
  exit : g.outEdges .exit = []
  closed : g.Closed
  lists : g.ListsEdges

variable {m : Method} {actions : List Action} {d : Draft}

theorem jumpEdge_resolve {labels : Table String Nat} {j : Jump} {t i : Nat} {kind : Cfg.EdgeKind}
    (ht : labels.get? j.label = some t) :
    Cfg.jumpEdge kind i (resolve labels j) = [⟨kind, .stmt i, .stmt t⟩] := by
  rw [Cfg.jumpEdge, resolve, ht]
  rfl

theorem caseEdges_resolve {labels : Table String Nat} {i : Nat} {cases : List (Int32 × Jump)}
    (hplace : ∀ l t, labels.get? l = some t → Denotes actions l t)
    (hcases : ∀ c ∈ cases, ∃ t, labels.get? c.2.label = some t) :
    List.Forall₂ (CaseEdge actions i) cases
      (cases.flatMap fun c => Cfg.jumpEdge (.switchCase c.1) i (resolve labels c.2)) := by
  induction cases with
  | nil => exact .nil
  | cons c rest ih =>
    obtain ⟨⟨t, ht⟩, hrest⟩ := List.forall_mem_cons.1 hcases
    rw [List.flatMap_cons, jumpEdge_resolve ht]
    exact .cons ⟨t, hplace _ _ ht, rfl⟩ (ih hrest)

/-- The edges of a statement whose jumps are resolved. -/
theorem leaves_stmtEdges {labels : Table String Nat} {size i : Nat} {s : Stmt}
    (hplace : ∀ l t, labels.get? l = some t → Denotes actions l t)
    (hs : ∀ j ∈ s.jumps, ∃ t, labels.get? j.label = some t) :
    Leaves actions size i s (Cfg.stmtEdges size i (s.mapJumps (resolve labels))) := by
  cases s with
  | ifGoto op x y jump =>
    obtain ⟨t, ht⟩ := hs jump (List.mem_singleton_self jump)
    rw [Stmt.mapJumps, Cfg.stmtEdges, jumpEdge_resolve ht]
    exact .ifGoto (hplace _ _ ht)
  | goto jump =>
    obtain ⟨t, ht⟩ := hs jump (List.mem_singleton_self jump)
    rw [Stmt.mapJumps, Cfg.stmtEdges, jumpEdge_resolve ht]
    exact .goto (hplace _ _ ht)
  | switch v cases default =>
    obtain ⟨t, ht⟩ := hs default (List.mem_append_right _ (List.mem_singleton_self default))
    have hcase : ∀ c ∈ cases, ∃ t, labels.get? c.2.label = some t := fun c hc =>
      hs c.2 (List.mem_append_left _ (List.mem_map_of_mem hc))
    rw [Stmt.mapJumps, Cfg.stmtEdges, jumpEdge_resolve ht, List.flatMap_map]
    exact .switch (caseEdges_resolve hplace hcase) (hplace _ _ ht)
  | ret value => exact .ret
  | _ => exact .other rfl rfl

/-- No label is undefined exactly if every label that a jump names was attached. -/
theorem Performed.resolveJumps_snd_eq_none_iff (h : Performed m actions d) :
    d.closeLabels.resolveJumps.2 = none ↔
      ∀ s ∈ emitted actions, ∀ j ∈ s.jumps, .label j.label ∈ actions := by
  have hbody : (∀ s ∈ d.closeLabels.method.stmts, ∀ j ∈ s.jumps, .label j.label ∈ actions) ↔
      ∀ s ∈ emitted actions, ∀ j ∈ s.jumps, .label j.label ∈ actions := by
    obtain ⟨-, heq⟩ | ⟨-, heq⟩ := h.completes <;> rw [heq]
    simp [or_imp, forall_and, Stmt.jumps]
  rw [Draft.resolveJumps_snd_eq_none_iff h.listed.closeLabels, ← hbody]
  simp only [get?_labels_closeLabels, h.place, exists_denotes_iff]

/-- What is known of a body without undefined labels. -/
theorem Performed.graphOf (h : Performed m actions d) (hnone : d.closeLabels.resolveJumps.2 = none) :
    GraphOf actions d.closeLabels.method.stmts
      (.ofBody d.closeLabels.resolveJumps.1.method.stmts) := by
  have hlisted := h.listed.closeLabels
  have hplace (l : String) (t : Nat) (ht : d.closeLabels.labels.get? l = some t) :
      Denotes actions l t := (h.place l t).1 (get?_labels_closeLabels d l ▸ ht)
  refine ⟨?_, ?_, fun i s hs => ?_, Cfg.outEdges_exit _,
    closed_resolveJumps h.labels.closeLabels hlisted hnone, Cfg.listsEdges _⟩
  · rw [← length_resolveJumps]
    rfl
  · rw [Cfg.outEdges_entry, length_resolveJumps]
    rfl
  · have hresolved : d.closeLabels.resolveJumps.1.method.stmts[i]? =
        some (s.mapJumps (resolve d.closeLabels.labels)) := by
      rw [stmts_resolveJumps hlisted hnone, List.getElem?_map, hs]
      rfl
    rw [Cfg.outEdges_stmt hresolved, length_resolveJumps]
    exact leaves_stmtEdges hplace
      ((Draft.resolveJumps_snd_eq_none_iff hlisted).1 hnone s (List.mem_of_getElem? hs))

/-- A jump leads to what its label denotes. -/
theorem Performed.target_eq_some_iff (h : Performed m actions d)
    (hnone : d.closeLabels.resolveJumps.2 = none) {s : Stmt}
    (hs : s ∈ d.closeLabels.resolveJumps.1.method.stmts) {j : Jump} (hj : j ∈ s.jumps) :
    j.target ≠ none ∧ ∀ t, j.target = some t ↔ Denotes actions j.label t := by
  obtain ⟨htarget, t, ht⟩ := target_of_resolveJumps h.listed.closeLabels hnone hs hj
  refine ⟨fun hmissing => Option.some_ne_none t (ht.symm.trans hmissing), fun t => ?_⟩
  rw [htarget, get?_labels_closeLabels]
  exact h.place j.label t

/-- **Finishing a body resolves its labels and builds its graph.** Whatever was done to a draft of a
declared method that may have a body, finishing fails exactly if a jump names a label that was never
attached, and then there is no graph. Otherwise the body holds what was appended, with one `nop` more if
a label denotes its end, every jump leads to the statement that its label denotes, and the graph is that
of the body. -/
theorem finish_exact (hm : Document.Blank m) (hbody : m.hasBody = true) (actions : List Action) :
    let r := ((ofMethod m).performAll actions).finish
    (r.2.isSome = true ↔ ∃ s ∈ emitted actions, ∃ j ∈ s.jumps, .label j.label ∉ actions) ∧
    (r.2.isSome = true → r.1.method.cfg = none) ∧
    (r.2 = none → ∃ body g, Completes actions body ∧
      r.1.method.stmts.map Stmt.unresolved = body.map Stmt.unresolved ∧
      (∀ s ∈ r.1.method.stmts, ∀ j ∈ s.jumps,
        j.target ≠ none ∧ ∀ t, j.target = some t ↔ Denotes actions j.label t) ∧
      r.1.method.cfg = some g ∧ GraphOf actions body g) := by
  have h := performed_performAll hm actions
  generalize (ofMethod m).performAll actions = d at h
  intro r
  have hdefined := h.resolveJumps_snd_eq_none_iff
  obtain ⟨l, hmissing, hr⟩ | ⟨hnone, hr⟩ :=
    d.finish_cases_of_unfinished (h.hasBody.trans hbody) h.cfg
  · have hnot : d.closeLabels.resolveJumps.2 ≠ none := by simp [hmissing]
    have hundefined := mt hdefined.2 hnot
    push Not at hundefined
    rw [show r = _ from hr]
    exact ⟨iff_of_true rfl hundefined, fun _ => Document.unread_resolveJumps h.cfg, nofun⟩
  · have hall := hdefined.1 hnone
    rw [show r = _ from hr]
    refine ⟨iff_of_false Bool.false_ne_true ?_, nofun, fun _ => ⟨_, _, h.completes,
      unresolved_resolveJumps _, fun s hs j hj => h.target_eq_some_iff hnone hs hj, rfl,
      h.graphOf hnone⟩⟩
    rintro ⟨s, hs, j, hj, hnot⟩
    exact hnot (hall s hs j hj)

/-- A body in which a label is attached twice and is jumped to from both sides, two cases of a switch
have the same value, and a label denotes the end. -/
def countdown : List Action :=
  let n : Var := ⟨0, "n", .int⟩
  [.label "top", .stmt .nop, .label "top", .line 7, .label "loop",
    .stmt (.ifGoto .gt n n ⟨"end", none⟩),
    .stmt (.switch n [(1, ⟨"top", none⟩), (1, ⟨"end", none⟩), (2, ⟨"loop", none⟩)] ⟨"end", none⟩),
    .stmt (.goto ⟨"top", none⟩), .label "end"]

/-- The body gets a fifth statement for the label at its end, and finishing it succeeds; it fails once a
jump to a label that is never attached is appended. -/
theorem countdown_finished :
    let m := Method.declare ⟨⟨0, "Main"⟩, 0⟩ "count" [("n", .int)] .void true false
    let ofSwitch : List Cfg.Edge := [⟨.switchCase 1, .stmt 2, .stmt 1⟩,
      ⟨.switchCase 1, .stmt 2, .stmt 4⟩, ⟨.switchCase 2, .stmt 2, .stmt 1⟩,
      ⟨.switchDefault, .stmt 2, .stmt 4⟩]
    (∃ body g, Completes countdown body ∧
      ((ofMethod m).performAll countdown).finish.1.method.cfg = some g ∧
      GraphOf countdown body g ∧ g.size = 5 ∧ g.outEdges (.stmt 2) = ofSwitch) ∧
      ((ofMethod m).performAll (countdown ++ [.stmt (.goto ⟨"out", none⟩)])).finish.2.isSome =
        true := by
  intro m ofSwitch
  have hm : Document.Blank m := ⟨rfl, rfl⟩
  obtain ⟨-, -, hfinished⟩ := finish_exact hm rfl countdown
  obtain ⟨body, g, hcompletes, -, -, hg, hgraph⟩ := hfinished (by decide +kernel)
  have hrun : (((ofMethod m).performAll countdown).finish.1.method.cfg.map fun g =>
      (g.size, g.outEdges (.stmt 2))) = some (5, ofSwitch) := by
    decide +kernel
  have hfails : ∃ s ∈ emitted (countdown ++ [.stmt (.goto ⟨"out", none⟩)]), ∃ j ∈ s.jumps,
      .label j.label ∉ countdown ++ [.stmt (.goto ⟨"out", none⟩)] := by
    decide +kernel
  refine ⟨⟨body, g, hcompletes, hg, hgraph, ?_⟩, (finish_exact hm rfl _).1.2 hfails⟩
  rw [hg] at hrun
  exact Prod.mk.inj (Option.some.inj hrun)

end Draft

end HeapFlow
