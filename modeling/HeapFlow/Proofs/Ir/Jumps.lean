import HeapFlow.Proofs.Icfg.Edges
/-!
# HeapFlow.Proofs.Ir.Jumps

**The control-flow graphs of methods are closed.** Every edge joins nodes of the graph. The edges that
could lead out of a body are those of jumps. A label stands at a statement that was emitted or waits for
the next one, and finishing a body gives the waiting labels a statement of their own. The graph is
built only if every jump finds its label, so every jump leads to a statement of the body.
-/

namespace HeapFlow

namespace Cfg

/-- Every edge joins nodes of the graph. -/
def Closed (g : Cfg) : Prop := ∀ e ∈ g.edges, e.source ∈ g.nodes ∧ e.target ∈ g.nodes

instance (g : Cfg) : Decidable g.Closed :=
  inferInstanceAs (Decidable (∀ e ∈ g.edges, e.source ∈ g.nodes ∧ e.target ∈ g.nodes))

theorem mem_outEdges {g : Cfg} {n : Node} {e : Edge} :
    e ∈ g.outEdges n ↔ e ∈ g.edges ∧ e.source = n := by
  rw [outEdges_eq, List.mem_filter, decide_eq_true_iff]

theorem mem_inEdges {g : Cfg} {n : Node} {e : Edge} :
    e ∈ g.inEdges n ↔ e ∈ g.edges ∧ e.target = n := by
  rw [inEdges_eq, List.mem_filter, decide_eq_true_iff]

theorem mem_succs {g : Cfg} {m n : Node} :
    n ∈ (g.succs m).toList ↔ ∃ e ∈ g.edges, e.source = m ∧ e.target = n := by
  rw [succs, ← OrderedSet.mem_iff]
  simp [mem_outEdges, and_assoc]

theorem mem_preds {g : Cfg} {m n : Node} :
    m ∈ (g.preds n).toList ↔ ∃ e ∈ g.edges, e.source = m ∧ e.target = n := by
  rw [preds, ← OrderedSet.mem_iff]
  simp [mem_inEdges, and_assoc, and_comm]

/-! ### Edges of a body -/

/-- The edges of a statement lead to the next one, to the exit or to the target of a jump. -/
theorem target_of_mem_stmtEdges {size i : Nat} {s : Stmt} {e : Edge}
    (he : e ∈ stmtEdges size i s) :
    e.target = next size i ∨ e.target = .exit ∨
      ∃ j ∈ s.jumps, ∃ t, j.target = some t ∧ e.target = .stmt t := by
  have hjump {kind : EdgeKind} {j : Jump} (he : e ∈ jumpEdge kind i j) :
      ∃ t, j.target = some t ∧ e.target = .stmt t := by
    obtain ⟨t, ht, rfl⟩ := Option.map_eq_some_iff.1 (Option.mem_toList.1 he)
    exact ⟨t, ht, rfl⟩
  cases s with
  | ifGoto op x y jump =>
    obtain he | he := List.mem_append.1 he
    · exact .inr (.inr ⟨jump, List.mem_singleton_self jump, hjump he⟩)
    · obtain rfl := List.mem_singleton.1 he
      exact .inl rfl
  | switch v cases default =>
    obtain he | he := List.mem_append.1 he
    · obtain ⟨⟨k, j⟩, hcase, he⟩ := List.mem_flatMap.1 he
      have hj : j ∈ cases.map Prod.snd := List.mem_map_of_mem hcase
      exact .inr (.inr ⟨j, List.mem_append_left _ hj, hjump he⟩)
    · exact .inr (.inr ⟨default, List.mem_append_right _ (List.mem_singleton_self _), hjump he⟩)
  | goto jump => exact .inr (.inr ⟨jump, List.mem_singleton_self jump, hjump he⟩)
  | ret value =>
    obtain rfl := List.mem_singleton.1 he
    exact .inr (.inl rfl)
  | _ =>
    obtain rfl := List.mem_singleton.1 he
    exact .inl rfl

/-- **A graph is closed if the jumps of its body lead to statements.** -/
theorem closed_ofBody {body : List Stmt}
    (h : ∀ s ∈ body, ∀ j ∈ s.jumps, ∀ t, j.target = some t → t < body.length) :
    (ofBody body).Closed := by
  have hstmt {i : Nat} (hi : i < body.length) : .stmt i ∈ (ofBody body).nodes :=
    Icfg.stmt_mem_nodes.2 hi
  intro e he
  rw [edges_ofBody] at he
  obtain rfl | he := List.mem_cons.1 he
  · refine ⟨Icfg.entry_mem_nodes _, ?_⟩
    unfold entryEdge
    split
    · exact Icfg.exit_mem_nodes _
    · rename_i hsize
      exact hstmt (Nat.pos_of_ne_zero hsize)
  · obtain ⟨⟨s, i⟩, hs, he⟩ := List.mem_flatMap.1 he
    have hs : body[i]? = some s := List.mem_zipIdx_iff_getElem?.1 hs
    refine ⟨?_, ?_⟩
    · rw [Icfg.source_of_mem_stmtEdges he]
      exact hstmt (List.getElem?_eq_some_iff.1 hs).1
    · obtain htarget | htarget | ⟨j, hj, t, ht, htarget⟩ := target_of_mem_stmtEdges he
      · rw [htarget, next]
        split
        · rename_i hnext
          exact hstmt hnext
        · exact Icfg.exit_mem_nodes _
      · rw [htarget]
        exact Icfg.exit_mem_nodes _
      · rw [htarget]
        exact hstmt (h s (List.mem_of_getElem? hs) j hj t ht)

end Cfg

/-! ### Resolving -/

namespace Draft

variable {d : Draft}

/-- If no label is undefined, every jump leads to where its label stands. -/
theorem target_of_resolveJumps (h : d.Listed) (hnone : d.resolveJumps.2 = none) {s : Stmt}
    (hs : s ∈ d.resolveJumps.1.method.stmts) {j : Jump} (hj : j ∈ s.jumps) :
    j.target = d.labels.get? j.label ∧ ∃ t, j.target = some t := by
  rw [stmts_resolveJumps h hnone] at hs
  obtain ⟨s', hs', rfl⟩ := List.mem_map.1 hs
  rw [Stmt.jumps_mapJumps] at hj
  obtain ⟨j', hj', rfl⟩ := List.mem_map.1 hj
  exact ⟨rfl, (resolveJumps_snd_eq_none_iff h).1 hnone s' hs' j' hj'⟩

/-! ### Labels -/

/-- Labels stand at statements of the body. -/
def LabelsInRange (d : Draft) : Prop :=
  ∀ l i, d.labels.get? l = some i → i < d.method.body.length

/-- A statement takes the waiting labels. -/
theorem get?_labels_emit (d : Draft) (s : Stmt) (l : String) :
    (d.emit s).labels.get? l =
      if l ∈ d.waiting then some d.method.body.length else d.labels.get? l :=
  Table.get?_foldl_set (fun _ => d.method.body.length) d.waiting d.labels l

/-- The statement that a label stands at. A waiting label stands at the one that comes next. -/
def place? (d : Draft) (l : String) : Option Nat :=
  if l ∈ d.waiting then some d.method.body.length else d.labels.get? l

theorem place?_label {l : String} (d : Draft) (name : String) : (d.label name).place? l =
    if name = l then some d.method.body.length else d.place? l := by
  by_cases hname : name = l
  · simp [place?, label, hname]
  · simp [place?, label, hname, Ne.symm hname]

/-- The labels that waited for a statement stand at it. -/
theorem place?_emit {l : String} (d : Draft) (s : Stmt) : (d.emit s).place? l = d.place? l := by
  have hwaiting : (d.emit s).waiting = [] := rfl
  rw [place?, hwaiting, if_neg List.not_mem_nil, get?_labels_emit, place?]

theorem get?_labels_closeLabels (d : Draft) (l : String) :
    d.closeLabels.labels.get? l = d.place? l := by
  obtain ⟨h, hnone⟩ | ⟨h, -⟩ := d.closeLabels_cases <;> rw [h]
  · rw [place?, hnone, if_neg List.not_mem_nil]
  · exact get?_labels_emit d .nop l

theorem LabelsInRange.emit (h : d.LabelsInRange) (s : Stmt) : (d.emit s).LabelsInRange := by
  intro l i hi
  have hlength : (d.emit s).method.body.length = d.method.body.length + 1 :=
    List.length_append
  rw [get?_labels_emit] at hi
  split at hi
  · cases hi
    omega
  · have := h l i hi
    omega

theorem LabelsInRange.closeLabels (h : d.LabelsInRange) : d.closeLabels.LabelsInRange :=
  closeLabels_of_emit h (h.emit .nop)

/-- **If no label is undefined, every jump leads to a statement of the body.** -/
theorem lt_of_resolveJumps (h : d.LabelsInRange) (hlisted : d.Listed)
    (hnone : d.resolveJumps.2 = none) {s : Stmt} (hs : s ∈ d.resolveJumps.1.method.stmts) {j : Jump}
    (hj : j ∈ s.jumps) : ∃ t, j.target = some t ∧ t < d.resolveJumps.1.method.stmts.length := by
  obtain ⟨htarget, t, ht⟩ := target_of_resolveJumps hlisted hnone hs hj
  have hlt : t < d.method.body.length := h _ t (htarget.symm.trans ht)
  rw [length_resolveJumps, Method.stmts, List.length_map]
  exact ⟨t, ht, hlt⟩

/-- A body without undefined labels has a closed graph. -/
theorem closed_resolveJumps (h : d.LabelsInRange) (hlisted : d.Listed)
    (hnone : d.resolveJumps.2 = none) : (Cfg.ofBody d.resolveJumps.1.method.stmts).Closed := by
  refine Cfg.closed_ofBody fun s hs j hj t ht => ?_
  obtain ⟨t', ht', hlt⟩ := lt_of_resolveJumps h hlisted hnone hs hj
  obtain rfl := Option.some.inj (ht'.symm.trans ht)
  exact hlt

end Draft

/-- The control-flow graph of a method, if there is one, is closed. -/
def Method.HasClosedGraph (m : Method) : Prop := ∀ g, m.cfg = some g → g.Closed

theorem Method.Unread.hasClosedGraph {m : Method} (hm : m.Unread) : m.HasClosedGraph := by
  intro g hg
  rw [hm] at hg
  cases hg

/-- **Finishing a draft gives its method a closed graph.** -/
theorem Draft.hasClosedGraph_finish {d : Draft} (hd : d.method.Unread) (h : d.LabelsInRange)
    (hlisted : d.Listed) : d.finish.1.method.HasClosedGraph := by
  obtain ⟨hfinish, -⟩ | ⟨l, -, hfinish⟩ | ⟨hnone, hfinish⟩ := d.finish_cases <;> rw [hfinish]
  · exact hd.hasClosedGraph
  · exact (Document.unread_resolveJumps hd).hasClosedGraph
  · intro g hg
    obtain rfl := Option.some.inj hg
    exact Draft.closed_resolveJumps h.closeLabels hlisted.closeLabels hnone

end HeapFlow
