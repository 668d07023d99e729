import HeapFlow.CallGraph.Basic
import Mathlib.Data.List.Nodup
/-!
# HeapFlow.Proofs.CallGraph.Edges

**The indexes of a call graph agree** (`Indexed`). Entering a method leaves them as they are, and adding an
edge changes all of them or none (`Indexed.addEdge`). So they agree in every graph that is built from the
empty one: a site calls a callee along one edge at most, each edge is listed once among those that leave
its site and once among those that enter its callee, and the same goes for the callees of a site and for
the callers of a method (`Indexed.listsOnce`).
-/

namespace HeapFlow

namespace CallGraph

variable {σ μ : Type} [DecidableEq σ] [Keyed σ] [DecidableEq μ] [Keyed μ] {g : CallGraph σ μ}
  {site : σ} {callee : μ} {d e : Edge σ μ}

/-- The indexes agree: the ends are those of the edges, in order and without repetition, and each edge is
filed at its site and at its callee. -/
structure Indexed (g : CallGraph σ μ) : Prop where
  ends : g.edges.map Edge.ends = g.ends.toList
  filed : g.adjacency.Filed Edge.site Edge.callee

/-! ### What keeps the indexes -/

theorem indexed_empty : (∅ : CallGraph σ μ).Indexed := ⟨rfl, Adjacency.filed_empty ..⟩

theorem Indexed.addEntry (h : g.Indexed) (m : μ) : (g.addEntry m).Indexed := ⟨h.ends, h.filed⟩

theorem Indexed.addReachable (h : g.Indexed) (m : μ) : (g.addReachable m).Indexed :=
  ⟨h.ends, h.filed⟩

/-- **Adding an edge keeps the indexes in agreement.** -/
theorem Indexed.addEdge (h : g.Indexed) (e : Edge σ μ) : (g.addEdge e).Indexed := by
  by_cases hold : g.hasEdge e.site e.callee = true
  · rwa [addEdge_of_hasEdge hold]
  · have hnew : e.ends ∉ g.ends := of_decide_eq_false (Bool.not_eq_true _ ▸ hold)
    refine ⟨?_, ?_⟩
    · rw [edges_addEdge_of_new hold, List.map_append, h.ends, CallGraph.addEdge, if_neg hold,
        OrderedSet.toList_insert, if_neg hnew]
      rfl
    · rw [CallGraph.addEdge, if_neg hold]
      exact h.filed.add e

theorem Indexed.foldl_addEdge (h : g.Indexed) (es : List (Edge σ μ)) :
    (es.foldl CallGraph.addEdge g).Indexed := by
  induction es generalizing g with
  | nil => exact h
  | cons e es ih => exact ih (h.addEdge e)

theorem reachable_foldl_addEdge (es : List (Edge σ μ)) (g : CallGraph σ μ) :
    (es.foldl CallGraph.addEdge g).reachable = g.reachable := by
  induction es generalizing g with
  | nil => rfl
  | cons e es ih => rw [List.foldl_cons, ih, reachable_addEdge]

theorem entries_foldl_addEdge (es : List (Edge σ μ)) (g : CallGraph σ μ) :
    (es.foldl CallGraph.addEdge g).entries = g.entries := by
  induction es generalizing g with
  | nil => rfl
  | cons e es ih => rw [List.foldl_cons, ih, entries_addEdge]

/-! ### Edges by their ends -/

/-- A site calls a callee if an edge joins them. -/
theorem Indexed.hasEdge_iff (h : g.Indexed) :
    g.hasEdge site callee = true ↔ ∃ e ∈ g.edges, e.ends = (site, callee) := by
  rw [hasEdge, decide_eq_true_iff, OrderedSet.mem_iff, ← h.ends, List.mem_map]

/-- **A site calls a callee along one edge at most.** -/
theorem Indexed.nodup_ends (h : g.Indexed) : (g.edges.map Edge.ends).Nodup :=
  h.ends ▸ g.ends.nodup

theorem Indexed.nodup_edges (h : g.Indexed) : g.edges.Nodup := h.nodup_ends.of_map

/-- The ends tell the edges apart. -/
theorem Indexed.eq_of_ends (h : g.Indexed) (hd : d ∈ g.edges) (he : e ∈ g.edges)
    (heq : d.ends = e.ends) : d = e :=
  List.inj_on_of_nodup_map h.nodup_ends hd he heq

/-- Edges that are added one after the other. If the kind of an edge follows from its site and
callee, all of them are there. -/
theorem Indexed.mem_edges_foldl_addEdge (h : g.Indexed) {es : List (Edge σ μ)} {P : Edge σ μ → Prop}
    (hkind : ∀ d e, P d → P e → d.ends = e.ends → d = e) (hg : ∀ d ∈ g.edges, P d)
    (hes : ∀ d ∈ es, P d) : d ∈ (es.foldl CallGraph.addEdge g).edges ↔ d ∈ g.edges ∨ d ∈ es := by
  induction es generalizing g with
  | nil => simp
  | cons e es ih =>
    obtain ⟨he, hes⟩ := List.forall_mem_cons.1 hes
    have hstep (d : Edge σ μ) : d ∈ (g.addEdge e).edges ↔ d ∈ g.edges ∨ d = e := by
      refine ⟨mem_or_eq_of_mem_edges_addEdge, ?_⟩
      rintro (hd | rfl)
      · exact mem_edges_addEdge_of_mem hd
      · by_cases hold : g.hasEdge d.site d.callee = true
        · -- what joins the ends already is this edge
          obtain ⟨e', he', hends⟩ := h.hasEdge_iff.1 hold
          rw [addEdge_of_hasEdge hold, ← hkind e' d (hg e' he') he hends]
          exact he'
        · rw [edges_addEdge_of_new hold]
          exact List.mem_append_right _ (List.mem_singleton_self d)
    have hkept : ∀ d ∈ (g.addEdge e).edges, P d := by
      intro d hd
      obtain hd | rfl := (hstep d).1 hd
      · exact hg d hd
      · exact he
    rw [List.foldl_cons, ih (h.addEdge e) hkept hes, hstep, List.mem_cons, or_assoc]

/-! ### Edges at a site and at a callee -/

theorem Indexed.mem_edgesFrom (h : g.Indexed) :
    e ∈ g.edgesFrom site ↔ e ∈ g.edges ∧ e.site = site := by
  rw [edgesFrom, h.filed.edgesFrom_eq, List.mem_filter, decide_eq_true_iff]
  rfl

theorem Indexed.mem_edgesInto (h : g.Indexed) :
    e ∈ g.edgesInto callee ↔ e ∈ g.edges ∧ e.callee = callee := by
  rw [edgesInto, h.filed.edgesInto_eq, List.mem_filter, decide_eq_true_iff]
  rfl

theorem Indexed.mem_callees (h : g.Indexed) :
    callee ∈ g.callees site ↔ ∃ e ∈ g.edges, e.ends = (site, callee) := by
  simp only [callees, List.mem_map, h.mem_edgesFrom, Edge.ends, Prod.mk.injEq, and_assoc]

theorem Indexed.mem_callers (h : g.Indexed) :
    site ∈ g.callers callee ↔ ∃ e ∈ g.edges, e.ends = (site, callee) := by
  simp only [callers, List.mem_map, h.mem_edgesInto, Edge.ends, Prod.mk.injEq, and_assoc, and_comm]

/-- Every edge is listed once at each end. -/
structure ListsOnce (g : CallGraph σ μ) : Prop where
  leaving : ∀ site, (g.edgesFrom site).Nodup ∧
    ∀ e, e ∈ g.edgesFrom site ↔ e ∈ g.edges ∧ e.site = site
  entering : ∀ callee, (g.edgesInto callee).Nodup ∧
    ∀ e, e ∈ g.edgesInto callee ↔ e ∈ g.edges ∧ e.callee = callee
  callees : ∀ site, (g.callees site).Nodup ∧
    ∀ callee, callee ∈ g.callees site ↔ ∃ e ∈ g.edges, e.ends = (site, callee)
  callers : ∀ callee, (g.callers callee).Nodup ∧
    ∀ site, site ∈ g.callers callee ↔ ∃ e ∈ g.edges, e.ends = (site, callee)

/-- **Where the indexes agree, the lists hold each edge once.** -/
theorem Indexed.listsOnce (h : g.Indexed) : g.ListsOnce := by
  have hfrom (site : σ) : (g.edgesFrom site).Nodup := by
    rw [edgesFrom, h.filed.edgesFrom_eq]
    exact h.nodup_edges.filter _
  have hinto (callee : μ) : (g.edgesInto callee).Nodup := by
    rw [edgesInto, h.filed.edgesInto_eq]
    exact h.nodup_edges.filter _
  refine ⟨fun site => ⟨hfrom site, fun _ => h.mem_edgesFrom⟩,
    fun callee => ⟨hinto callee, fun _ => h.mem_edgesInto⟩, fun site => ?_, fun callee => ?_⟩
  · refine ⟨List.Nodup.map_on (fun d hd e he heq => ?_) (hfrom site), fun _ => h.mem_callees⟩
    obtain ⟨hd, hdsite⟩ := h.mem_edgesFrom.1 hd
    obtain ⟨he, hesite⟩ := h.mem_edgesFrom.1 he
    exact h.eq_of_ends hd he (Prod.ext (hdsite.trans hesite.symm) heq)
  · refine ⟨List.Nodup.map_on (fun d hd e he heq => ?_) (hinto callee), fun _ => h.mem_callers⟩
    obtain ⟨hd, hdcallee⟩ := h.mem_edgesInto.1 hd
    obtain ⟨he, hecallee⟩ := h.mem_edgesInto.1 he
    exact h.eq_of_ends hd he (Prod.ext heq (hdcallee.trans hecallee.symm))

end CallGraph

end HeapFlow
