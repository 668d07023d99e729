import HeapFlow.PointsTo.Basic
import HeapFlow.Proofs.CallGraph.Edges
/-!
# HeapFlow.Proofs.PointsTo.Projection

**What is left of a points-to result when contexts are forgotten.** A variable, a field, a static
field or an array refers to an object exactly if it does so under some contexts, and the call graph
without contexts has the methods and calls that there are under some contexts. An edge of that graph
is unique for its site and callee, so its kind is that of one of the edges with contexts.
-/

namespace HeapFlow

/-! ### Sets without contexts -/

namespace PointsTo

variable {r : PointsTo}

theorem exists_mem_entries {ptr : Pointer} {o : CObj} :
    (∃ objs, (ptr, objs) ∈ r.sets.entries ∧ o ∈ objs) ↔ o ∈ r.get ptr := by
  rw [get, Table.getD]
  constructor
  · rintro ⟨objs, hmem, ho⟩
    rw [Table.mem_entries.1 hmem]
    exact ho
  · intro h
    cases hget : r.sets.get? ptr with
    | none =>
      rw [hget] at h
      exact absurd h (OrderedSet.not_mem_empty o)
    | some objs =>
      rw [hget] at h
      exact ⟨objs, Table.mem_entries.2 hget, h⟩

theorem mem_image_val {objs : ObjSet} {o : Obj} :
    o ∈ objs.toList.map Contextual.val ↔ ∃ h, ⟨h, o⟩ ∈ objs := by
  rw [List.mem_map]
  constructor
  · intro ⟨x, hx, heq⟩
    rw [← heq]
    exact ⟨x.ctx, hx⟩
  · intro ⟨h, hx⟩
    exact ⟨⟨h, o⟩, hx, rfl⟩

section Merged

variable {κ : Type} [DecidableEq κ] [Keyed κ] {key? : Pointer → Option κ}
  {t : Table κ (OrderedSet Obj)} {k : κ} {o : Obj}

/-- What one pointer adds to the merged sets. -/
theorem mem_getD_mergeRow {ptr : Pointer} {objs : ObjSet} :
    o ∈ (mergeRow key? t (ptr, objs)).getD k ∅ ↔
      o ∈ t.getD k ∅ ∨ key? ptr = some k ∧ ∃ h, ⟨h, o⟩ ∈ objs := by
  rw [mergeRow]
  split
  · rename_i hkey
    simp [hkey]
  · rename_i j hkey
    split
    · rename_i hempty
      -- a pointer without objects gets no row
      have hnil : objs.toList = [] := List.isEmpty_iff.1 hempty
      have hnone (h : Context) : (⟨h, o⟩ : CObj) ∉ objs := by
        rw [OrderedSet.mem_iff, hnil]
        exact List.not_mem_nil
      simp [hnone]
    · rw [Table.getD_set]
      by_cases hj : j = k
      · subst hj
        rw [if_pos rfl, OrderedSet.mem_insertAll, mem_image_val]
        simp [hkey]
      · have hne : key? ptr ≠ some k := by
          rw [hkey]
          exact fun heq => hj (Option.some_inj.1 heq)
        simp [hj, hne]

theorem mem_getD_foldl_mergeRow {es : List (Pointer × ObjSet)} :
    o ∈ (es.foldl (mergeRow key?) t).getD k ∅ ↔
      o ∈ t.getD k ∅ ∨ ∃ ptr h objs, key? ptr = some k ∧ (ptr, objs) ∈ es ∧ ⟨h, o⟩ ∈ objs := by
  induction es generalizing t with
  | nil => simp
  | cons e es ih =>
    obtain ⟨ptr, objs⟩ := e
    rw [List.foldl_cons, ih, mem_getD_mergeRow, or_assoc]
    refine or_congr_right ⟨fun h => ?_, fun h => ?_⟩
    · rcases h with ⟨hkey, h, hmem⟩ | ⟨other, h, xs, hkey, hxs, hmem⟩
      · exact ⟨ptr, h, objs, hkey, List.mem_cons_self, hmem⟩
      · exact ⟨other, h, xs, hkey, List.mem_cons_of_mem _ hxs, hmem⟩
    · obtain ⟨other, h, xs, hkey, hxs, hmem⟩ := h
      rcases List.mem_cons.1 hxs with heq | hxs
      · obtain ⟨rfl, rfl⟩ := Prod.mk.inj heq
        exact Or.inl ⟨hkey, h, hmem⟩
      · exact Or.inr ⟨other, h, xs, hkey, hxs, hmem⟩

/-- **A key refers to what the pointers with this key refer to.** -/
theorem mem_merged :
    o ∈ (r.merged key?).getD k ∅ ↔ ∃ ptr h, key? ptr = some k ∧ ⟨h, o⟩ ∈ r.get ptr := by
  have hempty : o ∉ (∅ : Table κ (OrderedSet Obj)).getD k ∅ := by
    have hnone : (∅ : Table κ (OrderedSet Obj)).getD k ∅ = ∅ := Table.getD_empty k ∅
    rw [hnone]
    exact OrderedSet.not_mem_empty o
  rw [merged, mem_getD_foldl_mergeRow, or_iff_right hempty]
  constructor
  · rintro ⟨ptr, h, objs, hkey, hmem, ho⟩
    exact ⟨ptr, h, hkey, exists_mem_entries.1 ⟨objs, hmem, ho⟩⟩
  · rintro ⟨ptr, h, hkey, ho⟩
    obtain ⟨objs, hmem, ho⟩ := exists_mem_entries.2 ho
    exact ⟨ptr, h, objs, hkey, hmem, ho⟩

/-- Every row of a table has objects. -/
def RowsNonempty (t : Table κ (OrderedSet Obj)) : Prop :=
  ∀ k ∈ t.keys, ∃ o, o ∈ t.getD k ∅

theorem RowsNonempty.mergeRow (ht : RowsNonempty t) (e : Pointer × ObjSet) :
    RowsNonempty (mergeRow key? t e) := by
  obtain ⟨ptr, objs⟩ := e
  rw [PointsTo.mergeRow]
  split
  · exact ht
  · rename_i k _
    split
    · exact ht
    · rename_i hobjs
      obtain ⟨x, hx⟩ := List.exists_mem_of_ne_nil _ fun hnil => hobjs (List.isEmpty_iff.2 hnil)
      intro j hj
      rw [Table.getD_set]
      rw [Table.mem_keys, Table.get?_set] at hj
      by_cases hjk : k = j
      · rw [if_pos hjk]
        exact ⟨x.val, OrderedSet.mem_insertAll.2 (Or.inr (mem_image_val.2 ⟨x.ctx, hx⟩))⟩
      · rw [if_neg hjk] at hj ⊢
        exact ht j (Table.mem_keys.2 hj)

theorem rowsNonempty_merged : RowsNonempty (r.merged key?) := by
  have hfoldl (es : List (Pointer × ObjSet)) (t : Table κ (OrderedSet Obj))
      (ht : RowsNonempty t) : RowsNonempty (es.foldl (mergeRow key?) t) := by
    induction es generalizing t with
    | nil => exact ht
    | cons e es ih => exact ih _ (ht.mergeRow e)
  exact hfoldl _ ∅ fun k hk => absurd hk List.not_mem_nil

/-- **The rows are those of the keys that refer to objects.** -/
theorem mem_keys_merged : k ∈ (r.merged key?).keys ↔ ∃ o, o ∈ (r.merged key?).getD k ∅ := by
  refine ⟨rowsNonempty_merged k, ?_⟩
  rintro ⟨o, ho⟩
  rw [Table.mem_keys]
  rw [Table.getD] at ho
  cases hget : (r.merged key?).get? k with
  | none =>
    rw [hget] at ho
    exact absurd ho (OrderedSet.not_mem_empty o)
  | some objs => rfl

end Merged

/-- **A variable refers to what it refers to under some contexts.** -/
theorem mem_ofVar {v : Local} {o : Obj} :
    o ∈ r.ofVar v ↔ ∃ c h, ⟨h, o⟩ ∈ r.get (.var ⟨c, v⟩) := by
  rw [ofVar, VarObjects.of, varObjects, mem_merged]
  constructor
  · rintro ⟨ptr, h, hkey, ho⟩
    cases ptr with
    | var w =>
      obtain rfl := Option.some_inj.1 hkey
      exact ⟨w.ctx, h, ho⟩
    | _ => cases hkey
  · rintro ⟨c, h, ho⟩
    exact ⟨_, h, rfl, ho⟩

/-- **A field of an object refers to what it refers to under some contexts.** -/
theorem mem_ofField {base o : Obj} {f : Field} :
    o ∈ r.ofField base f ↔ ∃ c h, ⟨h, o⟩ ∈ r.get (.field ⟨c, base⟩ f) := by
  rw [ofField, mem_merged]
  constructor
  · rintro ⟨ptr, h, hkey, ho⟩
    cases ptr with
    | field b g =>
      obtain ⟨rfl, rfl⟩ := Prod.mk.inj (Option.some_inj.1 hkey)
      exact ⟨b.ctx, h, ho⟩
    | _ => cases hkey
  · rintro ⟨c, h, ho⟩
    exact ⟨_, h, rfl, ho⟩

theorem mem_ofStatic {o : Obj} {f : Field} :
    o ∈ r.ofStatic f ↔ ∃ h, ⟨h, o⟩ ∈ r.get (.static f) := by
  rw [ofStatic, mem_merged]
  constructor
  · rintro ⟨ptr, h, hkey, ho⟩
    cases ptr with
    | static g =>
      obtain rfl := Option.some_inj.1 hkey
      exact ⟨h, ho⟩
    | _ => cases hkey
  · rintro ⟨h, ho⟩
    exact ⟨_, h, rfl, ho⟩

theorem mem_ofArray {array o : Obj} :
    o ∈ r.ofArray array ↔ ∃ c h, ⟨h, o⟩ ∈ r.get (.elements ⟨c, array⟩) := by
  rw [ofArray, mem_merged]
  constructor
  · rintro ⟨ptr, h, hkey, ho⟩
    cases ptr with
    | elements a =>
      obtain rfl := Option.some_inj.1 hkey
      exact ⟨a.ctx, h, ho⟩
    | _ => cases hkey
  · rintro ⟨c, h, ho⟩
    exact ⟨_, h, rfl, ho⟩

/-- **The listed variables are those that may refer to an object.** -/
theorem mem_vars_iff {v : Local} : v ∈ r.vars ↔ ∃ o, o ∈ r.ofVar v := mem_keys_merged

/-- A variable that may refer to an object is listed. -/
theorem mem_vars_of_mem_ofVar {v : Local} {o : Obj} (h : o ∈ r.ofVar v) : v ∈ r.vars :=
  mem_vars_iff.2 ⟨o, h⟩

/-- **Variables are aliases if they may refer to a common object.** -/
theorem mayAlias_iff {a b : Local} : r.mayAlias a b = true ↔ ∃ o, o ∈ r.ofVar a ∧ o ∈ r.ofVar b := by
  rw [mayAlias]
  split
  · simp [OrderedSet.mem_iff]
  · simp [OrderedSet.mem_iff, and_comm]

theorem mayAlias_comm (a b : Local) : r.mayAlias a b = r.mayAlias b a := by
  rw [Bool.eq_iff_iff, mayAlias_iff, mayAlias_iff]
  simp only [and_comm]

/-! ### The call graph without contexts -/

theorem mem_image_methods {ms : OrderedSet CMethod} {m : MethodId} :
    m ∈ ms.image Contextual.val ↔ ∃ c, ⟨c, m⟩ ∈ ms := by
  rw [OrderedSet.mem_image]
  constructor
  · intro ⟨x, hx, heq⟩
    rw [← heq]
    exact ⟨x.ctx, hx⟩
  · intro ⟨c, hx⟩
    exact ⟨_, hx, rfl⟩

theorem mem_methodGraph_reachable {m : MethodId} :
    m ∈ r.methodGraph.reachable ↔ ∃ c, ⟨c, m⟩ ∈ r.graph.reachable := by
  show m ∈ (List.foldl CallGraph.addEdge _ _).reachable ↔ _
  rw [CallGraph.reachable_foldl_addEdge]
  exact mem_image_methods

theorem mem_methodGraph_entries {m : MethodId} :
    m ∈ r.methodGraph.entries ↔ ∃ c, ⟨c, m⟩ ∈ r.graph.entries := by
  show m ∈ (List.foldl CallGraph.addEdge _ _).entries ↔ _
  rw [CallGraph.entries_foldl_addEdge]
  exact mem_image_methods

/-- The indexes of the graph agree. -/
theorem methodGraph_indexed : r.methodGraph.Indexed :=
  CallGraph.Indexed.foldl_addEdge ⟨rfl, Adjacency.filed_empty ..⟩ _

/-- **A call is in the graph without contexts if it is there under some contexts**, where calls at
one site are of one kind. -/
theorem mem_methodGraph_edges
    (hkind : ∀ d ∈ r.graph.edges, ∀ e ∈ r.graph.edges, d.site.val = e.site.val → d.kind = e.kind)
    {e : CallGraph.Edge Site MethodId} : e ∈ r.methodGraph.edges ↔
      ∃ c c', ⟨e.kind, ⟨c, e.site⟩, ⟨c', e.callee⟩⟩ ∈ r.graph.edges := by
  show e ∈ (List.foldl CallGraph.addEdge _ (r.graph.edges.map forgetContexts)).edges ↔ _
  have hends (d e) (hd : d ∈ r.graph.edges.map forgetContexts)
      (he : e ∈ r.graph.edges.map forgetContexts) (heq : d.ends = e.ends) : d = e := by
    obtain ⟨d', hd', rfl⟩ := List.mem_map.1 hd
    obtain ⟨e', he', rfl⟩ := List.mem_map.1 he
    obtain ⟨hsite, hcallee⟩ := Prod.mk.inj heq
    simp only [forgetContexts, CallGraph.Edge.mk.injEq]
    exact ⟨hkind d' hd' e' he' hsite, hsite, hcallee⟩
  rw [CallGraph.Indexed.mem_edges_foldl_addEdge ⟨rfl, Adjacency.filed_empty ..⟩ hends
    (fun d hd => absurd hd List.not_mem_nil) fun d hd => hd, List.mem_map]
  constructor
  · rintro (hnone | ⟨d, hd, rfl⟩)
    · cases hnone
    · exact ⟨d.site.ctx, d.callee.ctx, hd⟩
  · rintro ⟨c, c', hd⟩
    exact .inr ⟨_, hd, rfl⟩

end PointsTo

end HeapFlow
