import HeapFlow.CallGraph.Cha
import HeapFlow.Proofs.CallGraph.Edges
import HeapFlow.Proofs.Ir.Entries
import HeapFlow.Proofs.Search
/-!
# HeapFlow.Proofs.CallGraph.Cha

**What is in the call graph of class hierarchy analysis** (`Program.chaGraph_exact`). The reachable
methods are the entries and whatever the calls of reachable methods may run, and the edges are the calls
of the reachable methods with their targets.

The construction is a search along calls (`ChaAdvances.moves`). Every target is a method of the program, so
it stays among the entries and the methods of the program and ends by itself, however often methods call
each other. While targets still wait, the graph holds the calls of the methods that are reachable so far,
and its indexes agree (`ChaBuilt.advance`).
-/

namespace HeapFlow

/-- The calls of a method are its call statements. -/
theorem Method.mem_calls {m : Method} {i : Nat} {call : Call} :
    (i, call) ∈ m.calls ↔ ∃ result, m.stmt? i = some (.invoke result call) := by
  refine mem_select.trans ⟨?_, fun ⟨result, h⟩ => ⟨_, h, rfl⟩⟩
  rintro ⟨s, hs, hcall⟩
  cases s with
  | invoke result call' =>
    obtain rfl := Option.some.inj hcall
    exact ⟨result, hs⟩
  | _ => cases hcall

namespace Program

variable {p : Program}

/-! ### Targets -/

theorem mem_methodIds_of_dispatch? {c : ClassRef} {subsignature : String} {id : MethodId}
    (h : p.dispatch? c subsignature = some id) : id ∈ p.methodIds := by
  obtain ⟨cls, hcls, m, hm, rfl, -, -⟩ := exists_of_dispatch? h
  exact List.mem_map_of_mem (List.mem_flatMap.2 ⟨cls, hcls, hm⟩)

theorem mem_methodIds_of_resolveByHierarchy {receiver : Option ClassRef} {call : Call}
    {id : MethodId} (h : id ∈ p.resolveByHierarchy receiver call) : id ∈ p.methodIds := by
  have hdirect (h : id ∈ (p.resolveDirect call).toList) : id ∈ p.methodIds := by
    obtain ⟨c, hdispatch⟩ := exists_of_resolveDirect (Option.mem_toList.1 h)
    exact mem_methodIds_of_dispatch? hdispatch
  have hbelow {root : ClassRef} (h : id ∈ p.resolveBelow root call.subsignature) :
      id ∈ p.methodIds := by
    rw [resolveBelow, ← OrderedSet.mem_iff, OrderedSet.mem_ofList] at h
    obtain ⟨c, -, hdispatch⟩ := List.mem_filterMap.1 h
    exact mem_methodIds_of_dispatch? hdispatch
  unfold resolveByHierarchy at h
  split at h
  · exact hdirect h
  · exact hdirect h
  · cases h
  all_goals
    split at h
    · exact hbelow h
    · cases h

/-! ### Edges of a method -/

/-- The edges of a method are those of its calls. -/
theorem mem_chaEdges {id : MethodId} {e : CallGraph.Edge Site MethodId} :
    e ∈ p.chaEdges id ↔ e.site.method = id ∧ ∃ result call,
      p.stmt? e.site = some (.invoke result call) ∧ e.kind = call.kind ∧
      e.callee ∈ p.resolveByHierarchy none call := by
  obtain ⟨kind, ⟨method, index⟩, callee⟩ := e
  rw [chaEdges]
  cases hm : p.method? id with
  | none =>
    refine iff_of_false List.not_mem_nil ?_
    rintro ⟨rfl, result, call, hstmt, -⟩
    obtain ⟨m, hsome, -⟩ := stmt?_eq_some.1 hstmt
    exact nomatch hm.symm.trans hsome
  | some m =>
    simp only [List.mem_flatMap, List.mem_map, Prod.exists, Method.mem_calls]
    constructor
    · rintro ⟨i, call, ⟨result, hstmt⟩, callee', hcallee, heq⟩
      cases heq
      exact ⟨rfl, result, call, stmt?_eq_some.2 ⟨m, hm, hstmt⟩, rfl, hcallee⟩
    · rintro ⟨rfl, result, call, hstmt, rfl, hcallee⟩
      obtain ⟨m', hm', hstmt⟩ := stmt?_eq_some.1 hstmt
      cases hm.symm.trans hm'
      exact ⟨index, call, ⟨result, hstmt⟩, callee, hcallee, rfl⟩

/-- Calls at one site are of the kind of its statement, so their ends tell them apart. -/
theorem eq_of_chaEdges {id id' : MethodId} {d e : CallGraph.Edge Site MethodId}
    (hd : d ∈ p.chaEdges id) (he : e ∈ p.chaEdges id') (hends : d.ends = e.ends) : d = e := by
  obtain ⟨hsite, hcallee⟩ := Prod.mk.inj hends
  obtain ⟨-, result, call, hstmt, hkind, -⟩ := mem_chaEdges.1 hd
  obtain ⟨-, result', call', hstmt', hkind', -⟩ := mem_chaEdges.1 he
  rw [hsite] at hstmt
  cases hstmt.symm.trans hstmt'
  obtain ⟨kind, site, callee⟩ := d
  dsimp only at hkind hsite hcallee
  rw [hkind, hsite, hcallee, ← hkind']

/-! ### Calls -/

/-- One method calls another: the other is a target of a call in its body. -/
def Calls (p : Program) (caller callee : MethodId) : Prop :=
  ∃ i result call, p.stmt? ⟨caller, i⟩ = some (.invoke result call) ∧
    callee ∈ p.resolveByHierarchy none call

theorem mem_chaCallees {caller callee : MethodId} :
    callee ∈ p.chaCallees caller ↔ p.Calls caller callee := by
  simp only [chaCallees, List.mem_map, mem_chaEdges]
  constructor
  · rintro ⟨⟨kind, ⟨method, i⟩, target⟩, ⟨rfl, result, call, hstmt, -, htarget⟩, rfl⟩
    exact ⟨i, result, call, hstmt, htarget⟩
  · rintro ⟨i, result, call, hstmt, htarget⟩
    exact ⟨⟨call.kind, ⟨caller, i⟩, callee⟩, ⟨rfl, result, call, hstmt, rfl, htarget⟩, rfl⟩

/-- Callees are methods of the program. -/
theorem mem_methodIds_of_calls {caller callee : MethodId} (h : p.Calls caller callee) :
    callee ∈ p.methodIds := by
  obtain ⟨-, -, call, -, htarget⟩ := h
  exact mem_methodIds_of_resolveByHierarchy htarget

/-! ### The search for methods -/

/-- Whatever is reached from the entries is an entry or a method of the program. -/
theorem mem_of_reaches : ∀ entry ∈ p.entries, ∀ id,
    Relation.ReflTransGen (Reach.Leads p.chaCallees) entry id → id ∈ p.entries ++ p.methodIds :=
  Search.mem_whole_of_reaches (fun _ => List.mem_append_left _) fun _ _ _ hcallee =>
    List.mem_append_right _ (mem_methodIds_of_calls (mem_chaCallees.1 hcallee))

/-- The methods that are reachable, and those that wait. -/
def chaSearch (s : ChaState) : Search MethodId := ⟨s.graph.reachable, s.todo.toList⟩

theorem foldl_call (es : List (CallGraph.Edge Site MethodId)) (s : ChaState) :
    (es.foldl ChaState.call s).graph = es.foldl CallGraph.addEdge s.graph ∧
      (es.foldl ChaState.call s).todo.toList =
        s.todo.toList ++ es.map CallGraph.Edge.callee := by
  induction es generalizing s with
  | nil => exact ⟨rfl, (List.append_nil _).symm⟩
  | cons e es ih =>
    obtain ⟨hgraph, htodo⟩ := ih (s.call e)
    refine ⟨hgraph, htodo.trans ?_⟩
    rw [ChaState.call, Queue.toList_push, List.append_assoc, List.map_cons, List.singleton_append]

/-- **What a step does:** it skips a method that is reachable already, or it makes the oldest method
that waits reachable, enters its calls and has their targets wait. -/
inductive ChaAdvances (p : Program) : ChaState → ChaState → Prop
  | skip {g : MethodGraph} {id : MethodId} {todo rest : Queue MethodId} (hseen : id ∈ g.reachable)
      (htodo : todo.toList = id :: rest.toList) : ChaAdvances p ⟨g, todo⟩ ⟨g, rest⟩
  | mark {g : MethodGraph} {id : MethodId} {todo more : Queue MethodId} {rest : List MethodId}
      (hnew : id ∉ g.reachable) (htodo : todo.toList = id :: rest)
      (hmore : more.toList = rest ++ p.chaCallees id) :
      ChaAdvances p ⟨g, todo⟩ ⟨(p.chaEdges id).foldl CallGraph.addEdge (g.addReachable id), more⟩

theorem ChaAdvances.of_step {s s' : ChaState} (h : p.chaStep s = .next s') :
    ChaAdvances p s s' := by
  obtain ⟨g, todo⟩ := s
  rw [chaStep] at h
  dsimp only at h
  split at h
  · cases h
  · rename_i id rest hpop
    have htodo := Queue.toList_of_pop? hpop
    split at h
    · rename_i hseen
      cases h
      exact .skip hseen htodo
    · rename_i hnew
      cases h
      obtain ⟨hgraph, hmore⟩ := foldl_call (p.chaEdges id) ⟨g.addReachable id, rest⟩
      generalize (p.chaEdges id).foldl ChaState.call ⟨g.addReachable id, rest⟩ = s at hgraph hmore
      obtain ⟨graph, more⟩ := s
      obtain rfl : graph = _ := hgraph
      exact .mark hnew htodo hmore

/-- The construction is a search along calls. -/
theorem ChaAdvances.moves {s s' : ChaState} (h : ChaAdvances p s s') :
    Search.Moves p.chaCallees (chaSearch s) (chaSearch s') := by
  cases h with
  | skip hseen htodo => exact .skip hseen (.of_eq htodo)
  | mark hnew htodo hmore =>
    rw [chaSearch, chaSearch, CallGraph.reachable_foldl_addEdge]
    exact .mark hnew (.of_eq htodo) (.of_eq hmore)

theorem chaStart_eq (p : Program) : p.chaStart.graph.entries = OrderedSet.ofList p.entries ∧
    chaSearch p.chaStart = ⟨∅, p.entries⟩ ∧ p.chaStart.graph.edges = [] ∧
    p.chaStart.graph.Indexed := by
  have hfold (ids : List MethodId) (s : ChaState) :
      ids.foldl ChaState.enter s = ⟨{ s.graph with entries := s.graph.entries.insertAll ids },
        ids.foldl Queue.push s.todo⟩ := by
    induction ids generalizing s with
    | nil => rfl
    | cons id ids ih => exact ih (s.enter id)
  have hpush (ids : List MethodId) (q : Queue MethodId) :
      (ids.foldl Queue.push q).toList = q.toList ++ ids := by
    induction ids generalizing q with
    | nil => exact (List.append_nil _).symm
    | cons id ids ih =>
      rw [List.foldl_cons, ih, Queue.toList_push, List.append_assoc, List.singleton_append]
  rw [chaStart, hfold]
  refine ⟨rfl, ?_, rfl, rfl, Adjacency.filed_empty ..⟩
  rw [chaSearch, hpush]
  rfl

/-! ### The graph under construction -/

/-- What the construction keeps: the indexes agree, the entries are those of the program, and the edges
are the calls of the methods that are reachable so far. -/
structure ChaBuilt (p : Program) (s : ChaState) : Prop
    extends Search.Covers p.chaCallees p.entries (chaSearch s) where
  indexed : s.graph.Indexed
  entries : s.graph.entries = OrderedSet.ofList p.entries
  edges : ∀ e, e ∈ s.graph.edges ↔
    e.site.method ∈ s.graph.reachable ∧ e ∈ p.chaEdges e.site.method

theorem chaBuilt_start (p : Program) : ChaBuilt p p.chaStart := by
  obtain ⟨hentries, hsearch, hedges, hindexed⟩ := chaStart_eq p
  have hnone : p.chaStart.graph.reachable = ∅ := congrArg Search.seen hsearch
  refine ⟨hsearch ▸ Search.covers_start, hindexed, hentries, fun e => ?_⟩
  rw [hedges, hnone]
  exact iff_of_false List.not_mem_nil fun h => OrderedSet.not_mem_empty _ h.1

/-- **A step keeps the graph in agreement with the methods that are reachable.** -/
theorem ChaBuilt.advance {s s' : ChaState} (h : ChaBuilt p s) (hstep : ChaAdvances p s s') :
    ChaBuilt p s' := by
  have hcovers := h.move hstep.moves
  cases hstep with
  | skip => exact ⟨hcovers, h.indexed, h.entries, h.edges⟩
  | @mark g id todo more rest hnew =>
    have hindexed : (g.addReachable id).Indexed := h.indexed.addReachable id
    refine ⟨hcovers, hindexed.foldl_addEdge _, ?_, fun e => ?_⟩
    · exact (CallGraph.entries_foldl_addEdge _ _).trans h.entries
    · -- edges are the calls of their methods, so their kinds follow from their sites
      have hold : ∀ d ∈ g.edges, d ∈ p.chaEdges d.site.method := fun d hd => ((h.edges d).1 hd).2
      have hadded : ∀ d ∈ p.chaEdges id, d ∈ p.chaEdges d.site.method := by
        intro d hd
        rwa [(mem_chaEdges.1 hd).1]
      rw [hindexed.mem_edges_foldl_addEdge (fun _ _ => eq_of_chaEdges) hold hadded,
        CallGraph.reachable_foldl_addEdge]
      show e ∈ g.edges ∨ _ ↔ e.site.method ∈ g.reachable.insert id ∧ _
      rw [h.edges, OrderedSet.mem_insert]
      constructor
      · rintro (⟨hmethod, he⟩ | he)
        · exact ⟨.inr hmethod, he⟩
        · obtain ⟨rfl, -⟩ := mem_chaEdges.1 he
          exact ⟨.inl rfl, he⟩
      · rintro ⟨rfl | hmethod, he⟩
        · exact .inr he
        · exact .inl ⟨hmethod, he⟩

/-- Where the construction halts, nothing waits. -/
theorem chaBuilt_of_run {fuel : Nat} {g : MethodGraph}
    (h : Step.run p.chaStep fuel p.chaStart = some g) : ChaBuilt p ⟨g, ∅⟩ := by
  obtain ⟨⟨g', todo⟩, hbuilt, hhalt⟩ := Step.run_invariant
    (fun s s' hs hstep => ChaBuilt.advance hs (.of_step hstep)) (chaBuilt_start p) h
  rw [chaStep] at hhalt
  dsimp only at hhalt
  split at hhalt
  · rename_i hpop
    cases hhalt
    have hnil : chaSearch ⟨g, todo⟩ = chaSearch ⟨g, ∅⟩ :=
      congrArg (Search.mk _) (Queue.pop?_eq_none.1 hpop)
    exact ⟨hnil ▸ hbuilt.toCovers, hbuilt.indexed, hbuilt.entries, hbuilt.edges⟩
  · split at hhalt <;> cases hhalt

/-! ### The graph -/

/-- **The construction ends by itself.** -/
theorem run_chaStep (p : Program) :
    ∃ fuel, Step.run p.chaStep fuel p.chaStart = some p.chaGraph := by
  obtain ⟨g, hg⟩ := Search.exists_run chaSearch
    (fun s s' h => (ChaAdvances.of_step h).moves) (chaStart_eq p).2.1 mem_of_reaches
  refine ⟨_, hg.trans (congrArg some ?_)⟩
  rw [chaGraph, hg, Option.getD_some]

theorem chaBuilt_chaGraph (p : Program) : ChaBuilt p ⟨p.chaGraph, ∅⟩ :=
  have ⟨_, h⟩ := run_chaStep p
  chaBuilt_of_run h

/-- The indexes of the graph agree. -/
theorem chaGraph_indexed (p : Program) : p.chaGraph.Indexed := (chaBuilt_chaGraph p).indexed

/-- What is reachable in the graph is reached from the entries. -/
theorem mem_chaGraph_reachable {id : MethodId} :
    id ∈ p.chaGraph.reachable ↔ ∃ entry ∈ p.entries, Relation.ReflTransGen p.Calls entry id := by
  have hcalls : Reach.Leads p.chaCallees = p.Calls :=
    funext fun _ => funext fun _ => propext mem_chaCallees
  rw [← hcalls]
  exact (chaBuilt_chaGraph p).mem_seen_iff rfl

theorem mem_chaGraph_reachable_of_entry {id : MethodId} (h : id ∈ p.entries) :
    id ∈ p.chaGraph.reachable :=
  mem_chaGraph_reachable.2 ⟨id, h, .refl⟩

/-- The callees of reachable methods are reachable. -/
theorem mem_chaGraph_reachable_of_edge {e : CallGraph.Edge Site MethodId}
    (hmethod : e.site.method ∈ p.chaGraph.reachable) (he : e ∈ p.chaEdges e.site.method) :
    e.callee ∈ p.chaGraph.reachable := by
  obtain ⟨entry, hentry, hreaches⟩ := mem_chaGraph_reachable.1 hmethod
  have hcalls : p.Calls e.site.method e.callee := mem_chaCallees.1 (List.mem_map_of_mem he)
  exact mem_chaGraph_reachable.2 ⟨entry, hentry, hreaches.tail hcalls⟩

/-- **The edges of the graph are the calls of its reachable methods.** -/
theorem mem_chaGraph_edges {e : CallGraph.Edge Site MethodId} :
    e ∈ p.chaGraph.edges ↔
      e.site.method ∈ p.chaGraph.reachable ∧ e ∈ p.chaEdges e.site.method :=
  (chaBuilt_chaGraph p).edges e

/-- **The call graph of class hierarchy analysis is the closure of the entry methods.** The construction
ends by itself, and always with this graph. A method is reachable exactly if a chain of calls leads to
it from an entry. The edges are the calls of the reachable methods with their targets; a site calls a
target along one edge only, which is listed once at the site and once at the target. -/
theorem chaGraph_exact (p : Program) :
    (∃ fuel, Step.run p.chaStep fuel p.chaStart = some p.chaGraph) ∧
    (∀ fuel g, Step.run p.chaStep fuel p.chaStart = some g → g = p.chaGraph) ∧
    (∀ id, id ∈ p.chaGraph.entries ↔ id ∈ p.entries) ∧
    (∀ id, id ∈ p.chaGraph.reachable ↔
      ∃ entry ∈ p.entries, Relation.ReflTransGen p.Calls entry id) ∧
    (∀ e, e ∈ p.chaGraph.edges ↔ e.site.method ∈ p.chaGraph.reachable ∧ ∃ result call,
      p.stmt? e.site = some (.invoke result call) ∧ e.kind = call.kind ∧
      e.callee ∈ p.resolveByHierarchy none call) ∧
    (p.chaGraph.edges.map CallGraph.Edge.ends).Nodup ∧ p.chaGraph.ListsOnce := by
  obtain ⟨fuel, hrun⟩ := run_chaStep p
  refine ⟨⟨fuel, hrun⟩, fun more g hg => ?_, fun id => ?_, fun _ => mem_chaGraph_reachable,
    fun e => ?_, (chaGraph_indexed p).nodup_ends, (chaGraph_indexed p).listsOnce⟩
  · exact Step.run_unique hg hrun
  · rw [(chaBuilt_chaGraph p).entries, OrderedSet.mem_ofList]
  · rw [mem_chaGraph_edges, mem_chaEdges]
    exact and_congr_right fun _ => and_iff_right rfl

/-- Two methods that call each other, one of them by a virtual call that a subclass overrides, and a
method that nothing calls. -/
def paritiesDocument : Json.Value :=
  let call (kind method : String) (rest : List (String × Json.Value)) : Json.Value :=
    .obj ([("op", .str "invoke"), ("kind", .str kind), ("class", .str "Number"),
      ("method", .str method)] ++ rest)
  let method (name : String) (isStatic : Bool) (lines : List Json.Value) : Json.Value :=
    .obj [("name", .str name), ("static", .bool isStatic), ("params", .arr [
      .obj [("name", .str "n"), ("type", .str "Number")]]),
      ("body", .arr (lines ++ [.obj [("op", .str "return")]]))]
  let even := call "virtual" "void even(Number)" [("base", .str "n"), ("args", .arr [.str "n"])]
  let odd := call "static" "void odd(Number)" [("args", .arr [.str "n"])]
  .obj [("classes", .arr [
      .obj [("name", .str "Number"), ("methods", .arr [
        method "even" false [odd, odd], method "odd" true [even], method "idle" true [odd]])],
      .obj [("name", .str "Small"), ("super", .str "Number"),
        ("methods", .arr [method "even" false []])]]),
    ("entry", .str "Number.odd")]

/-- In `paritiesDocument` the overriding method is reachable along a cycle of calls and the idle method
is not, and the virtual call has an edge to either target. -/
theorem paritiesDocument_exact :
    let p := Program.described paritiesDocument
    (∃ entry ∈ p.entries, Relation.ReflTransGen p.Calls entry ⟨⟨1, "Small"⟩, 0⟩) ∧
      (¬ ∃ entry ∈ p.entries, Relation.ReflTransGen p.Calls entry ⟨⟨0, "Number"⟩, 2⟩) ∧
      p.chaGraph.callees ⟨⟨⟨0, "Number"⟩, 1⟩, 0⟩ =
        [⟨⟨0, "Number"⟩, 0⟩, ⟨⟨1, "Small"⟩, 0⟩] ∧
      p.chaGraph.callers ⟨⟨0, "Number"⟩, 1⟩ =
        [⟨⟨⟨0, "Number"⟩, 0⟩, 0⟩, ⟨⟨⟨0, "Number"⟩, 0⟩, 1⟩] ∧ p.chaGraph.ListsOnce := by
  intro p
  obtain ⟨-, -, -, hreachable, -, -, hlists⟩ := chaGraph_exact p
  refine ⟨(hreachable _).1 ?_, mt (hreachable _).2 ?_, ?_, ?_, hlists⟩ <;> decide +kernel

end Program

end HeapFlow
