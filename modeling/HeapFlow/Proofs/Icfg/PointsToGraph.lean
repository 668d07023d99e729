import HeapFlow.Proofs.Icfg.Edges
import HeapFlow.Proofs.PointsTo.LeastSolution
import HeapFlow.Proofs.PointsTo.Projection
/-!
# HeapFlow.Proofs.Icfg.PointsToGraph

**The call graph of a points-to analysis reaches its callees.** Callees are reachable because the
result is closed under the rules, and they stand under their own references because calls are
dispatched to methods of the program. Calls at one site are of one kind, so that the graph without
contexts has exactly the calls that there are under some contexts.
-/

namespace HeapFlow

namespace PointsTo

variable {p : Program} {policy : Policy} {heap : Heap} {contexts : Contexts} {fuel : Nat}
  {ans : Answer}

/-- Whether a site calls a callee: the callee is a method under its own reference, and one that the
statement at the site names. Dynamic calls call nothing. -/
def CallsMethod (p : Program) (site : Site) (callee : MethodId) : Prop :=
  ∃ m result call, p.method? callee = some m ∧ m.id = callee ∧
    p.stmt? site = some (.invoke result call) ∧ call.subsignature = m.subsignature ∧
    call.kind ≠ .dynamic

/-- The solution that says everything, except for calls that sites do not make. -/
def calleeSolution (p : Program) : Solution where
  reachable := Set.univ
  calls := {e | CallsMethod p e.site.val e.callee.val}
  sets _ := Set.univ

theorem exists_method_of_dispatch? (hp : p.WellFormed) {c : ClassRef} {subsignature : String}
    {id : MethodId} (h : p.dispatch? c subsignature = some id) :
    ∃ m, p.method? id = some m ∧ m.id = id ∧ subsignature = m.subsignature := by
  obtain ⟨d, hd, m, hm, rfl, rfl, -⟩ := Program.exists_of_dispatch? h
  exact ⟨m, hp.method?_of_mem hd hm, rfl, rfl⟩

theorem closed_calleeSolution (hp : p.WellFormed) : Closed p policy heap (calleeSolution p) := by
  refine closed_uniform (fun _ _ _ => Set.mem_univ _) (fun _ _ _ => Set.mem_univ _)
    fun m i result call callee hstmt hselects => ?_
  have hdispatch : call.kind ≠ .dynamic ∧ ∃ c, p.dispatch? c call.subsignature = some callee.val := by
    cases hselects with
    | static hkind hcallee =>
      exact ⟨by rw [hkind]; decide, Program.exists_of_resolveDirect hcallee⟩
    | receiver _ _ hcallee =>
      refine ⟨fun hkind => ?_, Program.exists_of_resolveByReceiver hcallee⟩
      rw [Program.resolveByReceiver, hkind] at hcallee
      cases hcallee
  obtain ⟨hkind, c, hdispatch⟩ := hdispatch
  obtain ⟨m', hm', hid, hsub⟩ := exists_method_of_dispatch? hp hdispatch
  exact ⟨m', result, call, hm', hid, hstmt, hsub, hkind⟩

/-- A call of the graph without contexts is one that its site makes. -/
theorem callsMethod_of_solve (hp : p.WellFormed)
    (h : solve p policy fuel heap contexts = some ans) {e : CallGraph.Edge Site MethodId}
    (he : e ∈ ans.state.found.methodGraph.edges) : CallsMethod p e.site e.callee := by
  obtain ⟨c, c', hmem⟩ := (mem_methodGraph_edges (kind_eq_of_solve h)).1 he
  exact (solve_within h (closed_calleeSolution hp)).called hmem

/-- **The call graph of a points-to result reaches its callees.** -/
theorem reachesCallees_of_solve (hp : p.WellFormed)
    (h : solve p policy fuel heap contexts = some ans) (hok : ans.failure = none) :
    Icfg.ReachesCallees p ans.state.found.methodGraph := by
  refine ⟨methodGraph_indexed, fun e he => ?_⟩
  obtain ⟨m, -, -, hm, hid, -⟩ := callsMethod_of_solve hp h he
  obtain ⟨c, c', hmem⟩ := (mem_methodGraph_edges (kind_eq_of_solve h)).1 he
  have hreachable := (solve_finished h hok).closed.callee _ hmem
  exact ⟨mem_methodGraph_reachable.2 ⟨c', hreachable⟩, m, hm, hid⟩

/-! ### Entry methods -/

/-- Entry methods are listed unless they are still to be started. -/
def EntriesListed (p : Program) (c : Config) : Prop :=
  ∀ id ∈ p.entries, .start id ∈ c.tasks ∨ (⟨[], id⟩ : CMethod) ∈ c.state.found.graph.entries

theorem Performs.entries {s s' : State} {t : Task} {more : List Task}
    (h : Performs p policy s t s' more) {m : CMethod} (hm : m ∈ s.found.graph.entries) :
    m ∈ s'.found.graph.entries := by
  have hsame (hgraph : s'.found.graph = s.found.graph) : m ∈ s'.found.graph.entries := by
    rwa [hgraph]
  cases h with
  | start n => exact OrderedSet.mem_insert.2 (Or.inr hm)
  | call =>
    show m ∈ (s.found.graph.addEdge _).entries
    rw [CallGraph.entries_addEdge]
    exact hm
  | flow => exact hsame (State.graph_addFlows s _)
  | reach => exact hsame (State.graph_addFlows s _)
  | passResult => exact hsame (State.graph_addFlows _ _)
  | passAll => exact hsame ((State.graph_addFlows _ _).trans (State.graph_addFlows s _))
  | _ => exact hm

theorem EntriesListed.step {c c' : Config} (h : EntriesListed p c)
    (hstep : PointsTo.step p policy c = .next c') : EntriesListed p c' := by
  intro id hid
  cases Advances.of_step hstep with
  | perform hdoes =>
    obtain hmem | hlisted := h id hid
    · obtain rfl | hmem := List.mem_cons.1 hmem
      · cases hdoes
        exact Or.inr (OrderedSet.mem_insert.2 (Or.inl rfl))
      · exact Or.inl (List.mem_append_right _ hmem)
    · exact Or.inr (hdoes.entries hlisted)
  | @absorb s ptr objs queue =>
    have hlisted := (h id hid).resolve_left List.not_mem_nil
    refine Or.inr ?_
    show _ ∈ ((s.withQueue queue).absorb ptr objs).2.found.graph.entries
    rw [State.graph_absorb]
    exact hlisted

/-- **The call graph of a points-to result lists the entry methods.** -/
theorem mem_entries_of_solve (h : solve p policy fuel heap contexts = some ans)
    (hok : ans.failure = none) {id : MethodId} (hid : id ∈ p.entries) :
    id ∈ ans.state.found.methodGraph.entries := by
  have hinit : EntriesListed p (init p heap contexts) :=
    fun id hid => Or.inl (List.mem_map_of_mem hid)
  obtain ⟨c, hc, hhalt⟩ := Step.run_invariant (fun _ _ => EntriesListed.step) hinit h
  obtain ⟨hstate, hdone⟩ := step_halt hhalt
  have hlisted := hc id hid
  rw [(hdone hok).1, ← hstate] at hlisted
  exact mem_methodGraph_entries.2 ⟨[], hlisted.resolve_left List.not_mem_nil⟩

end PointsTo

end HeapFlow
