import HeapFlow.Proofs.CallGraph.Cha
import HeapFlow.Proofs.Icfg.PointsToGraph
/-!
# HeapFlow.Proofs.CallGraph.Tied

**Call graphs are tied to their program** (`MethodGraph.Tied`). Their methods stand where their references
say, their calls are call statements of reachable methods, and the callees are reachable. This holds of
both call graphs of a program under analysis (`Program.CallGraphOf.tied`).
-/

namespace HeapFlow

/-- A call graph of methods and call statements of a program, whose calls join reachable methods and are
all in the indexes. -/
structure MethodGraph.Tied (p : Program) (graph : MethodGraph) : Prop where
  indexed : graph.Indexed
  inPlace : p.InPlace graph.reachable.toList
  site : ∀ e ∈ graph.edges, e.site.method ∈ graph.reachable
  invoke : ∀ e ∈ graph.edges, ∃ result call, p.stmt? e.site = some (.invoke result call)
  callee : ∀ e ∈ graph.edges, e.callee ∈ graph.reachable

variable {p : Program} {graph : MethodGraph}

theorem MethodGraph.Tied.reachesCallees (h : graph.Tied p) : Icfg.ReachesCallees p graph :=
  ⟨h.indexed, fun e he => ⟨h.callee e he, h.inPlace e.callee (h.callee e he)⟩⟩

/-! ### The call graph of class hierarchy analysis -/

namespace Program

/-- The methods of a program are in their places. -/
theorem WellFormed.inPlace_methodIds (hp : p.WellFormed) : p.InPlace p.methodIds := by
  intro id hid
  obtain ⟨m, hm, rfl⟩ := List.mem_map.1 hid
  obtain ⟨c, hc, hm⟩ := List.mem_flatMap.1 hm
  exact ⟨m, hp.method?_of_mem hc hm, rfl⟩

theorem tied_chaGraph (hp : p.Opened) : p.chaGraph.Tied p where
  indexed := chaGraph_indexed p
  inPlace := by
    intro id hid
    obtain ⟨entry, hentry, hreaches⟩ := mem_chaGraph_reachable.1 hid
    obtain rfl | ⟨caller, -, hcalls⟩ := hreaches.cases_tail
    · exact hp.inPlace id hentry
    · exact hp.loaded.wellFormed.inPlace_methodIds id (mem_methodIds_of_calls hcalls)
  site _ he := (mem_chaGraph_edges.1 he).1
  invoke e he := by
    obtain ⟨-, result, call, hstmt, -⟩ := mem_chaEdges.1 (mem_chaGraph_edges.1 he).2
    exact ⟨result, call, hstmt⟩
  callee e he := by
    obtain ⟨hmethod, hedge⟩ := mem_chaGraph_edges.1 he
    exact mem_chaGraph_reachable_of_edge hmethod hedge

end Program

/-! ### The call graph of points-to analysis -/

namespace PointsTo

variable {policy : Policy} {heap : Heap} {contexts : Contexts} {fuel : Nat} {ans : Answer}

/-- Methods that are in their places. -/
def placedMethods (p : Program) : Set CMethod := {m | ∃ method, p.method? m.val = some method ∧
  method.id = m.val}

/-- What is said of the methods in their places is retained, because calls are dispatched to them. -/
theorem retains_placedMethods (hp : p.Opened) (h : solve p policy fuel heap contexts = some ans) :
    Retains p (Solution.ofResult ans.state.found) (placedMethods p) Set.univ where
  entry id hid := hp.inPlace id hid
  call _ _ _ _ _ _ _ _ := Set.mem_univ _
  callee e he _ _ := by
    have hmem : forgetContexts e ∈ ans.state.found.methodGraph.edges :=
      (mem_methodGraph_edges (kind_eq_of_solve h)).2 ⟨e.site.ctx, e.callee.ctx, he⟩
    obtain ⟨m, -, -, hm, hid, -⟩ := callsMethod_of_solve hp.loaded.wellFormed h hmem
    exact ⟨m, hm, hid⟩

theorem tied_of_solve (hp : p.Opened) (h : solve p policy fuel heap contexts = some ans)
    (hok : ans.failure = none) : ans.state.found.methodGraph.Tied p := by
  have hretains := retains_placedMethods hp h
  have hwithin := solve_within h ((solve_finished h hok).closed.restrict hretains)
  have hedges {e : CallGraph.Edge Site MethodId} := mem_methodGraph_edges (kind_eq_of_solve h) (e := e)
  refine ⟨methodGraph_indexed, fun id hid => ?_, fun e he => ?_, fun e he => ?_, fun e he => ?_⟩
  · obtain ⟨c, hmem⟩ := mem_methodGraph_reachable.1 hid
    exact (hwithin.reached hmem).2
  · obtain ⟨c, c', hmem⟩ := hedges.1 he
    obtain ⟨-, ⟨hreachable, -⟩, -⟩ := hwithin.called hmem
    exact mem_methodGraph_reachable.2 ⟨c, hreachable⟩
  · obtain ⟨-, result, call, -, -, hstmt, -⟩ := callsMethod_of_solve hp.loaded.wellFormed h he
    exact ⟨result, call, hstmt⟩
  · exact ((reachesCallees_of_solve hp.loaded.wellFormed h hok).callee e he).1

end PointsTo

/-! ### Both -/

/-- A call graph of a program: that of class hierarchy analysis, or that of a points-to analysis that
ended without giving up. -/
inductive Program.CallGraphOf (p : Program) : MethodGraph → Prop
  | cha : p.CallGraphOf p.chaGraph
  | pointsTo {policy : Policy} {fuel : Nat} {heap : Heap} {contexts : Contexts} {ans : PointsTo.Answer}
      (h : PointsTo.solve p policy fuel heap contexts = some ans) (hok : ans.failure = none) :
      p.CallGraphOf ans.state.found.methodGraph

/-- **The call graphs of a program under analysis are tied to it.** -/
theorem Program.CallGraphOf.tied (hp : p.Opened) (h : p.CallGraphOf graph) : graph.Tied p := by
  cases h with
  | cha => exact tied_chaGraph hp
  | pointsTo h hok => exact PointsTo.tied_of_solve hp h hok

end HeapFlow
