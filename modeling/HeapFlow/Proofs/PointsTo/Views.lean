import HeapFlow.Proofs.CallGraph.Edges
import HeapFlow.Proofs.PointsTo.LeastSolution
import HeapFlow.Proofs.PointsTo.Projection
/-!
# HeapFlow.Proofs.PointsTo.Views

**What clients see of a points-to result.** They ask without contexts, so each query is answered by what
there is under all contexts taken together. Nothing is lost and nothing made up: an object, a variable,
a method or a call is seen exactly if it is there under some contexts, and it is seen once.
-/

namespace HeapFlow

namespace PointsTo

/-- A result without contexts shows what there is under some contexts, each once. -/
structure SeenExactly (r : PointsTo) : Prop where
  ofVar : ∀ v o, o ∈ r.ofVar v ↔ ∃ c h, ⟨h, o⟩ ∈ r.get (.var ⟨c, v⟩)
  ofField : ∀ base f o, o ∈ r.ofField base f ↔ ∃ c h, ⟨h, o⟩ ∈ r.get (.field ⟨c, base⟩ f)
  ofStatic : ∀ f o, o ∈ r.ofStatic f ↔ ∃ h, ⟨h, o⟩ ∈ r.get (.static f)
  ofArray : ∀ array o, o ∈ r.ofArray array ↔ ∃ c h, ⟨h, o⟩ ∈ r.get (.elements ⟨c, array⟩)
  vars : r.vars.Nodup ∧ ∀ v, v ∈ r.vars ↔ ∃ o, o ∈ r.ofVar v
  entries : r.methodGraph.entries.toList.Nodup ∧
    ∀ m, m ∈ r.methodGraph.entries ↔ ∃ c, ⟨c, m⟩ ∈ r.graph.entries
  reachable : r.methodGraph.reachable.toList.Nodup ∧
    ∀ m, m ∈ r.methodGraph.reachable ↔ ∃ c, ⟨c, m⟩ ∈ r.graph.reachable
  edges : (r.methodGraph.edges.map CallGraph.Edge.ends).Nodup ∧
    ∀ e, e ∈ r.methodGraph.edges ↔
      ∃ c c', ⟨e.kind, ⟨c, e.site⟩, ⟨c', e.callee⟩⟩ ∈ r.graph.edges
  mayAlias : ∀ a b, r.mayAlias a b = true ↔ ∃ o, o ∈ r.ofVar a ∧ o ∈ r.ofVar b
  mayAlias_comm : ∀ a b, r.mayAlias a b = r.mayAlias b a

/-- **What clients see of an analysis is what it has found under some contexts.** That a run made the
result matters for the calls alone: of two calls of different kinds at one site only one would be seen. -/
theorem solve_seenExactly {p : Program} {policy : Policy} {fuel : Nat} {heap : Heap}
    {contexts : Contexts} {ans : Answer} (h : solve p policy fuel heap contexts = some ans) :
    SeenExactly ans.state.found where
  ofVar _ _ := mem_ofVar
  ofField _ _ _ := mem_ofField
  ofStatic _ _ := mem_ofStatic
  ofArray _ _ := mem_ofArray
  vars := ⟨Table.nodup_keys _, fun _ => mem_vars_iff⟩
  entries := ⟨OrderedSet.nodup _, fun _ => mem_methodGraph_entries⟩
  reachable := ⟨OrderedSet.nodup _, fun _ => mem_methodGraph_reachable⟩
  edges := ⟨methodGraph_indexed.nodup_ends, fun _ => mem_methodGraph_edges (kind_eq_of_solve h)⟩
  mayAlias _ _ := mayAlias_iff
  mayAlias_comm := mayAlias_comm

/-! ### One method under two contexts -/

/-- The parameter of the method `same` of `twiceProgram`. -/
def given : Var := ⟨0, "given", .cls ⟨0, "Cell"⟩⟩

/-- A static method passes two objects to a method that returns what it is given. -/
def twiceProgram : Program where
  classes :=
    let cell : ClassRef := ⟨0, "Cell"⟩
    let a : Var := ⟨0, "a", .cls cell⟩
    let b : Var := ⟨1, "b", .cls cell⟩
    let pass (v : Var) : Stmt := .invoke (some v) ⟨.static, some cell, "Cell same(Cell)", none, [v]⟩
    [{ Class.declare cell false false with methods := [
      { Method.declare ⟨cell, 0⟩ "main" [] .void true false with
        vars := [a, b]
        body := [⟨.assign a (.new (.object cell)), 1⟩, ⟨pass a, 2⟩,
          ⟨.assign b (.new (.object cell)), 3⟩, ⟨pass b, 4⟩, ⟨.ret none, 5⟩] },
      { Method.declare ⟨cell, 1⟩ "same" [("given", .cls cell)] (.cls cell) true false with
        body := [⟨.ret (some given), 7⟩] }] }]
  entries := [⟨⟨0, "Cell"⟩, 0⟩]

/-- By call sites, `same` is analysed twice. Its parameter has one object under each context, and is
seen with both. -/
theorem twiceProgram_seenExactly : ∃ ans,
    solve twiceProgram (.limited .callSite 1 0) 50 .empty .initial = some ans ∧
      SeenExactly ans.state.found ∧
      (ans.state.found.instances ⟨⟨⟨0, "Cell"⟩, 1⟩, given⟩).map (fun i => i.2.size) = [1, 1] ∧
      (ans.state.found.ofVar ⟨⟨⟨0, "Cell"⟩, 1⟩, given⟩).size = 2 := by
  have hrun : (solve twiceProgram (.limited .callSite 1 0) 50 .empty .initial).map (fun ans =>
      ((ans.state.found.instances ⟨⟨⟨0, "Cell"⟩, 1⟩, given⟩).map (fun i => i.2.size),
        (ans.state.found.ofVar ⟨⟨⟨0, "Cell"⟩, 1⟩, given⟩).size)) = some ([1, 1], 2) := by
    decide +kernel
  obtain ⟨ans, hans, hresult⟩ := Option.map_eq_some_iff.1 hrun
  obtain ⟨hinstances, hmerged⟩ := Prod.mk.inj hresult
  exact ⟨ans, hans, solve_seenExactly hans, hinstances, hmerged⟩

end PointsTo

end HeapFlow
