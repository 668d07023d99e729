import HeapFlow.Proofs.Icfg.PointsToGraph
import HeapFlow.Proofs.PointsTo.StaticCalls
import HeapFlow.Proofs.PointsTo.Termination
/-!
# HeapFlow.Proofs.PointsTo.Refinement

**A finer context policy is never less precise.** Contexts of the finer policy are forgotten by a
`Forgetting`: a map on calling contexts and one on heap contexts that commute with everything that the
policies select. What the coarser analysis says of forgotten contexts is then closed under the rules
of the finer one, so it says everything that the finer analysis says. No step of one run is compared
with a step of the other.

That the finer analysis does not give up where the coarser one did not needs a look at the runs: an
analysis gives up at a static call of an instance method, and one that does not has visited every
statement of every reachable method without finding such a call.
-/

namespace HeapFlow

namespace PointsTo

/-! ### Forgetting contexts -/

/-- How contexts of one policy are mapped to contexts of a coarser one. -/
structure Forgetting where
  calling : Context → Context
  heap : Context → Context

namespace Forgetting

variable (π : Forgetting)

/-- A method or call site under the mapped calling context. -/
def called {α : Type} (x : Contextual α) : Contextual α := ⟨π.calling x.ctx, x.val⟩

/-- An object under the mapped heap context. -/
def object (o : CObj) : CObj := ⟨π.heap o.ctx, o.val⟩

def pointer : Pointer → Pointer
  | .var v => .var (π.called v)
  | .static f => .static f
  | .field base f => .field (π.object base) f
  | .elements array => .elements (π.object array)

def edge (e : CallGraph.Edge CSite CMethod) : CallGraph.Edge CSite CMethod :=
  ⟨e.kind, π.called e.site, π.called e.callee⟩

@[simp] theorem pointer_varOf (m : CMethod) (v : Var) :
    π.pointer (varOf m v) = varOf (π.called m) v := rfl

/-- The maps commute with the contexts that the policies select. -/
structure Commutes (coarse fine : Policy) : Prop where
  calling_nil : π.calling [] = []
  heap_nil : π.heap [] = []
  heapContext : ∀ c, π.heap (fine.heapContext c) = coarse.heapContext (π.calling c)
  staticContext : ∀ c site,
    π.calling (fine.staticContext c site) = coarse.staticContext (π.calling c) site
  receiverContext : ∀ c site o, π.calling (fine.receiverContext c site o) =
    coarse.receiverContext (π.calling c) site (π.object o)

/-- Nothing is left of a context. -/
def all : Forgetting := ⟨fun _ => [], fun _ => []⟩

/-- The last `k` elements of calling contexts are left, and one less of heap contexts. -/
def toLimit (k : Nat) : Forgetting := ⟨(·.truncate k), (·.truncate (k - 1))⟩

/-- An object is forgotten but for the class that declares its allocating method. -/
def toClass : ContextElement → ContextElement
  | .obj o => .cls o.container.owner
  | e => e

/-- Classes are left of receiver objects. -/
def toTypes : Forgetting := ⟨List.map toClass, List.map toClass⟩

end Forgetting

/-- One policy is coarser than another: forgetting some of their contexts leads from the finer one
to it. -/
inductive Coarser : Policy → Policy → Forgetting → Prop
  /-- Every policy is finer than the one without contexts. -/
  | insensitive (fine : Policy) : Coarser .insensitive fine .all
  /-- A greater limit is finer. -/
  | limit (s : Sensitivity) {k k' : Nat} (hk : 1 ≤ k) (hle : k ≤ k') :
      Coarser (.ofLimit s k) (.ofLimit s k') (.toLimit k)
  /-- Receiver objects are finer than the classes that declare their allocating methods. -/
  | types (k h : Nat) : Coarser (.limited .type k h) (.limited .object k h) .toTypes

/-- **What the policies select commutes with forgetting.** -/
theorem Coarser.commutes {coarse fine : Policy} {π : Forgetting} (h : Coarser coarse fine π) :
    π.Commutes coarse fine := by
  cases h with
  | insensitive fine => exact ⟨rfl, rfl, fun _ => rfl, fun _ _ => rfl, fun _ _ _ => rfl⟩
  | @limit s k k' hk hle =>
    have hofLimit {n : Nat} (hn : 1 ≤ n) : Policy.ofLimit s n = .limited s n (n - 1) :=
      if_neg (by omega)
    rw [hofLimit hk, hofLimit (hk.trans hle)]
    have hcall (c : Context) (e : ContextElement) :
        (c.append e k').truncate k = (c.truncate k).append e k := by
      rw [Context.truncate_append hle, Context.append_truncate (Nat.le_succ k)]
    have hreceiver (c : Context) (e : ContextElement) :
        (c.append e k').truncate k = (c.truncate (k - 1)).append e k := by
      -- the receiver object itself takes the place of the element that heap contexts lack
      rw [Context.truncate_append hle, Context.append_truncate (by omega)]
    refine ⟨Context.truncate_nil _, Context.truncate_nil _, fun c => ?_, fun c site => ?_,
      fun c site o => ?_⟩
    · show (c.truncate (k' - 1)).truncate (k - 1) = (c.truncate k).truncate (k - 1)
      rw [Context.truncate_truncate (by omega), Context.truncate_truncate (by omega)]
    · cases s with
      | callSite => exact hcall c _
      | object => rfl
      | type => rfl
    · cases s with
      | callSite => exact hcall c _
      | object => exact hreceiver o.ctx _
      | type => exact hreceiver o.ctx _
  | types k h =>
    refine ⟨rfl, rfl, fun c => ?_, fun c site => rfl, fun c site o => ?_⟩
    · exact Context.map_truncate _ c h
    · exact Context.map_append _ o.ctx _ k

/-! ### What a solution says of forgotten contexts -/

/-- What a solution says once contexts are forgotten. -/
def Solution.pull (S : Solution) (π : Forgetting) : Solution where
  reachable := {m | π.called m ∈ S.reachable}
  calls := {e | π.edge e ∈ S.calls}
  sets ptr := {o | π.object o ∈ S.sets (π.pointer ptr)}

variable {p : Program} {coarse fine : Policy} {heap : Heap} {S : Solution} {π : Forgetting}

theorem Solution.pull_subset {a b : Pointer} (h : S.sets (π.pointer a) ⊆ S.sets (π.pointer b)) :
    (S.pull π).sets a ⊆ (S.pull π).sets b := fun _ ho => h ho

/-- **What the coarser solution says of forgotten contexts is closed under the rules of the finer
policy.** -/
theorem Closed.pull (hS : Closed p coarse heap S) (hπ : π.Commutes coarse fine) :
    Closed p fine heap (S.pull π) where
  entry := by
    intro id hid
    show ⟨π.calling [], id⟩ ∈ S.reachable
    rw [hπ.calling_nil]
    exact hS.entry id hid
  entryReceiver := by
    intro id hid this hthis
    show ⟨π.heap [], _⟩ ∈ S.sets (varOf ⟨π.calling [], id⟩ this)
    rw [hπ.calling_nil, hπ.heap_nil]
    exact hS.entryReceiver id hid this hthis
  allocation := by
    intro m hm i lhs what hrun
    show ⟨π.heap _, _⟩ ∈ S.sets (varOf (π.called m) lhs)
    rw [hπ.heapContext]
    exact hS.allocation (π.called m) hm i lhs what hrun
  copy m hm i lhs v hrun := Solution.pull_subset (hS.copy (π.called m) hm i lhs v hrun)
  cast m hm i lhs ty v hrun := Solution.pull_subset (hS.cast (π.called m) hm i lhs ty v hrun)
  staticLoad m hm i lhs f hrun :=
    Solution.pull_subset (hS.staticLoad (π.called m) hm i lhs f hrun)
  staticStore m hm i f source hrun :=
    Solution.pull_subset (hS.staticStore (π.called m) hm i f source hrun)
  staticCall := by
    intro m hm i result call callee hrun hkind hcallee hstatic
    show ⟨_, ⟨π.calling m.ctx, _⟩, ⟨π.calling _, callee⟩⟩ ∈ S.calls
    rw [hπ.staticContext]
    exact hS.staticCall (π.called m) hm i result call callee hrun hkind hcallee hstatic
  fieldStore m i base f source o hstmt ho :=
    Solution.pull_subset (hS.fieldStore (π.called m) i base f source (π.object o) hstmt ho)
  fieldLoad m i lhs base f o hstmt ho :=
    Solution.pull_subset (hS.fieldLoad (π.called m) i lhs base f (π.object o) hstmt ho)
  arrayStore m i array index source o hstmt ho :=
    Solution.pull_subset (hS.arrayStore (π.called m) i array index source (π.object o) hstmt ho)
  arrayLoad m i lhs array index o hstmt ho :=
    Solution.pull_subset (hS.arrayLoad (π.called m) i lhs array index (π.object o) hstmt ho)
  receiverCall := by
    intro m i result call v o callee this hstmt hv ho hcallee hthis
    show ⟨_, ⟨π.calling m.ctx, _⟩, ⟨π.calling _, callee⟩⟩ ∈ S.calls ∧
      π.object o ∈ S.sets (varOf ⟨π.calling _, callee⟩ this)
    rw [hπ.receiverContext]
    exact hS.receiverCall (π.called m) i result call v (π.object o) callee this hstmt hv ho hcallee
      hthis
  callee e he := hS.callee (π.edge e) he
  argument e he result call m hcall hm hbody hlength a q hmem :=
    Solution.pull_subset
      (hS.argument (π.edge e) he result call m hcall hm hbody hlength a q hmem)
  result e he r call m hcall hm v hv :=
    Solution.pull_subset (hS.result (π.edge e) he r call m hcall hm v hv)

/-! ### What is left without any contexts -/

/-- One result without contexts says no more than another. -/
structure MergedWithin (r r' : PointsTo) : Prop where
  ofVar : ∀ v, ∀ o ∈ r.ofVar v, o ∈ r'.ofVar v
  ofField : ∀ base f, ∀ o ∈ r.ofField base f, o ∈ r'.ofField base f
  ofStatic : ∀ f, ∀ o ∈ r.ofStatic f, o ∈ r'.ofStatic f
  ofArray : ∀ array, ∀ o ∈ r.ofArray array, o ∈ r'.ofArray array
  reachable : ∀ m ∈ r.methodGraph.reachable, m ∈ r'.methodGraph.reachable
  edges : ∀ e ∈ r.methodGraph.edges, e ∈ r'.methodGraph.edges

section Answers

variable {fuel fuel' : Nat} {contexts contexts' : Contexts} {ans ans' : Answer}

/-- Forgetting some contexts and then all of them forgets all of them. -/
theorem MergedWithin.of_pull (h : solve p coarse fuel heap contexts = some ans)
    (h' : solve p fine fuel' heap contexts' = some ans')
    (hle : Solution.ofResult ans'.state.found ≤ (Solution.ofResult ans.state.found).pull π) :
    MergedWithin ans'.state.found ans.state.found where
  ofVar := by
    intro v o ho
    obtain ⟨c, h, hmem⟩ := mem_ofVar.1 ho
    exact mem_ofVar.2 ⟨_, _, hle.2.2 _ hmem⟩
  ofField := by
    intro base f o ho
    obtain ⟨c, h, hmem⟩ := mem_ofField.1 ho
    exact mem_ofField.2 ⟨_, _, hle.2.2 _ hmem⟩
  ofStatic := by
    intro f o ho
    obtain ⟨h, hmem⟩ := mem_ofStatic.1 ho
    exact mem_ofStatic.2 ⟨_, hle.2.2 _ hmem⟩
  ofArray := by
    intro array o ho
    obtain ⟨c, h, hmem⟩ := mem_ofArray.1 ho
    exact mem_ofArray.2 ⟨_, _, hle.2.2 _ hmem⟩
  reachable := by
    intro m hm
    obtain ⟨c, hmem⟩ := mem_methodGraph_reachable.1 hm
    exact mem_methodGraph_reachable.2 ⟨_, hle.1 hmem⟩
  edges := by
    intro e he
    obtain ⟨c, c', hmem⟩ := (mem_methodGraph_edges (kind_eq_of_solve h')).1 he
    exact (mem_methodGraph_edges (kind_eq_of_solve h)).2 ⟨_, _, hle.2.1 hmem⟩

/-- **A finer policy is at least as precise.** If the analysis under the coarser policy ends without
giving up, so does the one under the finer policy, and what it finds is found by the coarser one once
contexts are forgotten; without any contexts, sets and call graph do not grow. -/
theorem solve_refines (hcoarser : Coarser coarse fine π)
    (h : solve p coarse fuel heap contexts = some ans) (hok : ans.failure = none)
    (contexts' : Contexts) :
    ∃ fuel' ans', solve p fine fuel' heap contexts' = some ans' ∧ ans'.failure = none ∧
      Solution.ofResult ans'.state.found ≤ (Solution.ofResult ans.state.found).pull π ∧
      MergedWithin ans'.state.found ans.state.found := by
  have hclosed : Closed p fine heap ((Solution.ofResult ans.state.found).pull π) :=
    (solve_finished h hok).closed.pull hcoarser.commutes
  obtain ⟨fuel', ans', h'⟩ := exists_solve p fine heap contexts'
  have hle := ofResult_le_of_within (solve_within h' hclosed)
  refine ⟨fuel', ans', h', ?_, hle, .of_pull h h' hle⟩
  -- a call at which the finer analysis gives up is reachable for the coarser one
  by_contra hfail
  obtain ⟨m, hm, i, stmt, hrun, hnot⟩ := exists_not_callsStatic_of_solve h' hfail hclosed
  exact hnot (callsStatic_of_solve h hok (m := π.called m) hm hrun)

end Answers

/-- `cellProgram` under one and under two receiver objects. -/
theorem cellProgram_refines : ∃ ans,
    solve cellProgram (.ofLimit .object 1) 20 .empty .initial = some ans ∧
      ans.failure = none ∧ ∃ fuel' ans',
        solve cellProgram (.ofLimit .object 2) fuel' .empty .initial = some ans' ∧
          ans'.failure = none ∧
          Solution.ofResult ans'.state.found ≤
            (Solution.ofResult ans.state.found).pull (.toLimit 1) ∧
          MergedWithin ans'.state.found ans.state.found := by
  have hrun : (solve cellProgram (.ofLimit .object 1) 20 .empty .initial).map Answer.failure =
      some none := by
    decide +kernel
  obtain ⟨ans, hans, hok⟩ := Option.map_eq_some_iff.1 hrun
  have hcoarser : Coarser (.ofLimit .object 1) (.ofLimit .object 2) (.toLimit 1) :=
    .limit .object le_rfl (Nat.le_succ 1)
  exact ⟨ans, hans, hok, solve_refines hcoarser hans hok .initial⟩

end PointsTo

end HeapFlow
