import HeapFlow.Proofs.CallGraph.Cha
import HeapFlow.Proofs.Hierarchy
import HeapFlow.Proofs.Icfg.PointsToGraph
/-!
# HeapFlow.Proofs.CallGraph.PointsToRefinesCha

**The call graph of points-to analysis refines that of class hierarchy analysis.** This holds where
receivers are well typed (`ReceiversTyped`): the class of an object that a virtual or interface call
is made on is below the class that the call names. The target that points-to analysis selects by the
object is then among those that the hierarchy gives for the call.

The two graphs are built independently. What relates them is the points-to result, cut down to what
class hierarchy analysis reaches (`retains_chaMethods`). That is closed under the rules of points-to
analysis, so the result, which is the least closed solution, is within it.
-/

namespace HeapFlow

namespace Program

variable {p : Program} {c d : ClassRef}

/-! ### Classes by their places -/

theorem class?_congr (h : c.index = d.index) : p.class? c = p.class? d := by
  rw [class?, class?, h]

/-- Only the place of the class decides which method is selected. -/
theorem dispatch?_congr (h : c.index = d.index) (subsignature : String) :
    p.dispatch? c subsignature = p.dispatch? d subsignature := by
  have himplementation : p.implementation? subsignature c = p.implementation? subsignature d := by
    rw [implementation?, implementation?, class?_congr h]
  rw [dispatch?, dispatch?, superChain, superChain]
  cases p.classes.length with
  | zero => rfl
  | succ bound =>
    rw [chainUpTo, chainUpTo, class?_congr h]
    split
    · rw [List.findSome?_cons, List.findSome?_cons, himplementation]
    · rw [List.findSome?_cons, List.findSome?_cons, himplementation]

/-- What is a subtype of a class of the program stands at the place of a class below it. -/
theorem exists_below_of_isSubtype (hp : p.Loaded) (hd : d ∈ p.refs)
    (h : p.isSubtype d c = true) : ∃ c' ∈ p.subtypes d, c'.index = c.index := by
  obtain ⟨sub, hsub, hreaches⟩ := Search.reaches_of_finds h
  rw [List.mem_singleton.1 hsub] at hreaches
  obtain rfl | ⟨x, hleads, hrest⟩ := Relation.ReflTransGen.cases_head hreaches
  · exact ⟨c, (mem_subtypes hd).2 .refl, rfl⟩
  · -- something is above `c`, so there is a class at its place
    cases hcls : p.class? c with
    | none => simp [Reach.Leads, parents, hcls] at hleads
    | some cls =>
      have hmem : cls ∈ p.classes := List.mem_of_getElem? hcls
      have hindex : cls.ref.index = c.index := hp.index_ref hcls
      have href : cls.ref ∈ p.refs := mem_refs.2 ⟨cls, hmem, rfl⟩
      have hleads' : Reach.Leads p.parents cls.ref x := by
        rw [Reach.Leads, parents, class?_congr hindex]
        exact hleads
      refine ⟨cls.ref, (mem_subtypes hd).2 ?_, hindex⟩
      exact (reflTransGen_parents_iff hp href).1 (.head hleads' hrest)

/-- The target selected by an object whose class is below the class that the call names is a target
by the hierarchy. -/
theorem mem_resolveByHierarchy_of_isSubtype (hp : p.Loaded) {call : Call}
    (hkind : call.kind = .virtual ∨ call.kind = .interface) {named : Class}
    (hnamed : named ∈ p.classes) (hcls : call.cls = some named.ref)
    (hsub : p.isSubtype named.ref c = true) {callee : MethodId}
    (hcallee : p.dispatch? c call.subsignature = some callee) :
    callee ∈ p.resolveByHierarchy none call := by
  have href : named.ref ∈ p.refs := mem_refs.2 ⟨named, hnamed, rfl⟩
  obtain ⟨c', hbelow, hindex⟩ := exists_below_of_isSubtype hp href hsub
  have hroot : (none : Option ClassRef).or call.cls = some named.ref := hcls
  rw [resolveByHierarchy_eq hkind hroot, mem_resolveBelow hp href]
  exact ⟨c', hbelow, (dispatch?_congr hindex _).trans hcallee⟩

/-- The target of a static or special call is the one by the hierarchy. -/
theorem mem_resolveByHierarchy_of_direct {call : Call}
    (hkind : call.kind = .static ∨ call.kind = .special) {callee : MethodId}
    (hcallee : p.resolveDirect call = some callee) : callee ∈ p.resolveByHierarchy none call := by
  have hdirect : p.resolveByHierarchy none call = (p.resolveDirect call).toList := by
    unfold resolveByHierarchy
    obtain hkind | hkind := hkind <;> rw [hkind]
  rw [hdirect, hcallee]
  exact List.mem_cons_self

end Program

namespace PointsTo

variable {p : Program} {policy : Policy} {heap : Heap} {contexts : Contexts} {fuel : Nat}
  {ans : Answer} {r : PointsTo}

/-- The objects that have a class have one that is a subtype of the class that the call names. -/
def ReceiverTyped (p : Program) (call : Call) (objs : OrderedSet Obj) : Prop :=
  ∀ o ∈ objs.toList, ∀ c ∈ o.class?, ∀ named ∈ call.cls, p.isSubtype named c = true

instance (call : Call) (objs : OrderedSet Obj) : Decidable (ReceiverTyped p call objs) :=
  inferInstanceAs (Decidable (∀ o ∈ objs.toList, ∀ c ∈ o.class?, ∀ named ∈ call.cls, _ = true))

/-- Receivers are well typed: the objects of the receiver variable are, for every virtual or interface
call of a reachable method. -/
def ReceiversTyped (p : Program) (r : PointsTo) : Prop :=
  ∀ id ∈ r.methodGraph.reachable.toList, ∀ m ∈ p.method? id, ∀ x ∈ m.calls,
    x.2.kind = .virtual ∨ x.2.kind = .interface → ∀ v ∈ x.2.receiver,
    ReceiverTyped p x.2 (r.ofVar ⟨id, v⟩)

instance : Decidable (ReceiversTyped p r) :=
  inferInstanceAs (Decidable (∀ id ∈ r.methodGraph.reachable.toList, ∀ m ∈ p.method? id,
    ∀ x ∈ m.calls, _ → ∀ v ∈ x.2.receiver, _))

/-- **What an object selects is a target by the hierarchy,** where receivers are well typed. -/
theorem mem_resolveByHierarchy_of_receiver (hp : p.Loaded) (htyped : ReceiversTyped p r) {m : CMethod}
    (hm : m ∈ r.graph.reachable) {i : Nat} {result : Option Var} {call : Call} {v : Var} {o : CObj}
    {callee : MethodId} (hstmt : p.stmt? ⟨m.val, i⟩ = some (.invoke result call))
    (hv : call.receiver = some v) (ho : o ∈ r.get (varOf m v))
    (hcallee : p.resolveByReceiver o.val.class? call = some callee) :
    callee ∈ p.resolveByHierarchy none call := by
  obtain ⟨method, hmethod, hbody⟩ := Program.stmt?_eq_some.1 hstmt
  have hreceiver (hkind : call.kind = .virtual ∨ call.kind = .interface)
      (hcallee : (o.val.class? >>= fun c => p.dispatch? c call.subsignature) = some callee) :
      callee ∈ p.resolveByHierarchy none call := by
    obtain ⟨c, hc, hdispatch⟩ := Option.bind_eq_some_iff.1 hcallee
    have hmem : .invoke result call ∈ method.stmts :=
      List.mem_of_getElem? ((method.stmt?_eq i).symm.trans hbody)
    obtain ⟨named, hnamed, hcls⟩ := hp.namesClass hmethod hmem call rfl
    have hobjects : ReceiverTyped p call (r.ofVar ⟨m.val, v⟩) :=
      htyped m.val (mem_methodGraph_reachable.2 ⟨m.ctx, hm⟩) method hmethod (i, call)
        (Method.mem_calls.2 ⟨result, hbody⟩) hkind v hv
    have hsub : p.isSubtype named.ref c = true :=
      hobjects o.val (mem_ofVar.2 ⟨m.ctx, o.ctx, ho⟩) c hc named.ref hcls
    exact Program.mem_resolveByHierarchy_of_isSubtype hp hkind hnamed hcls hsub hdispatch
  unfold Program.resolveByReceiver at hcallee
  split at hcallee <;> rename_i hkind
  · exact Program.mem_resolveByHierarchy_of_direct (.inl hkind) hcallee
  · exact Program.mem_resolveByHierarchy_of_direct (.inr hkind) hcallee
  · cases hcallee
  · exact hreceiver (.inl hkind) hcallee
  · exact hreceiver (.inr hkind) hcallee

/-! ### What both analyses reach -/

/-- Methods that class hierarchy analysis reaches. -/
def chaMethods (p : Program) : Set CMethod := {m | m.val ∈ p.chaGraph.reachable}

/-- Calls that class hierarchy analysis finds. -/
def chaCalls (p : Program) : Set (CallGraph.Edge CSite CMethod) :=
  {e | forgetContexts e ∈ p.chaGraph.edges}

/-- **What is said of the methods that both analyses reach is retained.** -/
theorem retains_chaMethods (hp : p.Loaded) (htyped : ReceiversTyped p r) :
    Retains p (Solution.ofResult r) (chaMethods p) (chaCalls p) where
  entry _ hid := Program.mem_chaGraph_reachable_of_entry hid
  call := by
    intro m hm i result call callee hstmt hselects
    have htarget : callee.val ∈ p.resolveByHierarchy none call := by
      cases hselects with
      | static hkind hcallee => exact Program.mem_resolveByHierarchy_of_direct (.inl hkind) hcallee
      | receiver hv ho hcallee =>
        exact mem_resolveByHierarchy_of_receiver hp htyped hm.1 hstmt hv ho hcallee
    exact Program.mem_chaGraph_edges.2
      ⟨hm.2, Program.mem_chaEdges.2 ⟨rfl, result, call, hstmt, rfl, htarget⟩⟩
  callee := by
    intro e _ _ hmade
    obtain ⟨hmethod, hedge⟩ := Program.mem_chaGraph_edges.1 hmade
    exact Program.mem_chaGraph_reachable_of_edge hmethod hedge

/-- **Points-to analysis refines class hierarchy analysis.** If the analysis of a program ends without
giving up and receivers are well typed, then every method that it reaches and every call that it finds,
with its kind, is in the call graph of class hierarchy analysis. -/
theorem solve_refines_cha (hp : p.Opened) (h : solve p policy fuel heap contexts = some ans)
    (hok : ans.failure = none) (htyped : ReceiversTyped p ans.state.found) :
    (∀ m ∈ ans.state.found.methodGraph.reachable, m ∈ p.chaGraph.reachable) ∧
      ∀ e ∈ ans.state.found.methodGraph.edges, e ∈ p.chaGraph.edges := by
  have hretains := retains_chaMethods hp.loaded htyped
  have hwithin := solve_within h ((solve_finished h hok).closed.restrict hretains)
  refine ⟨fun m hm => ?_, fun e he => ?_⟩
  · obtain ⟨c, hmem⟩ := mem_methodGraph_reachable.1 hm
    exact (hwithin.reached hmem).2
  · obtain ⟨c, c', hmem⟩ := (mem_methodGraph_edges (kind_eq_of_solve h)).1 he
    exact (hwithin.called hmem).2.2

/-- In `circleDocument`, the method that the object selects is a target by the hierarchy of the
interface. -/
theorem circleDocument_refines_cha :
    let p := Program.described Program.circleDocument
    ∃ ans, solve p .insensitive 40 .empty .initial = some ans ∧ ans.failure = none ∧
      ⟨.interface, ⟨⟨⟨3, "Base"⟩, 1⟩, 1⟩, ⟨⟨4, "Sub"⟩, 0⟩⟩ ∈ ans.state.found.methodGraph.edges ∧
      ⟨.interface, ⟨⟨⟨3, "Base"⟩, 1⟩, 1⟩, ⟨⟨4, "Sub"⟩, 0⟩⟩ ∈ p.chaGraph.edges := by
  intro p
  have hp : p.Opened := Program.opened_described (by decide +kernel) (by decide +kernel)
  have hrun : (solve p .insensitive 40 .empty .initial).map (fun ans =>
      (ans.failure, decide (ReceiversTyped p ans.state.found), decide
        (⟨.interface, ⟨⟨⟨3, "Base"⟩, 1⟩, 1⟩, ⟨⟨4, "Sub"⟩, 0⟩⟩ ∈ ans.state.found.methodGraph.edges))) =
      some (none, true, true) := by
    decide +kernel
  obtain ⟨ans, hans, heq⟩ := Option.map_eq_some_iff.1 hrun
  obtain ⟨hok, heq⟩ := Prod.mk.inj heq
  obtain ⟨htyped, hedge⟩ := Prod.mk.inj heq
  have hmem := of_decide_eq_true hedge
  obtain ⟨-, hedges⟩ := solve_refines_cha hp hans hok (of_decide_eq_true htyped)
  exact ⟨ans, hans, hok, hmem, hedges _ hmem⟩

end PointsTo

end HeapFlow
