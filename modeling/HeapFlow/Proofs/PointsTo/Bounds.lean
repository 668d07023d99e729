import HeapFlow.Proofs.PointsTo.Steps
/-!
# HeapFlow.Proofs.PointsTo.Bounds

**Solutions that bound what an analysis finds.** A least solution is within every closed one, so a closed
solution that leaves something out shows that the analysis does not say it. There are two ways to leave
something out. A solution may say the same of every pointer and have some calls only (`closed_uniform`).
Or it is what another solution says of some methods (`Closed.restrict`).
-/

namespace HeapFlow

namespace PointsTo

variable {p : Program} {policy : Policy} {heap : Heap} {S : Solution} {kept : Set CMethod}
  {made : Set (CallGraph.Edge CSite CMethod)} {objs : Set CObj}

/-- A call in a method runs a callee: statically, or for an object of the receiver. -/
inductive Solution.Selects (S : Solution) (p : Program) (m : CMethod) (call : Call)
    (callee : MethodId) : Prop
  | static (hkind : call.kind = .static) (hcallee : p.resolveDirect call = some callee)
  | receiver {v : Var} {o : CObj} (hv : call.receiver = some v) (ho : o ∈ S.sets (varOf m v))
      (hcallee : p.resolveByReceiver o.val.class? call = some callee)

/-! ### The same of every pointer -/

/-- All methods, the calls in `made`, and the objects in `objs` for every pointer. -/
def Solution.uniform (made : Set (CallGraph.Edge CSite CMethod)) (objs : Set CObj) : Solution where
  reachable := Set.univ
  calls := made
  sets _ := objs

/-- **A solution that says the same of every pointer is closed** if it has the objects that are
allocated, the receivers of entry methods and the calls that may be made. -/
theorem closed_uniform
    (hentry : ∀ id ∈ p.entries, (receiverOf? p id).isSome = true → ⟨[], entryObject p heap id⟩ ∈ objs)
    (halloc : ∀ c site ty, ⟨c, .alloc site ty⟩ ∈ objs)
    (hmade : ∀ m i result call callee, p.stmt? ⟨m.val, i⟩ = some (.invoke result call) →
      (Solution.uniform made objs).Selects p m call callee.val →
      ⟨call.kind, ⟨m.ctx, ⟨m.val, i⟩⟩, callee⟩ ∈ made) :
    Closed p policy heap (.uniform made objs) where
  entry _ _ := Set.mem_univ _
  entryReceiver id hid this hthis := hentry id hid (by rw [hthis]; rfl)
  allocation _ _ _ _ _ _ := halloc _ _ _
  copy _ _ _ _ _ _ := subset_rfl
  cast _ _ _ _ _ _ _ := subset_rfl
  staticLoad _ _ _ _ _ _ := subset_rfl
  staticStore _ _ _ _ _ _ := subset_rfl
  staticCall := by
    intro m _ i result call callee hrun hkind hcallee _
    have hcall := hmade m i result call ⟨policy.staticContext m.ctx ⟨m.val, i⟩, callee⟩ hrun.stmt?
      (.static hkind hcallee)
    rwa [hkind] at hcall
  fieldStore _ _ _ _ _ _ _ _ := subset_rfl
  fieldLoad _ _ _ _ _ _ _ _ := subset_rfl
  arrayStore _ _ _ _ _ _ _ _ := subset_rfl
  arrayLoad _ _ _ _ _ _ _ _ := subset_rfl
  receiverCall m i result call v o callee _ hstmt hv ho hcallee _ :=
    ⟨hmade m i result call _ hstmt (.receiver hv ho hcallee), ho⟩
  callee _ _ := Set.mem_univ _
  argument _ _ _ _ _ _ _ _ _ _ _ _ := subset_rfl
  result _ _ _ _ _ _ _ _ _ := subset_rfl

/-! ### Some of the methods -/

/-- What is left of a solution if only methods in `kept` remain and only calls in `made`, and what other
methods say is left out. -/
def Solution.restrict (S : Solution) (kept : Set CMethod)
    (made : Set (CallGraph.Edge CSite CMethod)) : Solution where
  reachable := S.reachable ∩ kept
  calls := {e | e ∈ S.calls ∧ ⟨e.site.ctx, e.site.val.method⟩ ∈ S.reachable ∩ kept ∧ e ∈ made}
  sets
    | .var v => {o | o ∈ S.sets (.var v) ∧ ⟨v.ctx, v.val.method⟩ ∈ S.reachable ∩ kept}
    | ptr => S.sets ptr

/-- A restriction that has what the methods in it give rise to. -/
structure Retains (p : Program) (S : Solution) (kept : Set CMethod)
    (made : Set (CallGraph.Edge CSite CMethod)) : Prop where
  entry : ∀ id ∈ p.entries, ⟨[], id⟩ ∈ kept
  call : ∀ m ∈ S.reachable ∩ kept, ∀ i result call callee,
    p.stmt? ⟨m.val, i⟩ = some (.invoke result call) → S.Selects p m call callee.val →
    ⟨call.kind, ⟨m.ctx, ⟨m.val, i⟩⟩, callee⟩ ∈ made
  callee : ∀ e ∈ S.calls, ⟨e.site.ctx, e.site.val.method⟩ ∈ kept → e ∈ made → e.callee ∈ kept

theorem Solution.restrict_sets_subset (ptr : Pointer) :
    (S.restrict kept made).sets ptr ⊆ S.sets ptr := by
  cases ptr with
  | var v => exact fun _ ho => ho.1
  | _ => exact Set.Subset.rfl

/-- What flows into a variable of a method that is left still does. -/
theorem Solution.restrict_flow {m : CMethod} (hm : m ∈ S.reachable ∩ kept) {v : Var} {a : Pointer}
    (h : S.sets a ⊆ S.sets (varOf m v)) :
    (S.restrict kept made).sets a ⊆ (S.restrict kept made).sets (varOf m v) :=
  fun _ ho => ⟨h (S.restrict_sets_subset a ho), hm⟩

/-- What flows into a field or into the elements of an array still does. -/
theorem Solution.restrict_store {a b : Pointer} (hb : ∀ v, b ≠ .var v) (h : S.sets a ⊆ S.sets b) :
    (S.restrict kept made).sets a ⊆ (S.restrict kept made).sets b := by
  cases b with
  | var v => exact absurd rfl (hb v)
  | _ => exact fun _ ho => h (S.restrict_sets_subset a ho)

/-- The callee of a call that is left is left. -/
theorem Closed.restrict_callee (hS : Closed p policy heap S) (h : Retains p S kept made)
    {e : CallGraph.Edge CSite CMethod} (he : e ∈ (S.restrict kept made).calls) :
    e.callee ∈ S.reachable ∩ kept :=
  ⟨hS.callee e he.1, h.callee e he.1 he.2.1.2 he.2.2⟩

/-- **A restriction of a closed solution is closed** if it retains what the methods in it give rise
to. -/
theorem Closed.restrict (hS : Closed p policy heap S) (h : Retains p S kept made) :
    Closed p policy heap (S.restrict kept made) where
  entry id hid := ⟨hS.entry id hid, h.entry id hid⟩
  entryReceiver id hid this hthis :=
    ⟨hS.entryReceiver id hid this hthis, hS.entry id hid, h.entry id hid⟩
  allocation m hm i lhs what hrun := ⟨hS.allocation m hm.1 i lhs what hrun, hm⟩
  copy m hm i lhs v hrun := S.restrict_flow hm (hS.copy m hm.1 i lhs v hrun)
  cast m hm i lhs ty v hrun := S.restrict_flow hm (hS.cast m hm.1 i lhs ty v hrun)
  staticLoad m hm i lhs f hrun := S.restrict_flow hm (hS.staticLoad m hm.1 i lhs f hrun)
  staticStore m hm i f source hrun :=
    S.restrict_store nofun (hS.staticStore m hm.1 i f source hrun)
  staticCall := by
    intro m hm i result call callee hrun hkind hcallee hstatic
    have hedge := hS.staticCall m hm.1 i result call callee hrun hkind hcallee hstatic
    have hmade := h.call m hm i result call ⟨policy.staticContext m.ctx ⟨m.val, i⟩, callee⟩
      hrun.stmt? (.static hkind hcallee)
    rw [hkind] at hmade
    exact ⟨hedge, hm, hmade⟩
  fieldStore m i base f source o hstmt ho :=
    S.restrict_store nofun (hS.fieldStore m i base f source o hstmt ho.1)
  fieldLoad m i lhs base f o hstmt ho :=
    S.restrict_flow ho.2 (hS.fieldLoad m i lhs base f o hstmt ho.1)
  arrayStore m i array index source o hstmt ho :=
    S.restrict_store nofun (hS.arrayStore m i array index source o hstmt ho.1)
  arrayLoad m i lhs array index o hstmt ho :=
    S.restrict_flow ho.2 (hS.arrayLoad m i lhs array index o hstmt ho.1)
  receiverCall := by
    intro m i result call v o callee this hstmt hv ho hcallee hthis
    obtain ⟨hedge, hreceiver⟩ := hS.receiverCall m i result call v o callee this hstmt hv ho.1
      hcallee hthis
    have hcall : _ ∈ (S.restrict kept made).calls :=
      ⟨hedge, ho.2, h.call m ho.2 i result call _ hstmt (.receiver hv ho.1 hcallee)⟩
    exact ⟨hcall, hreceiver, hS.restrict_callee h hcall⟩
  callee e he := hS.restrict_callee h he
  argument e he result call m hcall hm hbody hlength a q hmem :=
    S.restrict_flow (hS.restrict_callee h he)
      (hS.argument e he.1 result call m hcall hm hbody hlength a q hmem)
  result e he x call m hcall hm v hv :=
    S.restrict_flow he.2.1 (hS.result e he.1 x call m hcall hm v hv)

end PointsTo

end HeapFlow
