import HeapFlow.Ir.Document
import HeapFlow.Proofs.Execution.Described
import HeapFlow.Proofs.Ir.Loaded
import HeapFlow.Proofs.PointsTo.LeastSolution
import HeapFlow.Proofs.PointsTo.Projection
/-!
# HeapFlow.Proofs.Execution.PointsToSound

**When a points-to analysis is sound.** A result covers a state of a run if every reference in it is
to an object of the points-to set of the place that holds it, and every method entered and every
call executed is in the call graph, all of this without contexts.

The result of an analysis covers every state of every run exactly if the receivers of instance entry
methods can be told apart. Their mock objects are described by the signature of the method alone,
so if two entry methods of different classes have the same signature, the second one is analysed
with an object of the wrong class.
-/

namespace HeapFlow

namespace Execution

open PointsTo (Solution Closed receiverOf? entryObject entryDescription mockAmong? entryDescribed?)

variable {p : Program} {policy : Policy} {heap : Heap} {unset : Plain → Prop}

/-! ### Covering a state -/

/-- An analysis result covers what a state holds and what was executed before it. -/
structure Covered (r : PointsTo) (st : State) : Prop where
  locals : ∀ f ∈ st.frames, ∀ v a, f.locals v = some (.ref a) →
    ∃ o, st.heap[a]? = some o ∧ o.origin ∈ r.ofVar ⟨f.method, v⟩
  fields : ∀ x ∈ st.heap, ∀ f a, x.fields f = some (.ref a) →
    ∃ o, st.heap[a]? = some o ∧ o.origin ∈ r.ofField x.origin f
  elements : ∀ x ∈ st.heap, ∀ i a, x.elements i = some (.ref a) →
    ∃ o, st.heap[a]? = some o ∧ o.origin ∈ r.ofArray x.origin
  statics : ∀ f a, st.statics f = some (.ref a) →
    ∃ o, st.heap[a]? = some o ∧ o.origin ∈ r.ofStatic f
  entered : ∀ m ∈ st.entered, m ∈ r.methodGraph.reachable
  called : ∀ e ∈ st.called, e ∈ r.methodGraph.edges

/-- What a described reference is to. -/
theorem ValDescribed.target {S : Solution} {abs : Nat → CObj} {st : State} {x : Option Val}
    {ptr : Pointer} (h : ValDescribed S abs st.heap.length x ptr) (hheap : HeapDescribed S abs st)
    {a : Nat} (hx : x = some (.ref a)) :
    ∃ o, st.heap[a]? = some o ∧ ⟨(abs a).ctx, o.origin⟩ ∈ S.sets ptr := by
  obtain ⟨hlt, hmem⟩ := h a hx
  refine ⟨st.heap[a], List.getElem?_eq_getElem hlt, ?_⟩
  rw [(hheap.instances a _ (List.getElem?_eq_getElem hlt)).origin]
  exact hmem

/-- The frames of a stack are described, each under some context. -/
theorem Callers.mem {S : Solution} {abs : Nat → CObj} {size : Nat} {callee : CMethod}
    {frames : List Frame} (h : Callers p S abs size callee frames) {f : Frame} (hf : f ∈ frames) :
    ∃ ctx, FrameDescribed S abs size ctx f := by
  induction h with
  | nil => cases hf
  | cons hframe _ _ _ ih =>
    rcases List.mem_cons.1 hf with rfl | hf
    · exact ⟨_, hframe⟩
    · exact ih hf

theorem StackDescribed.mem {S : Solution} {abs : Nat → CObj} {size : Nat} {frames : List Frame}
    (h : StackDescribed p S abs size frames) {f : Frame} (hf : f ∈ frames) :
    ∃ ctx, FrameDescribed S abs size ctx f := by
  cases frames with
  | nil => cases hf
  | cons g rest =>
    obtain ⟨ctx, hframe, hrest⟩ := h g rest rfl
    rcases List.mem_cons.1 hf with rfl | hf
    · exact ⟨ctx, hframe⟩
    · exact hrest.mem hf

/-- **A state that a result describes is covered by it.** -/
theorem Describes.covered {r : PointsTo} {abs : Nat → CObj} {st : State}
    (h : Describes p (Solution.ofResult r) abs st)
    (hkind : ∀ d ∈ r.graph.edges, ∀ e ∈ r.graph.edges, d.site.val = e.site.val →
      d.kind = e.kind) : Covered r st where
  locals := by
    intro f hf v a ha
    obtain ⟨ctx, hframe⟩ := h.stack.mem hf
    obtain ⟨o, ho, hmem⟩ := (hframe.locals v).target h.heap ha
    exact ⟨o, ho, PointsTo.mem_ofVar.2 ⟨ctx, _, hmem⟩⟩
  fields := by
    intro x hx f a ha
    obtain ⟨b, hb⟩ := List.mem_iff_getElem?.1 hx
    have hinstance := h.heap.instances b x hb
    obtain ⟨o, ho, hmem⟩ := (hinstance.fields f).target h.heap ha
    refine ⟨o, ho, PointsTo.mem_ofField.2 ⟨(abs b).ctx, (abs a).ctx, ?_⟩⟩
    -- the object that describes an instance is the one of its site
    rw [hinstance.origin]
    exact hmem
  elements := by
    intro x hx i a ha
    obtain ⟨b, hb⟩ := List.mem_iff_getElem?.1 hx
    have hinstance := h.heap.instances b x hb
    obtain ⟨o, ho, hmem⟩ := (hinstance.elements i).target h.heap ha
    refine ⟨o, ho, PointsTo.mem_ofArray.2 ⟨(abs b).ctx, (abs a).ctx, ?_⟩⟩
    rw [hinstance.origin]
    exact hmem
  statics := by
    intro f a ha
    obtain ⟨o, ho, hmem⟩ := (h.heap.statics f).target h.heap ha
    exact ⟨o, ho, PointsTo.mem_ofStatic.2 ⟨_, hmem⟩⟩
  entered := by
    intro m hm
    obtain ⟨ctx, hmem⟩ := h.entered m hm
    exact PointsTo.mem_methodGraph_reachable.2 ⟨ctx, hmem⟩
  called := by
    intro e he
    obtain ⟨c, c', hmem⟩ := h.called e he
    exact (PointsTo.mem_methodGraph_edges hkind).2 ⟨c, c', hmem⟩

/-! ### Receivers of entry methods -/

/-- The mock object of an instance entry method has the description of its receiver. -/
theorem mockAmong?_entry (heap : Heap) {id : MethodId} (hid : id ∈ p.entries)
    (hthis : (receiverOf? p id).isSome = true) :
    ∃ o, mockAmong? p heap p.entries (entryDescription p id) = some o ∧
      Obj.isMock (entryDescription p id) o = true := by
  cases hfind : heap.objects.toList.find? (Obj.isMock (entryDescription p id)) with
  | some o =>
    refine ⟨o, ?_, List.find?_some hfind⟩
    rw [mockAmong?, hfind]
    rfl
  | none =>
    have hsome : (entryDescribed? p p.entries (entryDescription p id)).isSome = true := by
      rw [entryDescribed?, List.find?_isSome]
      exact ⟨id, hid, by simp [hthis]⟩
    obtain ⟨e, he⟩ := Option.isSome_iff_exists.1 hsome
    refine ⟨.mock (entryDescription p id) (.cls e.owner) e, ?_, beq_self_eq_true _⟩
    rw [mockAmong?, hfind, he]
    rfl

/-- Entry methods with one description have one mock object. -/
theorem entryObject_congr {id id' : MethodId} (hid : id ∈ p.entries)
    (hthis : (receiverOf? p id).isSome = true)
    (heq : entryDescription p id' = entryDescription p id) :
    entryObject p heap id' = entryObject p heap id := by
  obtain ⟨o, ho, -⟩ := mockAmong?_entry heap hid hthis
  rw [entryObject, entryObject, heq, ho]
  rfl

/-- The receivers of instance entry methods can be told apart: the methods have different signatures,
and what the heap has from before under their descriptions are their own objects. -/
structure DistinctReceivers (p : Program) (heap : Heap) : Prop where
  signatures : ∀ id ∈ p.entries, ∀ id' ∈ p.entries, (receiverOf? p id).isSome = true →
    (receiverOf? p id').isSome = true → p.signature id = p.signature id' → id = id'
  heap : ∀ id ∈ p.entries, (receiverOf? p id).isSome = true →
    ∀ o, heap.objects.toList.find? (Obj.isMock (entryDescription p id)) = some o →
      o = ownReceiver p id

/-- Receivers can be told apart exactly if each is analysed with an object of its own. -/
theorem ownReceivers_iff : OwnReceivers p heap ↔ DistinctReceivers p heap := by
  constructor
  · intro h
    refine ⟨?_, ?_⟩
    · intro id hid id' hid' hthis hthis' heq
      have hdescription : entryDescription p id' = entryDescription p id :=
        congrArg ("entry receiver of " ++ ·) heq.symm
      have hobject : ownReceiver p id' = ownReceiver p id := by
        rw [← h id' hid' hthis', ← h id hid hthis, entryObject_congr hid hthis hdescription]
      exact (Obj.mock.inj hobject).2.2.symm
    · intro id hid hthis o ho
      have hobject : entryObject p heap id = o := by
        rw [entryObject, mockAmong?, ho]
        rfl
      rw [← hobject, h id hid hthis]
  · intro h id hid hthis
    rw [entryObject, mockAmong?]
    cases hfind : heap.objects.toList.find? (Obj.isMock (entryDescription p id)) with
    | some o =>
      -- an object from an earlier analysis has the description
      rw [Option.some_or]
      exact h.heap id hid hthis o hfind
    | none =>
      rw [Option.none_or]
      cases hentry : entryDescribed? p p.entries (entryDescription p id) with
      | none =>
        rw [Option.map_none, Option.getD_none]
        rfl
      | some e =>
        rw [Option.map_some, Option.getD_some]
        rw [entryDescribed?] at hentry
        -- `e` is the first entry method with the description
        have he : e ∈ p.entries := List.mem_of_find?_eq_some hentry
        have hdescribed := List.find?_some hentry
        obtain ⟨hthis', hdescription⟩ := Bool.and_eq_true_iff.1 hdescribed
        have hsignature : p.signature e = p.signature id :=
          (String.append_right_inj _).1 (eq_of_beq hdescription)
        have heq : e = id := h.signatures e he id hid hthis' hthis hsignature
        rw [heq, ownReceiver]

/-- The solution in which the only mock objects are those of instance entry methods. -/
def entryMockSolution (p : Program) (heap : Heap) : Solution where
  reachable := Set.univ
  calls := Set.univ
  sets _ := {o | ∀ d ty m, o.val = .mock d ty m → ∃ id ∈ p.entries,
    (receiverOf? p id).isSome = true ∧ o.val = entryObject p heap id}

theorem closed_entryMockSolution : Closed p policy heap (entryMockSolution p heap) := by
  refine PointsTo.closed_uniform (fun id hid hthis => ?_) (fun c site ty => ?_) fun _ _ _ _ _ _ _ =>
    Set.mem_univ _
  · intro d ty m _
    exact ⟨id, hid, hthis, rfl⟩
  · intro d ty' m h
    cases h

/-! ### Soundness -/

section Sound

variable {fuel : Nat} {contexts : Contexts} {ans : PointsTo.Answer}

/-- A finished analysis covers every run, if entry methods have receivers of their own. -/
theorem reachable_covered (h : PointsTo.solve p policy fuel heap contexts = some ans)
    (hok : ans.failure = none) (hown : OwnReceivers p heap) {st : State}
    (hst : Reachable p unset st) : Covered ans.state.found st := by
  have hfinished := PointsTo.solve_finished h hok
  have hdescribes : ∃ abs, Describes p (Solution.ofResult ans.state.found) abs st := by
    refine Reachable.invariant (fun st => ∃ abs, Describes p _ abs st) ?_ ?_ hst
    -- in the initial state the heap is empty, so any description of it will do
    · let nowhere : CObj := ⟨[], .alloc ⟨default, 0⟩ .void⟩
      refine ⟨fun _ => nowhere, ⟨?_, ?_⟩, stackDescribed_nil, ?_, ?_⟩
      · intro a o ho
        cases ho
      · intro f
        exact .none
      · intro m hm
        cases hm
      · intro e he
        cases he
    · intro st st' ⟨abs, hdescribes⟩ hstep
      exact hdescribes.step hfinished.closed hown hstep
  obtain ⟨abs, hdescribes⟩ := hdescribes
  refine hdescribes.covered ?_
  intro d hd e he hsite
  -- a site is one statement, so all its edges are of one kind
  obtain ⟨result, call, hcall, hkind⟩ := hfinished.kinds d hd
  obtain ⟨result', call', hcall', hkind'⟩ := hfinished.kinds e he
  rw [hsite] at hcall
  cases hcall.symm.trans hcall'
  exact hkind.symm.trans hkind'

/-- **The receiver of an entry method that starts is covered only if it is its own object.** -/
theorem ownReceivers_of_covered (h : PointsTo.solve p policy fuel heap contexts = some ans)
    (hcovered : ∀ st, Reachable p unset st → Covered ans.state.found st) :
    OwnReceivers p heap := by
  intro id hid hthis
  obtain ⟨this, hthis'⟩ := Option.isSome_iff_exists.1 hthis
  obtain ⟨m, hm, hreceiver⟩ := Option.bind_eq_some_iff.1 hthis'
  -- the run that only starts the entry method
  have hst : Reachable p unset (State.initial.start p id m fun _ => .null) :=
    .step .initial (.start rfl hid hm fun _ _ => rfl)
  have hlocal : entryLocals m 0 (fun _ => .null) this = some (.ref 0) := by
    rw [entryLocals, if_pos hreceiver]
  obtain ⟨o, ho, hmem⟩ := (hcovered _ hst).locals _ List.mem_cons_self this 0 hlocal
  have hheap : (State.initial.start p id m fun _ => .null).heap =
      [Instance.fresh (ownReceiver p id)] := by
    simp [State.start, State.initial, hreceiver]
  rw [hheap] at ho
  obtain rfl := Option.some.inj ho
  obtain ⟨c, hctx, hmem⟩ := PointsTo.mem_ofVar.1 hmem
  have hwithin := PointsTo.solve_within h (closed_entryMockSolution (p := p))
  have hmock := hwithin.sent (PointsTo.State.Holds.sent hmem)
  obtain ⟨id', hid', hthis'', hobject⟩ := hmock _ _ _ rfl
  -- the entry method that the object belongs to has the same description
  obtain ⟨o, ho, hdescription⟩ := mockAmong?_entry heap hid' hthis''
  have hobject : ownReceiver p id = o := by
    rw [entryObject, ho] at hobject
    exact hobject
  rw [← hobject, ownReceiver, Obj.isMock, beq_iff_eq] at hdescription
  have hsame : entryObject p heap id' = entryObject p heap id :=
    entryObject_congr hid hthis hdescription.symm
  have hown : ownReceiver p id = entryObject p heap id' := by
    rw [entryObject, ho, hobject]
    rfl
  rw [← hsame, hown]

/-- **The result of an analysis covers every run exactly if the receivers of entry methods can be told
apart.** -/
theorem covered_iff_distinctReceivers
    (h : PointsTo.solve p policy fuel heap contexts = some ans) (hok : ans.failure = none) :
    (∀ st, Reachable p unset st → Covered ans.state.found st) ↔ DistinctReceivers p heap := by
  rw [← ownReceivers_iff]
  constructor
  · intro hcovered
    exact ownReceivers_of_covered h hcovered
  · intro hown st hst
    exact reachable_covered h hok hown hst

end Sound

/-! ### Two entry methods -/

/-- Two classes `a` and `b`, each with an entry method `f` that calls the method `g` of its class on
its receiver. The result of the first `f` is of the class `c`. -/
def twoEntries (a b c : String) : Json.Value :=
  let g : Json.Value := .obj [("name", .str "g"), ("body", .arr [.obj [("op", .str "return")]])]
  let f (owner result : String) : Json.Value :=
    .obj [("name", .str "f"), ("return", .str result), ("body", .arr [
      .obj [("op", .str "invoke"), ("kind", .str "virtual"), ("class", .str owner),
        ("method", .str "void g()"), ("base", .str "this")],
      .obj [("op", .str "return")]])]
  .obj [("classes", .arr [.obj [("name", .str a), ("methods", .arr [f a c, g])],
      .obj [("name", .str b), ("methods", .arr [f b "void", g])], .obj [("name", .str c)]]),
    ("entries", .arr [.str (a ++ ".f"), .str (b ++ ".f")])]

/-- The program that `twoEntries` describes. -/
def twoEntriesProgram (a b c : String) : Program := .described (twoEntries a b c)

/-- With unlike signatures the analysis covers every run. -/
theorem twoEntries_covered : ∃ ans,
    PointsTo.solve (twoEntriesProgram "A" "B" "C") .insensitive 100 .empty .initial = some ans ∧
      ans.failure = none ∧ ∀ st, Reachable (twoEntriesProgram "A" "B" "C") (fun _ => False) st →
        Covered ans.state.found st := by
  have hrun : (PointsTo.solve (twoEntriesProgram "A" "B" "C") .insensitive 100 .empty .initial).map
      PointsTo.Answer.failure = some none := by decide +kernel
  obtain ⟨ans, hans, hok⟩ := Option.map_eq_some_iff.1 hrun
  have hdistinct : DistinctReceivers (twoEntriesProgram "A" "B" "C") .empty := by
    refine ⟨by decide +kernel, ?_⟩
    intro id _ _ o ho
    cases ho
  exact ⟨ans, hans, hok, (covered_iff_distinctReceivers hans hok).2 hdistinct⟩

/-- **With like signatures a method can run that the analysis has not reached.** The signature of both
methods `f` is `<A: B: void f()>`, so the second `f` is analysed with an object of the class `A`. -/
theorem twoEntries_not_covered : ∃ p ans st,
    Document.ofJson (twoEntries "A" "A: B" "B: void") = .ok p ∧
      PointsTo.solve p .insensitive 100 .empty .initial = some ans ∧ ans.failure = none ∧
      Reachable p (fun _ => False) st ∧
      ∃ m ∈ st.entered, m ∉ ans.state.found.methodGraph.reachable := by
  let p := twoEntriesProgram "A" "A: B" "B: void"
  let owner : ClassRef := ⟨1, "A: B"⟩
  let this : Var := ⟨0, "this", .cls owner⟩
  let call : Call := ⟨.virtual, some owner, "void g()", some this, []⟩
  have hp : Document.ofJson (twoEntries "A" "A: B" "B: void") = .ok p :=
    ofJson_eq_described (by decide +kernel)
  have hrun : (PointsTo.solve p .insensitive 100 .empty .initial).map (fun ans =>
      (ans.failure, decide (⟨owner, 1⟩ ∈ ans.state.found.methodGraph.reachable))) =
        some (none, false) := by
    decide +kernel
  obtain ⟨ans, hans, hresult⟩ := Option.map_eq_some_iff.1 hrun
  obtain ⟨hok, hreached⟩ := Prod.mk.inj hresult
  have hf : ((p.method? ⟨owner, 0⟩).bind Method.receiver?) = some this := by decide +kernel
  have hg : ((p.method? ⟨owner, 1⟩).map fun m => (m.receiver?, m.hasBody, m.params)) =
      some (some this, true, []) := by decide +kernel
  obtain ⟨f, hf, hthis⟩ := Option.bind_eq_some_iff.1 hf
  obtain ⟨g, hg, hsome⟩ := Option.map_eq_some_iff.1 hg
  simp only [Prod.mk.injEq] at hsome
  obtain ⟨hthis', hbody, hparams⟩ := hsome
  -- the second `f` starts and calls `g` on its receiver
  let top : Frame := ⟨⟨owner, 0⟩, firstNode (PointsTo.bodyOf p ⟨owner, 0⟩),
    entryLocals f 0 fun _ => .null⟩
  let st := State.initial.start p ⟨owner, 0⟩ f fun _ => .null
  have hstart : Reachable p (fun _ => False) st :=
    .step .initial (.start rfl (by decide +kernel) hf fun _ _ => rfl)
  have hnode : firstNode (PointsTo.bodyOf p ⟨owner, 0⟩) = .stmt 0 := by decide +kernel
  have hstmt : (PointsTo.bodyOf p ⟨owner, 0⟩)[0]? = some (.invoke none call) := by decide +kernel
  have hat : AtStmt p top 0 (.invoke none call) := ⟨hnode, hstmt⟩
  have hlocal : top.locals this = some (.ref 0) := if_pos hthis
  have hobject : st.heap[0]? = some (.fresh (ownReceiver p ⟨owner, 0⟩)) := by
    simp [st, State.start, State.initial, hthis]
  have hcallee : p.resolveByReceiver (ownReceiver p ⟨owner, 0⟩).class? call = some ⟨owner, 1⟩ := by
    decide +kernel
  have hselects : Selects p st top call ⟨owner, 1⟩ g (some (.ref 0)) :=
    .onReceiver (by decide) rfl hlocal hobject hcallee hg hthis'
  have hlength : call.args.length = g.params.length := by rw [hparams]
  have hcall := hstart.step (.call rfl hat hselects hbody .nil hlength)
  exact ⟨p, ans, _, hp, hans, hok, hcall, ⟨owner, 1⟩, List.mem_cons_self,
    of_decide_eq_false hreached⟩

end Execution

end HeapFlow
