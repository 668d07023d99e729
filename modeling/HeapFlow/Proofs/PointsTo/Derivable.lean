import HeapFlow.Proofs.PointsTo.EntryObjects
/-!
# HeapFlow.Proofs.PointsTo.Derivable

**An analysis says nothing that the rules do not force.** Whatever solution is closed under the
rules, a state that says no more than the solution (`State.Within`) and whose tasks are justified by
it (`Justified`) goes on to such a state. An analysis starts with nothing said and with the tasks of
the entry methods, so its answer is within every closed solution.

No order of tasks or arrivals plays a part here: each task adds what one rule concludes from
premises that were there when the task was made, and closed solutions keep their premises.
-/

namespace HeapFlow

namespace PointsTo

variable {p : Program} {policy : Policy} {heap : Heap} {S : Solution}

/-- A solution says everything that a state says. Flow edges are inclusions between sets. -/
structure State.Within (S : Solution) (s : State) : Prop where
  sent : ∀ {ptr o}, s.Sent ptr o → o ∈ S.sets ptr
  flows : ∀ {a b}, s.Flows a b → S.sets a ⊆ S.sets b
  reached : ∀ {m}, s.Reached m → m ∈ S.reachable
  called : ∀ {e}, s.Called e → e ∈ S.calls

namespace State.Within

variable {s t : State}

/-- Operations on other parts of the state. -/
theorem of_same (h : s.Within S) (hsets : t.found.sets = s.found.sets)
    (hflows : t.found.flows = s.found.flows) (hqueue : t.queue = s.queue)
    (hreached : ∀ {m}, t.Reached m → m ∈ S.reachable)
    (hcalled : ∀ {e}, t.Called e → e ∈ S.calls) : t.Within S where
  sent := by
    intro ptr o ho
    have hold : s.Sent ptr o := by
      simpa only [Sent, Holds, Waits, PointsTo.get, hsets, hqueue] using ho
    exact h.sent hold
  flows := by
    intro a b hab
    have hold : s.Flows a b := by simpa only [Flows, PointsTo.flowsFrom, hflows] using hab
    exact h.flows hold
  reached := hreached
  called := hcalled

theorem send (h : s.Within S) {ptr : Pointer} {objs : List CObj}
    (hobjs : ∀ o ∈ objs, o ∈ S.sets ptr) : (s.send ptr objs).Within S where
  sent := by
    intro q o ho
    rcases ho with hholds | hwaits
    · exact h.sent ((holds_send s).1 hholds).sent
    · rcases (waits_send s).1 hwaits with hold | ⟨rfl, hnew⟩
      · exact h.sent hold.sent
      · exact hobjs o hnew
  flows hab := h.flows hab
  reached hm := h.reached hm
  called he := h.called he

theorem addFlow (h : s.Within S) {a b : Pointer} (hab : S.sets a ⊆ S.sets b) :
    (s.addFlow a b).Within S where
  sent := by
    intro q o ho
    rcases ho with hholds | hwaits
    · exact h.sent ((holds_addFlow s).1 hholds).sent
    · rcases (waits_addFlow s).1 hwaits with hold | ⟨-, rfl, hsource⟩
      · exact h.sent hold.sent
      · exact hab (h.sent hsource.sent)
  flows := by
    intro x y hxy
    rcases (flows_addFlow s).1 hxy with hold | ⟨rfl, rfl⟩
    · exact h.flows hold
    · exact hab
  reached hm := h.reached (by rwa [Reached, graph_addFlow] at hm)
  called he := h.called (by rwa [Called, graph_addFlow] at he)

theorem addFlows (h : s.Within S) {flows : List (Pointer × Pointer)}
    (hflows : ∀ a b, (a, b) ∈ flows → S.sets a ⊆ S.sets b) : (s.addFlows flows).Within S := by
  induction flows generalizing s with
  | nil => exact h
  | cons f flows ih =>
    rw [addFlows_cons]
    have hfirst : (s.addFlow f.1 f.2).Within S := h.addFlow (hflows f.1 f.2 List.mem_cons_self)
    exact ih hfirst fun a b hab => hflows a b (List.mem_cons_of_mem _ hab)

theorem addReachable (h : s.Within S) {m : CMethod} (hm : m ∈ S.reachable) :
    (s.addReachable m).Within S := by
  refine h.of_same rfl rfl rfl ?_ fun he => h.called he
  intro n hn
  rcases (reached_addReachable s).1 hn with rfl | hold
  · exact hm
  · exact h.reached hold

theorem addCall (h : s.Within S) {e : CallGraph.Edge CSite CMethod}
    (hnew : s.found.graph.hasEdge e.site e.callee ≠ true) (he : e ∈ S.calls) :
    (s.addCall e).Within S := by
  refine h.of_same rfl rfl rfl (fun hn => h.reached ((reached_addCall s).1 hn)) ?_
  intro d hd
  rcases (called_addCall s hnew).1 hd with rfl | hold
  · exact he
  · exact h.called hold

/-- What is absorbed was on its way, and is sent on along flow edges. -/
theorem absorb (h : s.Within S) {ptr : Pointer} {objs : List CObj}
    {queue : Queue (Pointer × List CObj)} (htakes : s.Takes ptr objs queue) :
    ((s.withQueue queue).absorb ptr objs).2.Within S where
  sent := by
    intro q o ho
    -- what waits has been sent, so a closed solution holds it
    have harrived (x : CObj) (hx : x ∈ objs) : x ∈ S.sets ptr :=
      h.sent (htakes.waits.2 (Or.inr ⟨rfl, hx⟩)).sent
    rcases ho with hholds | hwaits
    · rcases (holds_absorb _).1 hholds with hold | ⟨hq, hnew⟩
      · have hholds : s.Holds q o := hold
        exact h.sent hholds.sent
      · rw [hq]
        exact harrived o hnew
    · rcases (waits_absorb _).1 hwaits with hrest | ⟨hflow, hnew, -⟩
      · exact h.sent (htakes.waits.2 (Or.inl hrest)).sent
      · have hs : s.Flows ptr q := hflow
        exact h.flows hs (harrived o hnew)
  flows := by
    intro a b hab
    have hold : (s.withQueue queue).Flows a b := (flows_absorb _).1 hab
    exact h.flows hold
  reached := by
    intro m hm
    have hold : (s.withQueue queue).Reached m := (reached_absorb _).1 hm
    exact h.reached hold
  called := by
    intro e he
    have hold : (s.withQueue queue).Called e := (called_absorb _).1 he
    exact h.called hold

end State.Within

/-- The premises of a task hold in a solution. -/
def Justified (p : Program) (S : Solution) : Task → Prop
  | .start m => m ∈ p.entries
  | .entryReceiver m => m ∈ p.entries
  | .enter m => m ∈ S.reachable
  | .visit m i stmt => m ∈ S.reachable ∧ Runs p m i stmt
  | .call e => e ∈ S.calls
  | .pass site callee => ∃ kind, ⟨kind, site, callee⟩ ∈ S.calls
  | .reach v o => o ∈ S.sets (.var v)
  | .receive v o i call => o ∈ S.sets (.var v) ∧
      ∃ result, p.stmt? ⟨v.val.method, i⟩ = some (.invoke result call) ∧
        call.receiver = some v.val.var

/-! ### Flow edges are inclusions -/

section Inclusions

variable (hS : Closed p policy heap S)

include hS

theorem Closed.stmtFlow {m : CMethod} {i : Nat} {stmt : Stmt} (hm : m ∈ S.reachable)
    (hrun : Runs p m i stmt) {a b : Pointer} (h : stmtFlow? m stmt = some (a, b)) :
    S.sets a ⊆ S.sets b := by
  unfold stmtFlow? at h
  split at h
  · cases h
    exact hS.copy m hm i _ _ hrun
  · cases h
    exact hS.cast m hm i _ _ _ hrun
  · cases h
    exact hS.staticLoad m hm i _ _ hrun
  · cases h
    exact hS.staticStore m hm i _ _ hrun
  · cases h

theorem Closed.access {v : Contextual Local} {o : CObj} (ho : o ∈ S.sets (.var v)) {m : Method}
    (hm : p.method? v.val.method = some m) {a b : Pointer} (h : Access m v o a b) :
    S.sets a ⊆ S.sets b := by
  have hstmt {i : Nat} {stmt : Stmt} (hs : m.stmt? i = some stmt) :
      p.stmt? ⟨v.val.method, i⟩ = some stmt := Program.stmt?_eq_some.2 ⟨m, hm, hs⟩
  cases h with
  | fieldStore hs => exact hS.fieldStore ⟨v.ctx, v.val.method⟩ _ _ _ _ o (hstmt hs) ho
  | fieldLoad hs => exact hS.fieldLoad ⟨v.ctx, v.val.method⟩ _ _ _ _ o (hstmt hs) ho
  | arrayStore hs => exact hS.arrayStore ⟨v.ctx, v.val.method⟩ _ _ _ _ o (hstmt hs) ho
  | arrayLoad hs => exact hS.arrayLoad ⟨v.ctx, v.val.method⟩ _ _ _ _ o (hstmt hs) ho

theorem Closed.resultFlows {site : CSite} {callee : CMethod} {kind : CallKind}
    (he : ⟨kind, site, callee⟩ ∈ S.calls) {result : Option Var} {call : Call} {m : Method}
    (hcall : p.stmt? site.val = some (.invoke result call)) (hm : p.method? callee.val = some m)
    {a b : Pointer} (h : (a, b) ∈ PointsTo.resultFlows site callee m result) :
    S.sets a ⊆ S.sets b := by
  obtain ⟨r, v, rfl, hv, rfl, rfl⟩ := mem_resultFlows.1 h
  exact hS.result _ he r call m hcall hm v hv

theorem Closed.argumentFlows {site : CSite} {callee : CMethod} {kind : CallKind}
    (he : ⟨kind, site, callee⟩ ∈ S.calls) {result : Option Var} {call : Call} {m : Method}
    (hcall : p.stmt? site.val = some (.invoke result call)) (hm : p.method? callee.val = some m)
    (hlength : call.args.length = m.params.length) {a b : Pointer}
    (h : (a, b) ∈ PointsTo.argumentFlows site callee m call) : S.sets a ⊆ S.sets b := by
  obtain ⟨hbody, arg, q, hmem, rfl, rfl⟩ := mem_argumentFlows.1 h
  exact hS.argument _ he result call m hcall hm hbody hlength arg q hmem

/-! ### Tasks stay within -/

/-- **A justified task stays within a closed solution, and so do the tasks that follow.** -/
theorem Closed.performs {s s' : State} {t : Task} {more : List Task}
    (hstep : Performs p policy s t s' more) (hs : s.Within S) (ht : Justified p S t)
    (hmock : ∀ id this, t = .entryReceiver id → receiverOf? p id = some this →
      (s.heap.mock (entryDescription p id) (.cls id.owner) id).1 = entryObject p heap id) :
    s'.Within S ∧ ∀ u ∈ more, Justified p S u := by
  have hnil : ∀ u ∈ ([] : List Task), Justified p S u := fun u hu => nomatch hu
  cases hstep with
  | start m =>
    refine ⟨hs.of_same rfl rfl rfl (fun h => hs.reached h) fun h => hs.called h, ?_⟩
    intro u hu
    simp only [List.mem_cons, List.not_mem_nil, or_false] at hu
    rcases hu with rfl | rfl
    · exact hS.entry m ht
    · exact ht
  | staticEntry => exact ⟨hs, hnil⟩
  | @instanceEntry m this o heap' hthis ho =>
    have heq : o = entryObject p heap m := by
      rw [← hmock m this rfl hthis, ho]
    refine ⟨State.Within.send ?_ ?_, hnil⟩
    · exact hs.of_same rfl rfl rfl (fun h => hs.reached h) fun h => hs.called h
    · intro o' ho'
      obtain rfl := List.mem_singleton.1 ho'
      -- the heap answers with the object that the rules give the receiver
      rw [heq]
      exact hS.entryReceiver m ht this hthis
  | known => exact ⟨hs, hnil⟩
  | @enter m =>
    refine ⟨hs.addReachable ht, ?_⟩
    intro u hu
    obtain ⟨i, stmt, hrun, rfl⟩ := mem_visits.1 hu
    exact ⟨ht, hrun⟩
  | allocation m i lhs what =>
    refine ⟨State.Within.send ?_ ?_, hnil⟩
    · exact hs.of_same rfl rfl rfl (fun h => hs.reached h) fun h => hs.called h
    · intro o ho
      obtain rfl := List.mem_singleton.1 ho
      exact hS.allocation m ht.1 i lhs what ht.2
  | flow m i hnew hcall =>
    refine ⟨hs.addFlows ?_, hnil⟩
    intro a b hab
    exact hS.stmtFlow ht.1 ht.2 (Option.mem_toList.1 hab)
  | otherCall | unresolvedStatic => exact ⟨hs, hnil⟩
  | staticCall m i result hkind hcallee hstatic =>
    refine ⟨hs.of_same rfl rfl rfl (fun h => hs.reached h) fun h => hs.called h, ?_⟩
    intro u hu
    obtain rfl := List.mem_singleton.1 hu
    exact hS.staticCall m ht.1 i result _ _ ht.2 hkind hcallee hstatic
  | knownCall => exact ⟨hs, hnil⟩
  | @call e he =>
    refine ⟨hs.addCall he ht, ?_⟩
    intro u hu
    simp only [List.mem_cons, List.not_mem_nil, or_false] at hu
    rcases hu with rfl | rfl
    · exact hS.callee e ht
    · exact ⟨e.kind, ht⟩
  | passNothing => exact ⟨hs, hnil⟩
  | passAll hcall hm hlength =>
    -- the kind of the call is lost on the way here, but every rule about edges ignores it
    obtain ⟨kind, he⟩ := ht
    refine ⟨State.Within.addFlows ?_ ?_, hnil⟩
    · exact hs.addFlows fun a b hab => hS.argumentFlows he hcall hm hlength hab
    · exact fun a b hab => hS.resultFlows he hcall hm hab
  | passResult hcall hm hlength =>
    obtain ⟨kind, he⟩ := ht
    refine ⟨State.Within.addFlows ?_ ?_, hnil⟩
    · exact hs.of_same rfl rfl rfl (fun h => hs.reached h) fun h => hs.called h
    · exact fun a b hab => hS.resultFlows he hcall hm hab
  | reachNowhere => exact ⟨hs, hnil⟩
  | @reach v o m hm =>
    refine ⟨hs.addFlows fun a b hab => hS.access ht hm (mem_accessFlows.1 hab), ?_⟩
    intro u hu
    obtain ⟨i, result, call, hcall, hv, rfl⟩ := mem_receives.1 hu
    exact ⟨ht, result, Program.stmt?_eq_some.2 ⟨m, hm, hcall⟩, hv⟩
  | receiveNone => exact ⟨hs, hnil⟩
  | receiveStatic =>
    exact ⟨hs.of_same rfl rfl rfl (fun h => hs.reached h) fun h => hs.called h, hnil⟩
  | @receive v o i call callee this hcallee hthis =>
    obtain ⟨ho, result, hcall, hv⟩ := ht
    have ho : o ∈ S.sets (varOf ⟨v.ctx, v.val.method⟩ v.val.var) := ho
    -- one rule gives both the edge and the receiver of the callee
    obtain ⟨hedge, hreceiver⟩ := hS.receiverCall ⟨v.ctx, v.val.method⟩ i result call v.val.var o
      callee this hcall hv ho hcallee hthis
    refine ⟨State.Within.send ?_ ?_, ?_⟩
    · exact hs.of_same rfl rfl rfl (fun h => hs.reached h) fun h => hs.called h
    · intro o' ho'
      obtain rfl := List.mem_singleton.1 ho'
      exact hreceiver
    · intro u hu
      obtain rfl := List.mem_singleton.1 hu
      exact hedge

/-! ### Runs stay within -/

/-- What a run keeps: everything said and everything to do is within a closed solution. -/
structure Derivable (p : Program) (heap : Heap) (S : Solution) (c : Config) : Prop where
  within : c.state.Within S
  justified : ∀ t ∈ c.tasks, Justified p S t
  entered : Entered p heap c

end Inclusions

theorem derivable_init (contexts : Contexts) : Derivable p heap S (init p heap contexts) where
  within := {
    sent := fun h => absurd h (State.not_sent_start heap contexts _ _)
    flows := fun h => absurd h (State.not_flows_start heap contexts _ _)
    reached := fun h => absurd h (State.not_reached_start heap contexts _)
    called := fun h => absurd h (State.not_called_start heap contexts _) }
  justified := by
    intro t ht
    obtain ⟨id, hid, rfl⟩ := List.mem_map.1 ht
    exact hid
  entered := entered_init contexts

theorem Derivable.explore (hS : Closed p policy heap S) {c c' : Config}
    (h : Derivable p heap S c) (hstep : Explores p policy c c') : Derivable p heap S c' := by
  have hentered : Entered p heap c' := h.entered.explore hstep
  cases hstep with
  | @perform s s' t before after more hperform horder =>
    obtain ⟨hwithin, hmore⟩ := hS.performs (.of_perform hperform) h.within
      (h.justified t List.mem_append_cons_self) (by
        intro id this heq hthis
        subst heq
        exact h.entered.mock_eq (horder id rfl) hthis)
    refine ⟨hwithin, ?_, hentered⟩
    intro u hu
    simp only [List.mem_append] at hu
    obtain (hu | hu) | hu := hu
    · exact h.justified u (List.mem_append_left _ hu)
    · exact hmore u hu
    · exact h.justified u (List.mem_append_right _ (List.mem_cons_of_mem _ hu))
  | @absorb s ptr objs queue tasks htakes =>
    have hwithin : ((s.withQueue queue).absorb ptr objs).2.Within S := h.within.absorb htakes
    refine ⟨hwithin, ?_, hentered⟩
    intro t ht
    rcases List.mem_append.1 ht with ht | ht
    · obtain ⟨v, rfl, o, ho, rfl⟩ := mem_reachTasks.1 ht
      have hholds : ((s.withQueue queue).absorb (.var v) objs).2.Holds (.var v) o :=
        (State.holds_absorb _).2 (Or.inr ⟨rfl, ((State.mem_absorb_fst _).1 ho).1⟩)
      exact hwithin.sent hholds.sent
    · exact h.justified t ht

theorem Derivable.step (hS : Closed p policy heap S) {c c' : Config}
    (h : Derivable p heap S c) (hstep : PointsTo.step p policy c = .next c') :
    Derivable p heap S c' :=
  h.explore hS (.of_step hstep)

end PointsTo

end HeapFlow
