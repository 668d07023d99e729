import HeapFlow.Proofs.PointsTo.EntryObjects
/-!
# HeapFlow.Proofs.PointsTo.Fulfilled

**What a rule asks for is done or still to be done.** A task is `Fulfilled` in a state with some
pending tasks if it is one of them, or if its effect is in the state and the tasks that follow from
it are fulfilled in turn. Performing a task moves it from the first case to the second
(`Performs.fulfilled`), and nothing that is fulfilled is ever lost (`Fulfilled.mono`), whatever
flow edges, objects or calls are found in between.

A run keeps `Complete`: the tasks of every entry method, of every statement of a reachable method, of
every call edge and of every object in the set of a variable are fulfilled, and the sets are
settled. When nothing is pending these are the rules of the analysis.
-/

namespace HeapFlow

namespace PointsTo

variable (p : Program) (policy : Policy) (heap : Heap)

/-- A task is pending, or its effect is there. -/
inductive Fulfilled (s : State) (pending : List Task) : Task → Prop
  | pending {t : Task} (h : t ∈ pending) : Fulfilled s pending t
  | start {m : MethodId} (henter : Fulfilled s pending (.enter ⟨[], m⟩))
      (hreceiver : Fulfilled s pending (.entryReceiver m)) : Fulfilled s pending (.start m)
  | entryReceiver {m : MethodId}
      (h : ∀ this, receiverOf? p m = some this →
        s.Sent (varOf ⟨[], m⟩ this) ⟨[], entryObject p heap m⟩) :
      Fulfilled s pending (.entryReceiver m)
  | enter {m : CMethod} (h : s.Reached m) : Fulfilled s pending (.enter m)
  | allocation {m : CMethod} {i : Nat} {lhs : Var} {what : Alloc}
      (h : s.Sent (varOf m lhs) ⟨policy.heapContext m.ctx, .alloc ⟨m.val, i⟩ what.ty⟩) :
      Fulfilled s pending (.visit m i (.assign lhs (.new what)))
  | flow {m : CMethod} {i : Nat} {stmt : Stmt} (hnew : ∀ lhs what, stmt ≠ .assign lhs (.new what))
      (hcall : ∀ result call, stmt ≠ .invoke result call)
      (h : ∀ a b, stmtFlow? m stmt = some (a, b) → s.Flows a b) :
      Fulfilled s pending (.visit m i stmt)
  | otherCall {m : CMethod} {i : Nat} {result : Option Var} {call : Call}
      (hkind : call.kind ≠ .static) : Fulfilled s pending (.visit m i (.invoke result call))
  | staticCall {m : CMethod} {i : Nat} {result : Option Var} {call : Call}
      (h : ∀ callee, p.resolveDirect call = some callee → Fulfilled s pending
        (.call ⟨.static, ⟨m.ctx, ⟨m.val, i⟩⟩,
          ⟨policy.staticContext m.ctx ⟨m.val, i⟩, callee⟩⟩)) :
      Fulfilled s pending (.visit m i (.invoke result call))
  | call {e : CallGraph.Edge CSite CMethod} {kind : CallKind}
      (h : s.Called ⟨kind, e.site, e.callee⟩) : Fulfilled s pending (.call e)
  | pass {site : CSite} {callee : CMethod}
      (h : ∀ result call m, p.stmt? site.val = some (.invoke result call) →
        p.method? callee.val = some m →
        (call.args.length = m.params.length →
          ∀ a b, (a, b) ∈ argumentFlows site callee m call → s.Flows a b) ∧
        ∀ a b, (a, b) ∈ resultFlows site callee m result → s.Flows a b) :
      Fulfilled s pending (.pass site callee)
  | reach {v : Contextual Local} {o : CObj}
      (hflow : ∀ m, p.method? v.val.method = some m → ∀ a b, Access m v o a b → s.Flows a b)
      (hcall : ∀ i result call, p.stmt? ⟨v.val.method, i⟩ = some (.invoke result call) →
        call.receiver = some v.val.var → Fulfilled s pending (.receive v o i call)) :
      Fulfilled s pending (.reach v o)
  | receive {v : Contextual Local} {o : CObj} {i : Nat} {call : Call}
      (hsent : ∀ callee this, p.resolveByReceiver o.val.class? call = some callee →
        receiverOf? p callee = some this →
        s.Sent (varOf ⟨policy.receiverContext v.ctx ⟨v.val.method, i⟩ o, callee⟩ this) o)
      (hcall : ∀ callee this, p.resolveByReceiver o.val.class? call = some callee →
        receiverOf? p callee = some this →
        Fulfilled s pending (.call ⟨call.kind, ⟨v.ctx, ⟨v.val.method, i⟩⟩,
          ⟨policy.receiverContext v.ctx ⟨v.val.method, i⟩ o, callee⟩⟩)) :
      Fulfilled s pending (.receive v o i call)

variable {p policy heap} {s s' : State} {t : Task} {tasks more : List Task}

/-- **What is fulfilled stays so**, as long as nothing said is lost and what was pending is
fulfilled. -/
theorem Fulfilled.mono (h : Fulfilled p policy heap s tasks t) (hs : s.Extends s')
    (htasks : ∀ u ∈ tasks, Fulfilled p policy heap s' more u) :
    Fulfilled p policy heap s' more t := by
  induction h with
  | pending h => exact htasks _ h
  | start _ _ ihenter ihreceiver => exact .start ihenter ihreceiver
  | entryReceiver h => exact .entryReceiver fun this hthis => hs.sent (h this hthis)
  | enter h => exact .enter (hs.reached h)
  | allocation h => exact .allocation (hs.sent h)
  | flow hnew hcall h => exact .flow hnew hcall fun a b hab => hs.flows (h a b hab)
  | otherCall hkind => exact .otherCall hkind
  | staticCall _ ih => exact .staticCall ih
  | call h => exact .call (hs.called h)
  | pass h =>
    refine .pass ?_
    intro result call m hcall hm
    obtain ⟨hargs, hresult⟩ := h result call m hcall hm
    exact ⟨fun hlength a b hab => hs.flows (hargs hlength a b hab),
      fun a b hab => hs.flows (hresult a b hab)⟩
  | reach hflow _ ih =>
    exact .reach (fun m hm a b hab => hs.flows (hflow m hm a b hab)) ih
  | receive hsent _ ih =>
    exact .receive (fun callee this hcallee hthis => hs.sent (hsent callee this hcallee hthis)) ih

/-! ### What a task grows -/

/-- **A task only adds**, and it leaves the sets of pointers to the arrivals. -/
theorem Performs.grows (h : Performs p policy s t s' more) : s.Grows s' := by
  cases h with
  | start m => exact .addEntry s _
  | staticEntry => exact .refl s
  | instanceEntry =>
    exact ((State.Grows.withHeap s _).trans (.addObject _ _)).trans (.send _ _ _)
  | known => exact .refl s
  | enter => exact .addReachable s _
  | allocation m i lhs what =>
    exact (((State.Grows.withHeap s _).trans (.meet _ _)).trans (.addObject _ _)).trans
      (.send _ _ _)
  | flow => exact .addFlows s _
  | otherCall => exact .refl s
  | unresolvedStatic => exact .refl s
  | staticCall => exact .meet s _
  | knownCall => exact .refl s
  | call he => exact .addCall s he
  | passNothing => exact .refl s
  | passAll => exact (State.Grows.addFlows s _).trans (.addFlows _ _)
  | passResult => exact (State.Grows.report s _).trans (.addFlows _ _)
  | reachNowhere => exact .refl s
  | reach => exact .addFlows s _
  | receiveNone => exact .refl s
  | receiveStatic => exact .report s _
  | receive => exact (State.Grows.meet s _).trans (.send _ _ _)

/-- A newly reachable method has its statements visited next. -/
theorem Performs.reached (h : Performs p policy s t s' more) {m : CMethod} (hm : s'.Reached m) :
    s.Reached m ∨ ∀ i stmt, Runs p m i stmt → .visit m i stmt ∈ more := by
  have hsame (hgraph : s'.found.graph = s.found.graph) : s.Reached m := by
    rwa [State.Reached, hgraph] at hm
  cases h with
  | enter =>
    rcases (State.reached_addReachable s).1 hm with rfl | hold
    · exact Or.inr fun i stmt hrun => mem_visits.2 ⟨i, stmt, hrun, rfl⟩
    · exact Or.inl hold
  | call => exact Or.inl ((State.reached_addCall s).1 hm)
  | flow => exact Or.inl (hsame (State.graph_addFlows s _))
  | reach => exact Or.inl (hsame (State.graph_addFlows s _))
  | passResult => exact Or.inl (hsame (State.graph_addFlows _ _))
  | passAll =>
    exact Or.inl (hsame ((State.graph_addFlows _ _).trans (State.graph_addFlows s _)))
  | _ => exact Or.inl hm

/-- A new call has its callee entered and its values passed next. -/
theorem Performs.called (h : Performs p policy s t s' more) {e : CallGraph.Edge CSite CMethod}
    (he : s'.Called e) :
    s.Called e ∨ .enter e.callee ∈ more ∧ .pass e.site e.callee ∈ more := by
  have hsame (hgraph : s'.found.graph = s.found.graph) : s.Called e := by
    rwa [State.Called, hgraph] at he
  cases h with
  | call hnew =>
    rcases (State.called_addCall s hnew).1 he with rfl | hold
    · exact Or.inr ⟨by simp, by simp⟩
    · exact Or.inl hold
  | flow => exact Or.inl (hsame (State.graph_addFlows s _))
  | reach => exact Or.inl (hsame (State.graph_addFlows s _))
  | passResult => exact Or.inl (hsame (State.graph_addFlows _ _))
  | passAll =>
    exact Or.inl (hsame ((State.graph_addFlows _ _).trans (State.graph_addFlows s _)))
  | _ => exact Or.inl he

/-! ### Performing a task fulfils it -/

/-- What was just sent is on its way. -/
theorem State.sent_send (s : State) (ptr : Pointer) {objs : List CObj} {o : CObj} (h : o ∈ objs) :
    (s.send ptr objs).Sent ptr o :=
  Waits.sent ((waits_send s).2 (Or.inr ⟨rfl, h⟩))

/-- **A task that was performed is fulfilled**, its follow-ups being pending. -/
theorem Performs.fulfilled (h : Performs p policy s t s' more)
    (hindexed : s.found.graph.Indexed)
    (hmock : ∀ id this, t = .entryReceiver id → receiverOf? p id = some this →
      (s.heap.mock (entryDescription p id) (.cls id.owner) id).1 = entryObject p heap id) :
    Fulfilled p policy heap s' more t := by
  cases h with
  | start m => exact .start (.pending (by simp)) (.pending (by simp))
  | staticEntry hthis =>
    refine .entryReceiver ?_
    intro this hsome
    exact nomatch hthis.symm.trans hsome
  | @instanceEntry m this o heap' hthis ho =>
    -- the object that the heap hands out is the one of the rules
    have heq : o = entryObject p heap m := by
      rw [← hmock m this rfl hthis, ho]
    refine .entryReceiver ?_
    intro this' hthis'
    obtain rfl := Option.some.inj (hthis.symm.trans hthis')
    rw [← heq]
    exact State.sent_send _ _ List.mem_cons_self
  | known hm => exact .enter hm
  | enter => exact .enter ((State.reached_addReachable s).2 (Or.inl rfl))
  | allocation m i lhs what => exact .allocation (State.sent_send _ _ List.mem_cons_self)
  | flow m i hnew hcall =>
    refine .flow hnew hcall ?_
    intro a b hab
    exact (State.flows_addFlows s).2 (Or.inr (Option.mem_toList.2 hab))
  | otherCall m i result hkind => exact .otherCall hkind
  | unresolvedStatic m i result hkind hcallee =>
    refine .staticCall ?_
    intro callee hsome
    exact nomatch hcallee.symm.trans hsome
  | staticCall m i result hkind hcallee =>
    refine .staticCall ?_
    intro callee hsome
    obtain rfl := Option.some.inj (hcallee.symm.trans hsome)
    exact .pending List.mem_cons_self
  | knownCall he =>
    obtain ⟨kind, hcalled⟩ := State.exists_called_of_hasEdge s hindexed he
    exact .call hcalled
  | call he => exact .call ((State.called_addCall s he).2 (Or.inl rfl))
  | passNothing hnone =>
    refine .pass ?_
    intro result call m hcall hm
    exact absurd hm (hnone result call m hcall)
  | passAll hcall hm hlength =>
    refine .pass ?_
    intro result call m hcall' hm'
    cases hcall.symm.trans hcall'
    cases hm.symm.trans hm'
    refine ⟨fun _ a b hab => ?_, fun a b hab => (State.flows_addFlows _).2 (Or.inr hab)⟩
    exact (State.Grows.addFlows _ _).flows ((State.flows_addFlows s).2 (Or.inr hab))
  | passResult hcall hm hlength =>
    refine .pass ?_
    intro result call m hcall' hm'
    cases hcall.symm.trans hcall'
    cases hm.symm.trans hm'
    exact ⟨fun heq => absurd heq hlength, fun a b hab => (State.flows_addFlows _).2 (Or.inr hab)⟩
  | reachNowhere o hm =>
    refine .reach (fun m hsome => nomatch hm.symm.trans hsome) ?_
    intro i result call hcall
    obtain ⟨m, hsome, -⟩ := Program.stmt?_eq_some.1 hcall
    exact nomatch hm.symm.trans hsome
  | reach o hm =>
    refine .reach ?_ ?_
    · intro m' hm' a b hab
      cases hm.symm.trans hm'
      exact (State.flows_addFlows s).2 (Or.inr (mem_accessFlows.2 hab))
    · intro i result call hcall hv
      obtain ⟨m', hm', hstmt⟩ := Program.stmt?_eq_some.1 hcall
      cases hm.symm.trans hm'
      exact .pending (mem_receives.2 ⟨i, result, call, hstmt, hv, rfl⟩)
  | receiveNone i hcallee =>
    exact .receive (fun callee this hsome => nomatch hcallee.symm.trans hsome)
      fun callee this hsome => nomatch hcallee.symm.trans hsome
  | @receiveStatic v o i call callee hcallee hthis =>
    have hnone {callee' : MethodId} {this : Var}
        (hcallee' : p.resolveByReceiver o.val.class? call = some callee')
        (hthis' : receiverOf? p callee' = some this) : False := by
      cases hcallee.symm.trans hcallee'
      exact nomatch hthis.symm.trans hthis'
    exact .receive (fun callee' this hcallee' hthis' => (hnone hcallee' hthis').elim)
      fun callee' this hcallee' hthis' => (hnone hcallee' hthis').elim
  | receive i hcallee hthis =>
    refine .receive ?_ ?_
    · intro callee' this' hcallee' hthis'
      cases hcallee.symm.trans hcallee'
      cases hthis.symm.trans hthis'
      exact State.sent_send _ _ List.mem_cons_self
    · intro callee' this' hcallee' hthis'
      cases hcallee.symm.trans hcallee'
      exact .pending List.mem_cons_self

/-! ### The invariant -/

/-- What a run keeps: everything that the rules ask for is fulfilled. -/
structure Complete (p : Program) (policy : Policy) (heap : Heap) (c : Config) : Prop where
  entries : ∀ id ∈ p.entries, Fulfilled p policy heap c.state c.tasks (.start id)
  visits : ∀ m, c.state.Reached m → ∀ i stmt, Runs p m i stmt →
    Fulfilled p policy heap c.state c.tasks (.visit m i stmt)
  calls : ∀ e, c.state.Called e → Fulfilled p policy heap c.state c.tasks (.enter e.callee) ∧
    Fulfilled p policy heap c.state c.tasks (.pass e.site e.callee)
  reaches : ∀ v o, c.state.Holds (.var v) o →
    Fulfilled p policy heap c.state c.tasks (.reach v o)
  settled : c.state.Settled
  indexed : c.state.found.graph.Indexed
  entered : Entered p heap c

theorem complete_init (contexts : Contexts) : Complete p policy heap (init p heap contexts) where
  entries _ hid := .pending (List.mem_map_of_mem hid)
  visits m hm := absurd hm (State.not_reached_start heap contexts m)
  calls e he := absurd he (State.not_called_start heap contexts e)
  reaches _ o ho := absurd (State.Holds.sent ho) (State.not_sent_start heap contexts _ o)
  settled a b _ hab := absurd hab (State.not_flows_start heap contexts a b)
  indexed := CallGraph.indexed_empty
  entered := entered_init contexts

theorem Complete.perform {before after : List Task}
    (h : Complete p policy heap ⟨s, before ++ t :: after⟩)
    (hstep : Performs p policy s t s' more)
    (horder : ∀ id, t = .entryReceiver id → pendingEntries before = []) :
    Complete p policy heap ⟨s', before ++ more ++ after⟩ := by
  have hgrows := hstep.grows
  have hdone : Fulfilled p policy heap s' more t := by
    refine hstep.fulfilled h.indexed ?_
    intro id this heq hthis
    subst heq
    exact h.entered.mock_eq (horder id rfl) hthis
  have hnext {u : Task} (hu : u ∈ more) : Fulfilled p policy heap s' (before ++ more ++ after) u :=
    .pending (List.mem_append_left _ (List.mem_append_right _ hu))
  -- only `t` leaves the pending tasks, and it has just been fulfilled
  have hkeep {u : Task} (hu : Fulfilled p policy heap s (before ++ t :: after) u) :
      Fulfilled p policy heap s' (before ++ more ++ after) u := by
    refine hu.mono hgrows.toExtends ?_
    intro w hw
    rcases List.mem_append.1 hw with hw | hw
    · exact .pending (List.mem_append_left _ (List.mem_append_left _ hw))
    · rcases List.mem_cons.1 hw with rfl | hw
      · exact hdone.mono ⟨id, id, id, id⟩ fun x hx => hnext hx
      · exact .pending (List.mem_append_right _ hw)
  refine ⟨fun id hid => hkeep (h.entries id hid), ?_, ?_, ?_, hgrows.settled h.settled,
    hstep.indexed h.indexed, h.entered.perform hstep horder⟩
  · intro m hm i stmt hrun
    rcases hstep.reached hm with hold | hnew
    · exact hkeep (h.visits m hold i stmt hrun)
    · exact hnext (hnew i stmt hrun)
  · intro e he
    rcases hstep.called he with hold | ⟨henter, hpass⟩
    · exact ⟨hkeep (h.calls e hold).1, hkeep (h.calls e hold).2⟩
    · exact ⟨hnext henter, hnext hpass⟩
  · intro v o ho
    -- a task sends objects, but only an arrival puts them into a set
    exact hkeep (h.reaches v o (hgrows.holds.1 ho))

/-- The tasks of what is absorbed join those that are pending. -/
theorem Complete.absorb (h : Complete p policy heap ⟨s, tasks⟩) {ptr : Pointer} {objs : List CObj}
    {queue : Queue (Pointer × List CObj)} (htakes : s.Takes ptr objs queue) :
    Complete p policy heap ⟨((s.withQueue queue).absorb ptr objs).2,
      reachTasks ptr ((s.withQueue queue).absorb ptr objs).1 ++ tasks⟩ := by
  have hkeep {u : Task} (hu : Fulfilled p policy heap s tasks u) :
      Fulfilled p policy heap ((s.withQueue queue).absorb ptr objs).2
        (reachTasks ptr ((s.withQueue queue).absorb ptr objs).1 ++ tasks) u :=
    hu.mono (State.extends_absorb htakes) fun w hw => .pending (List.mem_append_right _ hw)
  refine ⟨fun id hid => hkeep (h.entries id hid), ?_, ?_, ?_,
    State.settled_absorb h.settled htakes, ?_, h.entered.absorb queue _⟩
  · intro m hm i stmt hrun
    have hold : (s.withQueue queue).Reached m := (State.reached_absorb _).1 hm
    exact hkeep (h.visits m hold i stmt hrun)
  · intro e he
    have hold : (s.withQueue queue).Called e := (State.called_absorb _).1 he
    exact ⟨hkeep (h.calls e hold).1, hkeep (h.calls e hold).2⟩
  · intro v o ho
    by_cases hold : (s.withQueue queue).Holds (.var v) o
    · exact hkeep (h.reaches v o hold)
    · -- the object is among those that the variable lacked
      obtain ⟨rfl, hmem⟩ := ((State.holds_absorb _).1 ho).resolve_left hold
      have hfresh := (State.mem_absorb_fst (s.withQueue queue)).2 ⟨hmem, hold⟩
      exact .pending (List.mem_append_left _ (mem_reachTasks.2 ⟨v, rfl, o, hfresh, rfl⟩))
  · rw [State.graph_absorb]
    exact h.indexed

theorem Complete.explore {c c' : Config} (h : Complete p policy heap c)
    (hstep : Explores p policy c c') : Complete p policy heap c' := by
  cases hstep with
  | perform hperform horder => exact h.perform (.of_perform hperform) horder
  | absorb _ htakes => exact h.absorb htakes

theorem Complete.step {c c' : Config} (h : Complete p policy heap c)
    (hstep : PointsTo.step p policy c = .next c') : Complete p policy heap c' :=
  h.explore (.of_step hstep)

end PointsTo

end HeapFlow
