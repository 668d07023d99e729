import HeapFlow.Proofs.PointsTo.Fulfilled
import HeapFlow.Proofs.PointsTo.LeastSolution
import HeapFlow.Proofs.PointsTo.Scope
import Mathlib.Algebra.Group.Action.Defs
import Mathlib.Data.Prod.Lex
import Mathlib.Data.Set.Card
/-!
# HeapFlow.Proofs.PointsTo.Termination

**Points-to analysis terminates, under contexts that stay within the limits of the policy.** What a
run says is within the finite scope of the program, so it finds new methods, calls and objects only
finitely often. A step that finds nothing new takes a task from the stack or an entry from the queue
and leaves less work than that: every task is as heavy as all that can follow from it without
anything new being found.
-/

namespace HeapFlow

namespace PointsTo

variable {p : Program} {policy : Policy} {heap : Heap} {s s' : State} {t : Task}
  {tasks more : List Task}

/-! ### Findings -/

/-- What an analysis may find. -/
inductive Finding
  | method (m : CMethod)
  | call (site : CSite) (callee : CMethod)
  | object (ptr : Pointer) (o : CObj)

namespace State

/-- What a state says. -/
def findings (s : State) : Set Finding
  | .method m => s.Reached m
  | .call site callee => ∃ kind, s.Called ⟨kind, site, callee⟩
  | .object ptr o => s.Holds ptr o

end State

/-- What a solution says. -/
def Solution.findings (S : Solution) : Set Finding
  | .method m => m ∈ S.reachable
  | .call site callee => ∃ kind, ⟨kind, site, callee⟩ ∈ S.calls
  | .object ptr o => o ∈ S.sets ptr

theorem State.Within.findings {S : Solution} (h : s.Within S) : s.findings ⊆ S.findings := by
  intro x hx
  cases x with
  | method m => exact h.reached hx
  | call site callee =>
    obtain ⟨kind, hcalled⟩ := hx
    exact ⟨kind, h.called hcalled⟩
  | object ptr o => exact h.sent (State.Holds.sent hx)

/-- There is only so much to be found. -/
theorem finite_findings (p : Program) (heap : Heap) (policy : Policy) :
    (Scope.solution p heap policy).findings.Finite := by
  have hmethods := Scope.finite_reachable p heap policy
  have hsites : (Scope.under (Scope.contexts p heap policy.limit) (Scope.sites p)).Finite :=
    Scope.finite_under (Scope.finite_contexts p heap _) (Scope.finite_sites p)
  have hobjects := (Scope.finite_target p heap policy).image2 Finding.object
    (Scope.finite_objects_under p heap policy)
  refine (((hmethods.image Finding.method).union
    (hsites.image2 Finding.call hmethods)).union hobjects).subset ?_
  intro x hx
  cases x with
  | method m => exact Or.inl (Or.inl ⟨m, hx, rfl⟩)
  | call site callee =>
    obtain ⟨kind, hsite, hcallee⟩ := hx
    exact Or.inl (Or.inr ⟨site, hsite, callee, hcallee, rfl⟩)
  | object ptr o =>
    obtain ⟨hptr, ho⟩ := hx
    exact Or.inr ⟨ptr, hptr, o, ho, rfl⟩

theorem State.Grows.findings (h : s.Grows s') : s.findings ⊆ s'.findings := by
  intro x hx
  cases x with
  | method m => exact h.reached hx
  | call site callee =>
    obtain ⟨kind, hcalled⟩ := hx
    exact ⟨kind, h.called hcalled⟩
  | object ptr o => exact h.holds.2 hx

theorem State.findings_absorb (s : State) (ptr : Pointer) (objs : List CObj) :
    s.findings ⊆ (s.absorb ptr objs).2.findings := by
  intro x hx
  cases x with
  | method m => exact (State.reached_absorb s).2 hx
  | call site callee =>
    obtain ⟨kind, hcalled⟩ := hx
    exact ⟨kind, (State.called_absorb s).2 hcalled⟩
  | object q o => exact (State.holds_absorb s).2 (Or.inl hx)

/-! ### The length of the queue -/

/-- The number of arrivals. -/
def State.arrivals (s : State) : Nat := s.queue.toList.length

namespace State

theorem arrivals_send (s : State) (ptr : Pointer) (objs : List CObj) :
    (s.send ptr objs).arrivals = s.arrivals + 1 := by
  show (s.queue.push (ptr, objs)).toList.length = _
  rw [Queue.toList_push, List.length_append]
  rfl

theorem arrivals_addFlow_le (s : State) (a b : Pointer) :
    (s.addFlow a b).arrivals ≤ s.arrivals + 1 := by
  rw [addFlow]
  dsimp only
  split
  · exact Nat.le_succ _
  · split
    · exact Nat.le_succ _
    · exact (arrivals_send _ _ _).le

/-- Each flow edge sends at most once. -/
theorem arrivals_addFlows_le (s : State) (fs : List (Pointer × Pointer)) :
    (s.addFlows fs).arrivals ≤ s.arrivals + fs.length := by
  induction fs generalizing s with
  | nil => exact le_rfl
  | cons f fs ih =>
    have hfirst := arrivals_addFlow_le s f.1 f.2
    have hrest := ih (s.addFlow f.1 f.2)
    rw [addFlows_cons, List.length_cons]
    omega

/-- Absorbing nothing new sends nothing. -/
theorem absorb_of_fst_eq_nil {s : State} {ptr : Pointer} {objs : List CObj}
    (h : (s.absorb ptr objs).1 = []) : (s.absorb ptr objs).2 = s := by
  rw [absorb] at h ⊢
  dsimp only at h ⊢
  split at h
  · rename_i hempty
    rw [if_pos hempty]
  · rename_i hempty
    exact absurd (List.isEmpty_iff.2 h) hempty

end State

/-! ### The weight of tasks -/

/-- The flow edges that a task adds. -/
def flowsOf (p : Program) : Task → List (Pointer × Pointer)
  | .visit m _ stmt => (stmtFlow? m stmt).toList
  | .pass site callee =>
    match p.stmt? site.val, p.method? callee.val with
    | some (.invoke result call), some m =>
      argumentFlows site callee m call ++ resultFlows site callee m result
    | _, _ => []
  | .reach v o => (p.method? v.val.method).elim [] (accessFlows · v o)
  | _ => []

/-- The calls that a task looks at. -/
def receivesOf (p : Program) : Task → List Task
  | .reach v o => (p.method? v.val.method).elim [] (receives · v o)
  | _ => []

/-- What a task of each kind leads to, next to flow edges and calls on an object. -/
def ownWeight : Task → Nat
  | .start _ => 4
  | .entryReceiver _ => 2
  | .enter _ => 1
  | .visit .. => 2
  | .call _ => 1
  | .pass .. => 1
  | .reach .. => 1
  | .receive .. => 3

/-- A bound for the tasks and arrivals that follow from a task until something new is found. -/
def weight (p : Program) (t : Task) : Nat :=
  ownWeight t + (flowsOf p t).length + 3 * (receivesOf p t).length

/-- The work that is left: tasks by their weights, and arrivals. -/
def load (p : Program) (tasks : List Task) (s : State) : Nat :=
  (tasks.map (weight p)).sum + s.arrivals

theorem sum_weight_receives (m : Method) (v : Contextual Local) (o : CObj) :
    ((receives m v o).map (weight p)).sum = 3 * (receives m v o).length := by
  have hsum : ((receives m v o).map (weight p)).sum =
      ((receives m v o).map (weight p)).length • 3 := by
    refine List.sum_eq_card_nsmul _ 3 fun n hn => ?_
    obtain ⟨u, hu, rfl⟩ := List.mem_map.1 hn
    obtain ⟨i, result, call, -, -, rfl⟩ := mem_receives.1 hu
    rfl
  rw [hsum, List.length_map, smul_eq_mul, Nat.mul_comm]

theorem length_flowsOf_lt_weight (t : Task) : (flowsOf p t).length < weight p t := by
  have hpos : 0 < ownWeight t := by cases t <;> exact Nat.succ_pos _
  rw [weight]
  omega

/-- A task that leads to less than its weight leaves less work than itself. -/
theorem load_lt {sent : Nat} (hsent : s'.arrivals ≤ s.arrivals + sent)
    (hweight : sent + (more.map (weight p)).sum < weight p t) :
    load p more s' < load p [t] s := by
  rw [load, load, List.map_singleton, List.sum_singleton]
  omega

/-- A task that only adds flow edges leaves less work than itself. -/
theorem load_lt_of_flows (hsent : s'.arrivals ≤ s.arrivals + (flowsOf p t).length) :
    load p [] s' < load p [t] s := load_lt hsent (length_flowsOf_lt_weight t)

/-- **A task finds something new or leaves less work than itself.** -/
theorem Performs.lighter (h : Performs p policy s t s' more) (hindexed : s.found.graph.Indexed) :
    s.findings ≠ s'.findings ∨ load p more s' < load p [t] s := by
  have hnew {x : Finding} (hx : x ∈ s'.findings) (hold : x ∉ s.findings) :
      s.findings ≠ s'.findings := fun heq => hold (heq ▸ hx)
  have hnone : s.arrivals ≤ s.arrivals + 0 := le_rfl
  have hidle (u : Task) : load p [] s < load p [u] s :=
    load_lt_of_flows (Nat.le_add_right _ _)
  cases h with
  -- a method or a call is found
  | enter hm =>
    exact Or.inl (hnew (x := .method _) ((State.reached_addReachable s).2 (Or.inl rfl)) hm)
  | @call e he =>
    refine Or.inl (hnew (x := .call e.site e.callee) ?_ ?_)
    · exact ⟨e.kind, (State.called_addCall s he).2 (Or.inl rfl)⟩
    · rintro ⟨kind, hcalled⟩
      exact he (hindexed.hasEdge_iff.2 ⟨_, hcalled, rfl⟩)
  -- an object is sent
  | instanceEntry =>
    refine Or.inr (load_lt (State.arrivals_send _ _ _).le ?_)
    simp only [weight, ownWeight, List.map_nil, List.sum_nil]
    omega
  | allocation m i lhs what =>
    refine Or.inr (load_lt (State.arrivals_send _ _ _).le ?_)
    simp only [weight, ownWeight, List.map_nil, List.sum_nil]
    omega
  -- flow edges are added
  | flow m i => exact Or.inr (load_lt_of_flows (State.arrivals_addFlows_le s _))
  | @passAll site callee result call m hcall hm =>
    have hargs := State.arrivals_addFlows_le s (argumentFlows site callee m call)
    have hresult := State.arrivals_addFlows_le (s.addFlows (argumentFlows site callee m call))
      (resultFlows site callee m result)
    refine Or.inr (load_lt_of_flows ?_)
    simp only [flowsOf, hcall, hm, List.length_append]
    omega
  | @passResult site callee result call m hcall hm =>
    have hresult := State.arrivals_addFlows_le (s.report (.argumentCount site.val callee.val))
      (resultFlows site callee m result)
    have hreport : (s.report (.argumentCount site.val callee.val)).arrivals = s.arrivals := rfl
    refine Or.inr (load_lt_of_flows ?_)
    simp only [flowsOf, hcall, hm, List.length_append]
    omega
  -- other tasks follow
  | start m => exact Or.inr (load_lt hnone (by simp [weight, ownWeight, flowsOf, receivesOf]))
  | staticCall =>
    refine Or.inr (load_lt hnone ?_)
    simp only [weight, ownWeight, flowsOf, receivesOf, List.map_singleton, List.sum_singleton,
      List.length_nil]
    omega
  | @reach v o m hm =>
    refine Or.inr (load_lt (State.arrivals_addFlows_le s _) ?_)
    simp only [sum_weight_receives, weight, ownWeight, flowsOf, receivesOf, hm, Option.elim_some]
    omega
  | receive =>
    exact Or.inr (load_lt (State.arrivals_send _ _ _).le
      (by simp [weight, ownWeight, flowsOf, receivesOf]))
  -- nothing follows
  | _ => exact Or.inr (hidle _)

/-! ### The measure -/

/-- What is still to be found, and then the work that is left. -/
noncomputable def remaining (p : Program) (heap : Heap) (policy : Policy) (c : Config) :
    Nat × Nat :=
  (((Scope.solution p heap policy).findings \ c.state.findings).ncard, load p c.tasks c.state)

/-- Whatever is found was still to be found. -/
theorem remaining_lt {c c' : Config} (hsub : c.state.findings ⊆ c'.state.findings)
    (hwithin : c'.state.Within (Scope.solution p heap policy))
    (h : c.state.findings ≠ c'.state.findings ∨ load p c'.tasks c'.state < load p c.tasks c.state) :
    Prod.Lex (· < ·) (· < ·) (remaining p heap policy c') (remaining p heap policy c) := by
  by_cases heq : c.state.findings = c'.state.findings
  · have hless := h.resolve_left fun hne => hne heq
    rw [remaining, remaining, heq]
    exact Prod.Lex.right _ hless
  · refine Prod.Lex.left _ _ (Set.ncard_lt_ncard ?_ (finite_findings p heap policy).sdiff)
    obtain ⟨x, hx, hnew⟩ := Set.exists_of_ssubset (hsub.ssubset_of_ne heq)
    refine ⟨Set.sdiff_subset_sdiff_right hsub, fun hle => ?_⟩
    exact (hle ⟨hwithin.findings hx, hnew⟩).2 hx

/-- **Every move finds something that was to be found, or leaves less work.** -/
theorem remaining_explore {c c' : Config} (hindexed : c.state.found.graph.Indexed)
    (hc' : Derivable p heap (Scope.solution p heap policy) c') (hstep : Explores p policy c c') :
    Prod.Lex (· < ·) (· < ·) (remaining p heap policy c') (remaining p heap policy c) := by
  cases hstep with
  | @perform s s' t before after more hperform =>
    have hdoes : Performs p policy s t s' more := .of_perform hperform
    refine remaining_lt hdoes.grows.findings hc'.within ((hdoes.lighter hindexed).imp_right fun hless => ?_)
    simp only [load, List.map_append, List.sum_append, List.map_cons, List.sum_cons, List.map_nil,
      List.sum_nil] at hless ⊢
    omega
  | @absorb s ptr objs queue tasks htakes =>
    have hlength : s.arrivals = (s.withQueue queue).arrivals + 1 := htakes.length
    have hsub : s.findings ⊆ ((s.withQueue queue).absorb ptr objs).2.findings :=
      State.findings_absorb (s.withQueue queue) ptr objs
    refine remaining_lt hsub hc'.within ?_
    cases hfresh : ((s.withQueue queue).absorb ptr objs).1 with
    | nil =>
      right
      have htasks : reachTasks ptr [] = [] := by cases ptr <;> rfl
      rw [State.absorb_of_fst_eq_nil hfresh, htasks, load, load, hlength]
      exact Nat.lt_succ_self _
    | cons o fresh =>
      left
      obtain ⟨ho, hold⟩ := (State.mem_absorb_fst (o := o) (s.withQueue queue)).1
        (by rw [hfresh]; exact List.mem_cons_self)
      have hholds : .object ptr o ∈ ((s.withQueue queue).absorb ptr objs).2.findings :=
        (State.holds_absorb _).2 (Or.inr ⟨rfl, ho⟩)
      intro heq
      rw [← heq] at hholds
      exact hold hholds

/-- **The analysis halts**, with a result or because it gives up. -/
theorem exists_solve (p : Program) (policy : Policy) (heap : Heap) (contexts : Contexts) :
    ∃ fuel ans, solve p policy fuel heap contexts = some ans := by
  have hwf : WellFounded (Prod.Lex (fun x y : Nat => x < y) (fun x y : Nat => x < y)) :=
    WellFounded.prod_lex wellFounded_lt wellFounded_lt
  refine Step.exists_run_of_measure hwf (remaining p heap policy)
    (fun c => Derivable p heap (Scope.solution p heap policy) c ∧ c.state.found.graph.Indexed) ?_
    ⟨derivable_init contexts, CallGraph.indexed_empty⟩
  rintro c c' ⟨hc, hindexed⟩ hstep
  have hexplores : Explores p policy c c' := .of_step hstep
  have hc' := hc.step Scope.closed_solution hstep
  exact ⟨⟨hc', hexplores.indexed hindexed⟩, remaining_explore hindexed hc' hexplores⟩

/-! ### Limits of contexts -/

/-- The contexts of a pointer are within the limits of a policy. -/
def PointerWithin (policy : Policy) : Pointer → Prop
  | .var v => v.ctx.length ≤ policy.limit
  | .static _ => True
  | .field base _ => base.ctx.length ≤ min policy.limit policy.heapLimit
  | .elements array => array.ctx.length ≤ min policy.limit policy.heapLimit

/-- All contexts of a state are within the limits of a policy, next to those that were there
before. -/
structure WithinLimits (policy : Policy) (before : Contexts) (s : State) : Prop where
  reached : ∀ m, s.Reached m → m.ctx.length ≤ policy.limit
  called : ∀ e, s.Called e →
    e.site.ctx.length ≤ policy.limit ∧ e.callee.ctx.length ≤ policy.limit
  sent : ∀ ptr o, s.Sent ptr o →
    PointerWithin policy ptr ∧ o.ctx.length ≤ min policy.limit policy.heapLimit
  objects : ∀ o ∈ s.found.objects, o.ctx.length ≤ min policy.limit policy.heapLimit
  contexts : ∀ c ∈ s.contexts, c ∈ before ∨ c.length ≤ policy.limit

theorem Scope.Target.within {ptr : Pointer} (h : Scope.Target p heap policy ptr) :
    PointerWithin policy ptr := by
  cases h with
  | var hm => exact hm.1.1
  | static => exact trivial
  | field ho => exact ho.1.1
  | elements ho => exact ho.1.1

/-- What a state has met: its contexts and the objects under their heap contexts. -/
def State.met (s : State) : Contexts × OrderedSet CObj := (s.contexts, s.found.objects)

namespace State

theorem met_send (s : State) (ptr : Pointer) (objs : List CObj) : (s.send ptr objs).met = s.met :=
  rfl

theorem met_addFlow (s : State) (a b : Pointer) : (s.addFlow a b).met = s.met := by
  rw [addFlow]
  dsimp only
  split
  · rfl
  · split <;> rfl

@[simp] theorem met_addFlows (s : State) (fs : List (Pointer × Pointer)) :
    (s.addFlows fs).met = s.met := by
  induction fs generalizing s with
  | nil => rfl
  | cons f fs ih => rw [addFlows_cons, ih, met_addFlow]

@[simp] theorem met_absorb (s : State) (ptr : Pointer) (objs : List CObj) :
    (s.absorb ptr objs).2.met = s.met := by
  have hsend (targets : List Pointer) (fresh : List CObj) (s : State) :
      (targets.foldl (fun s t => s.send t fresh) s).met = s.met := by
    induction targets generalizing s with
    | nil => rfl
    | cons t targets ih => rw [List.foldl_cons, ih, met_send]
  rw [absorb]
  dsimp only
  split
  · rfl
  · exact hsend _ _ _

/-- What was met is within the limits of a policy. -/
def MetWithin (policy : Policy) (before : Contexts) (s : State) : Prop :=
  (∀ c ∈ s.met.1, c ∈ before ∨ c.length ≤ policy.limit) ∧
    ∀ o ∈ s.met.2, o.ctx.length ≤ min policy.limit policy.heapLimit

variable {before : Contexts}

theorem MetWithin.meet (h : s.MetWithin policy before) {c : Context}
    (hc : c.length ≤ policy.limit) : (s.meet c).MetWithin policy before := by
  refine ⟨fun c' hc' => ?_, h.2⟩
  rcases OrderedSet.mem_insert.1 hc' with rfl | hold
  · exact Or.inr hc
  · exact h.1 c' hold

theorem MetWithin.addObject (h : s.MetWithin policy before) {o : CObj}
    (ho : o.ctx.length ≤ min policy.limit policy.heapLimit) :
    (s.addObject o).MetWithin policy before := by
  refine ⟨h.1, fun o' ho' => ?_⟩
  rcases OrderedSet.mem_insert.1 ho' with rfl | hold
  · exact ho
  · exact h.2 o' hold

end State

/-- A justified task meets contexts within the limits. -/
theorem Performs.metWithin {before : Contexts} (h : Performs p policy s t s' more)
    (hs : s.MetWithin policy before) (ht : Justified p (Scope.solution p heap policy) t) :
    s'.MetWithin policy before := by
  have hsame (hmet : s'.met = s.met) : s'.MetWithin policy before := by
    rwa [State.MetWithin, hmet]
  cases h with
  | instanceEntry => exact hs.addObject (Nat.zero_le _)
  | allocation m i lhs what =>
    have hctx := Scope.heapContext_mem ht.1.1
    exact (State.MetWithin.meet hs (hctx.1.trans (min_le_left _ _))).addObject hctx.1
  | staticCall m i =>
    exact hs.meet (Scope.staticContext_mem ht.1.1 (Scope.mem_sites ht.1 ht.2.stmt?)).1
  | @receive v o i call callee this =>
    obtain ⟨ho, result, hcall, -⟩ := ht
    have hm : ⟨v.ctx, v.val.method⟩ ∈ (Scope.solution p heap policy).reachable :=
      Scope.Target.mem_reachable (v := v.val.var) ho.1
    exact hs.meet (Scope.receiverContext_mem hm.1 (Scope.mem_sites hm hcall) ho.2).1
  | flow => exact hsame (State.met_addFlows _ _)
  | reach => exact hsame (State.met_addFlows _ _)
  | passAll => exact hsame (by simp)
  | passResult => exact hsame ((State.met_addFlows _ _).trans rfl)
  | _ => exact hs

/-- What a run keeps: it stays within the scope of the program and the limits of the policy. -/
def LimitedRun (p : Program) (policy : Policy) (heap : Heap) (before : Contexts) (c : Config) :
    Prop :=
  Derivable p heap (Scope.solution p heap policy) c ∧ c.state.MetWithin policy before

theorem LimitedRun.step {before : Contexts} {c c' : Config} (h : LimitedRun p policy heap before c)
    (hstep : step p policy c = .next c') : LimitedRun p policy heap before c' := by
  refine ⟨h.1.step Scope.closed_solution hstep, ?_⟩
  cases Advances.of_step hstep with
  | perform hdoes => exact hdoes.metWithin h.2 (h.1.justified _ List.mem_cons_self)
  | absorb =>
    show State.MetWithin policy before _
    rw [State.MetWithin, State.met_absorb]
    exact h.2

/-- **Points-to analysis terminates for every policy, and contexts stay within its limits.** The
steps that are counted are tasks, such as methods that become reachable, and arrivals. -/
theorem solve_terminates (p : Program) (policy : Policy) (heap : Heap) (contexts : Contexts) :
    (∃ fuel ans, solve p policy fuel heap contexts = some ans) ∧
      ∀ n c, Step.stateAfter (step p policy) (init p heap contexts) n = some c →
        WithinLimits policy contexts c.state := by
  refine ⟨exists_solve p policy heap contexts, fun n c hrun => ?_⟩
  have hinit : LimitedRun p policy heap contexts (init p heap contexts) :=
    ⟨derivable_init contexts, fun c hc => Or.inl hc, fun o ho => nomatch ho⟩
  obtain ⟨hc, hcontexts, hobjects⟩ :=
    Step.stateAfter_invariant (fun _ _ => LimitedRun.step) hinit hrun
  refine ⟨fun m hm => (hc.within.reached hm).1.1, fun e he => ?_, fun ptr o ho => ?_, hobjects,
    hcontexts⟩
  · obtain ⟨hsite, hcallee⟩ := hc.within.called he
    exact ⟨hsite.1.1, hcallee.1.1⟩
  · obtain ⟨htarget, hctx, -⟩ := hc.within.sent ho
    exact ⟨htarget.within, hctx.1⟩

end PointsTo

end HeapFlow
