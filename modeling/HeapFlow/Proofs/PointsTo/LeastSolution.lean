import HeapFlow.Proofs.PointsTo.Bounds
import HeapFlow.Proofs.PointsTo.Derivable
import HeapFlow.Proofs.PointsTo.Fulfilled
/-!
# HeapFlow.Proofs.PointsTo.LeastSolution

**A points-to analysis finds the least closed solution.** When a run halts without giving up, no task
and no arrival is left, so what is fulfilled is done: the answer is closed under the rules. What a
run says is within every closed solution, so the answer is the least one. The order in which methods,
edges and objects were discovered has left no trace.
-/

namespace HeapFlow

namespace PointsTo

variable {p : Program} {policy : Policy} {heap : Heap} {s : State}

/-! ### Calls have the kind of their statement -/

/-- The solution that says everything, except for calls that are not at a call statement or of
another kind than their statement. -/
def kindSolution (p : Program) : Solution where
  reachable := Set.univ
  calls := {e | ∃ result call, p.stmt? e.site.val = some (.invoke result call) ∧
    call.kind = e.kind}
  sets _ := Set.univ

theorem closed_kindSolution : Closed p policy heap (kindSolution p) :=
  closed_uniform (fun _ _ _ => Set.mem_univ _) (fun _ _ _ => Set.mem_univ _)
    fun _ _ result call _ hstmt _ => ⟨result, call, hstmt, rfl⟩

/-! ### Where nothing is left to do -/

/-- No task is pending and no object is on its way. -/
structure Finished (p : Program) (policy : Policy) (heap : Heap) (s : State) : Prop where
  complete : Complete p policy heap ⟨s, []⟩
  empty : s.queue.toList = []
  kinds : ∀ e, s.Called e → ∃ result call, p.stmt? e.site.val = some (.invoke result call) ∧
    call.kind = e.kind

namespace Finished

theorem holds (h : Finished p policy heap s) {ptr : Pointer} {o : CObj} (ho : s.Sent ptr o) :
    s.Holds ptr o := by
  rcases ho with hholds | ⟨objs, hmem, -⟩
  · exact hholds
  · rw [h.empty] at hmem
    cases hmem

theorem subset (h : Finished p policy heap s) {a b : Pointer} (hab : s.Flows a b) :
    (Solution.ofResult s.found).sets a ⊆ (Solution.ofResult s.found).sets b := by
  intro o ho
  exact h.holds (h.complete.settled a b o hab ho)

/-- A fulfilled call has an edge, and the edge has the kind of the statement. -/
theorem called (h : Finished p policy heap s) {e : CallGraph.Edge CSite CMethod}
    (he : Fulfilled p policy heap s [] (.call e)) {result : Option Var} {call : Call}
    (hcall : p.stmt? e.site.val = some (.invoke result call)) (hkind : call.kind = e.kind) :
    s.Called e := by
  cases he with
  | pending hmem => cases hmem
  | @call _ kind hcalled =>
    obtain ⟨result', call', hcall', hkind'⟩ := h.kinds _ hcalled
    cases hcall.symm.trans hcall'
    obtain rfl : call.kind = kind := hkind'
    rw [hkind] at hcalled
    exact hcalled

/-- Every static call of a reachable method has an edge to its target. -/
theorem staticCall (h : Finished p policy heap s) {m : CMethod} (hm : s.Reached m) {i : Nat}
    {result : Option Var} {call : Call} (hrun : Runs p m i (.invoke result call))
    (hkind : call.kind = .static) {callee : MethodId}
    (hcallee : p.resolveDirect call = some callee) :
    s.Called ⟨.static, ⟨m.ctx, ⟨m.val, i⟩⟩,
      ⟨policy.staticContext m.ctx ⟨m.val, i⟩, callee⟩⟩ := by
  cases h.complete.visits m hm i _ hrun with
  | pending hmem => cases hmem
  | flow _ hcall _ => exact absurd rfl (hcall _ _)
  | otherCall hother => exact absurd hkind hother
  | staticCall hfulfilled => exact h.called (hfulfilled callee hcallee) hrun.stmt? hkind

/-- The flow edge of a statement of a reachable method is there. -/
theorem stmtFlow (h : Finished p policy heap s) {m : CMethod} (hm : s.Reached m) {i : Nat}
    {stmt : Stmt} (hrun : Runs p m i stmt) {a b : Pointer}
    (hab : stmtFlow? m stmt = some (a, b)) :
    (Solution.ofResult s.found).sets a ⊆ (Solution.ofResult s.found).sets b := by
  cases h.complete.visits m hm i stmt hrun with
  | pending hmem => cases hmem
  | flow _ _ hflow => exact h.subset (hflow a b hab)
  | allocation _ => cases hab
  | otherCall _ => cases hab
  | staticCall _ => cases hab

/-- What follows from an object in the set of a variable. -/
theorem reach (h : Finished p policy heap s) {m : CMethod} {v : Var} {o : CObj}
    (ho : s.Holds (varOf m v) o) :
    (∀ method, p.method? m.val = some method → ∀ a b, Access method ⟨m.ctx, ⟨m.val, v⟩⟩ o a b →
      (Solution.ofResult s.found).sets a ⊆ (Solution.ofResult s.found).sets b) ∧
    ∀ i result call, p.stmt? ⟨m.val, i⟩ = some (.invoke result call) → call.receiver = some v →
      Fulfilled p policy heap s [] (.receive ⟨m.ctx, ⟨m.val, v⟩⟩ o i call) := by
  cases h.complete.reaches _ o ho with
  | pending hmem => cases hmem
  | reach hflow hcall =>
    exact ⟨fun method hmethod a b hab => h.subset (hflow method hmethod a b hab), hcall⟩

/-- What follows from a call edge. -/
theorem pass (h : Finished p policy heap s) {e : CallGraph.Edge CSite CMethod}
    (he : s.Called e) {result : Option Var} {call : Call} {m : Method}
    (hcall : p.stmt? e.site.val = some (.invoke result call))
    (hm : p.method? e.callee.val = some m) :
    (call.args.length = m.params.length →
      ∀ a b, (a, b) ∈ argumentFlows e.site e.callee m call → s.Flows a b) ∧
    ∀ a b, (a, b) ∈ resultFlows e.site e.callee m result → s.Flows a b := by
  cases (h.complete.calls e he).2 with
  | pending hmem => cases hmem
  | pass hpass => exact hpass result call m hcall hm

/-- **A finished analysis is closed under the rules.** -/
theorem closed (h : Finished p policy heap s) :
    Closed p policy heap (Solution.ofResult s.found) where
  entry := by
    intro id hid
    -- here and below: nothing is pending, so what is fulfilled has been done
    cases h.complete.entries id hid with
    | pending hmem => cases hmem
    | start henter _ =>
      cases henter with
      | pending hmem => cases hmem
      | enter hreached => exact hreached
  entryReceiver := by
    intro id hid this hthis
    cases h.complete.entries id hid with
    | pending hmem => cases hmem
    | start _ hreceiver =>
      cases hreceiver with
      | pending hmem => cases hmem
      | entryReceiver hsent => exact h.holds (hsent this hthis)
  allocation := by
    intro m hm i lhs what hrun
    cases h.complete.visits m hm i _ hrun with
    | pending hmem => cases hmem
    | allocation hsent => exact h.holds hsent
    | flow hnew _ _ => exact absurd rfl (hnew _ _)
  copy m hm i lhs v hrun := h.stmtFlow hm hrun rfl
  cast m hm i lhs ty v hrun := h.stmtFlow hm hrun rfl
  staticLoad m hm i lhs f hrun := h.stmtFlow hm hrun rfl
  staticStore m hm i f source hrun := h.stmtFlow hm hrun rfl
  staticCall := by
    intro m hm i result call callee hrun hkind hcallee _
    exact h.staticCall hm hrun hkind hcallee
  fieldStore := by
    intro m i base f source o hstmt ho
    obtain ⟨method, hmethod, hs⟩ := Program.stmt?_eq_some.1 hstmt
    exact (h.reach ho).1 method hmethod _ _ (.fieldStore hs)
  fieldLoad := by
    intro m i lhs base f o hstmt ho
    obtain ⟨method, hmethod, hs⟩ := Program.stmt?_eq_some.1 hstmt
    exact (h.reach ho).1 method hmethod _ _ (.fieldLoad hs)
  arrayStore := by
    intro m i array index source o hstmt ho
    obtain ⟨method, hmethod, hs⟩ := Program.stmt?_eq_some.1 hstmt
    exact (h.reach ho).1 method hmethod _ _ (.arrayStore hs)
  arrayLoad := by
    intro m i lhs array index o hstmt ho
    obtain ⟨method, hmethod, hs⟩ := Program.stmt?_eq_some.1 hstmt
    exact (h.reach ho).1 method hmethod _ _ (.arrayLoad hs)
  receiverCall := by
    intro m i result call v o callee this hstmt hv ho hcallee hthis
    cases (h.reach ho).2 i result call hstmt hv with
    | pending hmem => cases hmem
    | receive hsent hcall =>
      have hedge := h.called (hcall callee this hcallee hthis) hstmt rfl
      exact ⟨hedge, h.holds (hsent callee this hcallee hthis)⟩
  callee := by
    intro e he
    cases (h.complete.calls e he).1 with
    | pending hmem => cases hmem
    | enter hreached => exact hreached
  argument := by
    intro e he result call m hcall hm hbody hlength a q hmem
    obtain ⟨hargs, -⟩ := h.pass he hcall hm
    exact h.subset (hargs hlength _ _ (mem_argumentFlows.2 ⟨hbody, a, q, hmem, rfl, rfl⟩))
  result := by
    intro e he r call m hcall hm v hv
    obtain ⟨-, hresult⟩ := h.pass he hcall hm
    exact h.subset (hresult _ _ (mem_resultFlows.2 ⟨r, v, rfl, hv, rfl, rfl⟩))

end Finished

/-! ### The answer of a run -/

section Answer

variable {fuel : Nat} {contexts : Contexts} {ans : Answer}

/-- **The answer of a run is within every closed solution**, also where the run gave up. -/
theorem solve_within (h : solve p policy fuel heap contexts = some ans) {S : Solution}
    (hS : Closed p policy heap S) : ans.state.Within S := by
  obtain ⟨c, hc, hhalt⟩ := Step.run_invariant (fun _ _ hinv hstep => Derivable.step hS hinv hstep)
    (derivable_init contexts) h
  rw [(step_halt hhalt).1]
  exact hc.within

/-- Calls at one site are of the kind of its statement. -/
theorem kind_eq_of_solve (h : solve p policy fuel heap contexts = some ans) :
    ∀ d ∈ ans.state.found.graph.edges, ∀ e ∈ ans.state.found.graph.edges,
      d.site.val = e.site.val → d.kind = e.kind := by
  intro d hd e he hsite
  have hwithin := solve_within h closed_kindSolution
  obtain ⟨result, call, hcall, hkind⟩ := hwithin.called hd
  obtain ⟨result', call', hcall', hkind'⟩ := hwithin.called he
  rw [hsite] at hcall
  cases hcall.symm.trans hcall'
  exact hkind.symm.trans hkind'

theorem solve_finished (h : solve p policy fuel heap contexts = some ans)
    (hok : ans.failure = none) : Finished p policy heap ans.state := by
  obtain ⟨c, hc, hhalt⟩ := Step.run_invariant (fun _ _ hinv hstep => Complete.step hinv hstep)
    (complete_init contexts) h
  obtain ⟨hstate, hdone⟩ := step_halt hhalt
  obtain ⟨htasks, hempty⟩ := hdone hok
  obtain rfl : c = ⟨ans.state, []⟩ := by
    rw [hstate, ← htasks]
  have hclosed : Closed p policy heap (kindSolution p) := closed_kindSolution
  exact ⟨hc, hempty, fun e he => (solve_within h hclosed).called he⟩

theorem ofResult_le_of_within {S : Solution} (h : s.Within S) : Solution.ofResult s.found ≤ S :=
  ⟨fun _ hm => h.reached hm, fun _ he => h.called he,
    fun _ _ ho => h.sent (State.Holds.sent ho)⟩

/-- **The analysis finds the least closed solution.** An analysis that does not give up moreover
resolves every static call of a reachable method, without regard to what its target is. -/
theorem solve_isLeast (h : solve p policy fuel heap contexts = some ans)
    (hok : ans.failure = none) :
    IsLeast {S | Closed p policy heap S} (Solution.ofResult ans.state.found) ∧
      ∀ m ∈ (Solution.ofResult ans.state.found).reachable, ∀ i result call callee,
        Runs p m i (.invoke result call) → call.kind = .static →
        p.resolveDirect call = some callee →
        ⟨.static, ⟨m.ctx, ⟨m.val, i⟩⟩, ⟨policy.staticContext m.ctx ⟨m.val, i⟩, callee⟩⟩ ∈
          (Solution.ofResult ans.state.found).calls := by
  have hfinished := solve_finished h hok
  refine ⟨⟨hfinished.closed, ?_⟩, ?_⟩
  · intro S hS
    exact ofResult_le_of_within (solve_within h hS)
  · intro m hm i result call callee hrun hkind hcallee
    exact hfinished.staticCall hm hrun hkind hcallee

end Answer

/-- A class whose static method allocates an object of the class and calls a method on it. -/
def cellProgram : Program where
  classes :=
    let cell : ClassRef := ⟨0, "Cell"⟩
    let x : Var := ⟨0, "x", .cls cell⟩
    [{ Class.declare cell false false with methods := [
      { Method.declare ⟨cell, 0⟩ "main" [] .void true false with
        vars := [x]
        body := [⟨.assign x (.new (.object cell)), 1⟩,
          ⟨.invoke none ⟨.virtual, some cell, "void run()", some x, []⟩, 2⟩, ⟨.ret none, 3⟩] },
      { Method.declare ⟨cell, 1⟩ "run" [] .void false false with body := [⟨.ret none, 5⟩] }] }]
  entries := [⟨⟨0, "Cell"⟩, 0⟩]

/-- The analysis of `cellProgram` by receiver objects ends, so it finds the least solution. -/
theorem cellProgram_isLeast : ∃ ans,
    solve cellProgram (.limited .object 2 1) 20 .empty .initial = some ans ∧
      ans.failure = none ∧ ans.state.found.graph.edges.length = 1 ∧
      IsLeast {S | Closed cellProgram (.limited .object 2 1) .empty S}
        (Solution.ofResult ans.state.found) := by
  have hrun : (solve cellProgram (.limited .object 2 1) 20 .empty .initial).map
      (fun ans => (ans.failure, ans.state.found.graph.edges.length)) = some (none, 1) := by
    decide +kernel
  obtain ⟨ans, hans, hresult⟩ := Option.map_eq_some_iff.1 hrun
  obtain ⟨hok, hedges⟩ := Prod.mk.inj hresult
  exact ⟨ans, hans, hok, hedges, (solve_isLeast hans hok).1⟩

end PointsTo

end HeapFlow
