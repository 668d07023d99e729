import HeapFlow.Proofs.PointsTo.LeastSolution
import HeapFlow.Proofs.PointsTo.StaticCalls
import HeapFlow.Proofs.PointsTo.Termination
/-!
# HeapFlow.Proofs.PointsTo.Failures

**Whether a points-to analysis fails is decided by the rules alone.** The rules have a least solution,
also where the analysis fails: a static call whose target is an instance method adds nothing to it.
The analysis fails exactly if the least solution reaches a method with such a call (`Offends`). The
call may be visited long before the solution is complete, so two things are needed: whatever was
reached when a visit failed is in every closed solution, and an exploration that ends without a
failure has visited every statement of every method of the least solution.

All of this holds of explorations in any order. Each of them ends, and either all of them fail or
none does.
-/

namespace HeapFlow

namespace PointsTo

variable {p : Program} {policy : Policy} {heap : Heap} {contexts : Contexts}

/-! ### The least solution -/

section Least

variable (p policy heap)

/-- What every closed solution says. -/
def leastSolution : Solution where
  reachable := {m | ∀ S, Closed p policy heap S → m ∈ S.reachable}
  calls := {e | ∀ S, Closed p policy heap S → e ∈ S.calls}
  sets ptr := {o | ∀ S, Closed p policy heap S → o ∈ S.sets ptr}

/-- Each rule concludes from what the closed solutions have in common what they have in common. -/
theorem closed_leastSolution : Closed p policy heap (leastSolution p policy heap) where
  entry id hid _ hS := hS.entry id hid
  entryReceiver id hid this hthis _ hS := hS.entryReceiver id hid this hthis
  allocation m hm i lhs what hrun S hS := hS.allocation m (hm S hS) i lhs what hrun
  copy m hm i lhs v hrun _ ho S hS := hS.copy m (hm S hS) i lhs v hrun (ho S hS)
  cast m hm i lhs ty v hrun _ ho S hS := hS.cast m (hm S hS) i lhs ty v hrun (ho S hS)
  staticLoad m hm i lhs f hrun _ ho S hS := hS.staticLoad m (hm S hS) i lhs f hrun (ho S hS)
  staticStore m hm i f source hrun _ ho S hS :=
    hS.staticStore m (hm S hS) i f source hrun (ho S hS)
  staticCall m hm i result call callee hrun hkind hcallee hstatic S hS :=
    hS.staticCall m (hm S hS) i result call callee hrun hkind hcallee hstatic
  fieldStore m i base f source o hstmt ho _ ho' S hS :=
    hS.fieldStore m i base f source o hstmt (ho S hS) (ho' S hS)
  fieldLoad m i lhs base f o hstmt ho _ ho' S hS :=
    hS.fieldLoad m i lhs base f o hstmt (ho S hS) (ho' S hS)
  arrayStore m i array index source o hstmt ho _ ho' S hS :=
    hS.arrayStore m i array index source o hstmt (ho S hS) (ho' S hS)
  arrayLoad m i lhs array index o hstmt ho _ ho' S hS :=
    hS.arrayLoad m i lhs array index o hstmt (ho S hS) (ho' S hS)
  receiverCall m i result call v o callee this hstmt hv ho hcallee hthis :=
    have both (S : Solution) (hS : Closed p policy heap S) :=
      hS.receiverCall m i result call v o callee this hstmt hv (ho S hS) hcallee hthis
    ⟨fun S hS => (both S hS).1, fun S hS => (both S hS).2⟩
  callee e he S hS := hS.callee e (he S hS)
  argument e he result call m hstmt hm hbody hlength a q hmem _ ho S hS :=
    hS.argument e (he S hS) result call m hstmt hm hbody hlength a q hmem (ho S hS)
  result e he r call m hstmt hm v hv _ ho S hS :=
    hS.result e (he S hS) r call m hstmt hm v hv (ho S hS)

theorem isLeast_leastSolution :
    IsLeast {S | Closed p policy heap S} (leastSolution p policy heap) :=
  ⟨closed_leastSolution p policy heap,
    fun S hS => ⟨fun _ hm => hm S hS, fun _ he => he S hS, fun _ _ ho => ho S hS⟩⟩

end Least

/-- The solution reaches, under some context, the method of a site at which a static call has an
instance method for its target. -/
def Offends (p : Program) (S : Solution) (site : Site) (callee : MethodId) : Prop :=
  ∃ ctx stmt, ⟨ctx, site.method⟩ ∈ S.reachable ∧ Runs p ⟨ctx, site.method⟩ site.index stmt ∧
    CallsInstance p stmt callee

/-! ### Explorations -/

/-- What can be reached from the start of an analysis, by moves in any order. -/
def Explored (p : Program) (policy : Policy) (heap : Heap) (contexts : Contexts) : Config → Prop :=
  Relation.ReflTransGen (Explores p policy) (init p heap contexts)

namespace Explored

variable {c : Config}

/-- What the start has and every move keeps. -/
theorem invariant {Inv : Config → Prop} (hinit : Inv (init p heap contexts))
    (hmove : ∀ c c', Inv c → Explores p policy c c' → Inv c')
    (h : Explored p policy heap contexts c) : Inv c := by
  induction h with
  | refl => exact hinit
  | tail _ hstep ih => exact hmove _ _ ih hstep

theorem derivable (h : Explored p policy heap contexts c) {S : Solution}
    (hS : Closed p policy heap S) : Derivable p heap S c :=
  h.invariant (derivable_init contexts) fun _ _ => Derivable.explore hS

theorem complete (h : Explored p policy heap contexts c) : Complete p policy heap c :=
  h.invariant (complete_init contexts) fun _ _ => Complete.explore

theorem allVisited (h : Explored p policy heap contexts c) : AllVisited p c :=
  h.invariant (allVisited_init contexts) fun _ _ => AllVisited.explore

/-- An exploration with nothing left to do has found a closed solution. -/
theorem closed (h : Explored p policy heap contexts c) (htasks : c.tasks = [])
    (hqueue : c.state.queue.toList = []) :
    Closed p policy heap (Solution.ofResult c.state.found) := by
  have hcomplete : Complete p policy heap ⟨c.state, []⟩ := htasks ▸ h.complete
  have hkinds : Derivable p heap (kindSolution p) c := h.derivable closed_kindSolution
  exact Finished.closed ⟨hcomplete, hqueue, fun _ he => hkinds.within.called he⟩

/-- **An exploration that ends fails exactly if a call offends.** The failure names such a call. -/
theorem ends_iff {failure : Option Failure} (h : Explored p policy heap contexts c)
    (hends : Ends p policy c failure) :
    (failure ≠ none ↔ ∃ site callee, Offends p (leastSolution p policy heap) site callee) ∧
    ∀ f, failure = some f → ∃ site callee, f = .instanceCallee site callee ∧
      Offends p (leastSolution p policy heap) site callee := by
  cases hends with
  | @fails t f ht herror =>
    obtain ⟨m, i, stmt, callee, rfl, hinstance, rfl⟩ := perform_eq_error herror
    have hjustified := (h.derivable (closed_leastSolution p policy heap)).justified _ ht
    obtain ⟨hreachable, hrun⟩ : m ∈ _ ∧ Runs p m i stmt := hjustified
    have hoffends : Offends p (leastSolution p policy heap) ⟨m.val, i⟩ callee :=
      ⟨m.ctx, stmt, hreachable, hrun, hinstance⟩
    refine ⟨iff_of_true (Option.some_ne_none _) ⟨_, _, hoffends⟩, fun f hf => ?_⟩
    obtain rfl := Option.some.inj hf
    exact ⟨_, _, rfl, hoffends⟩
  | finishes htasks hqueue =>
    refine ⟨iff_of_false (fun hne => hne rfl) ?_, fun f hf => nomatch hf⟩
    rintro ⟨site, callee, ctx, stmt, hreachable, hrun, hinstance⟩
    -- the method has been reached, so its statements have been visited
    have hreached : c.state.Reached ⟨ctx, site.method⟩ :=
      hreachable _ (h.closed htasks hqueue)
    have hvisited := h.allVisited _ hreached _ _ hrun
    rw [htasks] at hvisited
    have hstatic : CallsStatic p stmt := hvisited.resolve_left List.not_mem_nil
    exact callsStatic_iff.1 hstatic callee hinstance

end Explored

/-- No exploration goes on for ever. -/
theorem no_endless_exploration (p : Program) (policy : Policy) (heap : Heap)
    (contexts : Contexts) : ¬ ∃ run : Nat → Config, run 0 = init p heap contexts ∧
      ∀ n, Explores p policy (run n) (run (n + 1)) := by
  intro ⟨run, hinit, hrun⟩
  have hexplored (n : Nat) : Explored p policy heap contexts (run n) := by
    induction n with
    | zero =>
      rw [hinit]
      exact .refl
    | succ n ih => exact ih.tail (hrun n)
  -- along the moves the measure would decrease for ever
  have hwf : WellFounded (Prod.Lex (fun x y : Nat => x < y) (fun x y : Nat => x < y)) :=
    WellFounded.prod_lex wellFounded_lt wellFounded_lt
  obtain ⟨n, hn⟩ := WellFounded.not_rel_apply_succ (h := ⟨hwf⟩)
    fun n => remaining p heap policy (run n)
  have hscope : Closed p policy heap (Scope.solution p heap policy) := Scope.closed_solution
  exact hn (remaining_explore (hexplored n).complete.indexed
    ((hexplored (n + 1)).derivable hscope) (hrun n))

/-- The run of the machine is an exploration that ends. -/
theorem exists_explored_of_solve {fuel : Nat} {ans : Answer}
    (h : solve p policy fuel heap contexts = some ans) :
    ∃ c, Explored p policy heap contexts c ∧ Ends p policy c ans.failure := by
  have hmove (c c' : Config) (hc : Explored p policy heap contexts c)
      (hstep : step p policy c = .next c') : Explored p policy heap contexts c' :=
    hc.tail (.of_step hstep)
  have hinit : Explored p policy heap contexts (init p heap contexts) := .refl
  obtain ⟨c, hc, hhalt⟩ := Step.run_invariant hmove hinit h
  exact ⟨c, hc, (Ends.of_step hhalt).2⟩

/-- **An analysis fails exactly if, in the least solution of the rules, a static call of an instance
method is reached**, and its failure names such a call. There is always an answer, and other orders
of discovery change nothing: every exploration comes to an end, and it fails in the same case. -/
theorem fails_iff_offends (p : Program) (policy : Policy) (heap : Heap) (contexts : Contexts) :
    IsLeast {S | Closed p policy heap S} (leastSolution p policy heap) ∧
    (∃ fuel ans, solve p policy fuel heap contexts = some ans) ∧
    (∀ fuel ans, solve p policy fuel heap contexts = some ans →
      (ans.failure ≠ none ↔ ∃ site callee, Offends p (leastSolution p policy heap) site callee) ∧
      ∀ f, ans.failure = some f → ∃ site callee, f = .instanceCallee site callee ∧
        Offends p (leastSolution p policy heap) site callee) ∧
    (∀ c failure, Explored p policy heap contexts c → Ends p policy c failure →
      (failure ≠ none ↔ ∃ site callee, Offends p (leastSolution p policy heap) site callee)) ∧
    (∀ c, (∃ c', Explores p policy c c') ∨ ∃ failure, Ends p policy c failure) ∧
    ¬ ∃ run : Nat → Config, run 0 = init p heap contexts ∧
      ∀ n, Explores p policy (run n) (run (n + 1)) := by
  refine ⟨isLeast_leastSolution p policy heap, exists_solve p policy heap contexts, ?_, ?_,
    exists_explores_or_ends, no_endless_exploration p policy heap contexts⟩
  · intro fuel ans h
    obtain ⟨c, hc, hends⟩ := exists_explored_of_solve h
    exact hc.ends_iff hends
  · intro c failure hc hends
    exact (hc.ends_iff hends).1

/-- A method calls another one on an object that it allocates, and only that method has a static
call of an instance method. -/
def misusedProgram : Program where
  classes :=
    let cell : ClassRef := ⟨0, "Cell"⟩
    let x : Var := ⟨0, "x", .cls cell⟩
    [{ Class.declare cell false false with methods := [
      { Method.declare ⟨cell, 0⟩ "main" [] .void true false with
        vars := [x]
        body := [⟨.assign x (.new (.object cell)), 1⟩,
          ⟨.invoke none ⟨.virtual, some cell, "void run()", some x, []⟩, 2⟩, ⟨.ret none, 3⟩] },
      { Method.declare ⟨cell, 1⟩ "run" [] .void false false with
        body := [⟨.invoke none ⟨.static, some cell, "void run()", none, []⟩, 5⟩, ⟨.ret none, 6⟩] }] }]
  entries := [⟨⟨0, "Cell"⟩, 0⟩]

/-- The analysis of `misusedProgram` fails once the object has reached the receiver, so the call
offends in the least solution. -/
theorem misusedProgram_fails : ∃ ans,
    solve misusedProgram (.limited .object 2 1) 20 .empty .initial = some ans ∧
      ans.failure = some (.instanceCallee ⟨⟨⟨0, "Cell"⟩, 1⟩, 0⟩ ⟨⟨0, "Cell"⟩, 1⟩) ∧
      Offends misusedProgram (leastSolution misusedProgram (.limited .object 2 1) .empty)
        ⟨⟨⟨0, "Cell"⟩, 1⟩, 0⟩ ⟨⟨0, "Cell"⟩, 1⟩ := by
  have hrun : (solve misusedProgram (.limited .object 2 1) 20 .empty .initial).map
      Answer.failure = some (some (.instanceCallee ⟨⟨⟨0, "Cell"⟩, 1⟩, 0⟩ ⟨⟨0, "Cell"⟩, 1⟩)) := by
    decide +kernel
  obtain ⟨ans, hans, hfailure⟩ := Option.map_eq_some_iff.1 hrun
  obtain ⟨-, -, hsolve, -⟩ :=
    fails_iff_offends misusedProgram (.limited .object 2 1) .empty .initial
  obtain ⟨site, callee, heq, hoffends⟩ := (hsolve 20 ans hans).2 _ hfailure
  obtain ⟨rfl, rfl⟩ := Failure.instanceCallee.inj heq
  exact ⟨ans, hans, hfailure, hoffends⟩

end PointsTo

end HeapFlow
