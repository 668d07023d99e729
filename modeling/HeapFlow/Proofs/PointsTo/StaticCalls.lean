import HeapFlow.Proofs.PointsTo.Derivable
import HeapFlow.Proofs.PointsTo.Fulfilled
/-!
# HeapFlow.Proofs.PointsTo.StaticCalls

**When a points-to analysis gives up.** It gives up when it visits a static call whose target is an
instance method. A run that halts without giving up has visited every statement of every reachable
method (`AllVisited`), so it has no such call; a run that gives up has one in a method that every
closed solution says to be reachable.
-/

namespace HeapFlow

namespace PointsTo

variable {p : Program} {policy : Policy} {heap : Heap} {s s' : State} {t : Task}
  {tasks more : List Task}

/-- If the statement is a static call, its target is a static method. -/
def CallsStatic (p : Program) (stmt : Stmt) : Prop :=
  ∀ result call callee, stmt = .invoke result call → call.kind = .static →
    p.resolveDirect call = some callee → (p.method? callee).any Method.isStatic = true

/-- The statement is a static call, and its target is not a static method. -/
def CallsInstance (p : Program) (stmt : Stmt) (callee : MethodId) : Prop :=
  ∃ result call, stmt = .invoke result call ∧ call.kind = .static ∧
    p.resolveDirect call = some callee ∧ (p.method? callee).any Method.isStatic = false

theorem callsStatic_iff {stmt : Stmt} :
    CallsStatic p stmt ↔ ∀ callee, ¬ CallsInstance p stmt callee := by
  constructor
  · rintro h callee ⟨result, call, hstmt, hkind, hcallee, hinstance⟩
    rw [h result call callee hstmt hkind hcallee] at hinstance
    cases hinstance
  · intro h result call callee hstmt hkind hcallee
    by_contra hstatic
    exact h callee ⟨result, call, hstmt, hkind, hcallee, Bool.eq_false_iff.2 hstatic⟩

/-- A successful visit has checked the target of a static call. -/
theorem Performs.callsStatic {m : CMethod} {i : Nat} {stmt : Stmt}
    (h : Performs p policy s (.visit m i stmt) s' more) : CallsStatic p stmt := by
  intro result call callee hstmt hkind hcallee
  cases h with
  | allocation => cases hstmt
  | flow _ _ _ hcall => exact absurd hstmt (hcall result call)
  | otherCall _ _ _ hother =>
    cases hstmt
    exact absurd hkind hother
  | unresolvedStatic _ _ _ _ hnone =>
    cases hstmt
    cases hnone.symm.trans hcallee
  | staticCall _ _ _ _ hresolved hstatic =>
    cases hstmt
    cases hresolved.symm.trans hcallee
    exact hstatic

/-- **Only visits fail, and only at static calls of instance methods.** The failure names the call
and its target. -/
theorem perform_eq_error {f : Failure} (h : perform p policy s t = .error f) :
    ∃ m i stmt callee, t = .visit m i stmt ∧ CallsInstance p stmt callee ∧
      f = .instanceCallee ⟨m.val, i⟩ callee := by
  cases t with
  | visit m i stmt =>
    change visit p policy s m i stmt = .error f at h
    unfold visit at h
    split at h
    · cases h
    · rename_i result call
      by_cases hkind : call.kind = .static
      · rw [if_pos hkind, callStatic, resolveByReceiver_static hkind] at h
        cases hcallee : p.resolveDirect call with
        | none =>
          rw [hcallee] at h
          cases h
        | some callee =>
          rw [hcallee] at h
          dsimp only at h
          split at h
          · cases h
          · rename_i hinstance
            rw [any_isStatic_iff] at hinstance
            cases h
            exact ⟨m, i, .invoke result call, callee, rfl,
              ⟨result, call, rfl, hkind, hcallee, Bool.eq_false_iff.2 hinstance⟩, rfl⟩
      · rw [if_neg hkind] at h
        cases h
    · cases h
  | _ => cases h

/-! ### Every statement is visited -/

/-- Statements of reachable methods whose visit is not pending have passed it. -/
def AllVisited (p : Program) (c : Config) : Prop :=
  ∀ m, c.state.Reached m → ∀ i stmt, Runs p m i stmt →
    .visit m i stmt ∈ c.tasks ∨ CallsStatic p stmt

theorem allVisited_init (contexts : Contexts) : AllVisited p (init p heap contexts) :=
  fun m hm => absurd hm (State.not_reached_start heap contexts m)

theorem AllVisited.explore {c c' : Config} (h : AllVisited p c)
    (hstep : Explores p policy c c') : AllVisited p c' := by
  intro m hm i stmt hrun
  cases hstep with
  | @perform s s' t before after more hperform horder =>
    have hdoes : Performs p policy s t s' more := .of_perform hperform
    rcases hdoes.reached hm with hold | hnew
    · rcases h m hold i stmt hrun with hmem | hstatic
      · rcases List.mem_append.1 hmem with hmem | hmem
        · exact Or.inl (List.mem_append_left _ (List.mem_append_left _ hmem))
        · rcases List.mem_cons.1 hmem with rfl | hmem
          · exact Or.inr hdoes.callsStatic
          · exact Or.inl (List.mem_append_right _ hmem)
      · exact Or.inr hstatic
    · exact Or.inl (List.mem_append_left _ (List.mem_append_right _ (hnew i stmt hrun)))
  | @absorb s ptr objs queue tasks =>
    have hold : s.Reached m := (State.reached_absorb (s.withQueue queue)).1 hm
    exact (h m hold i stmt hrun).imp_left (List.mem_append_right _)

variable {fuel : Nat} {contexts : Contexts} {ans : Answer}

/-- **Where an analysis does not give up, static calls of reachable methods call static methods.** -/
theorem callsStatic_of_solve (h : solve p policy fuel heap contexts = some ans)
    (hok : ans.failure = none) {m : CMethod} (hm : ans.state.Reached m) {i : Nat} {stmt : Stmt}
    (hrun : Runs p m i stmt) : CallsStatic p stmt := by
  obtain ⟨c, hc, hhalt⟩ := Step.run_invariant
    (fun _ _ hinv hstep => AllVisited.explore hinv (.of_step hstep)) (allVisited_init contexts) h
  obtain ⟨hstate, hdone⟩ := step_halt hhalt
  rw [hstate] at hm
  refine (hc m hm i stmt hrun).resolve_left ?_
  rw [(hdone hok).1]
  exact List.not_mem_nil

/-- **Where an analysis gives up, some method has a static call of an instance method**, and the
method is reachable by the rules. -/
theorem exists_not_callsStatic_of_solve (h : solve p policy fuel heap contexts = some ans)
    (hfail : ans.failure ≠ none) {S : Solution} (hS : Closed p policy heap S) :
    ∃ m ∈ S.reachable, ∃ i stmt, Runs p m i stmt ∧ ¬ CallsStatic p stmt := by
  obtain ⟨c, hc, hhalt⟩ := Step.run_invariant (fun _ _ hinv hstep => Derivable.step hS hinv hstep)
    (derivable_init contexts) h
  obtain ⟨f, hf⟩ := Option.ne_none_iff_exists'.1 hfail
  have hends : Ends p policy c (some f) := hf ▸ (Ends.of_step hhalt).2
  cases hends with
  | fails ht herror =>
    obtain ⟨m, i, stmt, callee, rfl, hinstance, -⟩ := perform_eq_error herror
    obtain ⟨hreachable, hrun⟩ := hc.justified _ ht
    exact ⟨m, hreachable, i, stmt, hrun, fun hstatic => callsStatic_iff.1 hstatic callee hinstance⟩

end PointsTo

end HeapFlow
