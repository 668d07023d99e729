/-!
# HeapFlow.Data.Run

**Running a machine step by step.** The solvers are machines: one total function takes a state to
the next state or halts with an answer. `run` repeats it at most `fuel` times. Running out of fuel
is an outcome of its own, and an answer does not change when there is more fuel (`run_mono`).
-/

namespace HeapFlow

/-- What one step of a machine does. -/
inductive Step (σ ρ : Type)
  /-- Goes on from a state. -/
  | next (state : σ)
  /-- Halts with an answer. -/
  | halt (answer : ρ)

namespace Step

variable {σ ρ : Type}

/-- Runs a machine for at most `fuel` steps; `none` if it has not halted by then. -/
def run (step : σ → Step σ ρ) : Nat → σ → Option ρ
  | 0, _ => none
  | fuel + 1, s =>
    match step s with
    | .next s => run step fuel s
    | .halt r => some r

theorem run_succ (step : σ → Step σ ρ) (fuel : Nat) (s : σ) :
    run step (fuel + 1) s = match step s with
      | .next s => run step fuel s
      | .halt r => some r := rfl

/-- **More fuel keeps an answer.** -/
theorem run_mono {step : σ → Step σ ρ} {fuel more : Nat} {s : σ} {r : ρ} (hle : fuel ≤ more)
    (h : run step fuel s = some r) : run step more s = some r := by
  induction fuel generalizing more s with
  | zero => cases h
  | succ fuel ih =>
    obtain ⟨more, rfl⟩ : ∃ k, more = k + 1 := ⟨more - 1, by omega⟩
    rw [run_succ] at h ⊢
    cases hs : step s with
    | next s' =>
      rw [hs] at h
      exact ih (Nat.le_of_succ_le_succ hle) h
    | halt r' =>
      rw [hs] at h
      exact h

/-- A machine has one answer, however much fuel there is. -/
theorem run_unique {step : σ → Step σ ρ} {fuel fuel' : Nat} {s : σ} {r r' : ρ}
    (h : run step fuel s = some r) (h' : run step fuel' s = some r') : r = r' := by
  have hmax := run_mono (Nat.le_max_left fuel fuel') h
  rw [run_mono (Nat.le_max_right fuel fuel') h'] at hmax
  exact (Option.some.inj hmax).symm

/-- **What every step keeps holds where the machine halts.** -/
theorem run_invariant {step : σ → Step σ ρ} {Inv : σ → Prop}
    (hstep : ∀ s s', Inv s → step s = .next s' → Inv s') {fuel : Nat} {s : σ} {r : ρ} (hs : Inv s)
    (h : run step fuel s = some r) : ∃ s', Inv s' ∧ step s' = .halt r := by
  induction fuel generalizing s with
  | zero => cases h
  | succ fuel ih =>
    rw [run_succ] at h
    cases hn : step s with
    | next s' =>
      rw [hn] at h
      exact ih (hstep s s' hs hn) h
    | halt r' =>
      rw [hn] at h
      exact ⟨s, hs, hn.trans (congrArg Step.halt (Option.some.inj h))⟩

/-! ### The states of a run -/

/-- The state from which a step goes on. -/
def state? : Step σ ρ → Option σ
  | next s => some s
  | halt _ => none

/-- The state after some steps, unless the machine has halted by then. -/
def stateAfter (step : σ → Step σ ρ) (s : σ) : Nat → Option σ
  | 0 => some s
  | n + 1 => (stateAfter step s n).bind fun t => (step t).state?

variable {step : σ → Step σ ρ} {s t : σ} {n : Nat}

theorem stateAfter_succ_eq_some :
    stateAfter step s (n + 1) = some t ↔ ∃ u, stateAfter step s n = some u ∧ step u = .next t := by
  rw [stateAfter, Option.bind_eq_some_iff]
  refine exists_congr fun u => and_congr_right fun _ => ?_
  cases step u <;> simp [state?]

/-- A run is continued from the state that it has reached. -/
theorem run_add (h : stateAfter step s n = some t) (fuel : Nat) :
    run step (n + fuel) s = run step fuel t := by
  induction n generalizing t fuel with
  | zero =>
    cases h
    rw [Nat.zero_add]
  | succ n ih =>
    obtain ⟨u, hu, hnext⟩ := stateAfter_succ_eq_some.1 h
    rw [Nat.add_right_comm, Nat.add_assoc, ih hu, run_succ, hnext]

/-- Before a state that a run reaches there are others. -/
theorem exists_stateAfter_of_le {m : Nat} (h : stateAfter step s n = some t) (hle : m ≤ n) :
    ∃ u, stateAfter step s m = some u := by
  induction n generalizing t with
  | zero => exact ⟨t, by rw [Nat.le_zero.1 hle]; exact h⟩
  | succ n ih =>
    obtain hlt | heq := Nat.lt_or_eq_of_le hle
    · obtain ⟨u, hu, -⟩ := stateAfter_succ_eq_some.1 h
      exact ih hu (Nat.le_of_lt_succ hlt)
    · exact ⟨t, heq ▸ h⟩

/-- A machine has an answer after some steps exactly if it has halted by then. -/
theorem run_isSome_iff : (run step n s).isSome = true ↔ stateAfter step s n = none := by
  constructor
  · intro h
    cases hs : stateAfter step s n with
    | none => rfl
    | some t =>
      have hrun := run_add hs 0
      rw [Nat.add_zero] at hrun
      rw [hrun] at h
      cases h
  · intro h
    induction n with
    | zero => cases h
    | succ n ih =>
      cases hs : stateAfter step s n with
      | none =>
        obtain ⟨r, hr⟩ := Option.isSome_iff_exists.1 (ih hs)
        rw [run_mono (Nat.le_succ n) hr]
        rfl
      | some t =>
        rw [run_add hs 1, run_succ]
        cases ht : step t with
        | halt r => rfl
        | next u =>
          have hu : stateAfter step s (n + 1) = some u := stateAfter_succ_eq_some.2 ⟨t, hs, ht⟩
          rw [h] at hu
          cases hu

/-- What every step keeps holds of every state of a run. -/
theorem stateAfter_invariant {Inv : σ → Prop}
    (hstep : ∀ s s', Inv s → step s = .next s' → Inv s') (hs : Inv s)
    (h : stateAfter step s n = some t) : Inv t := by
  induction n generalizing t with
  | zero =>
    cases h
    exact hs
  | succ n ih =>
    obtain ⟨u, hu, hnext⟩ := stateAfter_succ_eq_some.1 h
    exact hstep u t (ih hu) hnext

/-- **A machine whose steps decrease a measure halts.** -/
theorem exists_run_of_measure {α : Type} {lt : α → α → Prop} (hlt : WellFounded lt)
    (measure : σ → α) (Inv : σ → Prop)
    (hstep : ∀ s s', Inv s → step s = .next s' → Inv s' ∧ lt (measure s') (measure s))
    (hs : Inv s) : ∃ fuel r, run step fuel s = some r := by
  induction s using (InvImage.wf measure hlt).induction with
  | h s ih =>
    cases hn : step s with
    | halt r => exact ⟨1, r, by rw [run_succ, hn]⟩
    | next s' =>
      obtain ⟨hinv, hless⟩ := hstep s s' hs hn
      obtain ⟨fuel, r, hr⟩ := ih s' hless hinv
      exact ⟨fuel + 1, r, by rw [run_succ, hn]; exact hr⟩

/-- More fuel than a measure suffices. -/
theorem exists_run_of_measure_lt (measure : σ → Nat) (Inv : σ → Prop)
    (hstep : ∀ s s', Inv s → step s = .next s' → Inv s' ∧ measure s' < measure s) (hs : Inv s)
    {fuel : Nat} (hfuel : measure s < fuel) : ∃ r, run step fuel s = some r := by
  induction fuel generalizing s with
  | zero => exact absurd hfuel (Nat.not_lt_zero _)
  | succ fuel ih =>
    rw [run_succ]
    cases hn : step s with
    | halt r => exact ⟨r, rfl⟩
    | next s' =>
      obtain ⟨hinv, hless⟩ := hstep s s' hs hn
      exact ih hinv (Nat.lt_of_lt_of_le hless (Nat.le_of_lt_succ hfuel))

/-- **A machine all of whose steps decrease a measure, but for some, halts exactly if it takes only
finitely many of those.** -/
theorem exists_run_iff_finitely_many {α : Type} {lt : α → α → Prop} (hlt : WellFounded lt)
    (measure : σ → α) (Inv Bad : σ → Prop) (hinv : ∀ s s', Inv s → step s = .next s' → Inv s')
    (hless : ∀ s s', Inv s → ¬ Bad s → step s = .next s' → lt (measure s') (measure s))
    (hs : Inv s) : (∃ fuel r, run step fuel s = some r) ↔
      ∃ n, ∀ k, n ≤ k → ∀ t, stateAfter step s k = some t → ¬ Bad t := by
  constructor
  · intro ⟨fuel, r, hr⟩
    refine ⟨fuel, fun k hk t ht => ?_⟩
    -- the run has halted before
    have hhalted : stateAfter step s k = none :=
      run_isSome_iff.1 (Option.isSome_iff_exists.2 ⟨r, run_mono hk hr⟩)
    rw [hhalted] at ht
    cases ht
  · intro ⟨n, hno⟩
    cases hn : stateAfter step s n with
    | none => exact ⟨n, Option.isSome_iff_exists.1 (run_isSome_iff.2 hn)⟩
    | some t =>
      have hend : ∃ fuel r, run step fuel t = some r := by
        refine exists_run_of_measure hlt measure
          (fun u => Inv u ∧ ∃ k, n ≤ k ∧ stateAfter step s k = some u) ?_
          ⟨stateAfter_invariant hinv hs hn, n, Nat.le_refl n, hn⟩
        intro u u' ⟨hu, k, hk, hreached⟩ hnext
        refine ⟨⟨hinv u u' hu hnext, k + 1, Nat.le_succ_of_le hk, ?_⟩, ?_⟩
        · exact stateAfter_succ_eq_some.2 ⟨u, hreached, hnext⟩
        · exact hless u u' hu (hno k hk u hreached) hnext
      obtain ⟨fuel, r, hr⟩ := hend
      exact ⟨n + fuel, r, (run_add hn fuel).trans hr⟩

/-- **A machine that can always go on within an invariant never halts.** -/
theorem run_eq_none (Inv : σ → Prop) (hstep : ∀ s, Inv s → ∃ s', step s = .next s' ∧ Inv s')
    (hs : Inv s) (fuel : Nat) : run step fuel s = none := by
  induction fuel generalizing s with
  | zero => rfl
  | succ fuel ih =>
    obtain ⟨s', hnext, hinv⟩ := hstep s hs
    rw [run_succ, hnext]
    exact ih hinv

/-- **A run that comes back to what it was never halts,** where `Same` relates states from which the
same steps follow. -/
theorem run_eq_none_of_cycle {Same : σ → σ → Prop} (hrefl : ∀ s, Same s s)
    (htrans : ∀ {s t u}, Same s t → Same t u → Same s u)
    (hsame : ∀ {s t s'}, Same s t → step s = .next s' → ∃ t', step t = .next t' ∧ Same s' t')
    {m : Nat} {u : σ} (ht : stateAfter step s m = some t)
    (hu : stateAfter step s (m + (n + 1)) = some u) (htu : Same t u) (fuel : Nat) :
    run step fuel s = none := by
  have hround (fuel : Nat) : run step fuel t = none := by
    -- every later state is the same as one of those between `t` and `u`
    refine run_eq_none (fun v => ∃ k ≤ n, ∃ w, stateAfter step s (m + k) = some w ∧ Same w v)
      ?_ ⟨0, Nat.zero_le n, t, ht, hrefl t⟩ fuel
    intro v ⟨k, hk, w, hw, hwv⟩
    obtain ⟨w', hw'⟩ := exists_stateAfter_of_le hu (Nat.add_le_add_left (Nat.succ_le_succ hk) m)
    obtain ⟨x, hx, hnext⟩ := stateAfter_succ_eq_some.1 hw'
    obtain rfl : x = w := Option.some.inj (hx.symm.trans hw)
    obtain ⟨v', hv', hsame'⟩ := hsame hwv hnext
    refine ⟨v', hv', ?_⟩
    obtain hlt | rfl := Nat.lt_or_eq_of_le hk
    · exact ⟨k + 1, hlt, w', hw', hsame'⟩
    · obtain rfl : w' = u := Option.some.inj (hw'.symm.trans hu)
      exact ⟨0, Nat.zero_le _, t, ht, htrans htu hsame'⟩
  cases hrun : run step fuel s with
  | none => rfl
  | some r =>
    have hmore : run step (m + fuel) s = some r := run_mono (Nat.le_add_left fuel m) hrun
    rw [run_add ht fuel, hround] at hmore
    cases hmore

/-! ### Machines side by side -/

section Rel

variable {σ' : Type}

/-- Two steps that both lead to related states or both halt with the same answer. -/
inductive Rel (R : σ → σ' → Prop) : Step σ ρ → Step σ' ρ → Prop
  | next {s : σ} {t : σ'} (h : R s t) : Rel R (.next s) (.next t)
  | halt (r : ρ) : Rel R (.halt r) (.halt r)

variable {step' : σ' → Step σ' ρ} {R : σ → σ' → Prop} {t' : σ'}

/-- **Machines that go in lockstep are in related states after each number of steps.** -/
theorem rel_stateAfter (hstep : ∀ s t, R s t → Rel R (step s) (step' t)) (h : R s t') (n : Nat) :
    Option.Rel R (stateAfter step s n) (stateAfter step' t' n) := by
  induction n with
  | zero => exact .some h
  | succ n ih =>
    rw [stateAfter, stateAfter]
    generalize stateAfter step s n = a, stateAfter step' t' n = b at ih
    cases ih with
    | none => exact .none
    | @some u w hrel =>
      have hboth := hstep u w hrel
      rw [Option.bind_some, Option.bind_some]
      generalize step u = x, step' w = y at hboth
      cases hboth with
      | next hnext => exact .some hnext
      | halt r => exact .none

/-- **Machines that go in lockstep have the same answers.** -/
theorem run_eq_of_rel (hstep : ∀ s t, R s t → Rel R (step s) (step' t)) (h : R s t')
    (fuel : Nat) : run step fuel s = run step' fuel t' := by
  induction fuel generalizing s t' with
  | zero => rfl
  | succ fuel ih =>
    have hboth := hstep s t' h
    rw [run_succ, run_succ]
    generalize step s = x, step' t' = y at hboth
    cases hboth with
    | next hnext => exact ih hnext
    | halt r => rfl

end Rel

end Step

end HeapFlow
