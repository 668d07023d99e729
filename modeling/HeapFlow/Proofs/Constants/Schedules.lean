import HeapFlow.Proofs.Constants.Termination
import Mathlib.Logic.Relation
import Mathlib.Order.WellFounded
/-!
# HeapFlow.Proofs.Constants.Schedules

**Computing waiting points in any order.** The solver takes the point that has waited longest, but
nothing that its runs keep depends on that. A schedule may compute any point that waits. Where nothing
divides, every step of every schedule raises facts and slots and lowers none, and no schedule goes on
forever.
-/

namespace HeapFlow

namespace Constants

variable {c : Setting} {s s' : InterState}

/-- One step of a schedule: some point that waits is computed. -/
def Advances (c : Setting) (s s' : InterState) : Prop :=
  ∃ pt queue, Takes s pt queue ∧ s' = compute c s.found queue pt

/-- The states that schedules reach. -/
def Reached (c : Setting) : InterState → Prop := Relation.ReflTransGen (Advances c) (interInit c)

/-- The solver follows a schedule. -/
theorem Advances.of_interStep (h : interStep c s = .next s') : Advances c s s' := by
  obtain ⟨pt, queue, hpop, rfl⟩ := interStep_eq_next.1 h
  exact ⟨pt, queue, .of_pop? hpop, rfl⟩

/-- What the solver finds is what a schedule has found when nothing waits. -/
theorem exists_reached_of_inter {fuel : Nat} {r : Inter} (h : inter c fuel = some r) :
    ∃ s, Reached c s ∧ s.queue.toList = [] ∧ s.found = r := by
  have hfollow : ∀ s s', Reached c s → interStep c s = .next s' → Reached c s' :=
    fun s s' hs hstep => hs.tail (.of_interStep hstep)
  obtain ⟨s, hreached, hhalt⟩ := Step.run_invariant hfollow .refl h
  obtain ⟨hqueue, rfl⟩ := interStep_eq_halt.1 hhalt
  exact ⟨s, hreached, hqueue, rfl⟩

/-- What computing a waiting point keeps holds wherever schedules lead. -/
theorem Reached.invariant {P : InterState → Prop} (hinit : P (interInit c))
    (hcompute : ∀ {s pt queue}, P s → Takes s pt queue → P (compute c s.found queue pt))
    (h : Reached c s) : P s := by
  induction h with
  | refl => exact hinit
  | tail _ hstep ih =>
    obtain ⟨pt, queue, htakes, rfl⟩ := hstep
    exact hcompute ih htakes

/-! ### Where nothing divides -/

/-- One result has all facts and slots at least where another has them. -/
structure Rises (r r' : Inter) : Prop where
  before : ∀ pt, r.factBefore pt ≤ r'.factBefore pt
  after : ∀ pt, r.factAfter pt ≤ r'.factAfter pt
  heap : ∀ slot, r.heap.get slot ≤ r'.heap.get slot

theorem Reached.rising (hno : NeverDivides c) (h : Reached c s) : Rising c s :=
  h.invariant (rising_interInit c) fun h _ => h.compute _ (hno.not_retractsAt _ _ _)

/-- **Facts and slots only rise.** -/
theorem Reached.rises (hno : NeverDivides c) (h : Reached c s) (hstep : Advances c s s') :
    Rises s.found s'.found := by
  obtain ⟨pt, queue, -, rfl⟩ := hstep
  have hrising := h.rising hno
  refine ⟨fun n => ?_, fun n => ?_, fun slot => ?_⟩
  · rw [factBefore_compute]
    split
    · rename_i heq
      subst heq
      exact hrising.before pt
    · exact le_rfl
  · rw [factAfter_compute]
    split
    · rename_i heq
      subst heq
      exact hrising.after_le (hno.not_retractsAt _ _ _)
    · exact le_rfl
  · rw [heap_compute]
    exact le_effect_heap c pt s.found.heap _ slot

/-- **No schedule goes on forever.** -/
theorem not_exists_infinite_schedule (hno : NeverDivides c) :
    ¬ ∃ run : Nat → InterState, run 0 = interInit c ∧ ∀ n, Advances c (run n) (run (n + 1)) := by
  intro ⟨run, hinit, hrun⟩
  obtain ⟨size, hspans⟩ := exists_spans c
  have hreached (n : Nat) : Reached c (run n) := by
    induction n with
    | zero =>
      rw [hinit]
      exact .refl
    | succ n ih => exact ih.tail (hrun n)
  -- along the schedule the measure of climbing would decrease forever
  obtain ⟨n, hn⟩ := WellFounded.not_rel_apply_succ (h := ⟨wellFounded_climbs c size⟩)
    fun n => (heights c size (run n), (run n).queue.toList.length)
  refine hn ?_
  have hbounded : Bounded c size (run n) :=
    (hreached n).invariant (bounded_interInit c size) fun h => h.compute hspans
  have hrising := (hreached n).rising hno
  obtain ⟨pt, queue, htakes, hnext⟩ := hrun n
  simp only [hnext]
  exact hbounded.climbs hspans htakes (hrising.before pt)
    (hrising.after_le (hno.not_retractsAt _ _ _))

end Constants

end HeapFlow
