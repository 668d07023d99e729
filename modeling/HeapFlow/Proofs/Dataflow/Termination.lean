import HeapFlow.Proofs.Dataflow.Equations
import Mathlib.Data.Finite.Prod
import Mathlib.Data.Fintype.EquivFin
import Mathlib.Order.WellFounded
/-!
# HeapFlow.Proofs.Dataflow.Termination

**When the data-flow solver terminates.** The fact that flows into a node is computed anew each time,
so a step may lower it. While no step does, the facts climb an order of finite height: a step raises a
fact or shortens the queue. So the solver terminates exactly if it lowers facts only finitely often.
Facts rise as long as the transfer of no node has fallen while the fact before it rose; in particular
they do so forever if all transfers are monotone.
-/

namespace HeapFlow

namespace Dataflow

variable {α β : Type} {g : Cfg} {problem : Problem α} {s s' : State α} {m n : Node}

/-! ### Runs -/

/-- The state after some steps of a run. -/
def stateAfter [DecidableEq α] (g : Cfg) (problem : Problem α) (n : Nat) : Option (State α) :=
  Step.stateAfter (step g problem) (init g problem) n

theorem sound_stateAfter [DecidableEq α] {k : Nat} (h : stateAfter g problem k = some s) :
    Sound g problem s :=
  Step.stateAfter_invariant (fun _ _ => Sound.step) (sound_init g problem) h

/-- The ends of edges. -/
def ends (g : Cfg) : List Node := g.edges.flatMap fun e => [e.source, e.target]

theorem mem_ends (h : m ∈ sources g problem n) : n ∈ ends g := by
  unfold sources at h
  split at h
  · obtain ⟨e, he, -, rfl⟩ := Cfg.mem_preds.1 h
    exact List.mem_flatMap.2 ⟨e, he, by simp⟩
  · obtain ⟨e, he, rfl, -⟩ := Cfg.mem_succs.1 h
    exact List.mem_flatMap.2 ⟨e, he, by simp⟩

/-- The heights of the facts that flow into nodes. -/
def heights (g : Cfg) (problem : Problem α) (height : α → β) (s : State α) :
    {n // n ∈ ends g} → β :=
  fun n => height (s.get problem n)

section Order

variable [SemilatticeSup α] [OrderBot α]

/-! ### Steps that lower facts -/

/-- The next step lowers the fact that flows into its target. -/
def Lowers (g : Cfg) (problem : Problem α) (s : State α) : Prop :=
  ∃ source target queue, s.queue = (source, target) :: queue ∧
    ¬ s.get problem target ≤ incoming g problem s source target

/-- What the target of the next step passes on falls although what flows into it rises. -/
def Falls (g : Cfg) (problem : Problem α) (s : State α) : Prop :=
  ∃ source target queue, s.queue = (source, target) :: queue ∧
    s.get problem target ≤ incoming g problem s source target ∧
    ¬ passed problem s target ≤ problem.transfer target (incoming g problem s source target)

/-- No fact is above what its equation now gives. -/
def Rising (g : Cfg) (problem : Problem α) (s : State α) : Prop :=
  ∀ n, ∀ f ∈ upperBounds (arriving g problem s n), s.get problem n ≤ f

theorem rising_init (hjoins : problem.Joins) : Rising g problem (init g problem) := by
  intro n f hf
  rw [get_init, Problem.first, Table.getD]
  cases hseed : problem.seeds.get? n with
  | none => simp [hjoins.top]
  | some seed => exact hf (.inl hseed)

/-- Where facts are rising, a step does not lower one. -/
theorem Rising.not_lowers (hjoins : problem.Joins) (hsound : Sound g problem s)
    (h : Rising g problem s) : ¬ Lowers g problem s := by
  intro ⟨source, target, queue, hqueue, hlowers⟩
  have hsource : source ∈ sources g problem target :=
    hsound.queue (source, target) (hqueue ▸ List.mem_cons_self)
  exact hlowers (h target _ (hjoins.incoming_isLUB hsource).1)

/-- Facts stay rising unless a transfer falls. -/
theorem Rising.step [DecidableEq α] (hjoins : problem.Joins) (hsound : Sound g problem s)
    (h : Rising g problem s) (hno : ¬ Falls g problem s) (hstep : step g problem s = .next s') :
    Rising g problem s' := by
  obtain ⟨source, target, queue, hqueue, rfl⟩ := step_eq_next.1 hstep
  have hsource : source ∈ sources g problem target :=
    hsound.queue (source, target) (hqueue ▸ List.mem_cons_self)
  have hincoming := hjoins.incoming_isLUB (s := s) hsource
  -- the target passes on more than before, all other nodes what they did
  have hpassed (m : Node) :
      passed problem s m ≤ passed problem (follow g problem s source target queue) m := by
    rw [passed, passed, get_follow]
    split
    · rename_i heq
      subst heq
      by_contra hfalls
      exact hno ⟨source, target, queue, hqueue, h target _ hincoming.1, hfalls⟩
    · exact le_rfl
  intro n f hf
  have hbound : f ∈ upperBounds (arriving g problem s n) := by
    intro fact hfact
    obtain hseed | ⟨m, hm, rfl⟩ := hfact
    · exact hf (.inl hseed)
    · exact (hpassed m).trans (hf (.inr ⟨m, hm, rfl⟩))
  rw [get_follow]
  split
  · rename_i heq
    subst heq
    exact hincoming.2 hbound
  · exact h n f hbound

/-- Facts rise as long as no transfer has fallen. -/
theorem rising_stateAfter [DecidableEq α] (hjoins : problem.Joins) {k : Nat}
    (h : stateAfter g problem k = some s)
    (hno : ∀ j < k, ∀ t, stateAfter g problem j = some t → ¬ Falls g problem t) :
    Rising g problem s := by
  induction k generalizing s with
  | zero =>
    cases h
    exact rising_init hjoins
  | succ k ih =>
    obtain ⟨t, ht, hnext⟩ := Step.stateAfter_succ_eq_some.1 h
    have hrising : Rising g problem t := ih ht fun j hj => hno j (Nat.lt_succ_of_lt hj)
    exact hrising.step hjoins (sound_stateAfter ht) (hno k (Nat.lt_succ_self k) t ht) hnext

/-- **Before a step that lowers a fact, a transfer has fallen.** -/
theorem exists_falls_of_lowers [DecidableEq α] (hjoins : problem.Joins) {k : Nat}
    (h : stateAfter g problem k = some s) (hlowers : Lowers g problem s) :
    ∃ j < k, ∃ t, stateAfter g problem j = some t ∧ Falls g problem t := by
  by_contra hno
  have hrising : Rising g problem s := rising_stateAfter hjoins h fun j hj t ht hfalls =>
    hno ⟨j, hj, t, ht, hfalls⟩
  exact hrising.not_lowers hjoins (sound_stateAfter h) hlowers

/-! ### Climbing -/

/-- Facts of a run are below `full`, and there they have heights that rise with them. -/
structure Spans [Preorder β] (problem : Problem α) (full : α) (height : α → β) : Prop where
  seeds : ∀ n seed, problem.seeds.get? n = some seed → seed ≤ full
  transfer : ∀ n, ∀ f ≤ full, problem.transfer n f ≤ full
  height : StrictMonoOn height (Set.Iic full)

/-- What holds of every state of a run: only edges wait, and no fact is above `full`. -/
structure Bounded (g : Cfg) (problem : Problem α) (full : α) (s : State α) : Prop where
  sound : Sound g problem s
  below : ∀ n, s.get problem n ≤ full

section Climbing

variable [PartialOrder β] {full : α} {height : α → β}

theorem Bounded.incoming_le (hjoins : problem.Joins) (hspans : Spans problem full height)
    (h : Bounded g problem full s) (hm : m ∈ sources g problem n) :
    incoming g problem s m n ≤ full := by
  refine (hjoins.incoming_isLUB hm).2 fun f hf => ?_
  obtain hseed | ⟨k, -, rfl⟩ := hf
  · exact hspans.seeds n f hseed
  · exact hspans.transfer k _ (h.below k)

theorem bounded_init (hjoins : problem.Joins) (hspans : Spans problem full height) :
    Bounded g problem full (init g problem) := by
  refine ⟨sound_init g problem, fun n => ?_⟩
  rw [get_init, Problem.first, Table.getD]
  cases hseed : problem.seeds.get? n with
  | none => simp [hjoins.top]
  | some seed => exact hspans.seeds n seed hseed

theorem Bounded.step [DecidableEq α] (hjoins : problem.Joins) (hspans : Spans problem full height)
    (h : Bounded g problem full s) (hstep : step g problem s = .next s') :
    Bounded g problem full s' := by
  refine ⟨h.sound.step hstep, fun n => ?_⟩
  obtain ⟨source, target, queue, hqueue, rfl⟩ := step_eq_next.1 hstep
  have hsource : source ∈ sources g problem target :=
    h.sound.queue (source, target) (hqueue ▸ List.mem_cons_self)
  rw [get_follow]
  split
  · exact h.incoming_le hjoins hspans hsource
  · exact h.below n

/-- **A step that does not lower a fact raises one or shortens the queue.** -/
theorem Bounded.climbs [DecidableEq α] (hjoins : problem.Joins) (hspans : Spans problem full height)
    (h : Bounded g problem full s) (hno : ¬ Lowers g problem s)
    (hstep : Dataflow.step g problem s = .next s') :
    Prod.Lex (· > ·) (· < ·) (heights g problem height s', s'.queue.length)
      (heights g problem height s, s.queue.length) := by
  obtain ⟨source, target, queue, hqueue, rfl⟩ := step_eq_next.1 hstep
  have hsource : source ∈ sources g problem target :=
    h.sound.queue (source, target) (hqueue ▸ List.mem_cons_self)
  have hfull := h.incoming_le hjoins hspans hsource
  have hle : s.get problem target ≤ incoming g problem s source target := by
    by_contra hlowers
    exact hno ⟨source, target, queue, hqueue, hlowers⟩
  by_cases hsame : incoming g problem s source target = s.get problem target
  · -- the fact stays, and nothing is queued
    have hfollow : follow g problem s source target queue = { s with queue } := by
      simp [follow, hsame]
    rw [hfollow, hqueue]
    exact Prod.Lex.right _ (Nat.lt_succ_self _)
  · have hrise : height (s.get problem target) < height (incoming g problem s source target) :=
      hspans.height (h.below target) hfull (lt_of_le_of_ne hle (Ne.symm hsame))
    refine Prod.Lex.left _ _ (Pi.lt_def.2 ⟨fun ⟨n, _⟩ => ?_, ⟨target, mem_ends hsource⟩, ?_⟩)
    · simp only [heights, get_follow]
      split
      · rename_i heq
        exact heq ▸ hrise.le
      · exact le_rfl
    · simpa only [heights, get_follow, if_true] using hrise

/-! ### Termination -/

/-- **The solver terminates exactly if it lowers facts only finitely often.** -/
theorem exists_solve_iff [DecidableEq α] [Finite β] (hjoins : problem.Joins)
    (hspans : Spans problem full height) :
    (∃ fuel r, solve g problem fuel = some r) ↔
      ∃ n, ∀ k, n ≤ k → ∀ s, stateAfter g problem k = some s → ¬ Lowers g problem s := by
  have hwf : WellFounded (Prod.Lex (fun x y => x > y) (fun x y => x < y) :
      ({n // n ∈ ends g} → β) × Nat → _ → Prop) :=
    WellFounded.prod_lex wellFounded_gt wellFounded_lt
  have hsolve : (∃ fuel r, solve g problem fuel = some r) ↔
      ∃ fuel r, Step.run (step g problem) fuel (init g problem) = some r := by
    simp [solve]
  rw [hsolve]
  exact Step.exists_run_iff_finitely_many hwf
    (fun s => (heights g problem height s, s.queue.length)) (Bounded g problem full)
    (Lowers g problem) (fun _ _ => Bounded.step hjoins hspans)
    (fun _ _ h hno => h.climbs hjoins hspans hno) (bounded_init hjoins hspans)

/-- If no transfer ever falls, the solver terminates. -/
theorem exists_solve_of_not_falls [DecidableEq α] [Finite β] (hjoins : problem.Joins)
    (hspans : Spans problem full height)
    (hno : ∀ k s, stateAfter g problem k = some s → ¬ Falls g problem s) :
    ∃ fuel r, solve g problem fuel = some r := by
  refine (exists_solve_iff hjoins hspans).2 ⟨0, fun k _ s hs hlowers => ?_⟩
  obtain ⟨j, -, t, ht, hfalls⟩ := exists_falls_of_lowers hjoins hs hlowers
  exact hno j t ht hfalls

end Climbing

end Order

end Dataflow

end HeapFlow
