import HeapFlow.Proofs.Constants.Order
import Mathlib.Logic.Function.Basic
/-!
# HeapFlow.Proofs.Constants.Semilattice

**Facts form a join-semilattice** (`Fact.semilattice_exact`). However facts are built, they bind exactly
the variables that have a value, so equal facts are those that agree on every variable. Meeting facts
gives their least upper bound in the order of the variables' values. Which facts are met is therefore
all that counts: not their order, how they are grouped, or how often each is met.
-/

namespace HeapFlow

/-- Nothing is below every constant, and every constant below "not a constant". -/
theorem Value.le_iff {x y : Value} : x ≤ y ↔ x = .undefined ∨ x = y ∨ y = .nac := by
  cases x with
  | undefined => exact iff_of_true bot_le (.inl rfl)
  | const n => simp [const_le_iff, eq_comm]
  | nac => simp [nac_le_iff, eq_comm]

namespace Fact

/-! ### Facts that are built -/

/-- A change of one of several facts, which are known by numbers. -/
inductive Change
  | update (fact i : Nat) (v : Value)
  | remove (fact i : Nat)
  | meet (fact other : Nat)

namespace Change

/-- The facts after a change. -/
def apply (facts : Nat → Fact) : Change → Nat → Fact
  | update k i v => Function.update facts k ((facts k).assign i v).2
  | remove k i => Function.update facts k ((facts k).unassign i).2
  | meet k other => Function.update facts k ((facts k).meet (facts other))

/-- The values of the variables after a change, where any function may give them values. -/
def describe (values : Nat → Nat → Value) : Change → Nat → Nat → Value
  | update k i v => Function.update values k (Function.update (values k) i v)
  | remove k i => Function.update values k (Function.update (values k) i .undefined)
  | meet k other => Function.update values k fun i => (values k i).meet (values other i)

end Change

/-- The facts after some changes, the first one made first. Every fact is empty before. -/
def built (changes : List Change) : Nat → Fact := changes.foldl Change.apply fun _ => ∅

/-- The values of the variables after some changes. -/
def described (changes : List Change) : Nat → Nat → Value :=
  changes.foldl Change.describe fun _ _ => .undefined

theorem get_update_eq (f : Fact) (i : Nat) (v : Value) :
    (f.update i v).get = Function.update f.get i v := by
  funext j
  rw [get_update, Function.update_apply]
  exact if_congr eq_comm rfl rfl

theorem get_remove_eq (f : Fact) (i : Nat) :
    (f.remove i).get = Function.update f.get i .undefined := by
  funext j
  rw [get_remove, Function.update_apply]
  exact if_congr eq_comm rfl rfl

/-- A change does to the facts what it does to the functions that they stand for. -/
theorem Change.get_comp_apply (facts : Nat → Fact) (c : Change) :
    get ∘ c.apply facts = c.describe (get ∘ facts) := by
  cases c with
  | update k i v =>
    rw [apply, describe, Function.comp_update, assign_eq, get_update_eq, Function.comp_apply]
  | remove k i =>
    rw [apply, describe, Function.comp_update, unassign_eq, get_remove_eq, Function.comp_apply]
  | meet k other =>
    rw [apply, describe, Function.comp_update]
    exact congrArg _ (funext fun i => get_meet ..)

/-- Facts stand for the same functions after any changes. -/
theorem get_comp_built (changes : List Change) : get ∘ built changes = described changes := by
  have hfrom (facts : Nat → Fact) :
      get ∘ changes.foldl Change.apply facts = changes.foldl Change.describe (get ∘ facts) := by
    induction changes generalizing facts with
    | nil => rfl
    | cons c changes ih => rw [List.foldl_cons, ih, c.get_comp_apply, List.foldl_cons]
  exact hfrom _

/-! ### Families of facts -/

/-- A way to meet some facts, none of them to begin with. -/
inductive Meeting
  | none
  | fact (f : Fact)
  | meet (first second : Meeting)

namespace Meeting

/-- The facts that are met, as often as they are. -/
def facts : Meeting → List Fact
  | none => []
  | fact f => [f]
  | meet first second => first.facts ++ second.facts

/-- The fact that results. -/
def result : Meeting → Fact
  | none => ∅
  | fact f => f
  | meet first second => first.result.meet second.result

theorem result_le_iff (m : Meeting) {g : Fact} : m.result ≤ g ↔ ∀ f ∈ m.facts, f ≤ g := by
  induction m with
  | none => exact iff_of_true bot_le fun f hf => absurd hf List.not_mem_nil
  | fact f =>
    rw [result, facts, List.forall_mem_singleton]
  | meet first second ihFirst ihSecond =>
    rw [result, facts, meet_eq_sup, sup_le_iff, ihFirst, ihSecond, List.forall_mem_append]

end Meeting

/-- **Facts form a join-semilattice.** After any changes, a fact binds exactly the variables that have a
value other than `undefined`, to this value. Facts are equal exactly if they agree on every variable, and
an assignment tells of a change exactly if it changed the fact. Facts are ordered by the values of each
variable, undefined below every constant and every constant below "not a constant"; the meet of two facts
is their least upper bound, and meeting the same facts gives the same fact, in whatever order, grouping
and repetition. -/
theorem semilattice_exact :
    (∀ changes k i v, (i, v) ∈ (built changes k).bindings.entries ↔
      v ≠ .undefined ∧ described changes k i = v) ∧
    (∀ f g : Fact, (f == g) = true ↔ ∀ i, f.get i = g.get i) ∧
    (∀ (f : Fact) i v, (f.assign i v).1 = true ↔ (f.assign i v).2 ≠ f) ∧
    (∀ f g : Fact, f ≤ g ↔ ∀ i, f.get i = .undefined ∨ f.get i = g.get i ∨ g.get i = .nac) ∧
    (∀ f g : Fact, IsLUB {f, g} (f.meet g)) ∧
    ∀ m n : Meeting, (∀ f, f ∈ m.facts ↔ f ∈ n.facts) → m.result = n.result := by
  refine ⟨fun changes k i v => ?_, fun f g => ?_, fun f i v => ?_, fun f g => ?_, fun f g => ?_,
    fun m n hsame => ?_⟩
  · rw [IndexMap.mem_entries_iff, get?_eq_some_iff, ← get_comp_built]
    rfl
  · rw [beq_iff_eq]
    exact ⟨fun h i => h ▸ rfl, ext_get⟩
  · rw [assign_eq, changes, decide_eq_true_iff]
    exact not_congr update_eq_self_iff.symm
  · exact forall_congr' fun i => Value.le_iff
  · exact isLUB_pair
  · refine eq_of_forall_ge_iff fun g => ?_
    rw [m.result_le_iff, n.result_le_iff]
    simp only [hsame]

/-- Three facts that are built and met. A variable to which the first two give different constants is
not a constant, one that was taken away is not bound, and the meet is the same when it is taken in
another order and with one of the facts twice. -/
theorem semilattice_threeFacts :
    let f := built [.update 0 0 (.const 1), .update 1 0 (.const 2), .update 1 1 (.const 3), .meet 0 1,
      .remove 0 1, .update 2 1 (.const 3)]
    let first := Meeting.meet (.fact (f 0)) (.meet (.fact (f 1)) (.fact (f 2)))
    let second := Meeting.meet (.meet (.fact (f 2)) (.fact (f 1))) (.meet (.fact (f 2)) (.fact (f 0)))
    (0, .nac) ∈ (f 0).bindings.entries ∧ (1, .const 3) ∉ (f 0).bindings.entries ∧
      (∀ x, x ∈ first.facts ↔ x ∈ second.facts) ∧ first.result = second.result ∧
      first.result ≠ f 0 := by
  intro f first second
  obtain ⟨hentries, hequal, -, -, -, hmeet⟩ := semilattice_exact
  have hsame : ∀ x, x ∈ first.facts ↔ x ∈ second.facts := by
    intro x
    simp only [first, second, Meeting.facts, List.mem_append, List.mem_singleton]
    tauto
  refine ⟨(hentries _ _ _ _).2 (by decide), fun h => ?_, hsame, hmeet first second hsame, fun h => ?_⟩
  · exact absurd ((hentries _ _ _ _).1 h).2 (by decide)
  · exact absurd ((hequal _ _).1 (beq_iff_eq.2 h) 1) (by decide)

end Fact

end HeapFlow
