import HeapFlow.Data.Search
import HeapFlow.Proofs.Reach
import Mathlib.Data.List.Flatten
/-!
# HeapFlow.Proofs.Search

**A search marks exactly what can be reached,** whichever of the waiting elements it takes next. One move
takes some waiting element (`Moves`), and what is proved of moves holds of every search that takes them in
an order of its own. What was met is reached from a root, and the successors of what is marked are marked
or wait (`Covers`); so when nothing waits, the marks are closed under the successor function.

Every move leaves less to do: it takes an element away, and the successors that it adds have been
accounted for from the start (`potential`). A search among the elements of a finite set ends by itself.
-/

namespace HeapFlow

namespace Search

variable {α : Type} [DecidableEq α] [Keyed α] {next : α → List α} {order : Order}
  {seen : OrderedSet α} {x y : α} {todo rest roots whole : List α} {s s' : Search α}

/-! ### Moves -/

/-- One move takes some waiting element. If it is not marked, it is marked, and its successors wait. -/
inductive Moves (next : α → List α) : Search α → Search α → Prop
  | skip {seen : OrderedSet α} {x : α} {todo rest : List α} (hseen : x ∈ seen)
      (htodo : todo.Perm (x :: rest)) : Moves next ⟨seen, todo⟩ ⟨seen, rest⟩
  | mark {seen : OrderedSet α} {x : α} {todo rest more : List α} (hnew : x ∉ seen)
      (htodo : todo.Perm (x :: rest)) (hmore : more.Perm (rest ++ next x)) :
      Moves next ⟨seen, todo⟩ ⟨seen.insert x, more⟩

omit [DecidableEq α] [Keyed α] in
theorem Order.wait_perm (order : Order) (todo more : List α) :
    (order.wait todo more).Perm (todo ++ more) := by
  cases order with
  | oldest => exact .refl _
  | newest => exact (List.reverse_perm more).append_right todo |>.trans List.perm_append_comm

theorem moves_take : Moves next ⟨seen, x :: todo⟩ (take next order seen x todo) := by
  rw [take]
  split
  · rename_i hseen
    exact .skip hseen (.refl _)
  · rename_i hnew
    exact .mark hnew (.refl _) (order.wait_perm todo (next x))

/-! ### What was met -/

/-- What every search keeps. -/
structure Covers (next : α → List α) (roots : List α) (s : Search α) : Prop where
  reached : ∀ x, x ∈ s.seen ∨ x ∈ s.todo →
    ∃ root ∈ roots, Relation.ReflTransGen (Reach.Leads next) root x
  roots : ∀ x ∈ roots, x ∈ s.seen ∨ x ∈ s.todo
  closed : ∀ x ∈ s.seen, ∀ y ∈ next x, y ∈ s.seen ∨ y ∈ s.todo

theorem covers_start : Covers next roots ⟨∅, roots⟩ where
  reached x h := ⟨x, h.resolve_left (OrderedSet.not_mem_empty x), .refl⟩
  roots _ h := .inr h
  closed x h := absurd h (OrderedSet.not_mem_empty x)

/-- **A move keeps what was met, and meets only what is reached.** -/
theorem Covers.move (h : Covers next roots s) (hmove : Moves next s s') : Covers next roots s' := by
  cases hmove with
  | @skip seen x todo rest hseen htodo =>
    have hkeep {y : α} (hy : y ∈ seen ∨ y ∈ todo) : y ∈ seen ∨ y ∈ rest := by
      obtain hy | hy := hy
      · exact .inl hy
      · obtain rfl | hy := List.mem_cons.1 (htodo.mem_iff.1 hy)
        · exact .inl hseen
        · exact .inr hy
    exact {
      reached := fun y hy => h.reached y (hy.imp_right fun hy => htodo.mem_iff.2 (.tail x hy))
      roots := fun y hy => hkeep (h.roots y hy)
      closed := fun y hy z hz => hkeep (h.closed y hy z hz) }
  | @mark seen x todo rest more hnew htodo hmore =>
    have hkeep {y : α} (hy : y ∈ seen ∨ y ∈ todo) : y ∈ seen.insert x ∨ y ∈ more := by
      rw [OrderedSet.mem_insert, hmore.mem_iff, List.mem_append, or_assoc]
      obtain hy | hy := hy
      · exact .inr (.inl hy)
      · obtain rfl | hy := List.mem_cons.1 (htodo.mem_iff.1 hy)
        · exact .inl rfl
        · exact .inr (.inr (.inl hy))
    have hx := h.reached x (.inr (htodo.mem_iff.2 List.mem_cons_self))
    refine ⟨fun y hy => ?_, fun y hy => hkeep (h.roots y hy), fun y hy z hz => ?_⟩
    · rw [OrderedSet.mem_insert, hmore.mem_iff, List.mem_append] at hy
      obtain (rfl | hy) | hy | hy := hy
      · exact hx
      · exact h.reached y (.inl hy)
      · exact h.reached y (.inr (htodo.mem_iff.2 (.tail x hy)))
      · -- a successor of what was taken
        obtain ⟨root, hroot, hreaches⟩ := hx
        exact ⟨root, hroot, hreaches.tail hy⟩
    · obtain rfl | hy := OrderedSet.mem_insert.1 hy
      · exact .inr (hmore.mem_iff.2 (List.mem_append_right rest hz))
      · exact hkeep (h.closed y hy z hz)

/-- **When nothing waits, what is marked is what is reached from the roots.** -/
theorem Covers.mem_seen_iff (h : Covers next roots s) (hend : s.todo = []) :
    x ∈ s.seen ↔ ∃ root ∈ roots, Relation.ReflTransGen (Reach.Leads next) root x := by
  have hall {y : α} (hy : y ∈ s.seen ∨ y ∈ s.todo) : y ∈ s.seen := by
    rw [hend] at hy
    exact hy.resolve_right List.not_mem_nil
  refine ⟨fun hx => h.reached x (.inl hx), ?_⟩
  rintro ⟨root, hroot, hreaches⟩
  induction hreaches with
  | refl => exact hall (h.roots root hroot)
  | tail _ hleads ih => exact hall (h.closed _ ih _ hleads)

/-! ### What is left to do -/

/-- What waits, and the successors of what is not marked yet. -/
def potential (next : α → List α) (whole : List α) (s : Search α) : Nat :=
  s.todo.length + ((whole.filter fun x => decide (x ∉ s.seen)).flatMap next).length

omit [DecidableEq α] [Keyed α] in
theorem length_flatMap_filter_le (next : α → List α) (test : α → Bool) (xs : List α) :
    ((xs.filter test).flatMap next).length ≤ (xs.flatMap next).length :=
  (List.filter_sublist.flatMap next).length_le

omit [Keyed α] in
/-- Without an element there are fewer successors, by those of the element. -/
theorem length_flatMap_filter_ne_add_le (next : α → List α) {xs : List α} (hx : x ∈ xs) :
    ((xs.filter fun y => decide (y ≠ x)).flatMap next).length + (next x).length ≤
      (xs.flatMap next).length := by
  obtain ⟨before, after, rfl⟩ := List.append_of_mem hx
  have hbefore := length_flatMap_filter_le next (fun y => decide (y ≠ x)) before
  have hafter := length_flatMap_filter_le next (fun y => decide (y ≠ x)) after
  simp only [List.filter_append, List.flatMap_append, List.length_append, List.filter_cons,
    List.flatMap_cons, ne_eq, not_true, decide_false, Bool.false_eq_true, if_false] at hbefore hafter ⊢
  omega

/-- **Every move leaves less to do,** if it takes an element of the finite set. -/
theorem Moves.potential_lt (h : Moves next s s') (hinside : ∀ x ∈ s.todo, x ∈ whole) :
    potential next whole s' < potential next whole s := by
  cases h with
  | @skip seen x todo rest hseen htodo =>
    simp only [potential, htodo.length_eq, List.length_cons]
    omega
  | @mark seen x todo rest more hnew htodo hmore =>
    have hx : x ∈ whole.filter fun y => decide (y ∉ seen) :=
      List.mem_filter.2 ⟨hinside x (htodo.mem_iff.2 List.mem_cons_self), decide_eq_true hnew⟩
    have hrest : (whole.filter fun y => decide (y ∉ seen.insert x)) =
        (whole.filter fun y => decide (y ∉ seen)).filter fun y => decide (y ≠ x) := by
      rw [List.filter_filter]
      refine List.filter_congr fun y _ => ?_
      simp [not_or]
    have hfewer := length_flatMap_filter_ne_add_le next hx
    simp only [potential, htodo.length_eq, hmore.length_eq, List.length_cons, List.length_append,
      hrest]
    omega

theorem potential_start_lt_limit : potential next whole ⟨∅, roots⟩ < limit next whole roots :=
  Nat.lt_succ_of_le (Nat.add_le_add_left (length_flatMap_filter_le next _ whole) _)

/-! ### Machines that search -/

/-- **A machine that searches halts,** if everything that is reached from the roots is in the finite
set. -/
theorem exists_run {σ ρ : Type} {step : σ → Step σ ρ} {start : σ} (view : σ → Search α)
    (hmoves : ∀ c c', step c = .next c' → Moves next (view c) (view c'))
    (hstart : view start = ⟨∅, roots⟩)
    (hwhole : ∀ root ∈ roots, ∀ x, Relation.ReflTransGen (Reach.Leads next) root x → x ∈ whole) :
    ∃ r, Step.run step (limit next whole roots) start = some r := by
  refine Step.exists_run_of_measure_lt (fun c => potential next whole (view c))
    (fun c => Covers next roots (view c)) ?_ (hstart ▸ covers_start)
    (hstart ▸ potential_start_lt_limit)
  intro c c' hc hstep
  have hmove := hmoves c c' hstep
  refine ⟨hc.move hmove, hmove.potential_lt fun x hx => ?_⟩
  obtain ⟨root, hroot, hreaches⟩ := hc.reached x (.inr hx)
  exact hwhole root hroot x hreaches

omit [DecidableEq α] [Keyed α] in
/-- What is reached from the roots stays within a set that holds them and is closed under the successor
function. -/
theorem mem_whole_of_reaches (hroots : ∀ x ∈ roots, x ∈ whole)
    (hclosed : ∀ x ∈ whole, ∀ y ∈ next x, y ∈ whole) :
    ∀ root ∈ roots, ∀ x, Relation.ReflTransGen (Reach.Leads next) root x → x ∈ whole := by
  intro root hroot x hreaches
  induction hreaches with
  | refl => exact hroots root hroot
  | tail _ hleads ih => exact hclosed _ ih _ hleads

/-! ### The search for everything -/

theorem moves_of_sweepStep (h : sweepStep next order s = .next s') : Moves next s s' := by
  obtain ⟨seen, todo⟩ := s
  cases todo with
  | nil => cases h
  | cons x todo =>
    cases h
    exact moves_take

/-- **A search lists exactly what is reached from the roots,** in whichever order it goes, if all of
that is in the finite set. -/
theorem mem_sweep
    (hwhole : ∀ root ∈ roots, ∀ x, Relation.ReflTransGen (Reach.Leads next) root x → x ∈ whole) :
    x ∈ sweep next order whole roots ↔
      ∃ root ∈ roots, Relation.ReflTransGen (Reach.Leads next) root x := by
  have hmoves (s s' : Search α) (h : sweepStep next order s = .next s') := moves_of_sweepStep h
  obtain ⟨r, hr⟩ := exists_run id hmoves rfl hwhole
  rw [sweep, hr, Option.getD_some]
  obtain ⟨⟨seen, todo⟩, hcovers, hhalt⟩ :=
    Step.run_invariant (fun s s' hs h => hs.move (hmoves s s' h)) covers_start hr
  cases todo with
  | nil =>
    cases hhalt
    exact hcovers.mem_seen_iff rfl
  | cons x todo => cases hhalt

/-! ### The search for one element -/

variable {goal : α}

/-- What a search for one element keeps: the element has not been taken. -/
structure Seeks (next : α → List α) (roots : List α) (goal : α) (s : Search α) : Prop
    extends Covers next roots s where
  missed : goal ∉ s.seen

theorem moves_of_findStep (h : findStep next order goal s = .next s') : Moves next s s' := by
  obtain ⟨seen, todo⟩ := s
  cases todo with
  | nil => cases h
  | cons x todo =>
    rw [findStep] at h
    dsimp only at h
    split at h
    · cases h
    · cases h
      exact moves_take

theorem Seeks.step (h : Seeks next roots goal s) (hstep : findStep next order goal s = .next s') :
    Seeks next roots goal s' := by
  refine ⟨h.move (moves_of_findStep hstep), ?_⟩
  obtain ⟨seen, todo⟩ := s
  cases todo with
  | nil => cases hstep
  | cons x todo =>
    rw [findStep] at hstep
    dsimp only at hstep
    split at hstep
    · cases hstep
    · rename_i hne
      cases hstep
      rw [take]
      split
      · exact h.missed
      · exact fun hgoal => (OrderedSet.mem_insert.1 hgoal).elim (fun heq => hne heq.symm) h.missed

/-- Where a search for one element halts, it knows whether the element is reached. -/
theorem Seeks.halt {answer : Bool} (h : Seeks next roots goal s)
    (hstep : findStep next order goal s = .halt answer) : answer = true ↔
      ∃ root ∈ roots, Relation.ReflTransGen (Reach.Leads next) root goal := by
  obtain ⟨seen, todo⟩ := s
  cases todo with
  | nil =>
    cases hstep
    exact iff_of_false Bool.false_ne_true (mt (h.mem_seen_iff rfl).2 h.missed)
  | cons x todo =>
    rw [findStep] at hstep
    dsimp only at hstep
    split at hstep
    · rename_i heq
      cases hstep
      exact iff_of_true rfl (h.reached goal (.inr (heq ▸ List.mem_cons_self)))
    · cases hstep

theorem iff_reaches_of_run {fuel : Nat} {answer : Bool}
    (h : Step.run (findStep next order goal) fuel ⟨∅, roots⟩ = some answer) : answer = true ↔
      ∃ root ∈ roots, Relation.ReflTransGen (Reach.Leads next) root goal := by
  have hstart : Seeks next roots goal ⟨∅, roots⟩ := ⟨covers_start, OrderedSet.not_mem_empty goal⟩
  obtain ⟨s, hs, hhalt⟩ := Step.run_invariant
    (fun s s' (hs : Seeks next roots goal s) hstep => hs.step hstep) hstart h
  exact hs.halt hhalt

/-- What is found is reached, however long the search may take. -/
theorem reaches_of_finds (h : finds next order whole roots goal = true) :
    ∃ root ∈ roots, Relation.ReflTransGen (Reach.Leads next) root goal := by
  rw [finds] at h
  cases hrun : Step.run (findStep next order goal) (limit next whole roots) ⟨∅, roots⟩ with
  | none =>
    rw [hrun] at h
    cases h
  | some answer =>
    rw [hrun] at h
    exact (iff_reaches_of_run hrun).1 h

/-- **A search finds exactly what is reached from the roots,** in whichever order it goes, if all of
that is in the finite set. -/
theorem finds_iff
    (hwhole : ∀ root ∈ roots, ∀ x, Relation.ReflTransGen (Reach.Leads next) root x → x ∈ whole) :
    finds next order whole roots goal = true ↔
      ∃ root ∈ roots, Relation.ReflTransGen (Reach.Leads next) root goal := by
  have hmoves (s s' : Search α) (h : findStep next order goal s = .next s') := moves_of_findStep h
  obtain ⟨answer, hrun⟩ := exists_run id hmoves rfl hwhole
  rw [finds, hrun]
  exact iff_reaches_of_run hrun

end Search

end HeapFlow
