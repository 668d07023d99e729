import HeapFlow.Data.Reach
import Mathlib.Data.List.Perm.Subperm
import Mathlib.Logic.Relation
/-!
# HeapFlow.Proofs.Reach

**The breadth-first closure contains exactly what can be reached.** Whatever is met is reached from a
root. In a finite set that is closed under the successor function, each element is expanded at most
once, so a bound of its size is never exhausted: the search ends by itself, and a larger bound changes
nothing. When nothing is left to expand, what was met is closed under the successor function.
-/

namespace HeapFlow

namespace Reach

variable {α : Type} [DecidableEq α] [Keyed α] {next : α → List α} {bound : Nat}
  {seen : OrderedSet α} {todo : List α}

/-- One element leads to another. -/
def Leads (next : α → List α) (x y : α) : Prop := y ∈ next x

/-- What is met when an element is expanded. -/
theorem mem_fresh {x y : α} : y ∈ seen.missing (OrderedSet.ofList (next x)).toList ↔
    y ∈ next x ∧ y ∉ seen := by
  rw [OrderedSet.mem_missing, ← OrderedSet.mem_iff, OrderedSet.mem_ofList]

/-- **What is met was met before or is reached from what was left to expand.** -/
theorem reaches_of_mem_explore {y : α} (h : y ∈ explore next bound seen todo) :
    y ∈ seen ∨ ∃ x ∈ todo, Relation.ReflTransGen (Leads next) x y := by
  fun_induction explore next bound seen todo with
  | case1 bound seen => exact .inl h
  | case2 seen x todo => exact .inl h
  | case3 bound seen x todo fresh ih =>
    have hfresh {z : α} (hz : z ∈ fresh) : Leads next x z := (mem_fresh.1 hz).1
    obtain hseen | ⟨z, hz, hreaches⟩ := ih h
    · obtain hold | hnew := OrderedSet.mem_insertAll.1 hseen
      · exact .inl hold
      · exact .inr ⟨x, List.mem_cons_self, .single (hfresh hnew)⟩
    · obtain hold | hnew := List.mem_append.1 hz
      · exact .inr ⟨z, List.mem_cons_of_mem x hold, hreaches⟩
      · exact .inr ⟨x, List.mem_cons_self, .head (hfresh hnew) hreaches⟩

/-- Whatever the bound, what is in the closure is reached from a root. -/
theorem reaches_of_mem_closure {roots : List α} {y : α} (h : y ∈ closure next bound roots) :
    ∃ x ∈ roots, Relation.ReflTransGen (Leads next) x y := by
  obtain hstart | ⟨x, hx, hreaches⟩ := reaches_of_mem_explore h
  · exact ⟨y, OrderedSet.mem_ofList.1 hstart, .refl⟩
  · exact ⟨x, OrderedSet.mem_ofList.1 hx, hreaches⟩

/-- What was met stays. -/
theorem mem_explore_of_mem {y : α} (h : y ∈ seen) : y ∈ explore next bound seen todo := by
  fun_induction explore next bound seen todo with
  | case1 | case2 => exact h
  | case3 bound seen x todo fresh ih => exact ih (OrderedSet.mem_insertAll.2 (.inl h))

/-- What holds during a search within a finite set: what was met is in the set, what is left to expand
was met, and the successors of everything else that was met were met too. The bound suffices for the
elements of the set that are not expanded yet. -/
structure Searches (next : α → List α) (whole : List α) (bound : Nat) (seen : OrderedSet α)
    (todo : List α) : Prop where
  inside : ∀ x ∈ seen, x ∈ whole
  met : ∀ x ∈ todo, x ∈ seen
  expanded : ∀ x ∈ seen, x ∈ todo ∨ ∀ y ∈ next x, y ∈ seen
  bounded : whole.length + todo.length ≤ bound + seen.size

section Whole

variable {whole : List α} {x : α}

/-- A set that holds all roots. -/
theorem searches_start {roots : List α} (hroots : ∀ x ∈ roots, x ∈ whole)
    (hbound : whole.length ≤ bound) :
    Searches next whole bound (.ofList roots) (OrderedSet.ofList roots).toList where
  inside x hx := hroots x (OrderedSet.mem_ofList.1 hx)
  met _ hx := hx
  expanded _ hx := .inl hx
  bounded := Nat.add_le_add_right hbound _

/-- An expansion goes on within a closed set. -/
theorem Searches.step (hclosed : ∀ x ∈ whole, ∀ y ∈ next x, y ∈ whole)
    (h : Searches next whole (bound + 1) seen (x :: todo)) :
    let fresh := seen.missing (OrderedSet.ofList (next x)).toList
    Searches next whole bound (seen.insertAll fresh) (todo ++ fresh) := by
  intro fresh
  have hx : x ∈ seen := h.met x List.mem_cons_self
  have hnodup : fresh.Nodup := (OrderedSet.nodup _).filter _
  have hsize : (seen.insertAll fresh).size = seen.size + fresh.length := by
    rw [OrderedSet.size, OrderedSet.toList_insertAll hnodup fun y hy => (mem_fresh.1 hy).2,
      List.length_append]
    rfl
  have hkept {y : α} (hy : y ∈ seen) : y ∈ seen.insertAll fresh := OrderedSet.mem_insertAll.2 (.inl hy)
  have hnext (y : α) (hy : y ∈ next x) : y ∈ seen.insertAll fresh := by
    by_cases hold : y ∈ seen
    · exact hkept hold
    · exact OrderedSet.mem_insertAll.2 (.inr (mem_fresh.2 ⟨hy, hold⟩))
  refine ⟨fun y hy => ?_, fun y hy => ?_, fun y hy => ?_, ?_⟩
  · obtain hold | hnew := OrderedSet.mem_insertAll.1 hy
    · exact h.inside y hold
    · exact hclosed x (h.inside x hx) y (mem_fresh.1 hnew).1
  · obtain hold | hnew := List.mem_append.1 hy
    · exact hkept (h.met y (List.mem_cons_of_mem x hold))
    · exact OrderedSet.mem_insertAll.2 (.inr hnew)
  · obtain hold | hnew := OrderedSet.mem_insertAll.1 hy
    · obtain hwaits | hexpanded := h.expanded y hold
      · obtain rfl | hwaits := List.mem_cons.1 hwaits
        · exact .inr hnext
        · exact .inl (List.mem_append_left _ hwaits)
      · exact .inr fun z hz => hkept (hexpanded z hz)
    · exact .inl (List.mem_append_right _ hnew)
  · have hbefore := h.bounded
    rw [List.length_cons] at hbefore
    rw [hsize, List.length_append]
    omega

/-- More than all elements of the set would have been met if something were left to expand. -/
theorem Searches.todo_eq_nil (h : Searches next whole 0 seen todo) : todo = [] := by
  have hsize : seen.size ≤ whole.length := (List.subperm_of_subset seen.nodup h.inside).length_le
  have hbounded := h.bounded
  exact List.eq_nil_of_length_eq_zero (by omega)

/-- **A search within a closed set leaves nothing out.** -/
theorem mem_explore_of_leads (hclosed : ∀ x ∈ whole, ∀ y ∈ next x, y ∈ whole)
    (h : Searches next whole bound seen todo) {y : α} (hx : x ∈ explore next bound seen todo)
    (hy : Leads next x y) : y ∈ explore next bound seen todo := by
  fun_induction explore next bound seen todo with
  | case1 bound seen =>
    exact (h.expanded x hx).resolve_left List.not_mem_nil y hy
  | case2 seen z todo => cases h.todo_eq_nil
  | case3 bound seen z todo fresh ih => exact ih (h.step hclosed) hx

/-- A search within a closed set ends before its bound is exhausted. -/
theorem explore_eq_of_le (hclosed : ∀ x ∈ whole, ∀ y ∈ next x, y ∈ whole)
    (h : Searches next whole bound seen todo) {larger : Nat} (hle : bound ≤ larger) :
    explore next larger seen todo = explore next bound seen todo := by
  fun_induction explore next bound seen todo generalizing larger with
  | case1 bound seen => rw [explore]
  | case2 seen z todo => cases h.todo_eq_nil
  | case3 bound seen z todo fresh ih =>
    obtain ⟨larger, rfl⟩ := Nat.exists_eq_add_of_lt hle
    exact ih (h.step hclosed) (Nat.le_add_right bound larger)

/-- **The search ends by itself:** from the size of a closed set that holds the roots on, a larger bound
changes nothing. -/
theorem closure_eq_of_le (hclosed : ∀ x ∈ whole, ∀ y ∈ next x, y ∈ whole) {roots : List α}
    (hroots : ∀ x ∈ roots, x ∈ whole) (hbound : whole.length ≤ bound) {larger : Nat}
    (hle : bound ≤ larger) : closure next larger roots = closure next bound roots :=
  explore_eq_of_le hclosed (searches_start hroots hbound) hle

/-- **The closure contains exactly what is reached from the roots,** if the bound is the size of a closed
set that holds them. -/
theorem mem_closure_iff (hclosed : ∀ x ∈ whole, ∀ y ∈ next x, y ∈ whole) {roots : List α}
    (hroots : ∀ x ∈ roots, x ∈ whole) (hbound : whole.length ≤ bound) {y : α} :
    y ∈ closure next bound roots ↔ ∃ x ∈ roots, Relation.ReflTransGen (Leads next) x y := by
  constructor
  · exact reaches_of_mem_closure
  · intro ⟨x, hx, hreaches⟩
    induction hreaches with
    | refl => exact mem_explore_of_mem (OrderedSet.mem_ofList.2 hx)
    | tail _ hleads ih =>
      exact mem_explore_of_leads hclosed (searches_start hroots hbound) ih hleads

omit [DecidableEq α] [Keyed α] in
/-- What is reached stays within a closed set, and there the successors may be replaced by a relation
with which they agree. -/
theorem reflTransGen_leads_iff {r : α → α → Prop} (hagree : ∀ x ∈ whole, ∀ y, y ∈ next x ↔ r x y)
    (hclosed : ∀ x ∈ whole, ∀ y, r x y → y ∈ whole) {y : α} (hx : x ∈ whole) :
    Relation.ReflTransGen (Leads next) x y ↔ Relation.ReflTransGen r x y := by
  constructor
  · intro h
    have hboth : y ∈ whole ∧ Relation.ReflTransGen r x y := by
      induction h with
      | refl => exact ⟨hx, .refl⟩
      | tail _ hleads ih =>
        have hr := (hagree _ ih.1 _).1 hleads
        exact ⟨hclosed _ ih.1 _ hr, ih.2.tail hr⟩
    exact hboth.2
  · intro h
    have hboth : y ∈ whole ∧ Relation.ReflTransGen (Leads next) x y := by
      induction h with
      | refl => exact ⟨hx, .refl⟩
      | tail _ hr ih => exact ⟨hclosed _ ih.1 _ hr, ih.2.tail ((hagree _ ih.1 _).2 hr)⟩
    exact hboth.2

end Whole

end Reach

end HeapFlow
