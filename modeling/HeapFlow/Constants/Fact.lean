import HeapFlow.Constants.Value
import HeapFlow.Data.IndexMap
/-!
# HeapFlow.Constants.Fact

**Facts about the variables of a method.** A fact binds variables, by their index, to constants or
to "not a constant"; a variable that is not bound is undefined. No variable is bound to `undefined`, so
two facts are equal exactly when they agree on every variable (`ext_get`).
-/

namespace HeapFlow

/-- What is known of the integer variables of a method. -/
structure Fact where
  bindings : IndexMap Value
  bound : ∀ i, bindings.get? i ≠ some .undefined

namespace Fact

/-- The fact that binds nothing. -/
def empty : Fact := ⟨∅, fun _ => by simp [EmptyCollection.emptyCollection]⟩

instance : EmptyCollection Fact := ⟨empty⟩

instance : Inhabited Fact := ⟨empty⟩

theorem ext {f g : Fact} (h : f.bindings = g.bindings) : f = g := by
  cases f
  cases g
  cases h
  rfl

instance : DecidableEq Fact := fun _ _ => decidable_of_iff _ ⟨ext, congrArg bindings⟩

/-- The value of the variable at an index. -/
def get (f : Fact) (i : Nat) : Value := (f.bindings.get? i).getD .undefined

/-- Takes away what is known of a variable. -/
def remove (f : Fact) (i : Nat) : Fact :=
  ⟨f.bindings.erase i, fun j => by
    rw [IndexMap.get?_erase]
    split
    · simp
    · exact f.bound j⟩

/-- Gives a variable a value. -/
def update (f : Fact) (i : Nat) (v : Value) : Fact :=
  if h : v = .undefined then f.remove i
  else
    ⟨f.bindings.set i v, fun j => by
      rw [IndexMap.get?_set]
      split
      · simpa using h
      · exact f.bound j⟩

/-- Whether giving a variable a value changes what is known of it. Taking a variable away gives it
the value `undefined`. -/
def changes (f : Fact) (i : Nat) (v : Value) : Bool := decide (f.get i ≠ v)

/-- Takes away what is known of a variable, and tells whether something was. -/
def unassign (f : Fact) (i : Nat) : Bool × Fact := ((f.bindings.get? i).isSome, f.remove i)

/-- Gives a variable a value, and tells whether this changed the fact. -/
def assign (f : Fact) (i : Nat) (v : Value) : Bool × Fact :=
  if v = .undefined then f.unassign i
  else
    match f.bindings.get? i with
    | none => (true, f.update i v)
    | some w => if w = v then (false, f) else (true, f.update i v)

/-- The least fact above both. -/
def meet (f g : Fact) : Fact :=
  g.bindings.entries.foldl (fun f e => f.update e.1 ((f.get e.1).meet e.2)) f

/-- The number of bound variables. -/
def size (f : Fact) : Nat := f.bindings.size

/-- The fact that binds some variables to "not a constant". -/
def unknown (vars : List Var) : Fact := vars.foldl (fun f v => f.update v.index .nac) empty

/-- The bindings in the order of the variables, with the names that `vars` gives them. -/
def text (vars : List Var) (f : Fact) : String :=
  let name (i : Nat) := (vars[i]?.map Var.name).getD ""
  "\x7b" ++ Text.joined ", " (f.bindings.entries.map fun (i, v) => name i ++ "=" ++ v.text) ++ "\x7d"

/-! ### What the operations do to the view -/

@[simp] theorem get_empty (i : Nat) : (∅ : Fact).get i = .undefined := rfl

@[simp] theorem get_remove (f : Fact) (i j : Nat) :
    (f.remove i).get j = if i = j then .undefined else f.get j := by
  rw [get, remove, IndexMap.get?_erase]
  split <;> rfl

@[simp] theorem get_update (f : Fact) (i j : Nat) (v : Value) :
    (f.update i v).get j = if i = j then v else f.get j := by
  unfold update
  split
  · rename_i h
    rw [get_remove, h]
  · rw [get, IndexMap.get?_set]
    split <;> rfl

/-- The bound variables are those with a value. -/
theorem get?_eq_some_iff {f : Fact} {i : Nat} {v : Value} :
    f.bindings.get? i = some v ↔ v ≠ .undefined ∧ f.get i = v := by
  rw [get]
  cases hi : f.bindings.get? i with
  | none => exact ⟨nofun, fun ⟨hv, h⟩ => absurd h.symm hv⟩
  | some w =>
    have hw : w ≠ .undefined := fun h => f.bound i (h ▸ hi)
    constructor
    · intro h
      obtain rfl := Option.some.inj h
      exact ⟨hw, rfl⟩
    · exact fun ⟨_, h⟩ => congrArg some h

/-- **Canonical.** Facts that agree on every variable are equal. -/
theorem ext_get {f g : Fact} (h : ∀ i, f.get i = g.get i) : f = g := by
  refine ext (IndexMap.ext_get? fun i => Option.ext fun v => ?_)
  rw [get?_eq_some_iff, get?_eq_some_iff, h]

/-! ### What an assignment tells -/

/-- A variable that is given the value it has leaves the fact as it is. -/
theorem update_eq_self_iff {f : Fact} {i : Nat} {v : Value} : f.update i v = f ↔ f.get i = v := by
  constructor
  · intro h
    rw [← h, get_update, if_pos rfl]
  · intro h
    refine ext_get fun j => ?_
    rw [get_update]
    split
    · rename_i hij
      rw [← hij, h]
    · rfl

/-- Removing a variable is giving it the value `undefined`. -/
theorem unassign_eq (f : Fact) (i : Nat) : f.unassign i = (f.changes i .undefined, f.remove i) := by
  have hbound : (f.bindings.get? i).isSome = f.changes i .undefined := by
    rw [changes, get]
    cases hi : f.bindings.get? i with
    | none => rfl
    | some w =>
      have hne : (some w).getD .undefined ≠ .undefined := fun h => f.bound i (hi.trans (congrArg some h))
      exact (decide_eq_true hne).symm
  rw [unassign, hbound]

theorem assign_eq (f : Fact) (i : Nat) (v : Value) : f.assign i v = (f.changes i v, f.update i v) := by
  unfold assign
  split
  · rename_i hv
    rw [unassign_eq, hv, update, dif_pos rfl]
  · rename_i hv
    split
    · rename_i hi
      have hne : f.get i ≠ v := fun h => nomatch hi.symm.trans (get?_eq_some_iff.2 ⟨hv, h⟩)
      rw [changes, decide_eq_true hne]
    · rename_i w hi
      have hget : f.get i = w := (get?_eq_some_iff.1 hi).2
      split
      · rename_i hwv
        have heq : f.get i = v := hget.trans hwv
        rw [changes, decide_eq_false (not_not_intro heq), update_eq_self_iff.2 heq]
      · rename_i hwv
        have hne : f.get i ≠ v := fun h => hwv (hget.symm.trans h)
        rw [changes, decide_eq_true hne]

end Fact

end HeapFlow
