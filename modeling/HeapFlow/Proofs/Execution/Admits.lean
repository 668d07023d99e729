import HeapFlow.Proofs.Constants.Arithmetic
import HeapFlow.Proofs.Constants.Flow
import HeapFlow.Proofs.Constants.Monotone
import HeapFlow.Proofs.Execution.PointsToSound
/-!
# HeapFlow.Proofs.Execution.Admits

**Values of a run that abstract values admit.** An abstract value admits the values that an integer
variable may hold when it is all that is known of the variable: undefined admits none, a constant the
constant alone, "not a constant" any. A fact admits the variables of a frame, and an abstract heap
what the objects and the static fields hold, if they admit it wherever the type can hold an integer.
-/

namespace HeapFlow

open Execution (Val Plain State Frame Instance)

/-! ### Values -/

namespace Value

/-- Whether an abstract value admits a value of a run. -/
def Admits : Value → Val → Prop
  | undefined, _ => False
  | const n, x => x = .plain (.int n)
  | nac, _ => True

instance : (v : Value) → (x : Val) → Decidable (v.Admits x)
  | undefined, _ => .isFalse id
  | const n, x => inferInstanceAs (Decidable (x = .plain (.int n)))
  | nac, _ => .isTrue trivial

variable {v w : Value} {x : Val}

theorem Admits.mono (h : v.Admits x) (hle : v ≤ w) : w.Admits x := by
  cases v with
  | undefined => exact h.elim
  | const n =>
    obtain rfl | rfl := const_le_iff.1 hle
    · exact h
    · trivial
  | nac =>
    obtain rfl := nac_le_iff.1 hle
    trivial

/-- What admits a value is not a constant, or is the constant that the value is. -/
theorem admits_iff : v.Admits x ↔ v = nac ∨ ∃ n, x = .plain (.int n) ∧ v = const n := by
  cases v with
  | undefined => simp [Admits]
  | const n => simp [Admits]
  | nac => simp [Admits]

/-- An integer is admitted by what is above it. -/
theorem admits_int_iff {n : Int32} : v.Admits (.plain (.int n)) ↔ const n ≤ v := by
  rw [const_le_iff]
  cases v with
  | undefined => simp [Admits]
  | const m => simp [Admits, eq_comm]
  | nac => simp [Admits]

end Value

namespace BinOp

/-- **Folding admits what the operation computes.** -/
theorem evaluate_admits {op : BinOp} {v w : Value} {a b c : Int32}
    (hv : v.Admits (.plain (.int a))) (hw : w.Admits (.plain (.int b)))
    (hfold : op.fold a b = .const c) : (op.evaluate v w).Admits (.plain (.int c)) := by
  have hnot : ¬ (op.divides = true ∧ w = .const 0) := by
    rintro ⟨hdivides, rfl⟩
    obtain rfl : b = 0 := by simpa [Value.Admits] using hw
    rw [fold_zero hdivides] at hfold
    cases hfold
  rw [evaluate_of_not_zero hnot]
  cases v with
  | undefined => exact hv.elim
  | nac => trivial
  | const m =>
    cases w with
    | undefined => exact hw.elim
    | nac => trivial
    | const n =>
      obtain rfl : a = m := by simpa [Value.Admits] using hv
      obtain rfl : b = n := by simpa [Value.Admits] using hw
      show (op.fold a b).Admits _
      rw [hfold]
      rfl

end BinOp

/-! ### Variables -/

namespace Fact

/-- A fact admits what the integer variables hold. -/
def Admits (fact : Fact) (locals : Var → Option Val) : Prop :=
  ∀ v x, locals v = some x → v.ty.holdsInt = true → (fact.get v.index).Admits x

variable {fact out : Fact} {locals : Var → Option Val}

theorem Admits.mono (h : fact.Admits locals) (hle : fact ≤ out) : out.Admits locals :=
  fun v x hx hint => (h v x hx hint).mono (hle v.index)

/-- One variable takes a value that is admitted, and of the others as much is admitted as before. -/
theorem Admits.receive {m : Method} {f : Frame} (h : fact.Admits f.locals) (hm : m.Scoped)
    (hvars : ∀ v x, f.locals v = some x → v ∈ m.vars) {result : Option Var} {x : Option Val}
    (hresult : ∀ v, result = some v → v ∈ m.vars)
    (hkeep : ∀ j, (∀ v, result = some v → v.ty.holdsInt = true → v.index ≠ j) →
      fact.get j ≤ out.get j)
    (hx : ∀ v y, result = some v → x = some y → v.ty.holdsInt = true →
      (out.get v.index).Admits y) : out.Admits (f.receive result x).locals := by
  intro w y hy hint
  obtain ⟨hv, hy⟩ | ⟨hne, hy⟩ := Frame.locals_receive hy
  · exact hx w y hv hy hint
  · refine (h w y hy hint).mono (hkeep w.index fun v hv _ hindex => hne ?_)
    rw [hv, hm.eq_of_index (hresult v hv) (hvars w y hy) hindex]

end Fact

/-! ### The heap -/

/-- What holds of every value held, and of one that is put in a place, holds of every value then. -/
theorem forall_of_put {α : Type} [DecidableEq α] {held : α → Option Val} {P : α → Val → Prop}
    (hheld : ∀ j y, held j = some y → P j y) {k : α} {x : Val} (hx : P k x) (j : α) (y : Val)
    (hy : (if j = k then some x else held j) = some y) : P j y := by
  split at hy
  · rename_i heq
    cases hy
    exact heq ▸ hx
  · exact hheld j y hy

namespace HeapStore

variable {h : HeapStore} {st st' : State} {o : Instance}

/-- An abstract heap admits what an object holds. -/
structure AdmitsInstance (h : HeapStore) (o : Instance) : Prop where
  fields : ∀ g x, o.fields g = some x → g.ty.holdsInt = true →
    (h.get (.field o.origin g)).Admits x
  elements : ∀ i x, o.elements i = some x → o.origin.ty.element.holdsInt = true →
    (h.readArray o.origin (.const i)).Admits x

/-- An abstract heap admits what the objects and the static fields hold. -/
structure Admits (h : HeapStore) (st : State) : Prop where
  instances : ∀ o ∈ st.heap, h.AdmitsInstance o
  statics : ∀ g x, st.statics g = some x → g.ty.holdsInt = true → (h.get (.static g)).Admits x

theorem admitsInstance_fresh (origin : Obj) : h.AdmitsInstance (.fresh origin) :=
  ⟨fun _ _ => nofun, fun _ _ => nofun⟩

theorem AdmitsInstance.setField (ho : h.AdmitsInstance o) {g : Field} {x : Val}
    (hx : g.ty.holdsInt = true → (h.get (.field o.origin g)).Admits x) :
    h.AdmitsInstance (o.setField g x) :=
  ⟨forall_of_put ho.fields hx, ho.elements⟩

theorem AdmitsInstance.setElement (ho : h.AdmitsInstance o) {i : Int32} {x : Val}
    (hx : o.origin.ty.element.holdsInt = true → (h.readArray o.origin (.const i)).Admits x) :
    h.AdmitsInstance (o.setElement i x) :=
  ⟨ho.fields, forall_of_put ho.elements hx⟩

theorem Admits.of_eq (hst : h.Admits st) (hheap : st'.heap = st.heap)
    (hstatics : st'.statics = st.statics) : h.Admits st' := by
  refine ⟨?_, ?_⟩
  · rw [hheap]
    exact hst.instances
  · rw [hstatics]
    exact hst.statics

/-- One object of the heap is replaced. -/
theorem Admits.set (hst : h.Admits st) {a : Nat} (ho : h.AdmitsInstance o) :
    h.Admits (st.withHeap (st.heap.set a o)) := by
  refine ⟨fun o' ho' => ?_, hst.statics⟩
  obtain hold | rfl := List.mem_or_eq_of_mem_set ho'
  · exact hst.instances o' hold
  · exact ho

/-- A new object is put behind the others. -/
theorem Admits.push (hst : h.Admits st) (origin : Obj) :
    h.Admits (st.withHeap (st.heap ++ [.fresh origin])) := by
  refine ⟨fun o' ho' => ?_, hst.statics⟩
  obtain hold | hnew := List.mem_append.1 ho'
  · exact hst.instances o' hold
  · rw [List.mem_singleton.1 hnew]
    exact admitsInstance_fresh origin

theorem Admits.setStatic (hst : h.Admits st) {g : Field} {x : Val}
    (hx : g.ty.holdsInt = true → (h.get (.static g)).Admits x) : h.Admits (st.setStatic g x) :=
  ⟨hst.instances, forall_of_put hst.statics hx⟩

end HeapStore

end HeapFlow
