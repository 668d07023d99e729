import HeapFlow.Proofs.Execution.PointsToSound
import HeapFlow.Proofs.Icfg.PointsToGraph
/-!
# HeapFlow.Proofs.Execution.Pairs

**Which types a program pairs.** A statement that moves a value pairs the type of the place that takes
it with the type of the place that it comes from. An analysis of integers can follow a value only
where a place that can hold integers takes it from another one (`PairsInts`).

Which methods a call runs and which array an element is stored in are seen in a run only. What a
program declares is enough to know them (`pairsInts_of_declared`) as long as a variable for arrays
with integer elements refers to such arrays only: a copy between arrays of different element types is
accepted by the loader.
-/

namespace HeapFlow

/-! ### Declared types -/

/-- The types that are paired where a place is accessed: the index of an element is an integer. -/
def Place.pairs : Place → List (Ty × Ty)
  | .element _ index => [(.int, index.ty)]
  | _ => []

/-- The types that a call of a method pairs: parameters with arguments, and the result with the
variables that the method returns. -/
def Call.pairs (call : Call) (result : Option Var) (m : Method) : List (Ty × Ty) :=
  ((call.args.zip m.params).map fun (a, q) => (q.ty, a.ty)) ++
    result.toList.flatMap fun w => m.returnVars.toList.map fun v => (w.ty, v.ty)

/-- The types that a statement pairs by what is declared. A call may be one of any method with the
subsignature that it names. -/
def Program.pairs (p : Program) : Stmt → List (Ty × Ty)
  | .assign lhs (.var v) => [(lhs.ty, v.ty)]
  | .assign lhs (.binary _ v w) => [(lhs.ty, v.ty), (lhs.ty, w.ty)]
  | .assign lhs (.load place) => (lhs.ty, place.ty) :: place.pairs
  | .store place source => (place.ty, source.ty) :: place.pairs
  | .invoke result call =>
    (p.methods.filter fun m => m.subsignature = call.subsignature).flatMap (call.pairs result)
  | _ => []

/-- The declared types pair what can hold integers with what can hold integers. -/
def Program.DeclaresPairs (p : Program) : Prop :=
  ∀ m ∈ p.methods, ∀ s ∈ m.stmts, ∀ t ∈ p.pairs s, t.1.holdsInt = true → t.2.holdsInt = true

instance (p : Program) : Decidable p.DeclaresPairs :=
  inferInstanceAs (Decidable (∀ m ∈ p.methods, ∀ s ∈ m.stmts, ∀ t ∈ p.pairs s, _ → _))

namespace Execution

/-! ### Types in a run -/

variable {p : Program} {st : State} {f : Frame}

/-- The type of what a place holds: elements are of the type that their array was created with. -/
inductive HasType (st : State) (f : Frame) : Place → Ty → Prop
  | field (base : Var) (g : Field) : HasType st f (.field base g) g.ty
  | static (g : Field) : HasType st f (.static g) g.ty
  | element {array : Var} (index : Var) {a : Nat} {o : Instance}
      (harray : f.locals array = some (.ref a)) (ho : st.heap[a]? = some o) :
      HasType st f (.element array index) o.origin.ty.element

/-- The types that a statement pairs where it is executed: that of what takes a value, and that of
where the value comes from. -/
inductive Pairs (p : Program) (st : State) (f : Frame) : Stmt → Ty → Ty → Prop
  | copy (lhs v : Var) : Pairs p st f (.assign lhs (.var v)) lhs.ty v.ty
  | left (lhs : Var) (op : BinOp) (v w : Var) :
      Pairs p st f (.assign lhs (.binary op v w)) lhs.ty v.ty
  | right (lhs : Var) (op : BinOp) (v w : Var) :
      Pairs p st f (.assign lhs (.binary op v w)) lhs.ty w.ty
  | load (lhs : Var) {place : Place} {t : Ty} (h : HasType st f place t) :
      Pairs p st f (.assign lhs (.load place)) lhs.ty t
  | store (source : Var) {place : Place} {t : Ty} (h : HasType st f place t) :
      Pairs p st f (.store place source) t source.ty
  | loadIndex (lhs array index : Var) :
      Pairs p st f (.assign lhs (.load (.element array index))) .int index.ty
  | storeIndex (source array index : Var) :
      Pairs p st f (.store (.element array index) source) .int index.ty
  | argument {result : Option Var} {call : Call} {callee : MethodId} {m : Method}
      {receiver : Option Val} (h : Selects p st f call callee m receiver) {a q : Var}
      (ha : (a, q) ∈ call.args.zip m.params) : Pairs p st f (.invoke result call) q.ty a.ty
  | result {w : Var} {call : Call} {callee : MethodId} {m : Method} {receiver : Option Val}
      (h : Selects p st f call callee m receiver) {v : Var} (hv : v ∈ m.returnVars) :
      Pairs p st f (.invoke (some w) call) w.ty v.ty

/-- The pairs of a statement are of types that can hold integers, if the one that takes is. -/
def PairsAt (p : Program) (st : State) (f : Frame) (s : Stmt) : Prop :=
  ∀ t u, Pairs p st f s t u → t.holdsInt = true → u.holdsInt = true

/-- In every run, what can hold an integer takes its value from what can hold an integer. -/
def PairsInts (p : Program) : Prop :=
  ∀ st, Reachable p (fun _ => False) st → ∀ f rest i s, st.frames = f :: rest → AtStmt p f i s →
    PairsAt p st f s

/-! ### From the declared types -/

/-- The variable through which a statement accesses an element. -/
def arrayOf? : Stmt → Option Var
  | .assign _ (.load (.element array _)) => some array
  | .store (.element array _) _ => some array
  | _ => none

/-- In every run, arrays whose elements are accessed were created with elements that can hold integers
exactly if the variables that refer to them are declared so. -/
def ArraysTyped (p : Program) : Prop :=
  ∀ st, Reachable p (fun _ => False) st → ∀ f rest i s, st.frames = f :: rest → AtStmt p f i s →
    ∀ array a o, arrayOf? s = some array → f.locals array = some (.ref a) →
      st.heap[a]? = some o → o.origin.ty.element.holdsInt = array.ty.element.holdsInt

/-- A points-to analysis can tell that arrays are typed. -/
theorem arraysTyped_of_solve {policy : Policy} {heap : Heap} {contexts : Contexts} {fuel : Nat}
    {ans : PointsTo.Answer} (h : PointsTo.solve p policy fuel heap contexts = some ans)
    (hok : ans.failure = none) (hdistinct : DistinctReceivers p heap)
    (htyped : ∀ v ∈ ans.state.found.vars, ∀ o ∈ (ans.state.found.ofVar v).toList,
      o.ty.element.holdsInt = v.var.ty.element.holdsInt) : ArraysTyped p := by
  intro st hst f rest i s hframes hat array a o harray hlocal ho
  have hcovered := reachable_covered h hok (ownReceivers_iff.2 hdistinct) hst
  have hf : f ∈ st.frames := by simp [hframes]
  obtain ⟨o', ho', hmem⟩ := hcovered.locals f hf array a hlocal
  obtain rfl := Option.some.inj (ho.symm.trans ho')
  exact htyped _ (PointsTo.mem_vars_of_mem_ofVar hmem) _ hmem

theorem stmt_mem_of_atStmt {i : Nat} {s : Stmt} (h : AtStmt p f i s) :
    ∃ m ∈ p.methods, s ∈ m.stmts := by
  have hs := h.2
  unfold PointsTo.bodyOf at hs
  split at hs
  · rename_i m hm
    split at hs
    · exact ⟨m, Program.mem_methods_of_method? hm, List.mem_of_getElem? hs⟩
    · cases hs
  · cases hs

theorem Selects.method? {call : Call} {callee : MethodId} {m : Method} {receiver : Option Val}
    (h : Selects p st f call callee m receiver) : p.method? callee = some m := by
  cases h with
  | static _ _ hm => exact hm
  | onReceiver _ _ _ _ _ hm => exact hm

/-- A call runs a method of the program with the subsignature that it names. -/
theorem Selects.callee_mem (hp : p.WellFormed) {call : Call} {callee : MethodId} {m : Method}
    {receiver : Option Val} (h : Selects p st f call callee m receiver) :
    m ∈ p.methods.filter fun m => m.subsignature = call.subsignature := by
  obtain ⟨c, hdispatch⟩ : ∃ c, p.dispatch? c call.subsignature = some callee := by
    cases h with
    | static _ hcallee => exact Program.exists_of_resolveDirect hcallee
    | onReceiver _ _ _ _ hcallee => exact Program.exists_of_resolveByReceiver hcallee
  obtain ⟨m', hm', -, hsub⟩ := PointsTo.exists_method_of_dispatch? hp hdispatch
  obtain rfl := Option.some.inj (h.method?.symm.trans hm')
  exact List.mem_filter.2 ⟨Program.mem_methods_of_method? hm', decide_eq_true hsub.symm⟩

/-- **Declared types that pair integers with integers do so in every run**, if array variables refer to
arrays of their kind. -/
theorem pairsInts_of_declared (hp : p.WellFormed) (h : p.DeclaresPairs) (harrays : ArraysTyped p) :
    PairsInts p := by
  intro st hst f rest i s hframes hat t u hpairs hint
  obtain ⟨m, hm, hs⟩ := stmt_mem_of_atStmt hat
  have hdeclared {t u : Ty} (hmem : (t, u) ∈ p.pairs s) (hint : t.holdsInt = true) :
      u.holdsInt = true := h m hm s hs (t, u) hmem hint
  have htyped {place : Place} {t : Ty}
      (hplace : ∀ array index, place = .element array index → arrayOf? s = some array)
      (ht : HasType st f place t) : t.holdsInt = place.ty.holdsInt := by
    cases ht with
    | field | static => rfl
    | element index hlocal ho =>
      exact harrays st hst f rest i s hframes hat _ _ _ (hplace _ index rfl) hlocal ho
  cases hpairs with
  | copy | left | right | loadIndex | storeIndex =>
    exact hdeclared (by simp [Program.pairs, Place.pairs]) hint
  | load lhs ht =>
    rw [htyped (fun _ _ heq => by rw [heq]; rfl) ht]
    exact hdeclared (by simp [Program.pairs]) hint
  | store source ht =>
    rw [htyped (fun _ _ heq => by rw [heq]; rfl) ht] at hint
    exact hdeclared (by simp [Program.pairs]) hint
  | @argument result call callee m receiver hselects a q ha =>
    refine hdeclared (List.mem_flatMap.2 ⟨m, hselects.callee_mem hp, ?_⟩) hint
    exact List.mem_append_left _ (List.mem_map.2 ⟨(a, q), ha, rfl⟩)
  | @result w call callee m receiver hselects v hv =>
    refine hdeclared (List.mem_flatMap.2 ⟨m, hselects.callee_mem hp, ?_⟩) hint
    refine List.mem_append_right _ (List.mem_flatMap.2 ⟨w, List.mem_singleton_self w, ?_⟩)
    exact List.mem_map.2 ⟨v, hv, rfl⟩

end Execution

end HeapFlow
