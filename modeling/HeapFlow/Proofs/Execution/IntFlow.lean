import HeapFlow.Proofs.Execution.Admits
import HeapFlow.Proofs.Execution.Pairs
/-!
# HeapFlow.Proofs.Execution.IntFlow

**Integers flow as the analysis says.** Where the types of a statement are paired, what an expression
evaluates to is admitted by the abstract value of the expression, and what a store writes by the slots
that it writes to. The objects of a run are found among those that the points-to sets name. The
parameters of a callee are admitted by what the edge into the callee brings.
-/

namespace HeapFlow

namespace Execution

open Constants

variable {p : Program} {pts : PointsTo} {h : HeapStore} {st st' : State} {f : Frame} {fact : Fact}
  {i : Nat}

/-- A read of a place to which nothing was assigned stops the run. -/
theorem Reads.eq_some {x : Option Val} {y : Val} (h : Reads (fun _ => False) x y) : x = some y := by
  cases h with
  | assigned => rfl
  | unassigned hunset => exact hunset.elim

/-! ### Reading -/

/-- The object that a variable refers to is one that the analysis names. -/
theorem Covered.objectsOf (hcovered : Covered pts st) (hf : f ∈ st.frames) {v : Var} {a : Nat}
    {o : Instance} (hv : f.locals v = some (.ref a)) (ho : st.heap[a]? = some o) (n : Node) :
    o.origin ∈ objectsOf (settingOf p pts) ⟨f.method, n⟩ v := by
  obtain ⟨o', ho', hmem⟩ := hcovered.locals f hf v a hv
  obtain rfl := Option.some.inj (ho.symm.trans ho')
  exact hmem

/-- What a load reads is admitted by the value that it sees. -/
theorem loads_admitted (hheap : h.Admits st) (hfact : fact.Admits f.locals)
    (hcovered : Covered pts st) (hf : f ∈ st.frames) {lhs : Var} {place : Place} {x : Val} {n : Node}
    (hpairs : PairsAt p st f (.assign lhs (.load place))) (hint : lhs.ty.holdsInt = true)
    (hx : Evaluates (fun _ => False) st f (.load place) x) :
    (loaded (settingOf p pts) ⟨f.method, n⟩ h fact place).Admits x := by
  have hseen {slot : Slot} (hslot : slot ∈ readSlots (settingOf p pts) ⟨f.method, n⟩ fact place) :
      h.get slot ≤ loaded (settingOf p pts) ⟨f.method, n⟩ h fact place :=
    loaded_le_iff.1 le_rfl slot hslot
  cases hx with
  | @loadField base g a o x hbase ho hread =>
    have hg : g.ty.holdsInt = true := hpairs _ _ (.load lhs (.field base g)) hint
    have hheld := (hheap.instances o (List.mem_of_getElem? ho)).fields g x hread.eq_some hg
    exact hheld.mono (hseen ⟨o.origin, hcovered.objectsOf hf hbase ho n, rfl⟩)
  | @loadStatic g x hread =>
    have hg : g.ty.holdsInt = true := hpairs _ _ (.load lhs (.static g)) hint
    exact (hheap.statics g x hread.eq_some hg).mono (hseen rfl)
  | @loadElement array index a j o x harray hindex ho hread =>
    have hg : o.origin.ty.element.holdsInt = true :=
      hpairs _ _ (.load lhs (.element index harray ho)) hint
    have hheld := (hheap.instances o (List.mem_of_getElem? ho)).elements j x hread.eq_some hg
    have hindexInt : index.ty.holdsInt = true := hpairs _ _ (.loadIndex lhs array index) rfl
    have hj : Value.const j ≤ fact.get index.index :=
      Value.admits_int_iff.1 (hfact index _ hindex.eq_some hindexInt)
    -- the load sees at least the slots of the index that it has in the run
    refine hheld.mono (HeapStore.readArray_le_iff.2 fun slot hslot => hseen ⟨o.origin, ?_, ?_⟩)
    · exact hcovered.objectsOf hf harray ho n
    · exact HeapStore.elementSlots_mono hj hslot

/-- **What an expression evaluates to is admitted by its abstract value.** -/
theorem evaluates_admitted (hheap : h.Admits st) (hfact : fact.Admits f.locals)
    (hcovered : Covered pts st) (hf : f ∈ st.frames) {lhs : Var} {e : Expr} {x : Val} {n : Node}
    (hpairs : PairsAt p st f (.assign lhs e)) (hint : lhs.ty.holdsInt = true)
    (hx : Evaluates (fun _ => False) st f e x) :
    (assigned (settingOf p pts) ⟨f.method, n⟩ h fact e).Admits x := by
  cases hx with
  | @var v x hread => exact hfact v x hread.eq_some (hpairs _ _ (.copy lhs v) hint)
  | int n => rfl
  | null => trivial
  | @binary op v w a b c hv hw hfold =>
    have hvInt : v.ty.holdsInt = true := hpairs _ _ (.left lhs op v w) hint
    have hwInt : w.ty.holdsInt = true := hpairs _ _ (.right lhs op v w) hint
    exact BinOp.evaluate_admits (hfact v _ hv.eq_some hvInt) (hfact w _ hw.eq_some hwInt) hfold
  | @binaryOther op v w x y _ _ hty c =>
    have hvInt : v.ty.holdsInt = true := hpairs _ _ (.left lhs op v w) hint
    have hwInt : w.ty.holdsInt = true := hpairs _ _ (.right lhs op v w) hint
    exact absurd ⟨hvInt, hwInt⟩ hty
  | cast => trivial
  | convert => trivial
  | loadField hbase ho hread =>
    exact loads_admitted hheap hfact hcovered hf hpairs hint (.loadField hbase ho hread)
  | loadStatic hread =>
    exact loads_admitted (n := n) hheap hfact hcovered hf hpairs hint (.loadStatic hread)
  | loadElement harray hindex ho hread =>
    exact loads_admitted hheap hfact hcovered hf hpairs hint
      (.loadElement harray hindex ho hread)

/-! ### Writing -/

/-- **What a store writes is admitted by the heap that has it in the slots of the store.** -/
theorem stores_admitted (hheap : h.Admits st) (hfact : fact.Admits f.locals)
    (hcovered : Covered pts st) (hf : f ∈ st.frames) {place : Place} {source : Var} {x : Val}
    {n : Node} (hpairs : PairsAt p st f (.store place source))
    (hstored : source.ty.holdsInt = true →
      ∀ slot ∈ storeSlots (settingOf p pts) ⟨f.method, n⟩ fact place,
        fact.get source.index ≤ h.get slot)
    (hx : Reads (fun _ => False) (f.locals source) x)
    (hstore : Stores (fun _ => False) st f x place st') : h.Admits st' := by
  have hwritten {t : Ty} (htype : HasType st f place t) (hint : t.holdsInt = true) {slot : Slot}
      (hslot : slot ∈ storeSlots (settingOf p pts) ⟨f.method, n⟩ fact place) :
      (h.get slot).Admits x := by
    have hsource : source.ty.holdsInt = true := hpairs _ _ (.store source htype) hint
    exact (hfact source x hx.eq_some hsource).mono (hstored hsource slot hslot)
  cases hstore with
  | @field base g a o hbase ho =>
    refine hheap.set ((hheap.instances o (List.mem_of_getElem? ho)).setField fun hint => ?_)
    exact hwritten (.field base g) hint
      (List.mem_map.2 ⟨o.origin, hcovered.objectsOf hf hbase ho n, rfl⟩)
  | @static g =>
    exact hheap.setStatic fun hint => hwritten (.static g) hint (List.mem_singleton_self _)
  | @element array index a j o harray hindex ho =>
    refine hheap.set ((hheap.instances o (List.mem_of_getElem? ho)).setElement fun hint => ?_)
    have hindexInt : index.ty.holdsInt = true := hpairs _ _ (.storeIndex source array index) rfl
    have hj : Value.const j ≤ fact.get index.index :=
      Value.admits_int_iff.1 (hfact index _ hindex.eq_some hindexInt)
    have hobject := hcovered.objectsOf (p := p) hf harray ho n
    -- a read at the index sees the slot that is written, whether the index is known or not
    obtain ⟨k, hk, hread⟩ : ∃ k, .element o.origin k ∈
        storeSlots (settingOf p pts) ⟨f.method, n⟩ fact (.element array index) ∧
        .element o.origin k ∈ HeapStore.elementSlots o.origin (.const j) := by
      simp only [storeSlots]
      obtain heq | heq := Value.const_le_iff.1 hj <;> rw [heq]
      · exact ⟨.const j, List.mem_map.2 ⟨o.origin, hobject, rfl⟩, .inl rfl⟩
      · exact ⟨.nac, List.mem_map.2 ⟨o.origin, hobject, rfl⟩, .inr rfl⟩
    exact (hwritten (.element index harray ho) hint hk).mono
      (HeapStore.readArray_le_iff.1 le_rfl _ hread)

/-! ### Entering -/

/-- Nothing is known of what an entry method is called with. -/
theorem entryLocals_admitted {m : Method} (hm : m.Scoped) (a : Nat) (args : Var → Plain) :
    (entryFact m).Admits (entryLocals m a args) := by
  intro v x hx hint
  unfold entryLocals at hx
  split at hx
  · rename_i hthis
    rw [hm.holdsInt_receiver hthis] at hint
    cases hint
  · split at hx
    · rename_i hparam
      rw [get_entryFact hm hparam hint]
      trivial
    · cases hx

/-- **Parameters are admitted by what the edge into the callee brings.** -/
theorem calleeLocals_admitted (hfact : fact.Admits f.locals) {result : Option Var} {call : Call}
    {callee : MethodId} {m : Method} {receiver : Option Val} {args : List Val} {pt : Point}
    (hs : stmtAt? (settingOf p pts) pt = some (.invoke result call))
    (hselects : Selects p st f call callee m receiver) (hm : m.Scoped) (hkind : call.kind ≠ .dynamic)
    (hsub : call.subsignature = m.subsignature)
    (hargs : List.Forall₂ (fun v x => Reads (fun _ => False) (f.locals v) x) call.args args)
    (hlength : call.args.length = m.params.length)
    (hpairs : PairsAt p st f (.invoke result call)) :
    (intoCallee (settingOf p pts) pt callee fact).Admits (calleeLocals m receiver args) := by
  intro q x hx hint
  obtain ⟨hthis, -⟩ | hmem := calleeLocals_cases hx
  · rw [hm.holdsInt_receiver hthis] at hint
    cases hint
  · obtain ⟨a, ha, hread⟩ := mem_zip_of_forall₂ hargs hmem
    rw [get_intoCallee hs hselects.method? hm hkind hsub hlength ha hint]
    exact hfact a x hread.eq_some (hpairs _ _ (.argument hselects ha) hint)

end Execution

end HeapFlow
