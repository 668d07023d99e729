import HeapFlow.Proofs.Ir.Regular
/-!
# HeapFlow.Proofs.Ir.Supertypes

**What the classes of a loaded program name above themselves** (`Program.Loaded.layered`). A superclass
is a class of the program and no interface, and what is listed among the interfaces is an interface of
the program. This is checked when superclasses and interfaces are set. Which classes there are and
which of them are interfaces is settled by then, and every later change of a class keeps what is above
it, so one lemma about changes of classes (`Program.Layered.modifyClass`) serves all declarations.
-/

namespace HeapFlow

namespace Program

/-- A class of the program has that reference, and is an interface or is none. -/
def Has (p : Program) (isInterface : Bool) (ref : ClassRef) : Prop :=
  ∃ c ∈ p.classes, c.ref = ref ∧ c.isInterface = isInterface

/-- Superclasses are classes of the program that are no interfaces, and interfaces are interfaces of
the program. -/
structure Layered (p : Program) : Prop where
  super : ∀ c ∈ p.classes, ∀ d, c.super? = some d → p.Has false d
  interfaces : ∀ c ∈ p.classes, ∀ d ∈ c.interfaces, p.Has true d

variable {p : Program} {c : Class} {ref d : ClassRef} {f : Class → Class} {isInterface : Bool}

/-! ### Changes of classes -/

theorem exists_of_mem_modifyClass (h : c ∈ (p.modifyClass ref f).classes) :
    ∃ old ∈ p.classes, c = old ∨ c = f old := by
  obtain ⟨i, hi⟩ := List.mem_iff_getElem?.1 h
  rw [modifyClass, List.getElem?_modify] at hi
  obtain ⟨old, hold, rfl⟩ := Option.map_eq_some_iff.1 hi
  refine ⟨old, List.mem_of_getElem? hold, ?_⟩
  split
  · exact .inr rfl
  · exact .inl rfl

theorem exists_mem_modifyClass (ref : ClassRef) (f : Class → Class) (h : c ∈ p.classes) :
    ∃ new ∈ (p.modifyClass ref f).classes, new = c ∨ new = f c := by
  obtain ⟨i, hi⟩ := List.mem_iff_getElem?.1 h
  refine ⟨if ref.index = i then f c else c, List.mem_of_getElem? (i := i) ?_, ?_⟩
  · rw [modifyClass, List.getElem?_modify, hi]
    split <;> rfl
  · split
    · exact .inr rfl
    · exact .inl rfl

/-- The change of a class leaves its reference, and whether it is an interface. -/
def KeepsHeader (f : Class → Class) : Prop :=
  ∀ c, (f c).ref = c.ref ∧ (f c).isInterface = c.isInterface

theorem Has.modifyClass (h : p.Has isInterface d) (hf : KeepsHeader f) :
    (p.modifyClass ref f).Has isInterface d := by
  obtain ⟨c, hc, href, hkind⟩ := h
  obtain ⟨new, hnew, rfl | rfl⟩ := exists_mem_modifyClass ref f hc
  · exact ⟨new, hnew, href, hkind⟩
  · exact ⟨f c, hnew, (hf c).1.trans href, (hf c).2.trans hkind⟩

/-- **A change keeps the layers** if what it puts above a class is there and of the right kind. -/
theorem Layered.modifyClass (h : p.Layered) (hf : KeepsHeader f)
    (hsuper : ∀ c d, (f c).super? = some d → c.super? = some d ∨ p.Has false d)
    (hinterfaces : ∀ c, ∀ d ∈ (f c).interfaces, d ∈ c.interfaces ∨ p.Has true d) :
    (p.modifyClass ref f).Layered := by
  refine ⟨fun c hc d hd => ?_, fun c hc d hd => ?_⟩
  · obtain ⟨old, hold, rfl | rfl⟩ := exists_of_mem_modifyClass hc
    · exact (h.super c hold d hd).modifyClass hf
    · obtain hd | hhas := hsuper old d hd
      · exact (h.super old hold d hd).modifyClass hf
      · exact hhas.modifyClass hf
  · obtain ⟨old, hold, rfl | rfl⟩ := exists_of_mem_modifyClass hc
    · exact (h.interfaces c hold d hd).modifyClass hf
    · obtain hd | hhas := hinterfaces old d hd
      · exact (h.interfaces old hold d hd).modifyClass hf
      · exact hhas.modifyClass hf

/-- Members are no part of the layers. -/
theorem Layered.modifyMembers (h : p.Layered) (hf : KeepsHeader f)
    (hsuper : ∀ c, (f c).super? = c.super?) (hinterfaces : ∀ c, (f c).interfaces = c.interfaces) :
    (p.modifyClass ref f).Layered :=
  h.modifyClass hf (fun c _ hd => .inl (hsuper c ▸ hd)) fun c _ hd => .inl (hinterfaces c ▸ hd)

/-- A class has nothing above it when it is declared. -/
theorem layered_addClass (h : p.Layered) (name : String) (isInterface isAbstract : Bool) :
    ({ p with classes := p.classes ++ [.declare ⟨p.classes.length, name⟩ isInterface isAbstract] } :
      Program).Layered := by
  have hhas {kind : Bool} {d : ClassRef} (hd : p.Has kind d) : ({ p with classes := p.classes ++
      [.declare ⟨p.classes.length, name⟩ isInterface isAbstract] } : Program).Has kind d := by
    obtain ⟨c, hc, hrest⟩ := hd
    exact ⟨c, List.mem_append_left _ hc, hrest⟩
  refine ⟨fun c hc d hd => ?_, fun c hc d hd => ?_⟩
  · obtain hold | hnew := List.mem_append.1 hc
    · exact hhas (h.super c hold d hd)
    · obtain rfl := List.mem_singleton.1 hnew
      cases hd
  · obtain hold | hnew := List.mem_append.1 hc
    · exact hhas (h.interfaces c hold d hd)
    · obtain rfl := List.mem_singleton.1 hnew
      cases hd

/-! ### Declarations -/

/-- **Declarations keep the layers.** -/
theorem Layered.declaration {q : Program} (h : p.Layered) (hstep : p.Declaration q) : q.Layered := by
  cases hstep with
  | addClass name isInterface isAbstract => exact layered_addClass h name isInterface isAbstract
  | @setSuper ref super hmem hkind =>
    refine h.modifyClass (fun _ => ⟨rfl, rfl⟩) (fun c d hd => ?_) fun c d hd => .inl hd
    obtain rfl := Option.some.inj hd
    exact .inr ⟨super, hmem, rfl, hkind⟩
  | @addInterface ref interface hmem hkind =>
    refine h.modifyClass (fun _ => ⟨rfl, rfl⟩) (fun c d hd => .inl hd) fun c d hd => ?_
    obtain hold | hnew := List.mem_append.1 hd
    · exact .inl hold
    · obtain rfl := List.mem_singleton.1 hnew
      exact .inr ⟨interface, hmem, rfl, hkind⟩
  | addField => exact h.modifyMembers (fun _ => ⟨rfl, rfl⟩) (fun _ => rfl) fun _ => rfl
  | addMethod => exact h.modifyMembers (fun _ => ⟨rfl, rfl⟩) (fun _ => rfl) fun _ => rfl

theorem layered_of_declarations (h : Program.empty.Declarations p) : p.Layered := by
  induction h with
  | refl => exact ⟨fun _ hc => (List.not_mem_nil hc).elim, fun _ hc => (List.not_mem_nil hc).elim⟩
  | tail _ hstep ih => exact ih.declaration hstep

theorem Layered.of_sameDeclarations {q : Program} (h : p.Layered) (hsame : p.SameDeclarations q) :
    q.Layered := by
  have hhas {kind : Bool} {d : ClassRef} (hd : p.Has kind d) : q.Has kind d := by
    obtain ⟨c, hc, rfl, rfl⟩ := hd
    obtain ⟨c', hc', hbare⟩ := hsame.mem hc
    obtain ⟨href, hkind, -⟩ := Class.mk.inj hbare
    exact ⟨c', hc', href, hkind⟩
  refine ⟨fun c hc d hd => ?_, fun c hc d hd => ?_⟩
  · obtain ⟨c', hc', hbare⟩ := hsame.symm.mem hc
    obtain ⟨-, -, -, hsuper, -⟩ := Class.mk.inj hbare
    exact hhas (h.super c' hc' d (hsuper.trans hd))
  · obtain ⟨c', hc', hbare⟩ := hsame.symm.mem hc
    obtain ⟨-, -, -, -, hinterfaces, -⟩ := Class.mk.inj hbare
    exact hhas (h.interfaces c' hc' d (hinterfaces ▸ hd))

end Program

namespace Program.Loaded

variable {p : Program}

/-- **Superclasses of loaded programs are classes, and interfaces are interfaces.** -/
theorem layered (h : p.Loaded) : p.Layered := by
  obtain ⟨root, skeleton, q, hread, hclasses⟩ := Document.exists_readFrom_of_loaded h
  have hsame : skeleton.SameDeclarations p :=
    hread.classes.symm.trans (congrArg (List.map Class.bare) hclasses.symm)
  exact (layered_of_declarations hread.built).of_sameDeclarations hsame

/-- Classes stand where their references say. -/
theorem index_ref (h : p.Loaded) {i : Nat} {c : Class} (hc : p.classes[i]? = some c) :
    c.ref.index = i := by
  have hdeclare : Method.HoldsDeclared fun _ => True := fun _ _ _ _ _ _ => trivial
  have hplaced : p.Placed fun _ => True :=
    h.placed hdeclare (fun _ _ _ _ _ _ => trivial) fun _ _ => trivial
  exact (hplaced i c hc).ref

/-- The reference of a class finds it. -/
theorem class?_ref (h : p.Loaded) {c : Class} (hc : c ∈ p.classes) : p.class? c.ref = some c := by
  obtain ⟨i, hi⟩ := List.mem_iff_getElem?.1 hc
  rw [class?, h.index_ref hi, hi]

end Program.Loaded

end HeapFlow
