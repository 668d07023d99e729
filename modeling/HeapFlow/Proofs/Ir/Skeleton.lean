import HeapFlow.Ir.Document
import Mathlib.Logic.Relation
/-!
# HeapFlow.Proofs.Ir.Skeleton

**How the skeleton of a program comes about.** Before any body is read, a description is read into
declarations, each of which is one change of the classes (`Program.Declaration`). Whatever declarations
keep holds of the skeleton of every program that is read.
-/

namespace HeapFlow

/-! ### Fallible steps -/

section Fallible

variable {α β ε : Type}

theorem bind_eq_ok {x : Except ε α} {f : α → Except ε β} {b : β} :
    x >>= f = .ok b ↔ ∃ a, x = .ok a ∧ f a = .ok b := by
  cases x <;> simp [Bind.bind, Except.bind]

theorem pure_eq_ok {a b : α} : (pure a : Except ε α) = .ok b ↔ a = b := by
  simp [pure, Except.pure]

theorem map_eq_ok {x : Except ε α} {f : α → β} {b : β} :
    x.map f = .ok b ↔ ∃ a, x = .ok a ∧ f a = b := by
  cases x <;> simp [Except.map]

/-- What every step of a fold keeps holds at its end. The invariant may speak of what is left. -/
theorem foldlM_invariant_rest (Inv : List α → β → Prop) {f : β → α → Except ε β} {xs : List α}
    {b b' : β} (hstep : ∀ b x rest b', Inv (x :: rest) b → f b x = .ok b' → Inv rest b')
    (hb : Inv xs b) (h : xs.foldlM f b = .ok b') : Inv [] b' := by
  induction xs generalizing b with
  | nil =>
    rw [List.foldlM_nil, pure_eq_ok] at h
    exact h ▸ hb
  | cons x xs ih =>
    rw [List.foldlM_cons, bind_eq_ok] at h
    obtain ⟨next, hx, hrest⟩ := h
    exact ih (hstep b x xs next hb hx) hrest

theorem foldlM_invariant (Inv : β → Prop) {f : β → α → Except ε β} {xs : List α} {b b' : β}
    (hstep : ∀ b x b', Inv b → f b x = .ok b' → Inv b') (hb : Inv b)
    (h : xs.foldlM f b = .ok b') : Inv b' :=
  foldlM_invariant_rest (fun _ => Inv) (fun b x _ b' => hstep b x b') hb h

/-- What a fallible map gives comes from its arguments. -/
theorem exists_of_mapM_eq_ok {f : α → Except ε β} {xs : List α} {ys : List β}
    (h : xs.mapM f = .ok ys) {y : β} (hy : y ∈ ys) : ∃ x ∈ xs, f x = .ok y := by
  induction xs generalizing ys with
  | nil =>
    rw [List.mapM_nil, pure_eq_ok] at h
    subst h
    cases hy
  | cons x xs ih =>
    simp only [List.mapM_cons, bind_eq_ok, pure_eq_ok] at h
    obtain ⟨z, hz, zs, hzs, rfl⟩ := h
    obtain rfl | hy := List.mem_cons.1 hy
    · exact ⟨x, List.mem_cons_self, hz⟩
    · obtain ⟨w, hw, hfw⟩ := ih hzs hy
      exact ⟨w, List.mem_cons_of_mem x hw, hfw⟩

end Fallible

/-! ### Lookup -/

theorem Program.of_classNamed? {p : Program} {name : String} {c : Class} (h : p.classNamed? name = some c) :
    c ∈ p.classes ∧ c.name = name := by
  obtain ⟨hmem, hname⟩ := List.mem_filter.1 (List.mem_of_getLast? h)
  exact ⟨hmem, eq_of_beq hname⟩

theorem Class.of_method? {c : Class} {subsignature : String} {m : Method}
    (h : c.method? subsignature = some m) : m ∈ c.methods ∧ m.subsignature = subsignature := by
  obtain ⟨hmem, hname⟩ := List.mem_filter.1 (List.mem_of_getLast? h)
  exact ⟨hmem, eq_of_beq hname⟩

/-! ### Declarations -/

namespace Program

/-- One declaration, with what was checked before it was made. -/
inductive Declaration : Program → Program → Prop
  | addClass {p : Program} (name : String) (isInterface isAbstract : Bool)
    (hnew : p.classNamed? name = none) : Declaration p { p with
      classes := p.classes ++ [.declare ⟨p.classes.length, name⟩ isInterface isAbstract] }
  | setSuper {p : Program} (ref : ClassRef) {super : Class} (hmem : super ∈ p.classes)
    (hkind : super.isInterface = false) :
      Declaration p (p.modifyClass ref fun c => { c with super? := some super.ref })
  | addInterface {p : Program} (ref : ClassRef) {interface : Class} (hmem : interface ∈ p.classes)
    (hkind : interface.isInterface = true) : Declaration p
      (p.modifyClass ref fun c => { c with interfaces := c.interfaces ++ [interface.ref] })
  | addField {p : Program} (ref : ClassRef) (f : Field) :
      Declaration p (p.modifyClass ref fun c => { c with fields := c.fields ++ [f] })
  | addMethod {p : Program} {ref : ClassRef} {c : Class} (hc : p.class? ref = some c) (name : String)
    (params : List (String × Ty)) (returnType : Ty) (isStatic isAbstract : Bool)
    (hnew : c.method? (Method.subsignatureOf name (params.map Prod.snd) returnType) = none) :
      Declaration p (p.modifyClass c.ref fun cls => { cls with methods := cls.methods ++
        [.declare ⟨c.ref, c.methods.length⟩ name params returnType isStatic isAbstract] })

/-- What comes out of declarations. -/
abbrev Declarations : Program → Program → Prop := Relation.ReflTransGen Declaration

end Program

namespace Document

open Json (Object)

variable {b b' : Builder}

theorem require_eq_ok {α : Type} {spot : Spot} {x : Option α} {f : Fault} {a : α} :
    require spot x f = .ok a ↔ x = some a := by
  cases x <;> simp [require, refuse]

/-! ### The passes -/

/-- What declaring a class does: it is added behind the others under a new name. -/
theorem readClass_cases {v : Json.Value} {c : Declared} (h : readClass b v = .ok (b', c)) :
    ∃ o name, v.object? = some o ∧ o.string? "name" = some name ∧
      b.skeleton.classNamed? name = none ∧
      b' = (b.addClass name (o.flag "interface") (o.flag "abstract")).2 ∧
      c = (⟨b.skeleton.classes.length, name⟩, o) := by
  unfold readClass at h
  split at h
  · cases h
  · rename_i o ho
    simp only [bind_eq_ok] at h
    obtain ⟨name, hname, h⟩ := h
    split at h
    · cases h
    · rename_i hnew
      cases h
      exact ⟨o, name, ho, require_eq_ok.1 hname, Option.not_isSome_iff_eq_none.1 hnew, rfl, rfl⟩

theorem declaration_readClass {v : Json.Value} {c : Declared} (h : readClass b v = .ok (b', c)) :
    b.skeleton.Declaration b'.skeleton := by
  obtain ⟨o, name, -, -, hnew, rfl, -⟩ := readClass_cases h
  exact .addClass name (o.flag "interface") (o.flag "abstract") hnew

theorem declarations_readClasses {vs : List Json.Value} {cs : List Declared}
    (h : readClasses b vs = .ok (b', cs)) : b.skeleton.Declarations b'.skeleton := by
  induction vs generalizing b cs with
  | nil =>
    rw [readClasses] at h
    cases h
    exact .refl
  | cons v vs ih =>
    simp only [readClasses, bind_eq_ok, pure_eq_ok, Prod.exists, Prod.mk.injEq] at h
    obtain ⟨next, ref, o, hclass, last, rest, hrest, rfl, -⟩ := h
    exact .head (declaration_readClass hclass) (ih hrest)

theorem mem_of_classNamed {p : Program} {spot : Spot} {o : Object} {key : String} {c : Class}
    (h : classNamed spot p o key = .ok c) : c ∈ p.classes := by
  simp only [classNamed, bind_eq_ok, require_eq_ok] at h
  obtain ⟨name, -, hc⟩ := h
  exact (Program.of_classNamed? hc).1

/-- What is set above a class was checked. -/
theorem declarations_readHierarchy {c : Declared} (h : readHierarchy b c = .ok b') :
    b.skeleton.Declarations b'.skeleton := by
  obtain ⟨ref, o⟩ := c
  have hinterface (before : Builder) (v : Json.Value) (after : Builder)
      (hbefore : b.skeleton.Declarations before.skeleton)
      (h : (do
        let interface ← require (.cls ref.name) (v.string? >>= before.skeleton.classNamed?)
          .badInterface
        if interface.isInterface then return before.addInterface ref interface.ref
        else refuse (.cls ref.name) .badInterface) = Except.ok after) :
      b.skeleton.Declarations after.skeleton := by
    rw [bind_eq_ok] at h
    obtain ⟨interface, hnamed, h⟩ := h
    obtain ⟨name, -, hclass⟩ := Option.bind_eq_some_iff.1 (require_eq_ok.1 hnamed)
    split at h
    · rename_i hkind
      cases h
      exact hbefore.tail (.addInterface ref (Program.of_classNamed? hclass).1 hkind)
    · cases h
  unfold readHierarchy at h
  simp only at h
  split at h
  · rw [bind_eq_ok] at h
    obtain ⟨super, hsuper, h⟩ := h
    split at h
    · cases h
    · rename_i hkind
      exact foldlM_invariant (fun d => b.skeleton.Declarations d.skeleton) hinterface
        (.single (.setSuper ref (mem_of_classNamed hsuper) (Bool.not_eq_true _ ▸ hkind))) h
  · exact foldlM_invariant (fun d => b.skeleton.Declarations d.skeleton) hinterface .refl h

/-- What declaring a field does: it is added to its class, whatever the names of the fields there. -/
theorem readField_cases {ref : ClassRef} {v : Json.Value} (h : readField ref b v = .ok b') :
    ∃ o name ty, v.object? = some o ∧ o.string? "name" = some name ∧
      (b.skeleton.class? ref = none ∧ b' = b ∨ ∃ c, b.skeleton.class? ref = some c ∧
        b' = (b.addField c name ty (o.flag "static")).2) := by
  simp only [readField, bind_eq_ok] at h
  obtain ⟨o, ho, name, hname, ty, -, h⟩ := h
  refine ⟨o, name, ty, require_eq_ok.1 ho, require_eq_ok.1 hname, ?_⟩
  split at h
  · rename_i c hc
    cases h
    exact .inr ⟨c, hc, rfl⟩
  · rename_i hnone
    cases h
    exact .inl ⟨hnone, rfl⟩

theorem declarations_readField {ref : ClassRef} {v : Json.Value} (h : readField ref b v = .ok b') :
    b.skeleton.Declarations b'.skeleton := by
  obtain ⟨o, name, ty, -, -, ⟨-, rfl⟩ | ⟨c, -, rfl⟩⟩ := readField_cases h
  · exact .refl
  · exact .single (.addField c.ref _)

/-- What the description of a method says of its signature. -/
structure SignatureRead (spot : Spot) (p : Program) (o : Object) (name : String)
    (params : List (String × Ty)) (returnType : Ty) : Prop where
  name : o.string? "name" = some name
  params : (o.elements "params").mapM (readParam spot p) = .ok params
  returned : (if o.has "return" then type spot p o "return" else pure .void) = .ok returnType

/-- What declaring a method does: it is added to its class under a new subsignature, and its body is
still to be read. -/
theorem readMethod_cases {ref : ClassRef} {v : Json.Value} {more : List Pending}
    (h : readMethod ref b v = .ok (b', more)) :
    ∃ o spot name params returnType, v.object? = some o ∧
      SignatureRead spot b.skeleton o name params returnType ∧
      (b.skeleton.class? ref = none ∧ b' = b ∧ more = [] ∨
        ∃ c, b.skeleton.class? ref = some c ∧
          c.method? (Method.subsignatureOf name (params.map Prod.snd) returnType) = none ∧
          b' = (b.addMethod c name params returnType (o.flag "static") (o.flag "abstract")).2 ∧
          more = [(⟨c.ref, c.methods.length⟩, o)]) := by
  simp only [readMethod, bind_eq_ok] at h
  obtain ⟨o, ho, name, hname, params, hparams, h⟩ := h
  -- the result type is read or left out; what follows is the same
  split at h
  all_goals
    rename_i hreturns
    obtain ⟨returnType, hreturned, h⟩ := bind_eq_ok.1 h
    refine ⟨o, _, name, params, returnType, require_eq_ok.1 ho,
      ⟨require_eq_ok.1 hname, hparams, by simpa [hreturns] using hreturned⟩, ?_⟩
    split at h
    · rename_i hnone
      cases h
      exact .inl ⟨hnone, rfl, rfl⟩
    · rename_i c hc
      split at h
      · cases h
      · rename_i hnew
        cases h
        exact .inr ⟨c, hc, Option.not_isSome_iff_eq_none.1 hnew, rfl, rfl⟩

theorem declarations_readMethod {ref : ClassRef} {v : Json.Value} {more : List Pending}
    (h : readMethod ref b v = .ok (b', more)) : b.skeleton.Declarations b'.skeleton := by
  obtain ⟨o, spot, name, params, returnType, -, -, ⟨-, rfl, -⟩ | ⟨c, hc, hnew, rfl, -⟩⟩ :=
    readMethod_cases h
  · exact .refl
  · exact .single (.addMethod hc name params returnType _ _ hnew)

theorem declarations_readMethods {c : Declared} {pending : List Pending}
    (h : readMethods b c = .ok (b', pending)) : b.skeleton.Declarations b'.skeleton := by
  refine foldlM_invariant (fun s => b.skeleton.Declarations s.1.skeleton) ?_ .refl h
  intro before v after hbefore h
  simp only [bind_eq_ok, pure_eq_ok, Prod.exists] at h
  obtain ⟨next, more, hmethod, rfl⟩ := h
  exact hbefore.trans (declarations_readMethod hmethod)

/-- The passes over classes, hierarchy and fields make declarations, one after the other. -/
theorem declarations_fields {vs : List Json.Value} {declared : List Declared}
    {named above fields : Builder} (hclasses : readClasses .empty vs = .ok (named, declared))
    (habove : declared.foldlM readHierarchy named = .ok above)
    (hfields : declared.foldlM readFields above = .ok fields) :
    Program.empty.Declarations fields.skeleton := by
  have hnamed : Program.empty.Declarations named.skeleton := declarations_readClasses hclasses
  have habove : Program.empty.Declarations above.skeleton :=
    foldlM_invariant (fun b => Program.empty.Declarations b.skeleton)
      (fun _ _ _ hb h => hb.trans (declarations_readHierarchy h)) hnamed habove
  exact foldlM_invariant (fun b => Program.empty.Declarations b.skeleton)
    (fun _ _ _ hb h => foldlM_invariant (fun b => Program.empty.Declarations b.skeleton)
      (fun _ _ _ hb h => hb.trans (declarations_readField h)) hb h) habove hfields

/-- **All passes before the bodies make declarations.** -/
theorem declarations_skeleton {vs : List Json.Value} {declared : List Declared}
    {named above fields skeleton : Builder} {pending : List Pending}
    (hclasses : readClasses .empty vs = .ok (named, declared))
    (habove : declared.foldlM readHierarchy named = .ok above)
    (hfields : declared.foldlM readFields above = .ok fields)
    (hmethods : declared.foldlM (fun (s : Builder × List Pending) c => do
      let (b, more) ← readMethods s.1 c
      return (b, s.2 ++ more)) (fields, []) = .ok (skeleton, pending)) :
    Program.empty.Declarations skeleton.skeleton := by
  refine foldlM_invariant (fun s => Program.empty.Declarations s.1.skeleton) ?_
    (declarations_fields hclasses habove hfields) hmethods
  intro before c after hbefore h
  simp only [bind_eq_ok, pure_eq_ok, Prod.exists] at h
  obtain ⟨next, more, hnext, rfl⟩ := h
  exact hbefore.trans (declarations_readMethods hnext)

end Document

end HeapFlow
