import HeapFlow.Proofs.Ir.Loaded
import Mathlib.Logic.Relation
/-!
# HeapFlow.Proofs.Ir.Statements

**What a statement that was read may name.** Its variables are variables of the method. A field that it
reads or writes is one that the class of the base, the class that the description names or a class
above it declares, and is static exactly if there is no base. An element is that of an array, a new
object that of a class that is not abstract, and a call has a receiver exactly if its kind needs one.
-/

namespace HeapFlow

theorem Ty.eq_cls_of_class? {ty : Ty} {c : ClassRef} (h : ty.class? = some c) : ty = .cls c := by
  cases ty with
  | cls d => exact congrArg Ty.cls (Option.some.inj h)
  | _ => cases h

/-! ### Fields of a class and of the classes above it -/

namespace Program

variable {p : Program} {c d : ClassRef}

/-- One class is the superclass of another. -/
def Extends (p : Program) (c d : ClassRef) : Prop := (p.class? c).bind Class.super? = some d

/-- A class or one above it declares the field. -/
def Declares (p : Program) (c : ClassRef) (f : Field) : Prop :=
  ∃ d cls, Relation.ReflTransGen p.Extends c d ∧ p.class? d = some cls ∧ f ∈ cls.fields

theorem above_of_mem_chainUpTo {bound : Nat} (h : d ∈ p.chainUpTo bound c) :
    Relation.ReflTransGen p.Extends c d := by
  induction bound generalizing c with
  | zero => cases h
  | succ bound ih =>
    rw [chainUpTo] at h
    split at h
    · rename_i super hsuper
      obtain rfl | h := List.mem_cons.1 h
      · exact .refl
      · exact .head hsuper (ih h)
    · obtain rfl := List.mem_singleton.1 h
      exact .refl

/-- **The field that a name denotes is declared in the class or above it.** -/
theorem declares_of_resolveField? {name : String} {f : Field}
    (h : p.resolveField? c name = some f) : p.Declares c f := by
  obtain ⟨d, hd, hf⟩ := List.exists_of_findSome?_eq_some h
  obtain ⟨cls, hcls, hf⟩ := Option.bind_eq_some_iff.1 hf
  exact ⟨d, cls, above_of_mem_chainUpTo hd, hcls, (List.mem_filter.1 (List.mem_of_getLast? hf)).1⟩

end Program

/-! ### Legal statements -/

namespace Stmt

/-- The variables that the statement defines or reads. -/
def mentions (s : Stmt) : List Var := s.defined?.toList ++ s.uses

/-- The place of the heap that the statement reads or writes. -/
def place? : Stmt → Option Place
  | assign _ (.load place) | store place _ => some place
  | _ => none

/-- The class of which the statement creates an object. -/
def created? : Stmt → Option ClassRef
  | assign _ (.new (.object c)) => some c
  | _ => none

end Stmt

/-- The call of a statement names a class of the program. -/
def Stmt.NamesClass (p : Program) (s : Stmt) : Prop :=
  ∀ call, s.call? = some call → ∃ c ∈ p.classes, call.cls = some c.ref

/-- A place that an access may name: an instance field with a base of a class that has it, a static
field of the class that is named, an element of an array. -/
def Place.Legal (p : Program) (named : Option ClassRef) : Place → Prop
  | .field base f => f.isStatic = false ∧ ∃ c, base.ty = .cls c ∧ p.Declares c f
  | .static f => f.isStatic = true ∧ ∃ c, named = some c ∧ p.Declares c f
  | .element array _ => array.ty.isArray = true

/-- A statement that names what it may: variables out of `vars`, and the classes and members of the
program that fit, where `named` is the class that its description names. -/
structure Stmt.Legal (p : Program) (vars : List Var) (named : Option ClassRef) (s : Stmt) : Prop where
  vars : ∀ v ∈ s.mentions, v ∈ vars
  place : ∀ place, s.place? = some place → place.Legal p named
  created : ∀ c, s.created? = some c → ∃ cls ∈ p.classes, cls.ref = c ∧ cls.isAbstract = false
  receiver : ∀ call, s.call? = some call → call.receiver.isSome = call.kind.needsReceiver

namespace Stmt

variable {p : Program} {vars : List Var} {named : Option ClassRef} {s : Stmt} {lhs source : Var}
  {place : Place}

/-- A statement that touches no heap, creates no object and calls nothing. -/
theorem legal_plain (hvars : ∀ v ∈ s.mentions, v ∈ vars) (hplace : s.place? = none)
    (hcreated : s.created? = none) (hcall : s.call? = none) : s.Legal p vars named where
  vars := hvars
  place place h := by
    rw [hplace] at h
    cases h
  created c h := by
    rw [hcreated] at h
    cases h
  receiver call h := by
    rw [hcall] at h
    cases h

theorem legal_load (hlhs : lhs ∈ vars) (huses : ∀ v ∈ place.uses, v ∈ vars)
    (hplace : place.Legal p named) : (assign lhs (.load place)).Legal p vars named where
  vars := List.forall_mem_cons.2 ⟨hlhs, huses⟩
  place _ h := Option.some.inj h ▸ hplace
  created _ := nofun
  receiver _ := nofun

theorem legal_store (hsource : source ∈ vars) (huses : ∀ v ∈ place.uses, v ∈ vars)
    (hplace : place.Legal p named) : (store place source).Legal p vars named where
  vars v (hv : v ∈ place.uses ++ [source]) := by
    obtain hv | hv := List.mem_append.1 hv
    · exact huses v hv
    · exact List.mem_singleton.1 hv ▸ hsource
  place _ h := Option.some.inj h ▸ hplace
  created _ := nofun
  receiver _ := nofun

theorem legal_new {c : Class} (hlhs : lhs ∈ vars) (hc : c ∈ p.classes)
    (habstract : c.isAbstract = false) : (assign lhs (.new (.object c.ref))).Legal p vars named where
  vars := List.forall_mem_singleton.2 hlhs
  place _ := nofun
  created _ h := ⟨c, hc, Option.some.inj h, habstract⟩
  receiver _ := nofun

theorem Legal.mono {more : List Var} (h : s.Legal p vars named) (hmore : ∀ v ∈ vars, v ∈ more) :
    s.Legal p more named :=
  ⟨fun v hv => hmore v (h.vars v hv), h.place, h.created, h.receiver⟩

/-- The targets of jumps are no part of what makes a statement legal. -/
theorem legal_unresolved : s.unresolved.Legal p vars named ↔ s.Legal p vars named := by
  cases s with
  | ifGoto | switch | goto =>
    exact ⟨fun h => legal_plain h.vars rfl rfl rfl, fun h => legal_plain h.vars rfl rfl rfl⟩
  | _ => exact .rfl

theorem namesClass_unresolved : s.unresolved.NamesClass p ↔ s.NamesClass p := by
  cases s with
  | ifGoto | switch | goto => exact iff_of_true nofun nofun
  | _ => exact .rfl

/-- A statement without an operand is legal everywhere. -/
theorem legal_nop : nop.Legal p vars named := legal_plain nofun rfl rfl rfl

end Stmt

theorem Method.mem_vars_of_var? {m : Method} {name : String} {v : Var} (h : m.var? name = some v) :
    v ∈ m.vars :=
  (List.mem_filter.1 (List.mem_of_getLast? h)).1

/-! ### Reading -/

namespace Document

open Json (Object)

/-- The class that a description names. -/
def namedClass? (p : Program) (o : Object) : Option ClassRef :=
  (o.string? "class").bind p.classRef?

variable {spot : Spot} {p : Program} {m : Method} {o : Object} {s : Stmt} {place : Place}

/-! #### Variables -/

theorem mem_vars_of_var {key : String} {v : Var} (h : var spot m o key = .ok v) : v ∈ m.vars := by
  simp only [var, bind_eq_ok, require_eq_ok] at h
  obtain ⟨name, -, hv⟩ := h
  exact Method.mem_vars_of_var? hv

theorem mem_vars_of_optional {key : String} {v : Var} (h : var? spot m o key = .ok (some v)) :
    v ∈ m.vars := by
  unfold var? at h
  split at h
  · obtain ⟨w, hw, hsome⟩ := map_eq_ok.1 h
    cases hsome
    exact mem_vars_of_var hw
  · cases h

/-! #### Classes and places -/

/-- The class that a declaration names is one of the program. -/
theorem of_classNamed {c : Class} (h : classNamed spot p o "class" = .ok c) :
    c ∈ p.classes ∧ namedClass? p o = some c.ref := by
  simp only [classNamed, string, bind_eq_ok, require_eq_ok] at h
  obtain ⟨name, hname, hc⟩ := h
  refine ⟨(List.mem_filter.1 (List.mem_of_getLast? hc)).1, ?_⟩
  simp [namedClass?, hname, Program.classRef?, hc]

/-- The place that a field access names may be accessed. -/
theorem legal_of_fieldPlace (h : fieldPlace spot p m o = .ok place) :
    (∀ v ∈ place.uses, v ∈ m.vars) ∧ place.Legal p (namedClass? p o) := by
  simp only [fieldPlace, bind_eq_ok] at h
  obtain ⟨name, -, base, hbase, h⟩ := h
  -- the class in which the field is looked up comes from the base if there is one
  cases base with
  | some v =>
    simp only [bind_eq_ok, require_eq_ok] at h
    obtain ⟨owner, howner, f, hf, h⟩ := h
    split at h
    · rename_i heq hstatic
      cases heq
      cases h
      refine ⟨fun w hw => ?_, hstatic, owner, Ty.eq_cls_of_class? howner,
        Program.declares_of_resolveField? hf⟩
      obtain rfl := List.mem_singleton.1 hw
      exact mem_vars_of_optional hbase
    · rename_i heq _
      cases heq
    · cases h
  | none =>
    simp only [bind_eq_ok, require_eq_ok] at h
    obtain ⟨owner, howner, f, hf, h⟩ := h
    obtain ⟨c, hc, rfl⟩ := map_eq_ok.1 howner
    split at h
    · rename_i heq _
      cases heq
    · rename_i hstatic
      cases h
      exact ⟨nofun, hstatic, c.ref, (of_classNamed hc).2, Program.declares_of_resolveField? hf⟩
    · cases h

/-- The element that an array access names is that of an array. -/
theorem legal_of_elementPlace (h : elementPlace spot m o = .ok place) :
    (∀ v ∈ place.uses, v ∈ m.vars) ∧ place.Legal p (namedClass? p o) := by
  simp only [elementPlace, bind_eq_ok] at h
  obtain ⟨array, harray, h⟩ := h
  split at h
  · cases h
  · rename_i htest
    simp only [bind_eq_ok, pure_eq_ok] at h
    obtain ⟨index, hindex, rfl⟩ := h
    have hisArray : array.ty.isArray = true := by simpa using htest
    refine ⟨fun v hv => ?_, hisArray⟩
    obtain rfl | hv := List.mem_cons.1 hv
    · exact mem_vars_of_var harray
    · obtain rfl := List.mem_singleton.1 hv
      exact mem_vars_of_var hindex

/-! #### Calls -/

/-- A call has the receiver that its kind needs. -/
theorem of_receiver {kind : CallKind} {base : Option Var}
    (h : receiver spot m o kind = .ok base) :
    base.isSome = kind.needsReceiver ∧ ∀ v, base = some v → v ∈ m.vars := by
  unfold receiver at h
  split at h
  · rename_i hneeds
    obtain ⟨w, hw, rfl⟩ := map_eq_ok.1 h
    refine ⟨hneeds.symm, fun v hbase => ?_⟩
    cases hbase
    exact mem_vars_of_var hw
  · rename_i hneeds
    split at h
    · cases h
    · cases h
      exact ⟨(Bool.not_eq_true _ ▸ hneeds).symm, nofun⟩

theorem legal_of_readInvoke (h : readInvoke spot p m o = .ok s) :
    s.Legal p m.vars (namedClass? p o) := by
  simp only [readInvoke, bind_eq_ok, pure_eq_ok] at h
  obtain ⟨name, -, kind, -, c, -, subsignature, -, base, hbase, args, hargs, result, hresult,
    rfl⟩ := h
  obtain ⟨hreceiver, hbaseVar⟩ := of_receiver hbase
  have hargVar (v : Var) (hv : v ∈ args) : v ∈ m.vars := by
    obtain ⟨x, -, hx⟩ := exists_of_mapM_eq_ok hargs hv
    obtain ⟨text, -, hvar⟩ := Option.bind_eq_some_iff.1 (require_eq_ok.1 hx)
    exact Method.mem_vars_of_var? hvar
  refine ⟨fun v (hv : v ∈ result.toList ++ (base.toList ++ args)) => ?_, nofun, nofun,
    fun call hcall => Option.some.inj hcall ▸ hreceiver⟩
  obtain hv | hv := List.mem_append.1 hv
  · rw [Option.mem_toList.1 hv] at hresult
    exact mem_vars_of_optional hresult
  · obtain hv | hv := List.mem_append.1 hv
    · exact hbaseVar v (Option.mem_toList.1 hv)
    · exact hargVar v hv

/-! #### Assignments -/

theorem mem_vars_of_pair {v w : Var} (hv : v ∈ m.vars) (hw : w ∈ m.vars) :
    ∀ u ∈ [v, w], u ∈ m.vars :=
  List.forall_mem_cons.2 ⟨hv, List.forall_mem_singleton.2 hw⟩

theorem legal_of_readNew (h : readNew spot p m o = .ok s) : s.Legal p m.vars (namedClass? p o) := by
  simp only [readNew, bind_eq_ok] at h
  obtain ⟨l, hl, c, hc, h⟩ := h
  split at h
  · cases h
  · rename_i htest
    cases h
    exact Stmt.legal_new (mem_vars_of_var hl) (of_classNamed hc).1 (Bool.not_eq_true _ ▸ htest)

theorem legal_of_readNewArray (h : readNewArray spot p m o = .ok s) :
    s.Legal p m.vars (namedClass? p o) := by
  simp only [readNewArray, bind_eq_ok, pure_eq_ok] at h
  obtain ⟨l, hl, element, -, length, hlength, rfl⟩ := h
  exact Stmt.legal_plain (mem_vars_of_pair (mem_vars_of_var hl) (mem_vars_of_var hlength)) rfl rfl rfl

theorem legal_of_readConst (h : readConst spot m o = .ok s) :
    s.Legal p m.vars (namedClass? p o) := by
  simp only [readConst, bind_eq_ok] at h
  obtain ⟨l, hl, h⟩ := h
  have hvars : ∀ v ∈ [l], v ∈ m.vars := List.forall_mem_singleton.2 (mem_vars_of_var hl)
  split at h
  · cases h
  · split at h
    · cases h
      exact Stmt.legal_plain hvars rfl rfl rfl
    · simp only [bind_eq_ok, pure_eq_ok] at h
      obtain ⟨n, -, rfl⟩ := h
      exact Stmt.legal_plain hvars rfl rfl rfl

theorem legal_of_readCopy (h : readCopy spot m o = .ok s) :
    s.Legal p m.vars (namedClass? p o) := by
  simp only [readCopy, bind_eq_ok, pure_eq_ok] at h
  obtain ⟨l, hl, r, hr, rfl⟩ := h
  exact Stmt.legal_plain (mem_vars_of_pair (mem_vars_of_var hl) (mem_vars_of_var hr)) rfl rfl rfl

theorem legal_of_readCast (h : readCast spot p m o = .ok s) :
    s.Legal p m.vars (namedClass? p o) := by
  simp only [readCast, bind_eq_ok, pure_eq_ok] at h
  obtain ⟨l, hl, r, hr, ty, -, rfl⟩ := h
  exact Stmt.legal_plain (mem_vars_of_pair (mem_vars_of_var hl) (mem_vars_of_var hr)) rfl rfl rfl

theorem legal_of_readBinary (h : readBinary spot m o = .ok s) :
    s.Legal p m.vars (namedClass? p o) := by
  simp only [readBinary, bind_eq_ok, pure_eq_ok] at h
  obtain ⟨name, -, x, hx, y, hy, l, hl, op, -, rfl⟩ := h
  refine Stmt.legal_plain ?_ rfl rfl rfl
  exact List.forall_mem_cons.2
    ⟨mem_vars_of_var hl, mem_vars_of_pair (mem_vars_of_var hx) (mem_vars_of_var hy)⟩

/-! #### Accesses -/

theorem legal_of_readLoad (h : readLoad spot p m o = .ok s) :
    s.Legal p m.vars (namedClass? p o) := by
  simp only [readLoad, bind_eq_ok, pure_eq_ok] at h
  obtain ⟨place, hplace, l, hl, rfl⟩ := h
  obtain ⟨huses, hlegal⟩ := legal_of_fieldPlace hplace
  exact Stmt.legal_load (mem_vars_of_var hl) huses hlegal

theorem legal_of_readStore (h : readStore spot p m o = .ok s) :
    s.Legal p m.vars (namedClass? p o) := by
  simp only [readStore, bind_eq_ok, pure_eq_ok] at h
  obtain ⟨place, hplace, r, hr, rfl⟩ := h
  obtain ⟨huses, hlegal⟩ := legal_of_fieldPlace hplace
  exact Stmt.legal_store (mem_vars_of_var hr) huses hlegal

theorem legal_of_readArrayLoad (h : readArrayLoad spot m o = .ok s) :
    s.Legal p m.vars (namedClass? p o) := by
  simp only [readArrayLoad, bind_eq_ok, pure_eq_ok] at h
  obtain ⟨place, hplace, l, hl, rfl⟩ := h
  obtain ⟨huses, hlegal⟩ := legal_of_elementPlace hplace
  exact Stmt.legal_load (mem_vars_of_var hl) huses hlegal

theorem legal_of_readArrayStore (h : readArrayStore spot m o = .ok s) :
    s.Legal p m.vars (namedClass? p o) := by
  simp only [readArrayStore, bind_eq_ok, pure_eq_ok] at h
  obtain ⟨place, hplace, r, hr, rfl⟩ := h
  obtain ⟨huses, hlegal⟩ := legal_of_elementPlace hplace
  exact Stmt.legal_store (mem_vars_of_var hr) huses hlegal

/-! #### Jumps and returns -/

theorem legal_of_readIf (h : readIf spot m o = .ok s) : s.Legal p m.vars (namedClass? p o) := by
  simp only [readIf, bind_eq_ok] at h
  obtain ⟨name, -, x, hx, y, hy, h⟩ := h
  split at h
  · simp only [bind_eq_ok, pure_eq_ok] at h
    obtain ⟨target, -, rfl⟩ := h
    exact Stmt.legal_plain (mem_vars_of_pair (mem_vars_of_var hx) (mem_vars_of_var hy)) rfl rfl rfl
  · cases h

theorem legal_of_readSwitch (h : readSwitch spot m o = .ok s) :
    s.Legal p m.vars (namedClass? p o) := by
  simp only [readSwitch, bind_eq_ok, pure_eq_ok] at h
  obtain ⟨x, hx, cases, -, default, -, rfl⟩ := h
  exact Stmt.legal_plain (List.forall_mem_singleton.2 (mem_vars_of_var hx)) rfl rfl rfl

theorem legal_of_readGoto (h : readGoto spot o = .ok s) : s.Legal p m.vars (namedClass? p o) := by
  simp only [readGoto, bind_eq_ok, pure_eq_ok] at h
  obtain ⟨target, -, rfl⟩ := h
  exact Stmt.legal_plain (List.forall_mem_nil _) rfl rfl rfl

theorem legal_of_readReturn (h : readReturn spot m o = .ok s) :
    s.Legal p m.vars (namedClass? p o) := by
  simp only [readReturn, bind_eq_ok, pure_eq_ok] at h
  obtain ⟨x, hx, rfl⟩ := h
  refine Stmt.legal_plain (fun v (hv : v ∈ x.toList) => ?_) rfl rfl rfl
  rw [Option.mem_toList.1 hv] at hx
  exact mem_vars_of_optional hx

/-! #### All statements -/

/-- **A statement that was read is legal.** -/
theorem legal_of_readStmt (h : readStmt spot p m o = .ok s) :
    s.Legal p m.vars (namedClass? p o) := by
  simp only [readStmt, bind_eq_ok] at h
  obtain ⟨op, -, h⟩ := h
  split at h
  case h_1 => exact legal_of_readNew h
  case h_2 => exact legal_of_readNewArray h
  case h_3 => exact legal_of_readConst h
  case h_4 => exact legal_of_readCopy h
  case h_5 => exact legal_of_readCast h
  case h_6 => exact legal_of_readBinary h
  case h_7 => exact legal_of_readIf h
  case h_8 => exact legal_of_readLoad h
  case h_9 => exact legal_of_readStore h
  case h_10 => exact legal_of_readArrayLoad h
  case h_11 => exact legal_of_readArrayStore h
  case h_12 => exact legal_of_readInvoke h
  case h_13 => exact legal_of_readSwitch h
  case h_14 => exact legal_of_readGoto h
  case h_15 => exact legal_of_readReturn h
  case h_16 =>
    cases h
    exact Stmt.legal_nop
  case h_17 => cases h

/-- Only the operation for calls gives a call. -/
theorem readInvoke_of_readStmt {result : Option Var} {call : Call}
    (h : readStmt spot p m o = .ok (.invoke result call)) :
    readInvoke spot p m o = .ok (.invoke result call) := by
  simp only [readStmt, bind_eq_ok] at h
  obtain ⟨op, -, h⟩ := h
  split at h
  case h_12 => exact h
  case h_1 =>
    simp only [readNew, bind_eq_ok] at h
    obtain ⟨l, -, c, -, h⟩ := h
    split at h <;> cases h
  case h_3 =>
    simp only [readConst, bind_eq_ok] at h
    obtain ⟨l, -, h⟩ := h
    split at h
    · cases h
    · split at h
      · cases h
      · simp only [bind_eq_ok, pure_eq_ok, reduceCtorEq, and_false, exists_false] at h
  case h_7 =>
    simp only [readIf, bind_eq_ok] at h
    obtain ⟨name, -, x, -, y, -, h⟩ := h
    split at h
    · simp only [bind_eq_ok, pure_eq_ok, reduceCtorEq, and_false, exists_false] at h
    · cases h
  -- every other operation ends with a statement of its own
  all_goals
    simp only [readNewArray, readCopy, readCast, readBinary, readLoad, readStore, readArrayLoad,
      readArrayStore, readSwitch, readGoto, readReturn, refuse, bind_eq_ok, pure_eq_ok, reduceCtorEq,
      and_false, exists_false] at h

/-- **A call that was read names a class of the program.** -/
theorem namesClass_of_readStmt (h : readStmt spot p m o = .ok s) : s.NamesClass p := by
  intro call hcall
  cases s with
  | invoke result call' =>
    obtain rfl := Option.some.inj hcall
    have hread := readInvoke_of_readStmt h
    simp only [readInvoke, bind_eq_ok, pure_eq_ok] at hread
    obtain ⟨name, -, kind, -, c, hc, subsignature, -, base, -, args, -, result', -, heq⟩ := hread
    obtain ⟨-, rfl⟩ := Stmt.invoke.inj heq
    exact ⟨c, (of_classNamed hc).1, rfl⟩
  | _ => cases hcall

end Document

end HeapFlow
