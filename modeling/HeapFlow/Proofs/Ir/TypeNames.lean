import HeapFlow.Proofs.Ir.Skeleton
import HeapFlow.Proofs.Text
/-!
# HeapFlow.Proofs.Ir.TypeNames

**Which texts are type names** (`Program.Spells`). The name of a builtin type or of a class, any
number of `[]` behind it, and blanks at the ends and around each `[]`. A class is found by its name
only if no builtin type has that name and reading takes nothing off it: no blank at an end, no `[]`
behind. Reading a name follows these rules, so a type is read back from the name that it is printed
with.
-/

namespace HeapFlow

namespace Program

/-- The texts that spell a type of the program. -/
inductive Spells (p : Program) : List Char → Ty → Prop
  /-- The name of a builtin type. -/
  | builtin {t : Ty} (ht : t ∈ Ty.builtins) : Spells p t.name.toList t
  /-- The name that a class is found by. -/
  | cls {c : Class} (hc : p.classNamed? c.name = some c) (hnew : ∀ t ∈ Ty.builtins, t.name ≠ c.name)
      (htrimmed : Text.Trimmed c.name.toList) (hsuffix : ¬ ['[', ']'] <:+ c.name.toList) :
      Spells p c.name.toList (.cls c.ref)
  /-- An array of what the text before `[]` spells. -/
  | array {cs : List Char} {t : Ty} (h : Spells p cs t) : Spells p (cs ++ ['[', ']']) (.array t)
  | blankBefore {cs : List Char} {t : Ty} {c : Char} (hc : Text.isBlank c = true)
      (h : Spells p cs t) : Spells p (c :: cs) t
  | blankBehind {cs : List Char} {t : Ty} {c : Char} (hc : Text.isBlank c = true)
      (h : Spells p cs t) : Spells p (cs ++ [c]) t

end Program

namespace Ty

variable {cs ds rest : List Char} {classes : String → Option ClassRef}

/-! ### Reading step by step -/

theorem dropArraySuffix?_eq_some_iff :
    dropArraySuffix? cs = some rest ↔ cs = rest ++ ['[', ']'] := by
  unfold dropArraySuffix?
  constructor
  · intro h
    split at h
    · rename_i r hr
      cases h
      simpa using congrArg List.reverse hr
    · cases h
  · rintro rfl
    simp

theorem dropArraySuffix?_eq_none_iff : dropArraySuffix? cs = none ↔ ¬ ['[', ']'] <:+ cs := by
  rw [Option.eq_none_iff_forall_ne_some]
  constructor
  · rintro h ⟨rest, hrest⟩
    exact h rest (dropArraySuffix?_eq_some_iff.2 hrest.symm)
  · intro h rest hrest
    exact h ⟨rest, (dropArraySuffix?_eq_some_iff.1 hrest).symm⟩

theorem parse?_eq (classes : String → Option ClassRef) (cs : List Char) : parse? classes cs =
    match dropArraySuffix? (Text.trim cs) with
    | some rest => (parse? classes rest).map array
    | none => (builtin? (String.ofList (Text.trim cs))).or
        ((classes (String.ofList (Text.trim cs))).map cls) := by
  rw [parse?]
  split <;> rename_i h <;> simp [h]

/-- Only the trimmed text matters. -/
theorem parse?_congr (h : Text.trim cs = Text.trim ds) : parse? classes cs = parse? classes ds := by
  rw [parse?_eq, parse?_eq, h]

/-- A suffix is read off, whatever blanks stand before it. -/
theorem parse?_append_suffix (classes : String → Option ClassRef) (cs : List Char) :
    parse? classes (cs ++ ['[', ']']) = (parse? classes cs).map array := by
  have htrim : Text.trim (cs ++ ['[', ']']) = cs.dropWhile Text.isBlank ++ ['[', ']'] := by
    have hfront : (cs ++ ['[', ']']).dropWhile Text.isBlank =
        cs.dropWhile Text.isBlank ++ ['[', ']'] := by
      rw [List.dropWhile_append]
      split
      · rename_i hnil
        rw [List.isEmpty_iff.1 hnil]
        rfl
      · rfl
    rw [Text.trim_eq, hfront, List.append_cons, List.rdropWhile_concat_neg]
    decide
  rw [parse?_eq, dropArraySuffix?_eq_some_iff.2 htrim]
  exact congrArg (Option.map array) (parse?_congr (Text.trim_dropWhile cs))

/-- A text that nothing is taken off is a builtin name or that of a class. -/
theorem parse?_of_plain (htrimmed : Text.Trimmed cs) (hsuffix : ¬ ['[', ']'] <:+ cs) :
    parse? classes cs =
      (builtin? (String.ofList cs)).or ((classes (String.ofList cs)).map cls) := by
  have htrim := Text.trim_of_trimmed htrimmed
  rw [parse?_eq, htrim, dropArraySuffix?_eq_none_iff.2 hsuffix]

/-! ### Builtin names -/

theorem builtin?_eq_some_iff {name : String} {t : Ty} :
    builtin? name = some t ↔ t ∈ builtins ∧ t.name = name := by
  constructor
  · intro h
    have hname := List.find?_some h
    exact ⟨List.mem_of_find?_eq_some h, eq_of_beq hname⟩
  · rintro ⟨ht, rfl⟩
    revert t
    decide

theorem parse?_builtin {t : Ty} (ht : t ∈ builtins) : parse? classes t.name.toList = some t := by
  have hplain : ∀ t ∈ builtins,
      Text.trim t.name.toList = t.name.toList ∧ dropArraySuffix? t.name.toList = none := by
    decide
  obtain ⟨htrim, hsuffix⟩ := hplain t ht
  rw [parse?_eq, htrim, hsuffix, String.ofList_toList, builtin?_eq_some_iff.2 ⟨ht, rfl⟩]
  rfl

end Ty

namespace Program

variable {p : Program} {cs : List Char} {t : Ty}

theorem Spells.blanksBefore (h : p.Spells cs t) {before : List Char}
    (hbefore : ∀ c ∈ before, Text.isBlank c = true) : p.Spells (before ++ cs) t := by
  induction before with
  | nil => exact h
  | cons c before ih =>
    obtain ⟨hc, hbefore⟩ := List.forall_mem_cons.1 hbefore
    exact .blankBefore hc (ih hbefore)

theorem Spells.blanksBehind (h : p.Spells cs t) {behind : List Char}
    (hbehind : ∀ c ∈ behind, Text.isBlank c = true) : p.Spells (cs ++ behind) t := by
  induction behind generalizing cs with
  | nil => rwa [List.append_nil]
  | cons c behind ih =>
    obtain ⟨hc, hbehind⟩ := List.forall_mem_cons.1 hbehind
    rw [List.append_cons]
    exact ih (.blankBehind hc h) hbehind

/-- What the trimmed text spells, the text spells. -/
theorem Spells.of_trim (h : p.Spells (Text.trim cs) t) : p.Spells cs t := by
  obtain ⟨before, behind, hcs, hbefore, hbehind⟩ := Text.exists_eq_append_trim cs
  rw [hcs]
  exact (h.blanksBefore hbefore).blanksBehind hbehind

/-- What is read follows the rules. -/
theorem spells_of_parse? (h : Ty.parse? p.classRef? cs = some t) : p.Spells cs t := by
  induction hlength : cs.length using Nat.strong_induction_on generalizing cs t with
  | _ n ih =>
    refine Spells.of_trim ?_
    rw [Ty.parse?_eq] at h
    split at h
    · rename_i rest hrest
      obtain ⟨element, helement, rfl⟩ := Option.map_eq_some_iff.1 h
      have hlt := Nat.lt_of_lt_of_le (Ty.length_dropArraySuffix? hrest) (Text.length_trim_le cs)
      rw [Ty.dropArraySuffix?_eq_some_iff.1 hrest]
      exact .array (ih rest.length (hlength ▸ hlt) helement rfl)
    · rename_i hsuffix
      generalize hname : String.ofList (Text.trim cs) = name at h
      have hchars : Text.trim cs = name.toList := by rw [← hname, String.toList_ofList]
      rw [hchars]
      obtain hbuiltin | ⟨hnone, hclass⟩ := Option.or_eq_some_iff.1 h
      · obtain ⟨ht, rfl⟩ := Ty.builtin?_eq_some_iff.1 hbuiltin
        exact .builtin ht
      · obtain ⟨ref, href, rfl⟩ := Option.map_eq_some_iff.1 hclass
        obtain ⟨c, hc, rfl⟩ := Option.map_eq_some_iff.1 href
        obtain ⟨-, rfl⟩ := of_classNamed? hc
        refine .cls hc (fun t ht heq => ?_) (hchars ▸ Text.trimmed_trim cs)
          (hchars ▸ Ty.dropArraySuffix?_eq_none_iff.1 hsuffix)
        cases hnone.symm.trans (Ty.builtin?_eq_some_iff.2 ⟨ht, heq⟩)

/-- What the rules spell is read. -/
theorem Spells.parse? (h : p.Spells cs t) : Ty.parse? p.classRef? cs = some t := by
  induction h with
  | builtin ht => exact Ty.parse?_builtin ht
  | @cls c hc hnew htrimmed hsuffix =>
    have hbuiltin : Ty.builtin? c.name = none :=
      Option.eq_none_iff_forall_ne_some.2 fun t ht =>
        have ⟨hmem, hname⟩ := Ty.builtin?_eq_some_iff.1 ht
        hnew t hmem hname
    rw [Ty.parse?_of_plain htrimmed hsuffix, String.ofList_toList, hbuiltin, classRef?, hc]
    rfl
  | array _ ih => rw [Ty.parse?_append_suffix, ih, Option.map_some]
  | blankBefore hc _ ih => rw [Ty.parse?_congr (Text.trim_cons_of_blank hc), ih]
  | blankBehind hc _ ih => rw [Ty.parse?_congr (Text.trim_concat_of_blank hc), ih]

theorem type?_eq_some_iff {text : String} : p.type? text = some t ↔ p.Spells text.toList t :=
  ⟨spells_of_parse?, Spells.parse?⟩

/-- The name of a type spells it. -/
theorem Spells.name (h : p.Spells cs t) : p.Spells t.name.toList t := by
  induction h with
  | builtin ht => exact .builtin ht
  | cls hc hnew htrimmed hsuffix => exact .cls hc hnew htrimmed hsuffix
  | @array cs t _ ih =>
    have hname : (Ty.array t).name.toList = t.name.toList ++ ['[', ']'] := String.toList_append
    rw [hname]
    exact .array ih
  | blankBefore _ _ ih => exact ih
  | blankBehind _ _ ih => exact ih

/-- A type is read back from its name. -/
theorem type?_name {text : String} (h : p.type? text = some t) : p.type? t.name = some t :=
  type?_eq_some_iff.2 (type?_eq_some_iff.1 h).name

/-- **Type names are read exactly, and lead back to their types.** A text is read as a type exactly if it
spells it, a type that was read is read again from its own name, and two types that were read are the
same if they have the same name. -/
theorem type?_exact (p : Program) :
    (∀ text t, p.type? text = some t ↔ p.Spells text.toList t) ∧
    (∀ text t, p.type? text = some t → p.type? t.name = some t) ∧
    (∀ text text' t t', p.type? text = some t → p.type? text' = some t' → t.name = t'.name →
      t = t') := by
  refine ⟨fun _ _ => type?_eq_some_iff, fun _ _ => type?_name, fun text text' t t' h h' heq => ?_⟩
  have hback := type?_name h
  rw [heq, type?_name h'] at hback
  exact (Option.some.inj hback).symm

/-- Classes with a blank inside the name, with the name of a builtin type, and with `[]` at the end. -/
def oddNames : Program :=
  ⟨[.declare ⟨0, "a b"⟩ false false, .declare ⟨1, "int"⟩ false false, .declare ⟨2, "x[]"⟩ false false],
    []⟩

/-- Two texts spell the same array type, which is read back from its name. The other two classes are not
found by their names. -/
theorem oddNames_exact :
    let arrays : Ty := .array (.array (.cls ⟨0, "a b"⟩))
    oddNames.Spells "\ta b [] []\n".toList arrays ∧ oddNames.type? arrays.name = some arrays ∧
      oddNames.type? "a b[] []" = some arrays ∧ oddNames.type? "int" = some .int ∧
      ¬ oddNames.Spells "x[]".toList (.cls ⟨2, "x[]"⟩) ∧ oddNames.type? "a b[ ]" = none := by
  intro arrays
  obtain ⟨hspells, hback, hsame⟩ := type?_exact oddNames
  have hblanks : oddNames.type? "\ta b [] []\n" = some arrays := by decide +kernel
  have hother : oddNames.type? "x[]" = none := by decide +kernel
  refine ⟨(hspells _ _).1 hblanks, hback _ _ hblanks, ?_, by decide +kernel, fun h => ?_,
    by decide +kernel⟩
  · have hread : (oddNames.type? "a b[] []").map Ty.name = some arrays.name := by decide +kernel
    obtain ⟨t, ht, hname⟩ := Option.map_eq_some_iff.1 hread
    rw [ht, hsame _ _ t arrays ht hblanks hname]
  · cases hother.symm.trans ((hspells _ _).2 h)

end Program

end HeapFlow
