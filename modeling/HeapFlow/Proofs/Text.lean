import HeapFlow.Text
import Mathlib.Data.List.DropRight
/-!
# HeapFlow.Proofs.Text

**Trimmed texts and decimal numerals.** A text is its trimmed part between blanks, and blanks at the ends
do not change the trimmed part. A text is read as a decimal number exactly if it is a numeral of that
number, and the digits that a number is printed with are one.
-/

namespace HeapFlow

namespace Text

/-! ### Trimming -/

/-- No blank at either end. -/
structure Trimmed (cs : List Char) : Prop where
  first : ∀ c ∈ cs.head?, isBlank c = false
  last : ∀ c ∈ cs.getLast?, isBlank c = false

variable {cs : List Char} {c : Char}

theorem trim_eq (cs : List Char) : trim cs = (cs.dropWhile isBlank).rdropWhile isBlank := rfl

theorem trim_cons_of_blank (hc : isBlank c = true) : trim (c :: cs) = trim cs := by
  rw [trim, List.dropWhile_cons_of_pos hc, ← trim]

theorem trim_concat_of_blank (hc : isBlank c = true) : trim (cs ++ [c]) = trim cs := by
  rw [trim_eq, trim_eq, List.dropWhile_append]
  split
  · rename_i hnil
    rw [List.isEmpty_iff.1 hnil, List.dropWhile_cons_of_pos hc]
    rfl
  · exact List.rdropWhile_concat_pos _ _ _ hc

theorem trim_dropWhile (cs : List Char) : trim (cs.dropWhile isBlank) = trim cs := by
  rw [trim_eq, List.dropWhile_idempotent, ← trim_eq]

theorem trim_of_trimmed (h : Trimmed cs) : trim cs = cs := by
  have hfirst : cs.dropWhile isBlank = cs := by
    cases cs with
    | nil => rfl
    | cons c cs => exact List.dropWhile_cons_of_neg (by simp [h.first c rfl])
  rw [trim_eq, hfirst, List.rdropWhile_eq_self_iff]
  intro hne
  rw [h.last _ (List.getLast?_eq_some_getLast hne)]
  exact Bool.false_ne_true

theorem head?_dropWhile_isBlank (cs : List Char) (hc : c ∈ (cs.dropWhile isBlank).head?) :
    isBlank c = false := by
  have hnot := List.head?_dropWhile_not isBlank cs
  rw [Option.mem_def.1 hc] at hnot
  exact hnot

theorem trimmed_trim (cs : List Char) : Trimmed (trim cs) := by
  rw [trim_eq]
  refine ⟨fun c hc => ?_, fun c hc => ?_⟩
  · obtain ⟨rest, hrest⟩ := List.rdropWhile_prefix isBlank (cs.dropWhile isBlank)
    refine head?_dropWhile_isBlank cs ?_
    rw [← hrest, List.head?_append]
    simp [Option.mem_def.1 hc]
  · obtain ⟨hne, rfl⟩ := List.mem_getLast?_eq_getLast hc
    simpa using List.rdropWhile_last_not isBlank _ hne

/-- A text is its trimmed part between blanks. -/
theorem exists_eq_append_trim (cs : List Char) : ∃ before after,
    cs = before ++ trim cs ++ after ∧ (∀ c ∈ before, isBlank c = true) ∧
      ∀ c ∈ after, isBlank c = true := by
  refine ⟨cs.takeWhile isBlank, (cs.dropWhile isBlank).rtakeWhile isBlank, ?_,
    fun c => List.mem_takeWhile_imp, fun c => List.mem_rtakeWhile_imp⟩
  rw [trim_eq, List.append_assoc, List.rdropWhile_append_rtakeWhile,
    List.takeWhile_append_dropWhile]

/-! ### Decimal numerals -/

/-- A decimal numeral and the number that it stands for. -/
structure Numeral (cs : List Char) (n : Nat) : Prop where
  nonempty : cs ≠ []
  digits : ∀ c ∈ cs, c.isDigit = true
  value : Nat.ofDigitChars 10 cs 0 = n

theorem isDigit_iff : c.isDigit = true ↔ '0' ≤ c ∧ c ≤ '9' := by
  rw [Char.isDigit, Bool.and_eq_true, decide_eq_true_iff, decide_eq_true_iff]
  exact Iff.rfl

/-- The decimal digits are those whose value is below ten. -/
theorem digitValue?_lt_ten {d : Nat} :
    digitValue? c = some d ∧ d < 10 ↔ c.isDigit = true ∧ c.toNat - '0'.toNat = d := by
  unfold digitValue?
  rw [isDigit_iff]
  split
  · rename_i hc
    have hlt : c.toNat - '0'.toNat < 10 := by
      have hle : c.toNat ≤ '9'.toNat := hc.2
      simp at hle ⊢
      omega
    constructor
    · rintro ⟨hd, -⟩
      exact ⟨hc, Option.some.inj hd⟩
    · rintro ⟨-, rfl⟩
      exact ⟨rfl, hlt⟩
  · rename_i hc
    -- letters stand for ten and more
    refine iff_of_false ?_ fun h => hc h.1
    rintro ⟨hd, hlt⟩
    split at hd
    · cases hd
      omega
    · split at hd
      · cases hd
        omega
      · cases hd

/-- What one more character does to the value of a decimal numeral. -/
def digitStep (value : Option Nat) (c : Char) : Option Nat := do
  let n ← value
  let d ← digitValue? c
  if d < 10 then some (n * 10 + d) else none

theorem digitStep_some (n : Nat) (c : Char) : digitStep (some n) c =
    if c.isDigit then some (10 * n + (c.toNat - '0'.toNat)) else none := by
  refine Option.ext fun k => ?_
  simp only [digitStep, Option.bind_eq_bind, Option.bind_some, Option.bind_eq_some_iff,
    Option.ite_none_right_eq_some]
  constructor
  · rintro ⟨d, hd, hlt, hk⟩
    obtain ⟨hc, rfl⟩ := digitValue?_lt_ten.1 ⟨hd, hlt⟩
    exact ⟨hc, by rw [← hk, Nat.mul_comm]⟩
  · rintro ⟨hc, hk⟩
    obtain ⟨hd, hlt⟩ := digitValue?_lt_ten.2 ⟨hc, rfl⟩
    exact ⟨_, hd, hlt, by rw [← hk, Nat.mul_comm]⟩

theorem foldl_digitStep_none (cs : List Char) : cs.foldl digitStep none = none := by
  induction cs with
  | nil => rfl
  | cons c cs ih => exact ih

theorem foldl_digitStep_eq_some_iff {n k : Nat} : cs.foldl digitStep (some n) = some k ↔
    (∀ c ∈ cs, c.isDigit = true) ∧ Nat.ofDigitChars 10 cs n = k := by
  induction cs generalizing n with
  | nil => simp
  | cons c cs ih =>
    rw [List.foldl_cons, digitStep_some, List.forall_mem_cons, Nat.ofDigitChars_cons, and_assoc]
    split
    · rename_i hc
      simp [ih, hc]
    · rename_i hc
      simp [foldl_digitStep_none, hc]

/-- **A text is read as a decimal number exactly if it is a numeral of that number.** -/
theorem decimal?_eq_some_iff {n : Nat} : decimal? cs = some n ↔ Numeral cs n := by
  cases cs with
  | nil => exact ⟨nofun, fun h => absurd rfl h.nonempty⟩
  | cons c cs =>
    exact foldl_digitStep_eq_some_iff.trans
      ⟨fun h => ⟨List.cons_ne_nil c cs, h.1, h.2⟩, fun h => ⟨h.digits, h.value⟩⟩

/-- A number is printed as a numeral of it. -/
theorem numeral_toString (n : Nat) : Numeral (toString n).toList n := by
  rw [Nat.toString_eq_ofList_toDigits, String.toList_ofList]
  exact ⟨Nat.toDigits_ne_nil, fun c => Nat.isDigit_of_mem_toDigits (by decide) (by decide),
    Nat.ofDigitChars_ten_toDigits⟩

end Text

end HeapFlow
