import HeapFlow.Context.Policy
import HeapFlow.Proofs.Text
/-!
# HeapFlow.Proofs.Context.PolicyNames

**Which texts are names of context policies** (`Policy.Named`). `ci` and `insensitive` name the
insensitive policy. All other names are a decimal numeral of 32 bits, a dash and a kind. Zero
elements of context are none, and otherwise heap contexts are one element shorter than calling
contexts. Every other text is refused, and a policy that was read is read again from its own text.
-/

namespace HeapFlow

namespace Policy

/-- The names of kinds of contexts. -/
def kindNames : List (String × Sensitivity) :=
  [("call", .callSite), ("cfa", .callSite), ("obj", .object), ("type", .type)]

/-- The texts that name a policy. -/
inductive Named : String → Policy → Prop
  | ci : Named "ci" .insensitive
  | insensitive : Named "insensitive" .insensitive
  /-- A limit of zero leaves no context. -/
  | zero {digits kind : String} {s : Sensitivity} (hlimit : Text.Numeral digits.toList 0)
      (hkind : (kind, s) ∈ kindNames) : Named (digits ++ "-" ++ kind) .insensitive
  | limited {digits kind : String} {k : Nat} {s : Sensitivity}
      (hlimit : Text.Numeral digits.toList (k + 1)) (hbound : k + 1 < UInt32.size)
      (hkind : (kind, s) ∈ kindNames) : Named (digits ++ "-" ++ kind) (.limited s (k + 1) k)

/-! ### The parts of a name -/

theorem ofName?_eq_some_iff {kind : String} {s : Sensitivity} :
    Sensitivity.ofName? kind = some s ↔ (kind, s) ∈ kindNames := by
  constructor
  · intro h
    unfold Sensitivity.ofName? at h
    split at h <;> cases h <;> decide
  · intro h
    simp only [kindNames, List.mem_cons, Prod.mk.injEq, List.not_mem_nil, or_false] at h
    obtain ⟨rfl, rfl⟩ | ⟨rfl, rfl⟩ | ⟨rfl, rfl⟩ | ⟨rfl, rfl⟩ := h <;> rfl

theorem limit?_eq_some_iff {cs : List Char} {k : Nat} :
    limit? cs = some k ↔ Text.Numeral cs k ∧ k < UInt32.size := by
  rw [limit?, Option.filter_eq_some_iff, Text.decimal?_eq_some_iff, decide_eq_true_iff, UInt32.size]

/-- The characters in front of the first dash. -/
def limitPart (text : String) : List Char := text.toList.takeWhile (· != '-')

/-- What stands behind the first dash. -/
def kindPart (text : String) : String := String.ofList ((text.toList.dropWhile (· != '-')).drop 1)

theorem parts_append {digits : String} (h : '-' ∉ digits.toList) (kind : String) :
    limitPart (digits ++ "-" ++ kind) = digits.toList ∧ kindPart (digits ++ "-" ++ kind) = kind := by
  have hne : ∀ c ∈ digits.toList, (c != '-') = true := fun c hc =>
    bne_iff_ne.2 fun heq => h (heq ▸ hc)
  have htext : (digits ++ "-" ++ kind).toList = digits.toList ++ '-' :: kind.toList := by simp
  rw [limitPart, kindPart, htext, List.takeWhile_append_of_pos hne, List.dropWhile_append_of_pos hne]
  simp

/-- A text with something behind its first dash is cut there. -/
theorem eq_of_kindPart_ne_empty {text : String} (h : kindPart text ≠ "") :
    text = String.ofList (limitPart text) ++ "-" ++ kindPart text := by
  have hsplit : limitPart text ++ text.toList.dropWhile (· != '-') = text.toList :=
    List.takeWhile_append_dropWhile
  have hhead := List.head?_dropWhile_not (· != '-') text.toList
  cases hrest : text.toList.dropWhile (· != '-') with
  | nil =>
    rw [kindPart, hrest] at h
    exact absurd rfl h
  | cons c rest =>
    rw [hrest] at hhead
    obtain rfl : c = '-' := by simpa using hhead
    rw [hrest] at hsplit
    apply String.toList_injective
    simp [kindPart, hrest, hsplit]

/-! ### Reading -/

/-- A text with other parts than a limit and a kind is refused. -/
theorem parse_eq_ok_iff_parts {text : String} (hci : ¬ (text = "ci" ∨ text = "insensitive"))
    {policy : Policy} : parse text = .ok policy ↔
      ∃ k s, limit? (limitPart text) = some k ∧ Sensitivity.ofName? (kindPart text) = some s ∧
        policy = ofLimit s k := by
  rw [parse, if_neg hci]
  dsimp only
  -- the limit is read first; a text without a kind is refused before the kind is looked up
  split
  · rename_i hlimit
    have hlimit : limit? (limitPart text) = none := hlimit
    simp [hlimit]
  · rename_i hlimit hkind
    have hkind : kindPart text = "" := hkind
    simp [hkind, Sensitivity.ofName?]
  · rename_i k hlimit hnonempty
    have hlimit : limit? (limitPart text) = some k := hlimit
    split
    · rename_i s hkind
      have hkind : Sensitivity.ofName? (kindPart text) = some s := hkind
      constructor
      · intro h
        cases h
        exact ⟨k, s, hlimit, hkind, rfl⟩
      · rintro ⟨k', s', hlimit', hkind', rfl⟩
        cases hlimit.symm.trans hlimit'
        cases hkind.symm.trans hkind'
        rfl
    · rename_i hkind
      have hkind : Sensitivity.ofName? (kindPart text) = none := hkind
      simp [hkind]

theorem named_of_parse {text : String} {policy : Policy} (h : parse text = .ok policy) :
    Named text policy := by
  by_cases hci : text = "ci" ∨ text = "insensitive"
  · rw [parse, if_pos hci] at h
    cases h
    obtain rfl | rfl := hci
    · exact .ci
    · exact .insensitive
  · obtain ⟨k, s, hlimit, hkind, rfl⟩ := (parse_eq_ok_iff_parts hci).1 h
    obtain ⟨hnumeral, hbound⟩ := limit?_eq_some_iff.1 hlimit
    have hne : kindPart text ≠ "" := by
      intro hempty
      rw [hempty] at hkind
      cases hkind
    have hkind := ofName?_eq_some_iff.1 hkind
    rw [eq_of_kindPart_ne_empty hne]
    rw [← String.toList_ofList (l := limitPart text)] at hnumeral
    cases k with
    | zero => exact .zero hnumeral hkind
    | succ k => exact .limited hnumeral hbound hkind

/-- A limit, a dash and a kind are read as what they say. -/
theorem parse_append {digits kind : String} {k : Nat} {s : Sensitivity}
    (hlimit : Text.Numeral digits.toList k) (hbound : k < UInt32.size) (hkind : (kind, s) ∈ kindNames) :
    parse (digits ++ "-" ++ kind) = .ok (ofLimit s k) := by
  have hdash : '-' ∉ digits.toList := fun hmem => absurd (hlimit.digits _ hmem) (by decide)
  obtain ⟨hlimitPart, hkindPart⟩ := parts_append hdash kind
  have hci : ¬ (digits ++ "-" ++ kind = "ci" ∨ digits ++ "-" ++ kind = "insensitive") := by
    have hmem : '-' ∈ (digits ++ "-" ++ kind).toList := by simp
    rintro (heq | heq) <;> rw [heq] at hmem <;> revert hmem <;> decide
  refine (parse_eq_ok_iff_parts hci).2 ⟨k, s, ?_, ?_, rfl⟩
  · rw [hlimitPart]
    exact limit?_eq_some_iff.2 ⟨hlimit, hbound⟩
  · rw [hkindPart]
    exact ofName?_eq_some_iff.2 hkind

theorem Named.parse_eq {text : String} {policy : Policy} (h : Named text policy) :
    parse text = .ok policy := by
  cases h with
  | ci => rfl
  | insensitive => rfl
  | zero hlimit hkind => exact parse_append hlimit (by decide) hkind
  | limited hlimit hbound hkind => exact parse_append hlimit hbound hkind

/-- **A text is read as a policy exactly if it names it.** -/
theorem parse_eq_ok_iff {text : String} {policy : Policy} :
    parse text = .ok policy ↔ Named text policy :=
  ⟨named_of_parse, Named.parse_eq⟩

/-- A policy that has a name is named by its own text. -/
theorem Named.text {text : String} {policy : Policy} (h : Named text policy) :
    Named policy.text policy := by
  cases h with
  | ci => exact .ci
  | insensitive => exact .ci
  | zero => exact .ci
  | @limited digits kind k s hlimit hbound hkind =>
    have hname : (s.name, s) ∈ kindNames := by cases s <;> decide
    exact .limited (Text.numeral_toString (k + 1)) hbound hname

/-- **Policies are read from exactly their names, and lead back to themselves.** -/
theorem parse_exact :
    (∀ text policy, parse text = .ok policy ↔ Named text policy) ∧
    (∀ text, (¬ ∃ policy, Named text policy) → ∃ e, parse text = .error e) ∧
    (∀ text policy, parse text = .ok policy → parse policy.text = .ok policy) := by
  refine ⟨fun _ _ => parse_eq_ok_iff, fun text hnone => ?_, fun text policy h => ?_⟩
  · cases hparse : parse text with
    | error e => exact ⟨e, rfl⟩
    | ok policy => exact absurd ⟨policy, parse_eq_ok_iff.1 hparse⟩ hnone
  · exact parse_eq_ok_iff.2 (parse_eq_ok_iff.1 h).text

/-- Leading zeros do not count, and the other name of call sites is not the one that is printed. The
greatest limit has 32 bits. -/
theorem paddedName_read :
    let calls : Policy := .limited .callSite 7 6
    Named "007-cfa" calls ∧ calls.text = "7-call" ∧ parse calls.text = .ok calls ∧
      Named "4294967295-obj" (.limited .object 4294967295 4294967294) ∧
      ∃ e, parse "4294967296-obj" = .error e := by
  intro calls
  obtain ⟨hread, hrefused, hback⟩ := parse_exact
  have hcalls : parse "007-cfa" = .ok calls := by decide +kernel
  refine ⟨(hread _ _).1 hcalls, by decide +kernel, hback _ _ hcalls,
    (hread _ _).1 (by decide +kernel), hrefused _ ?_⟩
  rintro ⟨policy, hnamed⟩
  have hparse : parse "4294967296-obj" = .error (.invalid "4294967296-obj") := by decide +kernel
  cases hparse.symm.trans ((hread _ _).2 hnamed)

end Policy

end HeapFlow
