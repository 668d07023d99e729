/-!
# HeapFlow.Text

**Character classes, numerals and lines.** Names of types and of context policies are written with
ASCII conventions: six blanks around a type name mean nothing, and numerals are decimal digits.
-/

namespace HeapFlow

namespace Text

/-! ### Blanks -/

/-- The ASCII blanks: space, tab, line feed, vertical tab, form feed and carriage return. -/
def isBlank (c : Char) : Bool :=
  c == ' ' || c == '\t' || c == '\n' || c == '\x0b' || c == '\x0c' || c == '\r'

/-- A text without the blanks at its ends. -/
def trim (cs : List Char) : List Char :=
  ((cs.dropWhile isBlank).reverse.dropWhile isBlank).reverse

theorem length_dropWhile_le (p : Char → Bool) (cs : List Char) :
    (cs.dropWhile p).length ≤ cs.length := by
  induction cs with
  | nil => simp
  | cons c cs ih =>
    rw [List.dropWhile_cons]
    split
    · exact Nat.le_succ_of_le ih
    · exact Nat.le_refl _

theorem length_trim_le (cs : List Char) : (trim cs).length ≤ cs.length := by
  rw [trim, List.length_reverse]
  refine Nat.le_trans (length_dropWhile_le _ _) ?_
  rw [List.length_reverse]
  exact length_dropWhile_le _ _

/-! ### Numerals -/

/-- The value of a digit in base sixteen. -/
def digitValue? (c : Char) : Option Nat :=
  if '0' ≤ c ∧ c ≤ '9' then some (c.toNat - '0'.toNat)
  else if 'a' ≤ c ∧ c ≤ 'f' then some (c.toNat - 'a'.toNat + 10)
  else if 'A' ≤ c ∧ c ≤ 'F' then some (c.toNat - 'A'.toNat + 10)
  else none

/-- The value of a numeral in a base up to sixteen; the empty text is none. -/
def numeral? (base : Nat) : List Char → Option Nat
  | [] => none
  | cs => cs.foldl (fun acc c => do
      let n ← acc
      let d ← digitValue? c
      if d < base then some (n * base + d) else none) (some 0)

/-- The value of a decimal numeral. -/
def decimal? (cs : List Char) : Option Nat := numeral? 10 cs

/-! ### Lines -/

/-- Lines as one text, each ended by a line feed. -/
def unlines (ls : List String) : String := String.join (ls.map (· ++ "\n"))

/-- The pieces of a text between line feeds; nothing stands after the line feed that ends it. -/
def splitLines : List Char → List Char → List (List Char)
  | [], [] => []
  | line, [] => [line.reverse]
  | line, '\n' :: cs => line.reverse :: splitLines [] cs
  | line, c :: cs => splitLines (c :: line) cs

/-- The lines of a text. The line feed that ends the last line adds no further line. -/
def lines (s : String) : List String := (splitLines [] s.toList).map String.ofList

/-! ### Joining and cutting -/

/-- Texts with a separator between neighbours. -/
def joined (sep : String) (parts : List String) : String := sep.intercalate parts

/-- The part of a text before the first NUL character, or all of it. -/
def upToNul (s : String) : String := String.ofList (s.toList.takeWhile (· != '\x00'))

end Text

end HeapFlow
