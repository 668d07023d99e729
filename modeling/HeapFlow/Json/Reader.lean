import HeapFlow.Json.Value
import HeapFlow.Text
/-!
# HeapFlow.Json.Reader

**Reading a JSON document.** Every reader takes the text that is left and returns what it read with
the text after it. `parse?` asks for one value with nothing but blanks around it.

The nesting of values is followed with fuel. Each level of the recursion either consumes a
character or directly follows one that was consumed, so twice the length of the text is enough.
-/

namespace HeapFlow

namespace Json

namespace Reader

/-- The blanks between tokens. -/
def isBlank (c : Char) : Bool := c == ' ' || c == '\t' || c == '\n' || c == '\r'

def skipBlanks (cs : List Char) : List Char := cs.dropWhile isBlank

/-! ### Strings

A string is first cut into pieces: characters that stand for themselves or follow a backslash, and
16-bit units written as four hexadecimal digits. A unit that is the first half of a surrogate pair
joins with the unit after it. -/

/-- A piece of a string. -/
inductive Piece
  | char (c : Char)
  | unit (n : Nat)

/-- The character that a backslash and a letter stand for. -/
def escaped? : Char → Option Char
  | '"' => some '"'
  | '\\' => some '\\'
  | '/' => some '/'
  | 'b' => some '\x08'
  | 'f' => some '\x0c'
  | 'n' => some '\n'
  | 'r' => some '\r'
  | 't' => some '\t'
  | _ => none

/-- The pieces up to the closing quote, which is consumed. Control characters are not allowed. -/
def pieces : List Char → Option (List Piece × List Char)
  | [] => none
  | '"' :: rest => some ([], rest)
  | '\\' :: 'u' :: a :: b :: c :: d :: rest => do
    let n ← Text.numeral? 16 [a, b, c, d]
    let (ps, rest) ← pieces rest
    some (.unit n :: ps, rest)
  | '\\' :: c :: rest => do
    let c ← escaped? c
    let (ps, rest) ← pieces rest
    some (.char c :: ps, rest)
  | c :: rest =>
    if c.toNat < 0x20 || c == '\\' then none
    else do
      let (ps, rest) ← pieces rest
      some (.char c :: ps, rest)

/-- The character of a unit that is no half of a surrogate pair; halves that stand alone become the
replacement character. -/
def unitChar (n : Nat) : Char :=
  if 0xD800 ≤ n ∧ n < 0xE000 then '\ufffd' else Char.ofNat n

/-- The characters of a string. -/
def chars : List Piece → List Char
  | [] => []
  | .char c :: ps => c :: chars ps
  | [.unit n] => [unitChar n]
  | .unit n :: .char c :: ps => unitChar n :: c :: chars ps
  | .unit n :: .unit m :: ps =>
    if 0xD800 ≤ n ∧ n < 0xDC00 ∧ 0xDC00 ≤ m ∧ m < 0xE000 then
      Char.ofNat (0x10000 + (n - 0xD800) * 0x400 + (m - 0xDC00)) :: chars ps
    else unitChar n :: chars (.unit m :: ps)

/-- A string whose opening quote was consumed. -/
def string (cs : List Char) : Option (String × List Char) :=
  (pieces cs).map fun (ps, rest) => (String.ofList (chars ps), rest)

/-! ### Numbers -/

/-- A run of digits, and what follows it. -/
def digits (cs : List Char) : List Char × List Char :=
  (cs.takeWhile Char.isDigit, cs.dropWhile Char.isDigit)

/-- A sign and whether it is a minus; nothing counts as a plus. -/
def exponentSign : List Char → Bool × List Char
  | '-' :: cs => (true, cs)
  | '+' :: cs => (false, cs)
  | cs => (false, cs)

/-- The digits after the point, if there is a point. -/
def fraction : List Char → Option (Option (List Char) × List Char)
  | '.' :: cs =>
    match digits cs with
    | ([], _) => none
    | (ds, rest) => some (some ds, rest)
  | cs => some (none, cs)

/-- The exponent, if there is one. -/
def exponent : List Char → Option (Option Int × List Char)
  | c :: cs =>
    if c == 'e' || c == 'E' then
      let (negative, cs) := exponentSign cs
      match digits cs with
      | ([], _) => none
      | (ds, rest) => do
        let n ← Text.decimal? ds
        some (some (if negative then -(n : Int) else n), rest)
    else some (none, c :: cs)
  | [] => some (none, [])

/-- A number after its sign. A leading zero stands alone before the point. -/
def unsigned (negative : Bool) (cs : List Char) : Option (Number × List Char) := do
  let (whole, rest) := digits cs
  let lead ← whole.head?
  if lead == '0' && whole.length != 1 then none
  else
    let (frac, rest) ← fraction rest
    let (exp, rest) ← exponent rest
    match frac, exp with
    | none, none => do
      let n ← Text.decimal? whole
      some (.int (if negative then -(n : Int) else n), rest)
    | _, _ => do
      let places := frac.getD []
      let n ← Text.decimal? (whole ++ places)
      some (.decimal negative n (exp.getD 0 - (places.length : Int)), rest)

def number : List Char → Option (Number × List Char)
  | '-' :: cs => unsigned true cs
  | cs => unsigned false cs

/-! ### Values -/

mutual

/-- A value, with blanks before it. -/
def value : Nat → List Char → Option (Value × List Char)
  | 0, _ => none
  | fuel + 1, cs =>
    match skipBlanks cs with
    | 'n' :: 'u' :: 'l' :: 'l' :: rest => some (.null, rest)
    | 't' :: 'r' :: 'u' :: 'e' :: rest => some (.bool true, rest)
    | 'f' :: 'a' :: 'l' :: 's' :: 'e' :: rest => some (.bool false, rest)
    | '"' :: rest => (string rest).map fun (s, rest) => (.str s, rest)
    | '[' :: rest =>
      match skipBlanks rest with
      | ']' :: rest => some (.arr [], rest)
      | rest => (elements fuel rest).map fun (vs, rest) => (.arr vs, rest)
    | '\x7b' :: rest =>
      match skipBlanks rest with
      | '\x7d' :: rest => some (.obj [], rest)
      | rest => (members fuel rest).map fun (ms, rest) => (.obj ms, rest)
    | cs => (number cs).map fun (n, rest) => (.num n, rest)

/-- The elements of an array up to the closing bracket, which is consumed. -/
def elements : Nat → List Char → Option (List Value × List Char)
  | 0, _ => none
  | fuel + 1, cs => do
    let (v, rest) ← value fuel cs
    match skipBlanks rest with
    | ',' :: rest => do
      let (vs, rest) ← elements fuel rest
      some (v :: vs, rest)
    | ']' :: rest => some ([v], rest)
    | _ => none

/-- The members of an object up to the closing brace, which is consumed. -/
def members : Nat → List Char → Option (List (String × Value) × List Char)
  | 0, _ => none
  | fuel + 1, cs => do
    match skipBlanks cs with
    | '"' :: rest => do
      let (key, rest) ← string rest
      match skipBlanks rest with
      | ':' :: rest => do
        let (v, rest) ← value fuel rest
        match skipBlanks rest with
        | ',' :: rest => do
          let (ms, rest) ← members fuel rest
          some ((key, v) :: ms, rest)
        | '\x7d' :: rest => some ([(key, v)], rest)
        | _ => none
      | _ => none
    | _ => none

end

end Reader

/-- The value that a text denotes, if it is a JSON document. -/
def parse? (text : String) : Option Value :=
  let cs := text.toList
  match Reader.value (2 * cs.length + 1) cs with
  | some (v, rest) => if (Reader.skipBlanks rest).isEmpty then some v else none
  | none => none

end Json

end HeapFlow
