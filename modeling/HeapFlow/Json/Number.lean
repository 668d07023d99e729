/-!
# HeapFlow.Json.Number

**Numbers of a JSON document.** A number without fraction and exponent is an exact integer. Any
other number denotes the binary64 value nearest to it (a tie goes to the even significand), and
counts as an integer when that value is integral: `3.0` and `1e3` do, `3.5` does not. Only integers
of 64 bits are accepted.
-/

namespace HeapFlow

namespace Json

/-- A number as it is written. -/
inductive Number
  /-- Digits only, perhaps with a sign. -/
  | int (value : Int)
  /-- With a fraction or an exponent: `± digits · 10 ^ exponent`. -/
  | decimal (negative : Bool) (digits : Nat) (exponent : Int)
deriving DecidableEq, Repr

namespace Number

/-- Whether an integer has a representation in 64 bits. -/
def inInt64 (n : Int) : Bool := -9223372036854775808 ≤ n && n ≤ 9223372036854775807

/-- The integer nearest to `num / den`; a tie goes to the even one. -/
def roundHalfEven (num den : Nat) : Nat :=
  let q := num / den
  let r := num % den
  if 2 * r < den then q
  else if den < 2 * r then q + 1
  else if q % 2 = 0 then q
  else q + 1

/-- The greatest `e` with `2 ^ e ≤ num / den`, for positive `num` and `den`. -/
def floorLog2 (num den : Nat) : Int :=
  let e : Int := (Nat.log2 num : Int) - (Nat.log2 den : Int)
  let fits := if 0 ≤ e then den * Nat.pow 2 e.toNat ≤ num else den ≤ num * Nat.pow 2 (-e).toNat
  if fits then e else e - 1

/-- The binary64 value nearest to `num / den`, if it is an integer. A significand has 53 bits and
no unit is below `2 ^ -1074`. -/
def nearestInteger? (num den : Nat) : Option Nat :=
  if num = 0 then some 0
  else
    let unit := max (floorLog2 num den - 52) (-1074)
    if 0 ≤ unit then
      let scale := Nat.pow 2 unit.toNat
      some (roundHalfEven num (den * scale) * scale)
    else
      let scale := Nat.pow 2 (-unit).toNat
      let significand := roundHalfEven (num * scale) den
      if significand % scale = 0 then some (significand / scale) else none

/-- The integer that a decimal denotes, sign apart. Magnitudes beyond 10 ^ 400 are no integer of
64 bits, those below 10 ^ -400 round to zero. -/
def magnitude? (digits : Nat) (exponent : Int) : Option Nat :=
  let places : Int := (Nat.toDigits 10 digits).length + exponent
  if digits = 0 then some 0
  else if 400 < places then none
  else if places < -400 then some 0
  else if 0 ≤ exponent then nearestInteger? (digits * Nat.pow 10 exponent.toNat) 1
  else nearestInteger? digits (Nat.pow 10 (-exponent).toNat)

/-- The 64-bit integer that a number denotes. -/
def toInt64? : Number → Option Int
  | .int n => if inInt64 n then some n else none
  | .decimal negative digits exponent => do
    let n ← magnitude? digits exponent
    let i : Int := if negative then -(n : Int) else n
    if inInt64 i then some i else none

end Number

end Json

end HeapFlow
