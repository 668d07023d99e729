import HeapFlow.Ir.Stmt
/-!
# HeapFlow.Constants.Value

**Abstract integer values.** They form a lattice of height two: undefined below every constant, and
every constant below "not a constant". `meet` is the least upper bound. `BinOp.fold` computes with
constants in 32-bit two's complement arithmetic; dividing by zero has no value.
-/

namespace HeapFlow

/-- The abstract value of an integer variable or heap slot. -/
inductive Value
  /-- Nothing is known to be assigned. -/
  | undefined
  /-- Always this constant. -/
  | const (n : Int32)
  /-- Not a constant. -/
  | nac
deriving DecidableEq, Repr, Inhabited

instance : Keyed Value where
  key
    | .undefined => 0
    | .const n => n.toInt.toNat
    | .nac => 1

namespace Value

/-- The least value above both. -/
def meet : Value → Value → Value
  | nac, _ => nac
  | _, nac => nac
  | undefined, v => v
  | v, undefined => v
  | const m, const n => if m = n then const m else nac

/-- The least value above all. -/
def meetAll (vs : List Value) : Value := vs.foldl meet undefined

def text : Value → String
  | undefined => "UNDEF"
  | nac => "NAC"
  | const n => int32Text n

/-- One for true and zero for false. -/
def ofBool (b : Bool) : Value := const (if b then 1 else 0)

end Value

/-! ### Signed operations

A signed operation has a result only where the exact number has 32 bits; elsewhere it overflows. -/

namespace Signed

/-- The number, if it has 32 bits. -/
def ofInt? (i : Int) : Option Int32 :=
  if h : Int32.minValue.toInt ≤ i ∧ i ≤ Int32.maxValue.toInt then
    some (Int32.ofIntLE i h.1 h.2)
  else none

/-- The quotient, cut toward zero. -/
def div? (m n : Int32) : Option Int32 :=
  if n = 0 then none else ofInt? (m.toInt.tdiv n.toInt)

/-- The remainder, with the sign of the dividend. There is one only where there is a quotient. -/
def rem? (m n : Int32) : Option Int32 :=
  (div? m n).bind fun _ => ofInt? (m.toInt.tmod n.toInt)

/-- The shift to the right, which negative numbers and distances from 32 on do not have. -/
def shiftRight? (m : Int32) (distance : UInt32) : Option Int32 :=
  if 0 ≤ m ∧ distance < 32 then ofInt? (m.toInt >>> distance.toNat) else none

end Signed

/-! ### Folding

What may wrap around is computed without signs. `fold?` has no result if a signed operation on the
way overflows, and `fold` relies on it that none does. -/

namespace ArithOp

def fold? (op : ArithOp) (m n : Int32) : Option Value :=
  match op with
  | add => some (.const (m.toUInt32 + n.toUInt32).toInt32)
  | sub => some (.const (m.toUInt32 - n.toUInt32).toInt32)
  | mul => some (.const (m.toUInt32 * n.toUInt32).toInt32)
  | div =>
    if n = 0 then some .undefined
    else if m = Int32.minValue ∧ n = -1 then some (.const m)
    else (Signed.div? m n).map .const
  | rem =>
    if n = 0 then some .undefined
    else if n = -1 then some (.const 0)
    else (Signed.rem? m n).map .const

end ArithOp

namespace CmpOp

def holds (op : CmpOp) (m n : Int32) : Bool :=
  match op with
  | eq => decide (m = n)
  | ne => decide (m ≠ n)
  | lt => decide (m < n)
  | gt => decide (n < m)
  | le => decide (m ≤ n)
  | ge => decide (n ≤ m)

end CmpOp

namespace ShiftOp

/-- The distance is the low five bits of `n`. A negative number is shifted with its sign by
shifting its complement. -/
def fold? (op : ShiftOp) (m n : Int32) : Option Int32 :=
  let distance := n.toUInt32 &&& 31
  match op with
  | shl => some (m.toUInt32 <<< distance).toInt32
  | shr =>
    if 0 ≤ m then Signed.shiftRight? m distance
    else (Signed.shiftRight? (~~~m) distance).map (~~~ ·)
  | ushr => some (m.toUInt32 >>> distance).toInt32

end ShiftOp

namespace BitOp

def fold (op : BitOp) (m n : Int32) : Int32 :=
  match op with
  | and => m &&& n
  | or => m ||| n
  | xor => m ^^^ n

end BitOp

namespace BinOp

def fold? (op : BinOp) (m n : Int32) : Option Value :=
  match op with
  | arith op => op.fold? m n
  | cmp op => some (.ofBool (op.holds m n))
  | shift op => (op.fold? m n).map .const
  | bit op => some (.const (op.fold m n))

end BinOp

/-! ### No signed operation overflows -/

namespace Signed

theorem ofInt?_eq {i : Int} {k : Int32} (h : k.toInt = i) : ofInt? i = some k := by
  subst h
  rw [ofInt?, dif_pos ⟨k.minValue_le_toInt, k.toInt_le⟩, Int32.ofIntLE_toInt]

/-- The one quotient that does not fit is that of the least number and minus one. -/
theorem div?_eq {m n : Int32} (hn : n ≠ 0) (h : ¬ (m = Int32.minValue ∧ n = -1)) :
    div? m n = some (m / n) := by
  have hquotient : (m / n).toInt = m.toInt.tdiv n.toInt := by
    by_cases hm : m = Int32.minValue
    · exact Int32.toInt_div_of_ne_right _ _ fun hn => h ⟨hm, hn⟩
    · exact Int32.toInt_div_of_ne_left _ _ hm
  rw [div?, if_neg hn, ofInt?_eq hquotient]

theorem rem?_eq {m n : Int32} (hn : n ≠ 0) (h : n ≠ -1) : rem? m n = some (m % n) := by
  rw [rem?, div?_eq hn fun hneg => h hneg.2]
  exact ofInt?_eq (Int32.toInt_mod m n)

theorem shiftRight?_eq {m : Int32} {distance : UInt32} (hm : 0 ≤ m) (hdistance : distance < 32) :
    shiftRight? m distance = some (.ofBitVec (m.toBitVec.sshiftRight distance.toNat)) := by
  rw [shiftRight?, if_pos ⟨hm, hdistance⟩]
  apply ofInt?_eq
  rw [Int32.toInt_ofBitVec, BitVec.toInt_sshiftRight]
  rfl

/-- The complement of a negative number is not negative. -/
theorem complement_nonneg {m : Int32} (h : ¬ 0 ≤ m) : 0 ≤ ~~~m := by
  have hneg : m.toInt < 0 := by simpa [Int32.le_iff_toInt_le] using h
  have hlow := m.le_toInt
  rw [Int32.le_iff_toInt_le, Int32.toInt_not, Int.bmod_eq_of_le (by omega) (by omega)]
  show 0 ≤ -m.toInt - 1
  omega

end Signed

namespace ShiftOp

theorem distance_lt (n : Int32) : n.toUInt32 &&& 31 < 32 := by
  rw [UInt32.lt_iff_toNat_lt, UInt32.toNat_and]
  exact Nat.lt_succ_of_le Nat.and_le_right

/-- Shifting the complement and taking the complement again is shifting with the sign. -/
theorem fold?_shr (m n : Int32) :
    fold? shr m n = some (.ofBitVec (m.toBitVec.sshiftRight (n.toUInt32 &&& 31).toNat)) := by
  by_cases hm : 0 ≤ m
  · exact (if_pos hm).trans (Signed.shiftRight?_eq hm (distance_lt n))
  · have hcomplement := Signed.shiftRight?_eq (Signed.complement_nonneg hm) (distance_lt n)
    simp only [fold?, if_neg hm, hcomplement, Option.map_some, Option.some.injEq]
    rw [← Int32.ofBitVec_not, Int32.toBitVec_not, BitVec.not_sshiftRight_not]

theorem isSome_fold? (op : ShiftOp) (m n : Int32) : (op.fold? m n).isSome := by
  cases op with
  | shr => simp [fold?_shr]
  | _ => rfl

end ShiftOp

theorem ArithOp.isSome_fold? (op : ArithOp) (m n : Int32) : (op.fold? m n).isSome := by
  cases op with
  | div =>
    simp only [fold?]
    split
    · rfl
    · rename_i hn
      split
      · rfl
      · rename_i hleast
        simp [Signed.div?_eq hn hleast]
  | rem =>
    simp only [fold?]
    split
    · rfl
    · rename_i hn
      split
      · rfl
      · rename_i hminus
        simp [Signed.rem?_eq hn hminus]
  | _ => rfl

namespace BinOp

theorem isSome_fold? (op : BinOp) (m n : Int32) : (op.fold? m n).isSome := by
  cases op with
  | arith op => exact op.isSome_fold? m n
  | shift op => simpa [fold?] using op.isSome_fold? m n
  | _ => rfl

/-- The value of `m op n`. -/
def fold (op : BinOp) (m n : Int32) : Value := (op.fold? m n).get (op.isSome_fold? m n)

theorem fold?_eq (op : BinOp) (m n : Int32) : op.fold? m n = some (op.fold m n) :=
  (Option.some_get _).symm

theorem fold_eq {op : BinOp} {m n : Int32} {v : Value} (h : op.fold? m n = some v) :
    op.fold m n = v :=
  Option.some_inj.mp ((op.fold?_eq m n).symm.trans h)

end BinOp

end HeapFlow
