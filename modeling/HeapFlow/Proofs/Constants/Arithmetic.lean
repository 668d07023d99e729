import HeapFlow.Constants.Value
import Mathlib.Algebra.Ring.Int.Defs
/-!
# HeapFlow.Proofs.Constants.Arithmetic

**Folding is arithmetic on words of 32 bits.** `BinOp.onBits?` is what an operator means for bit
vectors, and `BinOp.onInts` what it means for integers before the result is wrapped around. They
agree, and `BinOp.fold` computes what they say.
-/

namespace HeapFlow

/-! ### The operators on bit vectors -/

/-- Quotients are cut toward zero, and remainders have the sign of the dividend. -/
def ArithOp.onBits? (op : ArithOp) (x y : BitVec 32) : Option (BitVec 32) :=
  match op with
  | add => some (x + y)
  | sub => some (x - y)
  | mul => some (x * y)
  | div => if y = 0 then none else some (x.sdiv y)
  | rem => if y = 0 then none else some (x.srem y)

def CmpOp.onBits (op : CmpOp) (x y : BitVec 32) : Bool :=
  match op with
  | eq => x == y
  | ne => x != y
  | lt => x.slt y
  | gt => y.slt x
  | le => x.sle y
  | ge => y.sle x

/-- Of the shifts to the right, `shr` copies the sign and `ushr` brings in zeros. -/
def ShiftOp.onBits (op : ShiftOp) (x y : BitVec 32) : BitVec 32 :=
  match op with
  | shl => x <<< (y.toNat % 32)
  | shr => x.sshiftRight (y.toNat % 32)
  | ushr => x >>> (y.toNat % 32)

def BitOp.onBits (op : BitOp) (x y : BitVec 32) : BitVec 32 :=
  match op with
  | and => x &&& y
  | or => x ||| y
  | xor => x ^^^ y

/-- The word that an operation results in; there is no division by zero. -/
def BinOp.onBits? (op : BinOp) (x y : BitVec 32) : Option (BitVec 32) :=
  match op with
  | arith op => op.onBits? x y
  | cmp op => some (if op.onBits x y then 1 else 0)
  | shift op => some (op.onBits x y)
  | bit op => some (op.onBits x y)

/-- The constant with these bits. -/
def Value.ofBits : Option (BitVec 32) → Value
  | some x => const (.ofBitVec x)
  | none => undefined

/-! ### The operators on integers -/

def ArithOp.onInts (op : ArithOp) (a b : Int) : Int :=
  match op with
  | add => a + b
  | sub => a - b
  | mul => a * b
  | div => a.tdiv b
  | rem => a.tmod b

def CmpOp.onInts (op : CmpOp) (a b : Int) : Bool :=
  match op with
  | eq => decide (a = b)
  | ne => decide (a ≠ b)
  | lt => decide (a < b)
  | gt => decide (b < a)
  | le => decide (a ≤ b)
  | ge => decide (b ≤ a)

/-- The number with the same bits that is not negative. -/
def unsigned (a : Int) : Nat := (a % 2 ^ 32).toNat

/-- Shifting to the right rounds down. -/
def ShiftOp.onInts (op : ShiftOp) (a b : Int) : Int :=
  match op with
  | shl => a * 2 ^ (unsigned b % 32)
  | shr => a / 2 ^ (unsigned b % 32)
  | ushr => unsigned a / 2 ^ (unsigned b % 32)

def BitOp.onInts (op : BitOp) (a b : Int) : Int :=
  match op with
  | and => Int.ofNat (unsigned a &&& unsigned b)
  | or => Int.ofNat (unsigned a ||| unsigned b)
  | xor => Int.ofNat (unsigned a ^^^ unsigned b)

/-- The number that an operation results in before it is wrapped around. -/
def BinOp.onInts (op : BinOp) (a b : Int) : Int :=
  match op with
  | arith op => op.onInts a b
  | cmp op => if op.onInts a b then 1 else 0
  | shift op => op.onInts a b
  | bit op => op.onInts a b

/-! ### Bit vectors against integers -/

theorem unsigned_toInt (x : BitVec 32) : unsigned x.toInt = x.toNat := by
  have hlt := x.isLt
  rw [unsigned, BitVec.toInt_eq_toNat_cond]
  split <;> omega

theorem ArithOp.onBits?_eq (op : ArithOp) (x y : BitVec 32) :
    op.onBits? x y =
      if (BinOp.arith op).divides = true ∧ y = 0 then none
      else some (.ofInt 32 (op.onInts x.toInt y.toInt)) := by
  have hsub : x - y = .ofInt 32 (x.toInt - y.toInt) := by
    apply BitVec.eq_of_toInt_eq
    rw [BitVec.toInt_sub, BitVec.toInt_ofInt]
  have hdiv : x.sdiv y = .ofInt 32 (x.toInt.tdiv y.toInt) := by
    apply BitVec.eq_of_toInt_eq
    rw [BitVec.toInt_sdiv, BitVec.toInt_ofInt]
  have hrem : x.srem y = .ofInt 32 (x.toInt.tmod y.toInt) := by
    rw [← BitVec.toInt_srem, BitVec.ofInt_toInt]
  cases op with
  | add => simp [onBits?, onInts, BinOp.divides, BitVec.ofInt_add]
  | sub => simp [onBits?, onInts, BinOp.divides, hsub]
  | mul => simp [onBits?, onInts, BinOp.divides, BitVec.ofInt_mul]
  | div => simp only [onBits?, onInts, BinOp.divides, true_and, hdiv]
  | rem => simp only [onBits?, onInts, BinOp.divides, true_and, hrem]

theorem CmpOp.onBits_eq (op : CmpOp) (x y : BitVec 32) :
    op.onBits x y = op.onInts x.toInt y.toInt := by
  cases op with
  | eq | ne => simp [onBits, onInts, BitVec.toInt_inj, bne, BEq.beq]
  | lt | gt | le | ge => rfl

theorem ShiftOp.onBits_eq (op : ShiftOp) (x y : BitVec 32) :
    op.onBits x y = .ofInt 32 (op.onInts x.toInt y.toInt) := by
  cases op with
  | shl =>
    have hpow : ∀ d : Nat, BitVec.ofInt 32 (2 ^ d) = BitVec.twoPow 32 d := by
      intro d
      apply BitVec.eq_of_toNat_eq
      have hcast : (2 ^ d : Int) = ((2 ^ d : Nat) : Int) := by norm_cast
      rw [hcast, BitVec.ofInt_natCast, BitVec.toNat_ofNat, BitVec.toNat_twoPow]
    rw [onBits, onInts, unsigned_toInt, BitVec.shiftLeft_eq_mul_twoPow, BitVec.ofInt_mul,
      BitVec.ofInt_toInt, hpow]
  | shr =>
    rw [onBits, onInts, unsigned_toInt, BitVec.sshiftRight_eq, Int.shiftRight_eq_div_pow]
    rfl
  | ushr =>
    have hcast (n d : Nat) : (n : Int) / 2 ^ d = ((n / 2 ^ d : Nat) : Int) := by norm_cast
    have hlt : x.toNat / 2 ^ (y.toNat % 32) < 2 ^ 32 :=
      Nat.lt_of_le_of_lt (Nat.div_le_self _ _) x.isLt
    rw [onBits, onInts, unsigned_toInt, unsigned_toInt, hcast, BitVec.ofInt_natCast]
    apply BitVec.eq_of_toNat_eq
    rw [BitVec.toNat_ushiftRight, Nat.shiftRight_eq_div_pow, BitVec.toNat_ofNat,
      Nat.mod_eq_of_lt hlt]

theorem BitOp.onBits_eq (op : BitOp) (x y : BitVec 32) :
    op.onBits x y = .ofInt 32 (op.onInts x.toInt y.toInt) := by
  cases op <;> simp [onBits, onInts, unsigned_toInt]

theorem BinOp.onBits?_eq (op : BinOp) (x y : BitVec 32) :
    op.onBits? x y =
      if op.divides = true ∧ y = 0 then none else some (.ofInt 32 (op.onInts x.toInt y.toInt)) := by
  cases op with
  | arith op => exact op.onBits?_eq x y
  | cmp op =>
    simp only [onBits?, onInts, op.onBits_eq]
    cases op.onInts x.toInt y.toInt <;> rfl
  | shift op => simp [onBits?, onInts, op.onBits_eq, divides]
  | bit op => simp [onBits?, onInts, op.onBits_eq, divides]

/-! ### Folding against bit vectors -/

theorem toBitVec_eq_zero (n : Int32) : n.toBitVec = 0 ↔ n = 0 :=
  ⟨fun h => Int32.toBitVec_inj.mp (h.trans Int32.toBitVec_zero.symm), fun h => h ▸ rfl⟩

theorem ArithOp.fold?_eq (op : ArithOp) (m n : Int32) :
    op.fold? m n = some (.ofBits (op.onBits? m.toBitVec n.toBitVec)) := by
  have hzero := toBitVec_eq_zero n
  cases op with
  | add | sub | mul => rfl
  | div =>
    simp only [fold?, onBits?, hzero]
    by_cases hn : n = 0
    · simp [hn, Value.ofBits]
    · by_cases hleast : m = Int32.minValue ∧ n = -1
      · obtain ⟨rfl, rfl⟩ := hleast
        decide
      · simp only [if_neg hn, if_neg hleast, Signed.div?_eq hn hleast]
        rfl
  | rem =>
    simp only [fold?, onBits?, hzero]
    by_cases hn : n = 0
    · simp [hn, Value.ofBits]
    · by_cases hminus : n = -1
      · have hrem : m.toBitVec.srem (-1) = 0 := by
          apply BitVec.eq_of_toInt_eq
          rw [BitVec.toInt_srem]
          exact (Int.tmod_neg m.toInt 1).trans (Int.tmod_one m.toInt)
        subst hminus
        show some (Value.const 0) = some (.const (.ofBitVec (m.toBitVec.srem (-1))))
        rw [hrem]
        rfl
      · simp only [if_neg hn, if_neg hminus, Signed.rem?_eq hn hminus]
        rfl

theorem CmpOp.holds_eq (op : CmpOp) (m n : Int32) :
    op.holds m n = op.onBits m.toBitVec n.toBitVec := by
  cases op with
  | eq | ne => simp [holds, onBits, Int32.toBitVec_inj, bne, BEq.beq]
  | lt | gt | le | ge => exact Bool.decide_eq_true

theorem ShiftOp.fold?_eq (op : ShiftOp) (m n : Int32) :
    op.fold? m n = some (.ofBitVec (op.onBits m.toBitVec n.toBitVec)) := by
  have hdistance : (n.toUInt32 &&& 31).toNat = n.toBitVec.toNat % 32 :=
    Nat.and_two_pow_sub_one_eq_mod n.toBitVec.toNat 5
  have hsame : ((n.toUInt32 &&& 31).toBitVec % 32).toNat = n.toBitVec.toNat % 32 :=
    (Nat.mod_eq_of_lt (distance_lt n)).trans hdistance
  cases op with
  | shl =>
    show some (Int32.ofBitVec (m.toBitVec <<< ((n.toUInt32 &&& 31).toBitVec % 32).toNat)) = _
    rw [hsame, onBits]
  | shr => rw [fold?_shr, hdistance, onBits]
  | ushr =>
    show some (Int32.ofBitVec (m.toBitVec >>> ((n.toUInt32 &&& 31).toBitVec % 32).toNat)) = _
    rw [hsame, onBits]

theorem BinOp.fold_eq_ofBits (op : BinOp) (m n : Int32) :
    op.fold m n = .ofBits (op.onBits? m.toBitVec n.toBitVec) := by
  apply fold_eq
  cases op with
  | arith op => exact op.fold?_eq m n
  | cmp op =>
    rw [fold?, op.holds_eq, onBits?]
    cases op.onBits m.toBitVec n.toBitVec <;> rfl
  | shift op =>
    rw [fold?, op.fold?_eq]
    rfl
  | bit op => cases op <;> rfl

/-! ### What folding results in -/

namespace BinOp

/-- Folding is arithmetic on integers that is wrapped around. -/
theorem fold_eq_onInts (op : BinOp) (m n : Int32) :
    op.fold m n =
      if op.divides = true ∧ n = 0 then .undefined
      else .const (.ofInt (op.onInts m.toInt n.toInt)) := by
  simp only [fold_eq_ofBits, onBits?_eq, toBitVec_eq_zero]
  by_cases hzero : op.divides = true ∧ n = 0
  · rw [if_pos hzero, if_pos hzero, Value.ofBits]
  · rw [if_neg hzero, if_neg hzero]
    rfl

theorem fold_zero {op : BinOp} (h : op.divides = true) (m : Int32) : op.fold m 0 = .undefined := by
  rw [fold_eq_onInts, if_pos ⟨h, rfl⟩]

/-- Only a division may be without a value. -/
theorem exists_fold_eq_const {op : BinOp} (h : op.divides = false) (m n : Int32) :
    ∃ k, op.fold m n = .const k := by
  rw [fold_eq_onInts, if_neg (by simp [h])]
  exact ⟨_, rfl⟩

theorem fold_eq_undefined_iff (op : BinOp) (m n : Int32) :
    op.fold m n = .undefined ↔ op.divides = true ∧ n = 0 := by
  rw [fold_eq_onInts]
  split
  · rename_i hzero
    exact ⟨fun _ => hzero, fun _ => rfl⟩
  · rename_i hzero
    exact ⟨nofun, fun h => absurd h hzero⟩

/-- **Folding is 32-bit two's complement arithmetic.** No signed operation on the way overflows. The
value is what the operation on bit vectors results in; only a division by zero has none. It is the
number that the operation on integers results in, wrapped around. -/
theorem fold_exact (op : BinOp) (m n : Int32) :
    op.fold? m n = some (op.fold m n) ∧
    op.fold m n = .ofBits (op.onBits? m.toBitVec n.toBitVec) ∧
    (op.fold m n = .undefined ↔ op.divides = true ∧ n = 0) ∧
    op.fold m n =
      if op.divides = true ∧ n = 0 then .undefined
      else .const (.ofInt (op.onInts m.toInt n.toInt)) :=
  ⟨op.fold?_eq m n, op.fold_eq_ofBits m n, op.fold_eq_undefined_iff m n, op.fold_eq_onInts m n⟩

/-- The one quotient that does not fit wraps around. -/
example : (arith .div).fold Int32.minValue (-1) = .const Int32.minValue := by decide

end BinOp

end HeapFlow
