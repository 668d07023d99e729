import HeapFlow.Proofs.Constants.Intra
/-!
# HeapFlow.Proofs.Constants.Retraction

**The only way to lower a value by raising the fact.** A provably zero divisor wins over a dividend
that is not a constant, while an unknown divisor loses to it. A division or remainder whose divisor
rises from undefined to zero therefore falls from "not a constant" to undefined, and nothing else
falls: a statement keeps the order of two facts exactly if it does not retract between them. It keeps
the order of all facts exactly if it divides no variable by another one.
-/

namespace HeapFlow

variable {f g : Fact}

/-! ### Expressions -/

/-- An operation that retracts falls from the greatest value to the least. -/
theorem BinOp.Retracts.evaluate_eq {op : BinOp} {x y y' : Value} (h : op.Retracts x y y')
    (x' : Value) : op.evaluate x y = .nac ∧ op.evaluate x' y' = .undefined := by
  obtain ⟨hdivides, rfl, rfl, rfl⟩ := h
  exact ⟨evaluate_of_not_zero (by simp), if_pos ⟨hdivides, rfl⟩⟩

theorem BinOp.Retracts.not_le {op : BinOp} {x y y' : Value} (h : op.Retracts x y y')
    (x' : Value) : ¬ op.evaluate x y ≤ op.evaluate x' y' := by
  obtain ⟨hnac, hundefined⟩ := h.evaluate_eq x'
  rw [hnac, hundefined, Value.nac_le_iff]
  exact nofun

namespace Rvalue

/-- The right-hand side divides, and its value is taken back when one fact rises to the other. -/
def Retracts (r : Rvalue) (f g : Fact) : Prop :=
  ∃ op x y, r = .expr (.binary op x y) ∧
    op.Retracts (f.get x.index) (f.get y.index) (g.get y.index)

/-- The value of a right-hand side rises with the fact exactly if it does not retract. -/
theorem evaluate_le_iff {r : Rvalue} (hfg : f ≤ g) :
    r.evaluate f ≤ r.evaluate g ↔ ¬ r.Retracts f g := by
  constructor
  · rintro hle ⟨op, x, y, rfl, hretracts⟩
    exact hretracts.not_le _ hle
  · intro hno
    cases r with
    | call => exact le_rfl
    | expr e =>
      refine Expr.evaluate_mono hfg fun op x y he hretracts => hno ?_
      exact ⟨op, x, y, congrArg expr he, hretracts⟩

end Rvalue

/-! ### Statements -/

namespace Stmt

variable {s : Stmt}

/-- The fact after a statement rises with the fact before it exactly if the statement does not
retract. -/
theorem transfer_le_iff (hfg : f ≤ g) : s.transfer f ≤ s.transfer g ↔ ¬ s.Retracts f g := by
  refine ⟨?_, transfer_mono hfg⟩
  rintro hle ⟨lhs, op, x, y, rfl, hint, hretracts⟩
  have hassign (h : Fact) : (Stmt.assign lhs (.binary op x y)).transfer h =
      h.update lhs.index (op.evaluate (h.get x.index) (h.get y.index)) := if_pos hint
  have hlhs := hle lhs.index
  rw [hassign, hassign, Fact.get_update, if_pos rfl, Fact.get_update, if_pos rfl] at hlhs
  exact hretracts.not_le _ hlhs

/-- The statement gives an integer variable the quotient or remainder of two different variables. -/
def DividesApart (s : Stmt) : Prop :=
  ∃ lhs op x y, s = .assign lhs (.binary op x y) ∧ lhs.ty.holdsInt = true ∧ op.divides = true ∧
    x.index ≠ y.index

/-- A statement that retracts has a divisor of its own, since the dividend is known not to be a
constant. -/
theorem Retracts.dividesApart (h : s.Retracts f g) : s.DividesApart := by
  obtain ⟨lhs, op, x, y, hs, hint, hdivides, hnac, hundefined, -⟩ := h
  refine ⟨lhs, op, x, y, hs, hint, hdivides, fun heq => ?_⟩
  rw [heq, hundefined] at hnac
  cases hnac

/-- With different operands, some facts make a division retract: only the dividend is known, and then
the divisor becomes zero. -/
theorem DividesApart.exists_retracts (h : s.DividesApart) : ∃ f g, f ≤ g ∧ s.Retracts f g := by
  obtain ⟨lhs, op, x, y, hs, hint, hdivides, hne⟩ := h
  have hbefore : (Fact.update ∅ x.index .nac).get y.index = .undefined := by
    rw [Fact.get_update, if_neg hne, Fact.get_empty]
  refine ⟨Fact.update ∅ x.index .nac, (Fact.update ∅ x.index .nac).update y.index (.const 0), ?_,
    lhs, op, x, y, hs, hint, hdivides, ?_, hbefore, ?_⟩
  · intro i
    rw [Fact.get_update _ y.index]
    split
    · rename_i heq
      rw [← heq, hbefore]
      exact bot_le
    · exact le_rfl
  · rw [Fact.get_update, if_pos rfl]
  · rw [Fact.get_update, if_pos rfl]

theorem monotone_transfer_iff : Monotone s.transfer ↔ ¬ s.DividesApart := by
  constructor
  · intro hmono hapart
    obtain ⟨f, g, hfg, hretracts⟩ := hapart.exists_retracts
    exact (transfer_le_iff hfg).1 (hmono hfg) hretracts
  · intro hno f g hfg
    exact transfer_mono hfg fun hretracts => hno hretracts.dividesApart

end Stmt

namespace Constants

/-- **Facts are taken back by retractions only.** When one fact rises to another, the fact after a
statement and the value of a right-hand side rise with it exactly if they do not retract. The
statements that keep the order of all facts are those that divide no variable by another one. -/
theorem transfer_and_evaluate_rise_iff :
    (∀ f g : Fact, f ≤ g →
      (∀ s : Stmt, s.transfer f ≤ s.transfer g ↔ ¬ s.Retracts f g) ∧
      ∀ r : Rvalue, r.evaluate f ≤ r.evaluate g ↔ ¬ r.Retracts f g) ∧
    ∀ s : Stmt, Monotone s.transfer ↔ ¬ s.DividesApart :=
  ⟨fun _ _ hfg => ⟨fun _ => Stmt.transfer_le_iff hfg, fun _ => Rvalue.evaluate_le_iff hfg⟩,
    fun _ => Stmt.monotone_transfer_iff⟩

/-- `x / d` for the first two variables. -/
def quotient : Expr := .binary (.arith .div) ⟨0, "x", .prim .int⟩ ⟨1, "d", .prim .int⟩

/-- `y = x / d` -/
def divide : Stmt := .assign ⟨2, "y", .prim .int⟩ quotient

/-- The dividend is not a constant, and nothing is known of the divisor. -/
def dividendKnown : Fact := Fact.update ∅ 0 .nac

/-- The dividend is not a constant, and the divisor is. -/
def divisorKnown (n : Int32) : Fact := dividendKnown.update 1 (.const n)

theorem dividendKnown_le_divisorKnown (n : Int32) : dividendKnown ≤ divisorKnown n := by
  intro i
  rw [divisorKnown, Fact.get_update]
  split
  · rename_i heq
    rw [← heq]
    exact bot_le
  · exact le_rfl

/-- The quotient rises when the divisor turns out to be two. -/
theorem quotient_rises_to_two :
    divide.transfer dividendKnown ≤ divide.transfer (divisorKnown 2) ∧
    (Rvalue.expr quotient).evaluate dividendKnown ≤
      (Rvalue.expr quotient).evaluate (divisorKnown 2) := by
  have hno {op : BinOp} {x y : Var} (h : quotient = .binary op x y) :
      ¬ op.Retracts (dividendKnown.get x.index) (dividendKnown.get y.index)
        ((divisorKnown 2).get y.index) := by
    cases h
    rintro ⟨-, -, -, hzero⟩
    exact absurd hzero (by decide)
  obtain ⟨htransfer, hevaluate⟩ := transfer_and_evaluate_rise_iff.1 _ _
    (dividendKnown_le_divisorKnown 2)
  constructor
  · refine (htransfer divide).2 ?_
    rintro ⟨lhs, op, x, y, hs, -, hretracts⟩
    exact hno (Stmt.assign.inj hs).2 hretracts
  · refine (hevaluate (.expr quotient)).2 ?_
    rintro ⟨op, x, y, hr, hretracts⟩
    exact hno (Rvalue.expr.inj hr) hretracts

/-- When the divisor turns out to be zero, the quotient falls from "not a constant" to undefined. -/
theorem quotient_falls_at_zero :
    dividendKnown ≤ divisorKnown 0 ∧
    ¬ divide.transfer dividendKnown ≤ divide.transfer (divisorKnown 0) ∧
    (Rvalue.expr quotient).evaluate dividendKnown = .nac ∧
    (Rvalue.expr quotient).evaluate (divisorKnown 0) = .undefined ∧
    ¬ (Rvalue.expr quotient).evaluate dividendKnown ≤
      (Rvalue.expr quotient).evaluate (divisorKnown 0) := by
  have hretracts : (BinOp.arith .div).Retracts (dividendKnown.get 0) (dividendKnown.get 1)
      ((divisorKnown 0).get 1) := ⟨rfl, rfl, rfl, rfl⟩
  have hle := dividendKnown_le_divisorKnown 0
  obtain ⟨hnac, hundefined⟩ := hretracts.evaluate_eq ((divisorKnown 0).get 0)
  refine ⟨hle, fun hrises => ?_, hnac, hundefined, hretracts.not_le ((divisorKnown 0).get 0)⟩
  exact (Stmt.transfer_le_iff hle).1 hrises ⟨_, _, _, _, rfl, rfl, hretracts⟩

end Constants

end HeapFlow
