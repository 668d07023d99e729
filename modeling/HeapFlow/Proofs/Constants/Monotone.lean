import HeapFlow.Proofs.Constants.Effects
/-!
# HeapFlow.Proofs.Constants.Monotone

**Which transfers are monotone.** Edges keep the order of facts, and what a load sees rises with the
heap and with the fact before it. So does every expression but a division or remainder: if the
dividend is not a constant, its value is not a constant while nothing is known of the divisor, and
undefined once the divisor is the constant zero. `BinOp.Retracts` names this case; in all others the
value rises with the operands.
-/

namespace HeapFlow

/-! ### Expressions -/

namespace BinOp

/-- Operands at which the operation takes its value back: the dividend is not a constant, and the
divisor turns from undefined into zero. -/
def Retracts (op : BinOp) (x y y' : Value) : Prop :=
  op.divides = true ∧ x = .nac ∧ y = .undefined ∧ y' = .const 0

/-- Away from a division by zero, the value is taken from the operands. -/
theorem evaluate_of_not_zero {op : BinOp} {x y : Value} :
    ¬ (op.divides = true ∧ y = .const 0) → op.evaluate x y =
      match x, y with
      | .const m, .const n => op.fold m n
      | .nac, _ => .nac
      | _, .nac => .nac
      | _, _ => .undefined :=
  fun h => if_neg h

/-- An operand that is not a constant hides the other one. -/
theorem evaluate_nac {op : BinOp} (x : Value) : op.evaluate x .nac = .nac := by
  rw [evaluate_of_not_zero (by simp)]
  cases x <;> rfl

/-- The value of an operation rises with its operands unless it retracts. -/
theorem evaluate_mono {op : BinOp} {x y x' y' : Value} (hx : x ≤ x') (hy : y ≤ y')
    (hno : ¬ op.Retracts x y y') : op.evaluate x y ≤ op.evaluate x' y' := by
  by_cases hzero : op.divides = true ∧ y = .const 0
  · have hundefined : op.evaluate x y = .undefined := if_pos hzero
    rw [hundefined]
    exact bot_le
  by_cases hzero' : op.divides = true ∧ y' = .const 0
  · -- the divisor was undefined, so it is the dividend that decides
    obtain ⟨hdivides, rfl⟩ := hzero'
    have hbot : y = .undefined :=
      (Value.le_const_iff.1 hy).resolve_right fun heq => hzero ⟨hdivides, heq⟩
    subst hbot
    rw [evaluate_of_not_zero hzero]
    cases x with
    | nac => exact absurd ⟨hdivides, rfl, rfl, rfl⟩ hno
    | _ => exact bot_le
  · cases x with
    -- NAC is the greatest value, so the operand is the same in both
    | nac =>
      obtain rfl := Value.nac_le_iff.1 hx
      rw [evaluate_of_not_zero hzero, evaluate_of_not_zero hzero']
    | undefined =>
      cases y with
      | nac =>
        obtain rfl := Value.nac_le_iff.1 hy
        rw [evaluate_nac, evaluate_nac]
      | _ =>
        rw [evaluate_of_not_zero hzero]
        exact bot_le
    | const m =>
      cases y with
      | nac =>
        obtain rfl := Value.nac_le_iff.1 hy
        rw [evaluate_nac, evaluate_nac]
      | undefined =>
        rw [evaluate_of_not_zero hzero]
        exact bot_le
      | const n =>
        rw [evaluate_of_not_zero hzero, evaluate_of_not_zero hzero']
        obtain rfl | rfl := Value.const_le_iff.1 hx
        · obtain rfl | rfl := Value.const_le_iff.1 hy
          · exact le_rfl
          · exact Value.le_nac _
        · exact Value.le_nac _

end BinOp

/-- The value of an expression rises with the fact unless it is a division that retracts. -/
theorem Expr.evaluate_mono {e : Expr} {f g : Fact} (h : f ≤ g)
    (hno : ∀ op x y, e = .binary op x y →
      ¬ op.Retracts (f.get x.index) (f.get y.index) (g.get y.index)) :
    e.evaluate f ≤ e.evaluate g := by
  cases e with
  | var v => exact h v.index
  | binary op x y => exact BinOp.evaluate_mono (h x.index) (h y.index) (hno op x y rfl)
  | _ => exact le_rfl

namespace Constants

variable {c : Setting} {pt : Point} {f g : Fact} {h k : HeapStore}

/-! ### Points -/

/-- A load sees more slots if less is known of its index. -/
theorem readSlots_mono (hfg : f ≤ g) (place : Place) :
    readSlots c pt f place ⊆ readSlots c pt g place := by
  cases place with
  | element array index =>
    intro slot hslot
    obtain ⟨o, ho, hmem⟩ := hslot
    exact ⟨o, ho, HeapStore.elementSlots_mono (hfg index.index) hmem⟩
  | _ => exact Set.Subset.rfl

/-- What a load sees rises with the heap and the fact. -/
theorem loaded_mono (hhk : h ≤ k) (hfg : f ≤ g) (place : Place) :
    loaded c pt h f place ≤ loaded c pt k g place := by
  rw [loaded_le_iff]
  intro slot hslot
  exact (hhk slot).trans (loaded_le_iff.1 le_rfl slot (readSlots_mono hfg place hslot))

/-- The computation of a point takes a value back: the point divides, and its operands retract. -/
def RetractsAt (c : Setting) (pt : Point) (f g : Fact) : Prop :=
  ∃ lhs op x y, stmtAt? c pt = some (.assign lhs (.binary op x y)) ∧ lhs.ty.holdsInt = true ∧
    op.Retracts (f.get x.index) (f.get y.index) (g.get y.index)

/-- The fact after a point rises with what the point loads and with the fact before it, unless the
point retracts. -/
theorem after_mono_of_loaded
    (hloaded : ∀ lhs place, LoadsInt c pt lhs place → loaded c pt h f place ≤ loaded c pt k g place)
    (hfg : f ≤ g) (hno : ¬ RetractsAt c pt f g) :
    (effect c pt h f).after ≤ (effect c pt k g).after := by
  obtain ⟨lhs, place, hload⟩ | ⟨lhs, e, hs, hint, hafter⟩ | hafter := after_cases c pt
  · rw [after_of_loadsInt hload, after_of_loadsInt hload]
    exact Fact.update_mono lhs.index hfg (hloaded lhs place hload)
  · rw [hafter, hafter]
    refine Fact.update_mono lhs.index hfg (Expr.evaluate_mono hfg fun op x y he hretracts => ?_)
    subst he
    exact hno ⟨lhs, op, x, y, hs, hint, hretracts⟩
  · rw [hafter, hafter]
    exact hfg

/-- The fact after a point rises with the heap and with the fact before it, unless the point
retracts. -/
theorem after_mono (hhk : h ≤ k) (hfg : f ≤ g) (hno : ¬ RetractsAt c pt f g) :
    (effect c pt h f).after ≤ (effect c pt k g).after :=
  after_mono_of_loaded (fun _ place _ => loaded_mono hhk hfg place) hfg hno

/-- Nothing is retracted where the fact stays the same. -/
theorem not_retractsAt_self (f : Fact) : ¬ RetractsAt c pt f f := by
  intro ⟨_, _, _, _, _, _, _, _, hundefined, hzero⟩
  rw [hundefined] at hzero
  cases hzero

/-- No point divides or takes a remainder. -/
def NeverDivides (c : Setting) : Prop :=
  ∀ pt lhs op x y, stmtAt? c pt = some (.assign lhs (.binary op x y)) → op.divides = false

theorem NeverDivides.not_retractsAt (hno : NeverDivides c) (pt : Point) (f g : Fact) :
    ¬ RetractsAt c pt f g := by
  intro hretracts
  obtain ⟨lhs, op, x, y, hs, -, hdivides, -⟩ := hretracts
  rw [hno pt lhs op x y hs] at hdivides
  cases hdivides

/-! ### Edges -/

/-- Updates with greater values give a greater fact. -/
theorem foldl_update_mono {α : Type} {xs : List α} {index : α → Nat} {value value' : α → Value}
    {test : α → Bool} (hvalue : ∀ x, value x ≤ value' x) (hfg : f ≤ g) :
    xs.foldl (fun out x => if test x then out.update (index x) (value x) else out) f ≤
      xs.foldl (fun out x => if test x then out.update (index x) (value' x) else out) g := by
  induction xs generalizing f g with
  | nil => exact hfg
  | cons x xs ih =>
    rw [List.foldl_cons, List.foldl_cons]
    refine ih ?_
    split
    · exact Fact.update_mono (index x) hfg (hvalue x)
    · exact hfg

theorem intoCallee_mono (hfg : f ≤ g) (callee : MethodId) :
    intoCallee c pt callee f ≤ intoCallee c pt callee g := by
  unfold intoCallee
  split
  · split
    · exact foldl_update_mono (fun x => hfg _) le_rfl
    · exact le_rfl
  · exact le_rfl

theorem outOfCallee_mono (hfg : f ≤ g) (site : Site) (callee : MethodId) :
    outOfCallee c site callee f ≤ outOfCallee c site callee g := by
  unfold outOfCallee
  split
  · rename_i r m _ _
    exact Fact.update_mono r.index le_rfl (Value.meetAll_map_mono fun v _ => hfg v.index)
  · exact le_rfl

theorem pastCall_mono (hfg : f ≤ g) : pastCall c pt f ≤ pastCall c pt g := by
  unfold pastCall
  split
  · exact Fact.update_mono _ hfg le_rfl
  · exact hfg

/-- What an edge brings rises with the fact after its source. -/
theorem along_mono (e : Icfg.Edge) (hfg : f ≤ g) : along c e f ≤ along c e g := by
  unfold along
  split
  · exact hfg
  · exact pastCall_mono hfg
  · exact intoCallee_mono hfg _
  · exact outOfCallee_mono hfg _ _

end Constants

end HeapFlow
