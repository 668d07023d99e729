import HeapFlow.Proofs.Constants.Divergence
import HeapFlow.Proofs.Dataflow.Termination
/-!
# HeapFlow.Proofs.Constants.Intra

**When constant propagation within one method terminates.** A statement gives one integer variable a
value or keeps the fact. Its value rises with the fact unless it is a division that retracts, so the
solver terminates exactly if it lowers facts only finitely often, and before it lowers one, a division
has taken back its value. There is a method for which it never stops.
-/

namespace HeapFlow

open Dataflow

/-! ### Statements -/

namespace Stmt

variable {s : Stmt} {f g : Fact}

/-- The statements of three kinds: assignments to integer variables, calls with an integer result, and
statements that keep the fact. -/
theorem transfer_cases (s : Stmt) :
    (∃ lhs e, s = .assign lhs e ∧ lhs.ty.holdsInt = true ∧
      ∀ f, s.transfer f = f.update lhs.index (e.evaluate f)) ∨
    (∃ result call, s = .invoke (some result) call ∧ result.ty.holdsInt = true ∧
      ∀ f, s.transfer f = f.update result.index .nac) ∨
    ∀ f, s.transfer f = f := by
  cases s with
  | assign lhs e =>
    by_cases hint : lhs.ty.holdsInt = true
    · exact .inl ⟨lhs, e, rfl, hint, fun f => if_pos hint⟩
    · exact .inr (.inr fun f => if_neg hint)
  | invoke result call =>
    cases result with
    | none => exact .inr (.inr fun f => rfl)
    | some result =>
      by_cases hint : result.ty.holdsInt = true
      · exact .inr (.inl ⟨result, call, rfl, hint, fun f => if_pos hint⟩)
      · exact .inr (.inr fun f => if_neg hint)
  | _ => exact .inr (.inr fun f => rfl)

/-- Only an integer variable that the statement defines changes. -/
theorem get_transfer_of_ne {j : Nat}
    (hne : ∀ v, s.defined? = some v → v.ty.holdsInt = true → v.index ≠ j) :
    (s.transfer f).get j = f.get j := by
  obtain ⟨lhs, e, rfl, hint, htransfer⟩ | ⟨result, call, rfl, hint, htransfer⟩ | htransfer :=
    transfer_cases s
  · rw [htransfer, Fact.get_update, if_neg (hne lhs rfl hint)]
  · rw [htransfer, Fact.get_update, if_neg (hne result rfl hint)]
  · rw [htransfer]

/-- The statement divides, and its value is taken back when one fact rises to the other. -/
def Retracts (s : Stmt) (f g : Fact) : Prop :=
  ∃ lhs op x y, s = .assign lhs (.binary op x y) ∧ lhs.ty.holdsInt = true ∧
    op.Retracts (f.get x.index) (f.get y.index) (g.get y.index)

/-- The fact after a statement rises with the fact before it unless the statement retracts. -/
theorem transfer_mono (hfg : f ≤ g) (hno : ¬ s.Retracts f g) : s.transfer f ≤ s.transfer g := by
  obtain ⟨lhs, e, rfl, hint, htransfer⟩ | ⟨result, call, -, -, htransfer⟩ | htransfer :=
    transfer_cases s
  · rw [htransfer, htransfer]
    refine Fact.update_mono lhs.index hfg (Expr.evaluate_mono hfg fun op x y he hretracts => ?_)
    subst he
    exact hno ⟨lhs, op, x, y, rfl, hint, hretracts⟩
  · rw [htransfer, htransfer]
    exact Fact.update_mono result.index hfg le_rfl
  · rwa [htransfer, htransfer]

/-- A statement gives values to the first variables only. -/
theorem exists_size_transfer (s : Stmt) : ∃ n, ∀ size, n ≤ size →
    ∀ f ≤ Fact.full size, s.transfer f ≤ Fact.full size := by
  obtain ⟨lhs, e, -, -, htransfer⟩ | ⟨result, call, -, -, htransfer⟩ | htransfer :=
    transfer_cases s
  · refine ⟨lhs.index + 1, fun size hsize f hf => ?_⟩
    rw [htransfer]
    exact Fact.update_le_full hsize hf
  · refine ⟨result.index + 1, fun size hsize f hf => ?_⟩
    rw [htransfer]
    exact Fact.update_le_full hsize hf
  · exact ⟨0, fun size _ f hf => (htransfer f).symm ▸ hf⟩

end Stmt

/-- The heights of the values of the first variables. -/
def Fact.heights (size : Nat) (f : Fact) : Fin size → Fin 3 := fun i => (f.get i).rank

theorem Fact.strictMonoOn_heights (size : Nat) :
    StrictMonoOn (heights size) (Set.Iic (full size)) := by
  intro f _ g hg hfg
  refine lt_of_le_of_ne (fun i => Value.rank_mono (hfg.le i)) fun heq => hfg.ne ?_
  exact eq_of_rank_eq hfg.le hg fun i hi => congrFun heq ⟨i, hi⟩

namespace Constants

variable {m : Method} {g : Cfg} {n : Node}

/-! ### Nodes -/

theorem nodeTransfer_stmt {i : Nat} {s : Stmt} (hs : m.stmt? i = some s) (f : Fact) :
    nodeTransfer m (.stmt i) f = s.transfer f := by
  simp [nodeTransfer, hs]

/-- A node is a statement or keeps the fact. -/
theorem nodeTransfer_cases (m : Method) (n : Node) :
    (∃ i s, n = .stmt i ∧ m.stmt? i = some s) ∨ ∀ f, nodeTransfer m n f = f := by
  cases n with
  | stmt i =>
    cases hs : m.stmt? i with
    | none => exact .inr fun f => by simp [nodeTransfer, hs]
    | some s => exact .inl ⟨i, s, rfl, hs⟩
  | _ => exact .inr fun f => rfl

/-- The statement of a node retracts its value. -/
def NodeRetracts (m : Method) (n : Node) (f f' : Fact) : Prop :=
  ∃ i s, n = .stmt i ∧ m.stmt? i = some s ∧ s.Retracts f f'

theorem nodeTransfer_mono {f f' : Fact} (hle : f ≤ f') (hno : ¬ NodeRetracts m n f f') :
    nodeTransfer m n f ≤ nodeTransfer m n f' := by
  obtain ⟨i, s, rfl, hs⟩ | hkeeps := nodeTransfer_cases m n
  · rw [nodeTransfer_stmt hs, nodeTransfer_stmt hs]
    exact Stmt.transfer_mono hle fun hretracts => hno ⟨i, s, rfl, hs, hretracts⟩
  · rwa [hkeeps, hkeeps]

theorem seeds_intraProblem (m : Method) (n : Node) :
    (intraProblem m).seeds.get? n = if .entry = n then some (entryFact m) else none :=
  (Table.get?_set ..).trans (congrArg (ite _ _) (Table.get?_empty n))

/-! ### Results -/

/-- Facts before the nodes of a method that admit its entry fact and what the nodes pass on. -/
structure AdmitsFlow (m : Method) (g : Cfg) (facts : Node → Fact) : Prop where
  entry : entryFact m ≤ facts .entry
  edge : ∀ e ∈ g.edges, nodeTransfer m e.source (facts e.source) ≤ facts e.target

/-- The facts of a result admit what flows through the method. -/
theorem admitsFlow_of_intra (hclosed : g.Closed) {fuel : Nat} {r : Solution Fact}
    (hr : intra fuel m g = some r) : AdmitsFlow m g r.before := by
  obtain ⟨s, -, hsettled, rfl⟩ := settled_of_solve hclosed (joins_intraProblem m) hr
  exact ⟨(hsettled .entry).seed_le (seeds_intraProblem m .entry),
    fun e he => (hsettled e.target).passed_le (mem_sources_forward rfl he)⟩

theorem after_of_intra (hclosed : g.Closed) {fuel : Nat} {r : Solution Fact}
    (hr : intra fuel m g = some r) (hn : n ∈ g.nodes) :
    r.after n = nodeTransfer m n (r.before n) := by
  obtain ⟨s, hsound, -, rfl⟩ := settled_of_solve hclosed (joins_intraProblem m) hr
  exact (solution_forward rfl hsound hn).2

/-! ### Termination -/

/-- The variables of a method are finitely many. -/
theorem exists_spans_intraProblem (m : Method) :
    ∃ size, Dataflow.Spans (intraProblem m) (Fact.full size) (Fact.heights size) := by
  obtain ⟨k, hentry⟩ := exists_size_entryFact m
  obtain ⟨l, htransfer⟩ := exists_size m.stmts fun s _ => s.exists_size_transfer
  refine ⟨max k l, fun n seed hseed => ?_, fun n f hf => ?_, Fact.strictMonoOn_heights _⟩
  · rw [seeds_intraProblem] at hseed
    split at hseed
    · cases hseed
      exact hentry _ (Nat.le_max_left k l)
    · cases hseed
  · show nodeTransfer m n f ≤ _
    obtain ⟨i, s, rfl, hs⟩ | hkeeps := nodeTransfer_cases m n
    · have hmem : s ∈ m.stmts := List.mem_of_getElem? ((m.stmt?_eq i).symm.trans hs)
      rw [nodeTransfer_stmt hs]
      exact htransfer _ (Nat.le_max_right k l) s hmem f hf
    · rwa [hkeeps]

/-- The next step computes a node that takes its value back. -/
def StepRetracts (m : Method) (g : Cfg) (s : State Fact) : Prop :=
  ∃ source target queue, s.queue = (source, target) :: queue ∧
    NodeRetracts m target (s.get (intraProblem m) target)
      (incoming g (intraProblem m) s source target)

theorem stepRetracts_of_falls {s : State Fact} (h : Falls g (intraProblem m) s) :
    StepRetracts m g s := by
  obtain ⟨source, target, queue, hqueue, hrise, hfall⟩ := h
  refine ⟨source, target, queue, hqueue, ?_⟩
  by_contra hno
  exact hfall (nodeTransfer_mono hrise hno)

/-- **Constant propagation within a method terminates exactly if it lowers facts only finitely often,**
and it lowers none before a division has taken its value back. -/
theorem intra_terminates_iff (m : Method) (g : Cfg) :
    ((∃ fuel r, intra fuel m g = some r) ↔
      ∃ n, ∀ k, n ≤ k → ∀ s, Dataflow.stateAfter g (intraProblem m) k = some s →
        ¬ Dataflow.Lowers g (intraProblem m) s) ∧
    ∀ n s, Dataflow.stateAfter g (intraProblem m) n = some s → Dataflow.Lowers g (intraProblem m) s →
      ∃ k < n, ∃ t, Dataflow.stateAfter g (intraProblem m) k = some t ∧ StepRetracts m g t := by
  obtain ⟨size, hspans⟩ := exists_spans_intraProblem m
  refine ⟨exists_solve_iff (joins_intraProblem m) hspans, fun n s hs hlowers => ?_⟩
  obtain ⟨k, hk, t, ht, hfalls⟩ := exists_falls_of_lowers (joins_intraProblem m) hs hlowers
  exact ⟨k, hk, t, ht, stepRetracts_of_falls hfalls⟩

/-! ### Two waves in a loop -/

/-- Two states agree in everything on which the next steps depend. -/
def SameFacts (m : Method) (s t : State Fact) : Prop :=
  s.queue = t.queue ∧ ∀ n, s.get (intraProblem m) n = t.get (intraProblem m) n

theorem SameFacts.refl (s : State Fact) : SameFacts m s s := ⟨rfl, fun _ => rfl⟩

theorem SameFacts.trans {s t u : State Fact} (h : SameFacts m s t) (h' : SameFacts m t u) :
    SameFacts m s u :=
  ⟨h.1.trans h'.1, fun n => (h.2 n).trans (h'.2 n)⟩

/-- States that agree still agree after a step. -/
theorem SameFacts.step {s t s' : State Fact} (h : SameFacts m s t)
    (hstep : Dataflow.step g (intraProblem m) s = .next s') :
    ∃ t', Dataflow.step g (intraProblem m) t = .next t' ∧ SameFacts m s' t' := by
  obtain ⟨source, target, queue, hqueue, rfl⟩ := step_eq_next.1 hstep
  obtain ⟨hsame, hfacts⟩ := h
  have hincoming : incoming g (intraProblem m) s source target =
      incoming g (intraProblem m) t source target := by
    simp only [incoming, hfacts]
  refine ⟨_, step_eq_next.2 ⟨source, target, queue, hsame.symm.trans hqueue, rfl⟩, ?_, fun n => ?_⟩
  · rw [queue_follow, queue_follow, hincoming, hfacts]
  · rw [get_follow, get_follow, hincoming, hfacts]

/-- The queues and the listings of two states agree. -/
def SameStateListing (s t : State Fact) : Prop :=
  s.queue = t.queue ∧ s.facts.listing Fact.code = t.facts.listing Fact.code

instance (s t : State Fact) : Decidable (SameStateListing s t) :=
  inferInstanceAs (Decidable (_ ∧ _))

theorem SameStateListing.sameFacts {s t : State Fact} (h : SameStateListing s t) :
    SameFacts m s t := by
  refine ⟨h.1, fun n => ?_⟩
  rw [State.get, State.get, Table.getD, Table.getD,
    Table.get?_eq_of_listing Fact.code_injective h.2]

/-- A method with an integer parameter that it divides by a variable, which is undefined on one way to
the division and zero on the other. -/
def loopDocument : Json.Value :=
  let int (name : String) : Json.Value := .obj [("name", .str name), ("type", .str "int")]
  let jump (target : String) : Json.Value := .obj [("op", .str "goto"), ("target", .str target)]
  let main : Json.Value := .obj [("name", .str "main"), ("static", .bool true),
    ("params", .arr [int "p"]), ("vars", .arr [int "y", int "d"]), ("body", .arr [
      .obj [("label", .str "divide"), ("op", .str "binary"), ("operator", .str "/"),
        ("lhs", .str "y"), ("x", .str "p"), ("y", .str "d")],
      .obj [("label", .str "again"), ("op", .str "goto"), ("target", .str "test")],
      .obj [("label", .str "zero"), ("op", .str "const"), ("lhs", .str "d"),
        ("value", .num (.int 0))],
      jump "again",
      .obj [("label", .str "test"), ("op", .str "if"), ("operator", .str "<"), ("x", .str "p"),
        ("y", .str "p"), ("target", .str "divide")],
      jump "zero",
      .obj [("op", .str "return")]])]
  .obj [("classes", .arr [.obj [("name", .str "Loop"), ("methods", .arr [main])]]),
    ("entry", .str "Loop.main")]

/-- **Constant propagation within a method can run forever.** After 51 steps it is where it was after
37. -/
theorem loopDocument_diverges : ∃ p m g, Document.ofJson loopDocument = .ok p ∧
    p.method? ⟨⟨0, "Loop"⟩, 0⟩ = some m ∧ m.cfg = some g ∧ ∀ fuel, intra fuel m g = none := by
  have hp : Document.ofJson loopDocument = .ok (.described loopDocument) :=
    ofJson_eq_described (by decide +kernel)
  have hrun : (((Program.described loopDocument).method? ⟨⟨0, "Loop"⟩, 0⟩).bind fun m =>
      m.cfg.map fun g =>
        (Dataflow.stateAfter g (intraProblem m) 37).any fun s =>
          (Dataflow.stateAfter g (intraProblem m) (37 + 14)).any fun t =>
            decide (SameStateListing s t)) = some true := by
    decide +kernel
  obtain ⟨m, hm, hrun⟩ := Option.bind_eq_some_iff.1 hrun
  obtain ⟨g, hg, hcycle⟩ := Option.map_eq_some_iff.1 hrun
  obtain ⟨s, hs, hcycle⟩ := (Option.any_eq_true _ _).1 hcycle
  obtain ⟨t, ht, hcycle⟩ := (Option.any_eq_true _ _).1 hcycle
  have hsame : SameFacts m s t := (of_decide_eq_true hcycle).sameFacts
  refine ⟨_, m, g, hp, hm, hg, fun fuel => ?_⟩
  have hnever := Step.run_eq_none_of_cycle SameFacts.refl SameFacts.trans SameFacts.step hs ht hsame
    fuel
  rw [intra, solve, hnever]
  rfl

end Constants

end HeapFlow
