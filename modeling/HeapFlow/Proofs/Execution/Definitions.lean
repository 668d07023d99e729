import HeapFlow.DeadCode
import HeapFlow.Proofs.Execution.Walk
import HeapFlow.Proofs.Ir.Regular
/-!
# HeapFlow.Proofs.Execution.Definitions

**What definitions leave known, whatever the types of their operands.** Facts speak of integer variables
alone. A variable of another type is undefined in them, as one is to which nothing was assigned, and so
is a copy of it, or what is computed from it, unless another operand is not a constant. The transfer of
a copy or an operation describes the new value exactly if all operands are integer variables or one of
them is not a constant (`definition_described_iff`).

A comparison of references does not meet this: its result is taken to be unassigned, the fact of another
path takes its place where the paths meet, and a statement that is executed is reported as dead
(`comparedDocument_undescribed`).
-/

namespace HeapFlow

open Dataflow Execution

/-! ### Facts that describe variables -/

namespace Fact

variable {fact : Fact} {m : Method} {v : Var}

/-- A fact binds integer variables of a method only. -/
def BindsInts (fact : Fact) (m : Method) : Prop :=
  ∀ i, fact.get i ≠ .undefined → ∃ v ∈ m.vars, v.index = i ∧ v.ty.holdsInt = true

/-- A fact describes the variables of a method: it says of each integer variable that is assigned that
it is not a constant or which constant it is, and binds nothing else. -/
structure Describes (fact : Fact) (m : Method) (locals : Var → Option Val) : Prop where
  admits : fact.Admits locals
  bound : ∀ i, fact.get i ≠ .undefined →
    ∃ v ∈ m.vars, v.index = i ∧ v.ty.holdsInt = true ∧ (locals v).isSome = true

theorem Describes.bindsInts {locals : Var → Option Val} (h : fact.Describes m locals) :
    fact.BindsInts m := by
  intro i hi
  obtain ⟨v, hv, hindex, hint, -⟩ := h.bound i hi
  exact ⟨v, hv, hindex, hint⟩

/-- Variables of other types are undefined. -/
theorem BindsInts.get_eq (h : fact.BindsInts m) (hm : m.Scoped) (hv : v ∈ m.vars)
    (hnot : ¬ v.ty.holdsInt = true) : fact.get v.index = .undefined := by
  by_contra hbound
  obtain ⟨w, hw, hindex, hint⟩ := h v.index hbound
  exact hnot (hm.eq_of_index hw hv hindex ▸ hint)

theorem get_unknown (vars : List Var) (i : Nat) :
    (unknown vars).get i = if ∃ v ∈ vars, v.index = i then .nac else .undefined := by
  suffices hfrom : ∀ f : Fact, (vars.foldl (fun f v => f.update v.index .nac) f).get i =
      if ∃ v ∈ vars, v.index = i then .nac else f.get i from hfrom ∅
  induction vars with
  | nil => simp
  | cons v vars ih =>
    intro f
    rw [List.foldl_cons, ih, get_update]
    by_cases hv : v.index = i <;> simp [hv]

end Fact

/-- The operands of a copy or an operation are integer variables, or one of them is not a constant. -/
def Stmt.OperandsKnown (s : Stmt) (fact : Fact) : Prop :=
  (∀ v ∈ s.operands, v.ty.holdsInt = true) ∨ ∃ v ∈ s.operands, fact.get v.index = .nac

instance (s : Stmt) (fact : Fact) : Decidable (s.OperandsKnown fact) :=
  inferInstanceAs (Decidable (_ ∨ _))

/-- If an operand is undefined, it is the other one that decides. -/
theorem BinOp.evaluate_of_undefined {op : BinOp} {x y : Value}
    (h : x = .undefined ∨ y = .undefined) :
    op.evaluate x y = if x = .nac ∨ y = .nac then .nac else .undefined := by
  obtain rfl | rfl := h
  · unfold BinOp.evaluate
    cases y <;> simp
  · rw [evaluate_of_not_zero (by simp)]
    cases x <;> simp

namespace Constants

variable {m : Method} {fact : Fact} {lhs : Var} {e : Expr} {locals : Var → Option Val} {x : Val}

/-- The operands of loaded statements are variables of the method. -/
theorem mem_vars_of_mem_operands {p : Program} (hp : p.Loaded) {id : MethodId}
    (hm : p.method? id = some m) {s : Stmt} (hs : s ∈ m.stmts) {v : Var} (hv : v ∈ s.operands) :
    v ∈ m.vars := by
  obtain ⟨i, hi⟩ := List.mem_iff_getElem?.1 hs
  refine hp.mem_vars_of_mentions hm hi (List.mem_append_right _ ?_)
  cases s with
  | assign lhs e =>
    cases e with
    | var | binary => exact hv
    | _ => cases hv
  | _ => cases hv

/-! ### One definition -/

/-- An operation on a variable that is no integer variable is undefined, unless the other operand is
not a constant. -/
theorem evaluate_binary_of_not_ints (hm : m.Scoped) (hbinds : fact.BindsInts m) {op : BinOp}
    {v w : Var} (hv : v ∈ m.vars) (hw : w ∈ m.vars)
    (hnot : ¬ (v.ty.holdsInt = true ∧ w.ty.holdsInt = true)) :
    (Expr.binary op v w).evaluate fact =
      if fact.get v.index = .nac ∨ fact.get w.index = .nac then .nac else .undefined := by
  refine BinOp.evaluate_of_undefined ?_
  by_cases hint : v.ty.holdsInt = true
  · exact .inr (hbinds.get_eq hm hw fun hwInt => hnot ⟨hint, hwInt⟩)
  · exact .inl (hbinds.get_eq hm hv hint)

/-- **A right-hand side without known operands is undefined.** -/
theorem evaluate_eq_undefined (hm : m.Scoped) (hbinds : fact.BindsInts m)
    (hown : ∀ v ∈ (Stmt.assign lhs e).operands, v ∈ m.vars)
    (hnot : ¬ (Stmt.assign lhs e).OperandsKnown fact) : e.evaluate fact = .undefined := by
  obtain ⟨hother, hconst⟩ := not_or.1 hnot
  cases e with
  | var v =>
    have hv : ¬ v.ty.holdsInt = true := by simpa [Stmt.operands] using hother
    exact hbinds.get_eq hm (hown v (List.mem_singleton_self v)) hv
  | binary op v w =>
    have hvw : ¬ (v.ty.holdsInt = true ∧ w.ty.holdsInt = true) := by
      simpa [Stmt.operands] using hother
    have hnac : ¬ (fact.get v.index = .nac ∨ fact.get w.index = .nac) := by
      simpa [Stmt.operands] using hconst
    rw [evaluate_binary_of_not_ints hm hbinds (hown v (by simp [Stmt.operands]))
      (hown w (by simp [Stmt.operands])) hvw, if_neg hnac]
  | int n | null | cast ty v | load place | new what =>
    exact absurd (by simp [Stmt.operands]) hother

/-- **What an expression yields is admitted if its operands are known.** -/
theorem yields_admitted_of_operandsKnown (hm : m.Scoped) (hbinds : fact.BindsInts m)
    (hown : ∀ v ∈ (Stmt.assign lhs e).operands, v ∈ m.vars) (h : fact.Admits locals)
    (hknown : (Stmt.assign lhs e).OperandsKnown fact) (hx : Yields locals e x) :
    (e.evaluate fact).Admits x := by
  by_cases hints : ∀ v ∈ (Stmt.assign lhs e).operands, v.ty.holdsInt = true
  · exact yields_admitted h hints hx
  obtain ⟨u, hu, hnac⟩ := hknown.resolve_left hints
  suffices hvalue : e.evaluate fact = .nac by
    rw [hvalue]
    trivial
  cases e with
  | var v =>
    obtain rfl : u = v := by simpa [Stmt.operands] using hu
    exact hnac
  | binary op v w =>
    have hvw : ¬ (v.ty.holdsInt = true ∧ w.ty.holdsInt = true) := by
      simpa [Stmt.operands] using hints
    have hor : fact.get v.index = .nac ∨ fact.get w.index = .nac := by
      obtain rfl | rfl : u = v ∨ u = w := by simpa [Stmt.operands] using hu
      · exact .inl hnac
      · exact .inr hnac
    rw [evaluate_binary_of_not_ints hm hbinds (hown v (by simp [Stmt.operands]))
      (hown w (by simp [Stmt.operands])) hvw, if_pos hor]
  | int n | null | cast ty v | load place | new what => cases hu

/-- **What the transfer of a definition leaves known.** Under a fact that describes the variables, it
binds the variable that is defined to its new value or to "not a constant", if all operands are integer
variables or one of them is not a constant, and leaves it undefined otherwise. -/
theorem definition_described_iff {p : Program} (hp : p.Loaded) {id : MethodId}
    (hm : p.method? id = some m) (hs : .assign lhs e ∈ m.stmts) (hint : lhs.ty.holdsInt = true)
    (h : fact.Describes m locals) (hx : Yields locals e x) :
    let s := Stmt.assign lhs e
    let value := (s.transfer fact).get lhs.index
    (value = .nac ∨ (∃ n, x = .plain (.int n) ∧ value = .const n) ↔ s.OperandsKnown fact) ∧
      (value = .undefined ↔ ¬ s.OperandsKnown fact) := by
  intro s value
  have hvalue : value = e.evaluate fact := by
    have htransfer : s.transfer fact = fact.update lhs.index (e.evaluate fact) := if_pos hint
    simp only [value, htransfer, Fact.get_update, if_true]
  have hscoped : m.Scoped := (hp.complete hm).vars
  have hown : ∀ v ∈ s.operands, v ∈ m.vars := fun _ => mem_vars_of_mem_operands hp hm hs
  rw [← Value.admits_iff, hvalue]
  by_cases hknown : s.OperandsKnown fact
  · have hadmits : (e.evaluate fact).Admits x :=
      yields_admitted_of_operandsKnown hscoped h.bindsInts hown h.admits hknown hx
    refine ⟨iff_of_true hadmits hknown, iff_of_false (fun hundefined => ?_) (not_not.2 hknown)⟩
    rw [hundefined] at hadmits
    exact hadmits
  · have hundefined : e.evaluate fact = .undefined :=
      evaluate_eq_undefined hscoped h.bindsInts hown hknown
    refine ⟨iff_of_false (fun hadmits => ?_) hknown, iff_of_true hundefined hknown⟩
    rw [hundefined] at hadmits
    exact hadmits

/-! ### An example -/

/-- A method that compares two references unless it is late, which it finds out by comparing a number
with one that is no integer variable. -/
def comparedDocument : Json.Value :=
  let var (name type : String) : Json.Value := .obj [("name", .str name), ("type", .str type)]
  let const (lhs : String) (n : Int) : Json.Value :=
    .obj [("op", .str "const"), ("lhs", .str lhs), ("value", .num (.int n))]
  let compare (lhs operator x y : String) : Json.Value := .obj [("op", .str "binary"),
    ("operator", .str operator), ("lhs", .str lhs), ("x", .str x), ("y", .str y)]
  let main : Json.Value := .obj [("name", .str "main"), ("static", .bool true),
    ("params", .arr [var "first" "Compared", var "second" "Compared", var "deadline" "long",
      var "now" "int"]),
    ("vars", .arr [var "same" "boolean", var "late" "boolean", var "one" "int"]), ("body", .arr [
      const "one" 1,
      const "same" 1,
      compare "late" ">" "now" "deadline",
      .obj [("op", .str "if"), ("operator", .str "=="), ("x", .str "late"), ("y", .str "one"),
        ("target", .str "test")],
      compare "same" "==" "first" "second",
      .obj [("label", .str "test"), ("op", .str "if"), ("operator", .str "=="), ("x", .str "same"),
        ("y", .str "one"), ("target", .str "done")],
      .obj [("op", .str "return")],
      .obj [("label", .str "done"), ("op", .str "return")]])]
  .obj [("classes", .arr [.obj [("name", .str "Compared"), ("methods", .arr [main])]]),
    ("entry", .str "Compared.main")]

namespace Compared

def first : Var := ⟨0, "first", .cls ⟨0, "Compared"⟩⟩
def second : Var := ⟨1, "second", .cls ⟨0, "Compared"⟩⟩
def deadline : Var := ⟨2, "deadline", .prim .long⟩
def now : Var := ⟨3, "now", .int⟩
def same : Var := ⟨4, "same", .boolean⟩
def late : Var := ⟨5, "late", .boolean⟩
def one : Var := ⟨6, "one", .int⟩

def body : List Stmt :=
  [.assign one (.int 1), .assign same (.int 1), .assign late (.binary (.cmp .gt) now deadline),
    .ifGoto .eq late one ⟨"test", some 5⟩, .assign same (.binary (.cmp .eq) first second),
    .ifGoto .eq same one ⟨"done", some 7⟩, .ret none, .ret none]

/-- The fact before the references are compared. -/
def known : Fact :=
  ((Fact.unknown [now, late]).update same.index (.const 1)).update one.index (.const 1)

/-- Two different objects, and numbers that are equal. -/
def args (v : Var) : Val :=
  if v = first then .ref 0 else if v = second then .ref 1 else .plain (.int 0)

/-- What the variables hold before the references are compared. -/
def held (v : Var) : Option Val :=
  if v = late then some (.plain (.int 0))
  else if v = same then some (.plain (.int 1))
  else if v = one then some (.plain (.int 1))
  else if v ∈ [first, second, deadline, now] then some (args v)
  else none

/-- The method of the document, and what is known in it before the references are compared. -/
structure Found (m : Method) (g : Cfg) (r : Solution Fact) : Prop where
  receiver : m.receiver? = none
  params : m.params = [first, second, deadline, now]
  vars : m.vars = [first, second, deadline, now, same, late, one]
  stmts : m.stmts = body
  graph : g = .ofBody body
  before : r.before (.stmt 4) = known

variable {g : Cfg} {r : Solution Fact}

/-- The fact describes the variables before the references are compared. -/
theorem Found.describes (h : Found m g r) : (r.before (.stmt 4)).Describes m held := by
  rw [h.before]
  refine ⟨fun v x hx hint => ?_, fun i hi => ?_⟩
  · have hv : v ∈ [first, second, deadline, now, same, late, one] := by
      by_contra hnot
      simp only [List.mem_cons, List.not_mem_nil, or_false, not_or] at hnot
      simp [held, hnot] at hx
    simp only [List.mem_cons, List.not_mem_nil, or_false] at hv
    obtain rfl | rfl | rfl | rfl | rfl | rfl | rfl := hv
    · cases hint
    · cases hint
    · cases hint
    all_goals
      cases hx
      decide
  · have hbound : i = now.index ∨ i = late.index ∨ i = same.index ∨ i = one.index := by
      by_contra hnot
      obtain ⟨hnow, hlate, hsame, hone⟩ : now.index ≠ i ∧ late.index ≠ i ∧ same.index ≠ i ∧
          one.index ≠ i := by omega
      exact hi (by simp [known, Fact.get_unknown, hnow, hlate, hsame, hone])
    obtain rfl | rfl | rfl | rfl := hbound
    · exact ⟨now, by simp [h.vars], rfl, rfl, rfl⟩
    · exact ⟨late, by simp [h.vars], rfl, rfl, rfl⟩
    · exact ⟨same, by simp [h.vars], rfl, rfl, rfl⟩
    · exact ⟨one, by simp [h.vars], rfl, rfl, rfl⟩

/-- A run comes to the comparison in time, finds that the references differ, and returns. -/
theorem Found.exists_walks (h : Found m g r) : ∃ f f', Walks m g args f ∧ f.node = .stmt 4 ∧
    f.locals = held ∧ Walks m g args f' ∧ f'.node = .stmt 6 := by
  have hstmt (i : Nat) : m.stmt? i = body[i]? := (m.stmt?_eq i).trans (congrArg (·[i]?) h.stmts)
  have hedge (e : Cfg.Edge) (he : e ∈ (Cfg.ofBody body).outEdges e.source) :
      e ∈ g.outEdges e.source := h.graph ▸ he
  have hparam (v : Var) (hv : v ∈ m.params) : ((walkStart m args).locals v).isSome = true := by
    simp [walkStart, hv]
  let f₀ := (walkStart m args).moveTo (.stmt 0)
  let f₁ := (f₀.receive (some one) (some (.plain (.int 1)))).moveTo (.stmt 1)
  let f₂ := (f₁.receive (some same) (some (.plain (.int 1)))).moveTo (.stmt 2)
  let f₃ := (f₂.receive (some late) (some (.plain (.int 0)))).moveTo (.stmt 3)
  let f₄ := f₃.moveTo (.stmt 4)
  let f₅ := (f₄.receive (some same) (some (.plain (.int 0)))).moveTo (.stmt 5)
  have hheld : f₄.locals = held := by
    funext v
    show (if v = late then _ else if v = same then _ else if v = one then _ else
      if m.receiver? = some v ∨ v ∈ m.params then _ else _) = _
    simp [held, h.receiver, h.params]
  have h₀ : WalkStep m g (walkStart m args) f₀ :=
    .enter rfl (hedge ⟨.entry, .entry, .stmt 0⟩ (by decide))
  have h₁ : WalkStep m g f₀ f₁ :=
    .stmt rfl (hstmt 0) (fun _ hv => nomatch hv) (.assign (.int 1))
      (hedge ⟨.fallThrough, .stmt 0, .stmt 1⟩ (by decide)) (.other id _)
  have h₂ : WalkStep m g f₁ f₂ :=
    .stmt rfl (hstmt 1) (fun _ hv => nomatch hv) (.assign (.int 1))
      (hedge ⟨.fallThrough, .stmt 1, .stmt 2⟩ (by decide)) (.other id _)
  have h₃ : WalkStep m g f₂ f₃ := by
    refine .stmt rfl (hstmt 2) (fun v hv => ?_) (.assign (.binaryOther (by decide) _))
      (hedge ⟨.fallThrough, .stmt 2, .stmt 3⟩ (by decide)) (.other id _)
    obtain rfl | rfl : v = now ∨ v = deadline := by simpa [Stmt.uses, Expr.uses] using hv
    · exact hparam now (by simp [h.params])
    · exact hparam deadline (by simp [h.params])
  have h₄ : WalkStep m g f₃ f₄ := by
    refine .stmt rfl (hstmt 3) (fun v hv => ?_) (.keep rfl)
      (hedge ⟨.ifFalse, .stmt 3, .stmt 4⟩ (by decide))
      (.ifFalse (a := 0) (b := 1) rfl rfl (by decide))
    obtain rfl | rfl : v = late ∨ v = one := by simpa [Stmt.uses, Expr.uses] using hv
    · rfl
    · rfl
  have h₅ : WalkStep m g f₄ f₅ := by
    refine .stmt rfl (hstmt 4) (fun v hv => ?_) (.assign (.binaryOther (by decide) _))
      (hedge ⟨.fallThrough, .stmt 4, .stmt 5⟩ (by decide)) (.other id _)
    obtain rfl | rfl : v = first ∨ v = second := by simpa [Stmt.uses, Expr.uses] using hv
    · exact hparam first (by simp [h.params])
    · exact hparam second (by simp [h.params])
  have h₆ : WalkStep m g f₅ (f₅.moveTo (.stmt 6)) := by
    refine .stmt rfl (hstmt 5) (fun v hv => ?_) (.keep rfl)
      (hedge ⟨.ifFalse, .stmt 5, .stmt 6⟩ (by decide))
      (.ifFalse (a := 0) (b := 1) rfl rfl (by decide))
    obtain rfl | rfl : v = same ∨ v = one := by simpa [Stmt.uses, Expr.uses] using hv
    · rfl
    · rfl
  have hwalk : Walks m g args f₄ := .tail (.tail (.tail (.tail (.tail .refl h₀) h₁) h₂) h₃) h₄
  exact ⟨f₄, _, hwalk, rfl, hheld, .tail (.tail hwalk h₅) h₆, rfl⟩

end Compared

open Compared in
/-- The document is analysed so, and the return is reported as dead. -/
theorem exists_found : ∃ m g r live,
    (Program.described comparedDocument).method? ⟨⟨0, "Compared"⟩, 0⟩ = some m ∧ m.cfg = some g ∧
      intra 100 m g = some r ∧ Liveness.solve 100 m g = some live ∧ Found m g r ∧
      6 ∈ DeadCode.detect m g r.before live.after := by
  have hrun : ((Program.described comparedDocument).method? ⟨⟨0, "Compared"⟩, 0⟩).any (fun m =>
      m.cfg.any fun g => (intra 100 m g).any fun r => (Liveness.solve 100 m g).any fun live => decide (
        m.receiver? = none ∧ m.params = [first, second, deadline, now] ∧
        m.vars = [first, second, deadline, now, same, late, one] ∧ m.stmts = body ∧
        r.before (.stmt 4) = known ∧
        6 ∈ DeadCode.detect m g r.before live.after)) = true := by
    decide +kernel
  obtain ⟨m, hm, hrun⟩ := (Option.any_eq_true _ _).1 hrun
  obtain ⟨g, hg, hrun⟩ := (Option.any_eq_true _ _).1 hrun
  obtain ⟨r, hr, hrun⟩ := (Option.any_eq_true _ _).1 hrun
  obtain ⟨live, hlive, hrun⟩ := (Option.any_eq_true _ _).1 hrun
  obtain ⟨hreceiver, hparams, hvars, hstmts, hbefore, hdead⟩ := of_decide_eq_true hrun
  have hloaded : (Program.described comparedDocument).Loaded := loaded_described (by decide +kernel)
  have hgraph : g = .ofBody body := hstmts ▸ (hloaded.wellFormed _ m hm).2 g hg
  exact ⟨m, g, r, live, hm, hg, hr, hlive,
    ⟨hreceiver, hparams, hvars, hstmts, hgraph, hbefore⟩, hdead⟩

open Compared in
/-- **A comparison of references is taken to be unassigned.** The fact before it describes all
variables, the references differ, and the transfer leaves the result undefined. The run goes on to a
return that is reported as dead. -/
theorem comparedDocument_undescribed : ∃ m g r live f f',
    (Program.described comparedDocument).method? ⟨⟨0, "Compared"⟩, 0⟩ = some m ∧ m.cfg = some g ∧
      intra 100 m g = some r ∧ Liveness.solve 100 m g = some live ∧
      Walks m g args f ∧ f.node = .stmt 4 ∧ (r.before f.node).Describes m f.locals ∧
      m.stmt? 4 = some (.assign same (.binary (.cmp .eq) first second)) ∧
      same.ty.holdsInt = true ∧ f.locals first = some (.ref 0) ∧ f.locals second = some (.ref 1) ∧
      Yields f.locals (.binary (.cmp .eq) first second) (.plain (.int 0)) ∧
      ((Stmt.assign same (.binary (.cmp .eq) first second)).transfer (r.before f.node)).get
        same.index = .undefined ∧
      Walks m g args f' ∧ f'.node = .stmt 6 ∧ 6 ∈ DeadCode.detect m g r.before live.after := by
  obtain ⟨m, g, r, live, hm, hg, hr, hlive, h, hdead⟩ := exists_found
  obtain ⟨f, f', hf, hnode, hlocals, hf', hnode'⟩ := h.exists_walks
  have hstmt : m.stmt? 4 = some (.assign same (.binary (.cmp .eq) first second)) :=
    (m.stmt?_eq 4).trans (congrArg (·[4]?) h.stmts)
  refine ⟨m, g, r, live, f, f', hm, hg, hr, hlive, hf, hnode, ?_, hstmt, rfl, ?_, ?_,
    .binaryOther (by decide) _, ?_, hf', hnode', hdead⟩
  · rw [hnode, hlocals]
    exact h.describes
  · rw [hlocals]
    rfl
  · rw [hlocals]
    rfl
  · rw [hnode, h.before]
    decide

open Compared in
/-- What is found out with a number that is not a constant is described, although the other number is no
integer variable; the comparison of references is not. -/
theorem definition_described_comparedDocument : ∃ m fact,
    (Program.described comparedDocument).method? ⟨⟨0, "Compared"⟩, 0⟩ = some m ∧
      fact.Describes m held ∧
      .assign late (.binary (.cmp .gt) now deadline) ∈ m.stmts ∧
      Yields held (.binary (.cmp .gt) now deadline) (.plain (.int 0)) ∧
      ((Stmt.assign late (.binary (.cmp .gt) now deadline)).transfer fact).get late.index = .nac ∧
      .assign same (.binary (.cmp .eq) first second) ∈ m.stmts ∧
      Yields held (.binary (.cmp .eq) first second) (.plain (.int 0)) ∧
      ((Stmt.assign same (.binary (.cmp .eq) first second)).transfer fact).get same.index =
        .undefined := by
  obtain ⟨m, g, r, -, hm, -, -, -, h, -⟩ := exists_found
  have hloaded : (Program.described comparedDocument).Loaded := loaded_described (by decide +kernel)
  have hlate : .assign late (.binary (.cmp .gt) now deadline) ∈ m.stmts := by
    simp [h.stmts, body]
  have hsame : .assign same (.binary (.cmp .eq) first second) ∈ m.stmts := by
    simp [h.stmts, body]
  have hyieldsLate : Yields held (.binary (.cmp .gt) now deadline) (.plain (.int 0)) :=
    .binaryOther (by decide) _
  have hyieldsSame : Yields held (.binary (.cmp .eq) first second) (.plain (.int 0)) :=
    .binaryOther (by decide) _
  have hdescribes : known.Describes m held := h.before ▸ h.describes
  obtain ⟨hdescribed, -⟩ := definition_described_iff hloaded hm hlate rfl hdescribes hyieldsLate
  obtain ⟨-, hundefined⟩ := definition_described_iff hloaded hm hsame rfl hdescribes hyieldsSame
  refine ⟨m, known, hm, hdescribes, hlate, hyieldsLate, ?_, hsame, hyieldsSame, ?_⟩
  · refine (hdescribed.2 (by decide)).resolve_right ?_
    rintro ⟨n, hn, hvalue⟩
    cases hn
    revert hvalue
    decide
  · exact hundefined.2 (by decide)

end Constants

end HeapFlow
