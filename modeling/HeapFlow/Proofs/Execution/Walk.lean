import HeapFlow.Proofs.Constants.Intra
import HeapFlow.Proofs.Execution.Admits
import Mathlib.Logic.Relation
/-!
# HeapFlow.Proofs.Execution.Walk

**What a method does along its control-flow graph.** A method starts with any values of its receiver and
its parameters. Integers are computed with 32 bits, and a branch on integers is taken as it is
evaluated. What calls, loads and casts give is left open, and so are operations and branches on values
of other types. A method stops at a division by zero and where it would read a variable to which nothing
was assigned.

Whenever a node is reached, the facts of constant propagation within the method admit the integer
variables, if its copies and operations give integers to integer variables only.
-/

namespace HeapFlow

open Dataflow

/-! ### Walks -/

namespace Execution

/-- What an expression may evaluate to. -/
inductive Yields (locals : Var → Option Val) : Expr → Val → Prop
  | var {v : Var} {x : Val} (h : locals v = some x) : Yields locals (.var v) x
  | int (n : Int32) : Yields locals (.int n) (.plain (.int n))
  | null : Yields locals .null (.plain .null)
  | binary {op : BinOp} {v w : Var} {a b c : Int32} (hv : locals v = some (.plain (.int a)))
      (hw : locals w = some (.plain (.int b))) (hfold : op.fold a b = .const c) :
      Yields locals (.binary op v w) (.plain (.int c))
  | binaryOther {op : BinOp} {v w : Var}
      (hty : ¬ (v.ty.holdsInt = true ∧ w.ty.holdsInt = true)) (x : Val) :
      Yields locals (.binary op v w) x
  | cast (ty : Ty) (v : Var) (x : Val) : Yields locals (.cast ty v) x
  | load (place : Place) (x : Val) : Yields locals (.load place) x
  | new (what : Alloc) (x : Val) : Yields locals (.new what) x

/-- What a statement does to the variables. A call may give any value. -/
inductive Executes (f : Frame) : Stmt → Frame → Prop
  | assign {lhs : Var} {e : Expr} {x : Val} (hx : Yields f.locals e x) :
      Executes f (.assign lhs e) (f.receive (some lhs) (some x))
  | call (result : Option Var) (call : Call) (x : Val) :
      Executes f (.invoke result call) (f.receive result (some x))
  | keep {s : Stmt} (hs : s.defined? = none) : Executes f s f

/-- Statements that choose among their edges. -/
def Branches : Stmt → Prop
  | .ifGoto .. | .switch .. => True
  | _ => False

/-- The kinds of edges along which control may leave a statement. -/
inductive Leaves (locals : Var → Option Val) : Stmt → Cfg.EdgeKind → Prop
  | ifTrue {op : CmpOp} {v w : Var} {jump : Jump} {a b : Int32}
      (hv : locals v = some (.plain (.int a))) (hw : locals w = some (.plain (.int b)))
      (h : op.holds a b = true) : Leaves locals (.ifGoto op v w jump) .ifTrue
  | ifFalse {op : CmpOp} {v w : Var} {jump : Jump} {a b : Int32}
      (hv : locals v = some (.plain (.int a))) (hw : locals w = some (.plain (.int b)))
      (h : op.holds a b = false) : Leaves locals (.ifGoto op v w jump) .ifFalse
  | ifOther {op : CmpOp} {v w : Var} {jump : Jump}
      (hty : ¬ (v.ty.holdsInt = true ∧ w.ty.holdsInt = true)) (kind : Cfg.EdgeKind) :
      Leaves locals (.ifGoto op v w jump) kind
  | switchCase {v : Var} {cases : List (Int32 × Jump)} {default : Jump} {n : Int32}
      (hv : locals v = some (.plain (.int n))) (hn : n ∈ cases.map Prod.fst) :
      Leaves locals (.switch v cases default) (.switchCase n)
  | switchDefault {v : Var} {cases : List (Int32 × Jump)} {default : Jump} {n : Int32}
      (hv : locals v = some (.plain (.int n))) (hn : n ∉ cases.map Prod.fst) :
      Leaves locals (.switch v cases default) .switchDefault
  | switchOther {v : Var} {cases : List (Int32 × Jump)} {default : Jump}
      (hty : v.ty.holdsInt = false) (kind : Cfg.EdgeKind) :
      Leaves locals (.switch v cases default) kind
  | other {s : Stmt} (hs : ¬ Branches s) (kind : Cfg.EdgeKind) : Leaves locals s kind

/-- One step of a method along its graph. -/
inductive WalkStep (m : Method) (g : Cfg) (f : Frame) : Frame → Prop
  | enter {e : Cfg.Edge} (hnode : f.node = .entry) (he : e ∈ g.outEdges .entry) :
      WalkStep m g f (f.moveTo e.target)
  | stmt {i : Nat} {s : Stmt} {f' : Frame} {e : Cfg.Edge} (hnode : f.node = .stmt i)
      (hs : m.stmt? i = some s) (hread : ∀ v ∈ s.uses, (f.locals v).isSome = true)
      (hexec : Executes f s f') (he : e ∈ g.outEdges (.stmt i))
      (hleaves : Leaves f.locals s e.kind) : WalkStep m g f (f'.moveTo e.target)

/-- A method starts. -/
def walkStart (m : Method) (args : Var → Val) : Frame :=
  ⟨m.id, .entry, fun v => if m.receiver? = some v ∨ v ∈ m.params then some (args v) else none⟩

/-- The frames that a method reaches along its graph. -/
def Walks (m : Method) (g : Cfg) (args : Var → Val) : Frame → Prop :=
  Relation.ReflTransGen (WalkStep m g) (walkStart m args)

end Execution

open Execution

/-! ### Pairs of types -/

/-- The variables that a copy or a binary operation reads. -/
def Stmt.operands : Stmt → List Var
  | .assign _ (.var v) => [v]
  | .assign _ (.binary _ v w) => [v, w]
  | _ => []

/-- An integer variable is copied from an integer variable and computed from integer variables. -/
def Stmt.PairsInts (s : Stmt) : Prop :=
  ∀ lhs ∈ s.defined?.toList, lhs.ty.holdsInt = true → ∀ v ∈ s.operands, v.ty.holdsInt = true

instance (s : Stmt) : Decidable s.PairsInts :=
  inferInstanceAs (Decidable (∀ lhs ∈ s.defined?.toList, _ → ∀ v ∈ s.operands, _))

def Method.PairsInts (m : Method) : Prop := ∀ s ∈ m.stmts, s.PairsInts

instance (m : Method) : Decidable m.PairsInts :=
  inferInstanceAs (Decidable (∀ s ∈ m.stmts, s.PairsInts))

namespace Constants

variable {m : Method} {g : Cfg} {fact : Fact} {f f' : Frame} {s : Stmt}

/-! ### One step -/

/-- **What an expression yields is admitted by its abstract value,** if an integer variable takes it
and its operands are integer variables. -/
theorem yields_admitted {locals : Var → Option Val} (h : fact.Admits locals) {lhs : Var} {e : Expr}
    {x : Val} (hoperands : ∀ v ∈ (Stmt.assign lhs e).operands, v.ty.holdsInt = true)
    (hx : Yields locals e x) : (e.evaluate fact).Admits x := by
  cases hx with
  | @var v x hv => exact h v x hv (hoperands v (by simp [Stmt.operands]))
  | int n => rfl
  | @binary op v w a b c hv hw hfold =>
    have hvInt : v.ty.holdsInt = true := hoperands v (by simp [Stmt.operands])
    have hwInt : w.ty.holdsInt = true := hoperands w (by simp [Stmt.operands])
    exact BinOp.evaluate_admits (h v _ hv hvInt) (h w _ hw hwInt) hfold
  | @binaryOther op v w hty =>
    refine absurd ⟨hoperands v ?_, hoperands w ?_⟩ hty <;> simp [Stmt.operands]
  | null | cast | load | new => trivial

/-- A fact admits what a statement may assign to an integer variable, if it admits the variables. -/
def AdmitsAssigned (fact : Fact) (s : Stmt) : Prop :=
  ∀ lhs e, s = .assign lhs e → lhs.ty.holdsInt = true → ∀ (locals : Var → Option Val) (x : Val),
    fact.Admits locals → Yields locals e x → (e.evaluate fact).Admits x

theorem admitsAssigned_of_pairsInts (hpairs : s.PairsInts) : AdmitsAssigned fact s := by
  rintro lhs e rfl hint locals x h hx
  exact yields_admitted h (hpairs lhs (List.mem_singleton_self lhs) hint) hx

/-- **The transfer of a statement admits the variables after it.** -/
theorem executes_admitted (hm : m.Scoped) (hs : s ∈ m.stmts) (hassigned : AdmitsAssigned fact s)
    (hvars : ∀ v x, f.locals v = some x → v ∈ m.vars) (h : fact.Admits f.locals)
    (hexec : Executes f s f') : (s.transfer fact).Admits f'.locals := by
  have hdefined := hm.defined s hs
  have hkeep (j : Nat) (hne : ∀ v, s.defined? = some v → v.ty.holdsInt = true → v.index ≠ j) :
      fact.get j ≤ (s.transfer fact).get j := (Stmt.get_transfer_of_ne hne).ge
  cases hexec with
  | @assign lhs e x hx =>
    refine h.receive hm hvars hdefined hkeep fun v y hv hy hint => ?_
    cases hv
    cases hy
    have htransfer : (Stmt.assign lhs e).transfer fact = fact.update lhs.index (e.evaluate fact) :=
      if_pos hint
    rw [htransfer, Fact.get_update, if_pos rfl]
    exact hassigned lhs e rfl hint _ _ h hx
  | call result call x =>
    refine h.receive hm hvars hdefined hkeep fun v y hv hy hint => ?_
    cases hv
    have htransfer : (Stmt.invoke (some v) call).transfer fact = fact.update v.index .nac :=
      if_pos hint
    rw [htransfer, Fact.get_update, if_pos rfl]
    trivial
  | keep hnone =>
    intro v x hx hint
    refine (h v x hx hint).mono (hkeep v.index fun w hw => ?_)
    rw [hnone] at hw
    cases hw

/-- Only variables of the method are assigned. -/
theorem vars_of_executes (hm : m.Scoped) (hs : s ∈ m.stmts)
    (hvars : ∀ v x, f.locals v = some x → v ∈ m.vars) (hexec : Executes f s f') :
    ∀ v x, f'.locals v = some x → v ∈ m.vars := by
  have hreceive {result : Option Var} {y : Val} (hresult : ∀ v, result = some v → v ∈ m.vars) :
      ∀ v x, (f.receive result (some y)).locals v = some x → v ∈ m.vars := by
    intro v x hx
    obtain ⟨hv, -⟩ | ⟨-, hold⟩ := Frame.locals_receive hx
    · exact hresult v hv
    · exact hvars v x hold
  cases hexec with
  | assign hx => exact hreceive (hm.defined _ hs)
  | call result call x => exact hreceive (hm.defined _ hs)
  | keep => exact hvars

/-! ### Walks -/

/-- What holds whenever a node is reached: only variables of the method are assigned, and the fact
before the node admits them. -/
structure WalkAdmitted (m : Method) (facts : Node → Fact) (f : Frame) : Prop where
  vars : ∀ v x, f.locals v = some x → v ∈ m.vars
  admitted : (facts f.node).Admits f.locals

variable {facts : Node → Fact}

theorem walkAdmitted_start (hm : m.Scoped) (hentry : entryFact m ≤ facts .entry)
    (args : Var → Val) : WalkAdmitted m facts (walkStart m args) := by
  have hassigned (v : Var) (x : Val) (hx : (walkStart m args).locals v = some x) :
      m.receiver? = some v ∨ v ∈ m.params := by
    by_contra hnot
    have hnone : (walkStart m args).locals v = none := if_neg hnot
    rw [hnone] at hx
    cases hx
  refine ⟨fun v x hx => ?_, fun v x hx hint => ?_⟩
  · obtain hthis | hparam := hassigned v x hx
    · exact Method.mem_vars_of_receiver? hthis
    · exact hm.params.subset hparam
  · obtain hthis | hparam := hassigned v x hx
    · rw [hm.holdsInt_receiver hthis] at hint
      cases hint
    · have hnac := hentry v.index
      rw [get_entryFact hm hparam hint, Value.nac_le_iff] at hnac
      show ((facts .entry).get v.index).Admits x
      rw [hnac]
      trivial

/-- **A step along an edge keeps the variables admitted.** -/
theorem WalkAdmitted.step (hm : m.Scoped)
    (hassigned : ∀ i s, m.stmt? i = some s → AdmitsAssigned (facts (.stmt i)) s)
    (hadmits : AdmitsFlow m g facts) (h : WalkAdmitted m facts f) (hstep : WalkStep m g f f') :
    WalkAdmitted m facts f' := by
  have hedge {e : Cfg.Edge} {n : Node} (he : e ∈ g.outEdges n) :
      nodeTransfer m n (facts n) ≤ facts e.target := by
    obtain ⟨hmem, rfl⟩ := Cfg.mem_outEdges.1 he
    exact hadmits.edge e hmem
  cases hstep with
  | @enter e hnode he =>
    have hadmitted := h.admitted
    rw [hnode] at hadmitted
    exact ⟨h.vars, hadmitted.mono (hedge he)⟩
  | @stmt i s f'' e hnode hs hread hexec he hleaves =>
    have hmem : s ∈ m.stmts := List.mem_of_getElem? ((m.stmt?_eq i).symm.trans hs)
    have hadmitted := h.admitted
    rw [hnode] at hadmitted
    have hafter := executes_admitted hm hmem (hassigned i s hs) h.vars hadmitted hexec
    have hvars := vars_of_executes hm hmem h.vars hexec
    rw [← nodeTransfer_stmt hs] at hafter
    exact ⟨hvars, hafter.mono (hedge he)⟩

/-- Every walk is admitted, if the facts admit what the statements assign. -/
theorem walks_admitted_of_assigned (hm : m.Scoped)
    (hassigned : ∀ i s, m.stmt? i = some s → AdmitsAssigned (facts (.stmt i)) s)
    (hadmits : AdmitsFlow m g facts) {args : Var → Val} (hf : Walks m g args f) :
    WalkAdmitted m facts f := by
  induction hf with
  | refl => exact walkAdmitted_start hm hadmits.entry args
  | tail _ hstep ih => exact ih.step hm hassigned hadmits hstep

/-- Every walk is admitted, if integer variables are paired with integer variables. -/
theorem walks_admitted (hm : m.Scoped) (hpairs : m.PairsInts) (hadmits : AdmitsFlow m g facts)
    {args : Var → Val} (hf : Walks m g args f) : WalkAdmitted m facts f := by
  refine walks_admitted_of_assigned hm (fun i s hs => admitsAssigned_of_pairsInts ?_) hadmits hf
  exact hpairs s (List.mem_of_getElem? ((m.stmt?_eq i).symm.trans hs))

/-- **Constant propagation within a method is sound.** Whenever a node is reached, the fact before it
says of every integer variable that is assigned that it is not a constant, or is the constant that it
holds. -/
theorem intra_sound {p : Program} (hp : p.Loaded) {id : MethodId} (hm : p.method? id = some m)
    (hg : m.cfg = some g) (hpairs : m.PairsInts) {fuel : Nat} {r : Solution Fact}
    (hr : intra fuel m g = some r) (args : Var → Val) (hf : Walks m g args f) :
    ∀ v x, f.locals v = some x → v.ty.holdsInt = true → (r.before f.node).get v.index = .nac ∨
      ∃ n, x = .plain (.int n) ∧ (r.before f.node).get v.index = .const n := by
  intro v x hx hint
  have hadmits : AdmitsFlow m g r.before := admitsFlow_of_intra (hp.closed hm hg) hr
  have hwalk : WalkAdmitted m r.before f := walks_admitted (hp.complete hm).vars hpairs hadmits hf
  have hadmitted : ((r.before f.node).get v.index).Admits x := hwalk.admitted v x hx hint
  cases hvalue : (r.before f.node).get v.index with
  | undefined =>
    rw [hvalue] at hadmitted
    exact hadmitted.elim
  | const n =>
    rw [hvalue] at hadmitted
    exact .inr ⟨n, hadmitted, rfl⟩
  | nac => exact .inl rfl

/-- A way through a method that assigns the number one and leaves a switch by its default. -/
structure SkipsCases (m : Method) (g : Cfg) : Prop where
  param : (⟨0, "p", .int⟩ : Var) ∈ m.params
  const : m.stmt? 0 = some (.assign ⟨1, "x", .int⟩ (.int 1))
  switch : m.stmt? 1 = some (.switch ⟨0, "p", .int⟩
    [(1, ⟨"again", some 2⟩), (2, ⟨"again", some 2⟩)] ⟨"done", some 5⟩)
  enter : ⟨.entry, .entry, .stmt 0⟩ ∈ g.outEdges .entry
  next : ⟨.fallThrough, .stmt 0, .stmt 1⟩ ∈ g.outEdges (.stmt 0)
  default : ⟨.switchDefault, .stmt 1, .stmt 5⟩ ∈ g.outEdges (.stmt 1)

theorem SkipsCases.exists_walk (h : SkipsCases m g) : ∃ f,
    Walks m g (fun _ => .plain (.int 0)) f ∧ f.node = .stmt 5 ∧
      f.locals ⟨1, "x", .int⟩ = some (.plain (.int 1)) := by
  let start := walkStart m fun _ => .plain (.int 0)
  let assigned := (start.moveTo (.stmt 0)).receive (some ⟨1, "x", .int⟩) (some (.plain (.int 1)))
  have hp : assigned.locals ⟨0, "p", .int⟩ = some (.plain (.int 0)) := if_pos (.inr h.param)
  have hentered : WalkStep m g start (start.moveTo (.stmt 0)) := .enter rfl h.enter
  have hassigned : WalkStep m g (start.moveTo (.stmt 0)) (assigned.moveTo (.stmt 1)) :=
    .stmt rfl h.const (fun _ hv => nomatch hv) (.assign (.int 1)) h.next (.other id _)
  have hswitched : WalkStep m g (assigned.moveTo (.stmt 1)) (assigned.moveTo (.stmt 5)) := by
    refine .stmt rfl h.switch (fun v hv => ?_) (.keep rfl) h.default (.switchDefault hp (by decide))
    obtain rfl := List.mem_singleton.1 hv
    exact Option.isSome_iff_exists.2 ⟨_, hp⟩
  exact ⟨_, .tail (.tail (.tail .refl hentered) hassigned) hswitched, rfl, rfl⟩

/-- In a run that skips the cases, the variable holds the number that the facts say it does. -/
theorem branchesDocument_sound : ∃ m g r f,
    (Program.described branchesDocument).method? ⟨⟨0, "Branches"⟩, 0⟩ = some m ∧
      m.cfg = some g ∧ intra 100 m g = some r ∧ Walks m g (fun _ => .plain (.int 0)) f ∧
      f.node = .stmt 5 ∧ f.locals ⟨1, "x", .int⟩ = some (.plain (.int 1)) ∧
      (r.before f.node).get 1 = .const 1 := by
  have hrun : ((Program.described branchesDocument).method? ⟨⟨0, "Branches"⟩, 0⟩).any (fun m =>
      m.cfg.any fun g => (intra 100 m g).any fun r => decide (
        m.PairsInts ∧ (r.before (.stmt 5)).get 1 ≠ .nac ∧
        (⟨0, "p", .int⟩ : Var) ∈ m.params ∧
        m.stmt? 0 = some (.assign ⟨1, "x", .int⟩ (.int 1)) ∧
        m.stmt? 1 = some (.switch ⟨0, "p", .int⟩
          [(1, ⟨"again", some 2⟩), (2, ⟨"again", some 2⟩)] ⟨"done", some 5⟩) ∧
        ⟨.entry, .entry, .stmt 0⟩ ∈ g.outEdges .entry ∧
        ⟨.fallThrough, .stmt 0, .stmt 1⟩ ∈ g.outEdges (.stmt 0) ∧
        ⟨.switchDefault, .stmt 1, .stmt 5⟩ ∈ g.outEdges (.stmt 1))) = true := by
    decide +kernel
  obtain ⟨m, hm, hrun⟩ := (Option.any_eq_true _ _).1 hrun
  obtain ⟨g, hg, hrun⟩ := (Option.any_eq_true _ _).1 hrun
  obtain ⟨r, hr, hrun⟩ := (Option.any_eq_true _ _).1 hrun
  obtain ⟨hpairs, hknown, hparam, hconst, hswitch, henter, hnext, hdefault⟩ :=
    of_decide_eq_true hrun
  have hloaded : (Program.described branchesDocument).Loaded := loaded_described (by decide +kernel)
  have hskips : SkipsCases m g := ⟨hparam, hconst, hswitch, henter, hnext, hdefault⟩
  obtain ⟨f, hwalk, hnode, hx⟩ := hskips.exists_walk
  refine ⟨m, g, r, f, hm, hg, hr, hwalk, hnode, hx, ?_⟩
  obtain hnac | ⟨n, hn, hvalue⟩ := intra_sound hloaded hm hg hpairs hr _ hwalk _ _ hx rfl
  · rw [hnode] at hnac
    exact absurd hnac hknown
  · cases hn
    exact hvalue

end Constants

end HeapFlow
