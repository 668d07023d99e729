import HeapFlow.Data.Run
import HeapFlow.Ir.Method
import HeapFlow.Proofs.Constants.Arithmetic
import Mathlib.Data.Option.Defs
/-!
# HeapFlow.Proofs.Execution.Runs

**How one method runs in its surroundings.** Integers of 32 bits are computed and compared as the
analyses do it. Everything else is left to the surroundings: what other values there are, how they are
compared and computed with, and what allocations, casts, calls, divisions of other values and accesses
of the heap give and do to the world. Such a statement may stop the run, as a division of integers by
zero does; copies, constants and operations that do not divide always have a value and leave the world
alone. A variable to which nothing was assigned has some value, too.

Control passes along the edges that the body has in its control-flow graph; of parallel edges for the
same value the first one is taken. What a statement does depends on the variables that it uses alone
(`act_congr`).
-/

namespace HeapFlow

namespace Runs

/-- A value: an integer of 32 bits or something else. -/
inductive Word (V : Type)
  | int (n : Int32)
  | other (x : V)
deriving DecidableEq, Repr

/-- The values of variables. -/
abbrev Locals (V : Type) := Var → Word V

/-- What surrounds a method, with the other values `V` and worlds `W`. -/
structure Surroundings (V W : Type) where
  null : V
  /-- Operations that do not divide, unless both operands are integers. -/
  operate : BinOp → Word V → Word V → Word V
  /-- Comparisons that branches make, unless both operands are integers. -/
  compare : CmpOp → Word V → Word V → Option Bool
  /-- The integer by which a switch selects, if it is given something else. -/
  select : V → Option Int32
  /-- What any other statement gives and does to the world, given the values that it uses. -/
  perform : Stmt → List (Word V) → W → Option (Word V × W)

/-- What a statement does: the value that it assigns, the world and the edge that it takes. -/
structure Effect (V W : Type) where
  value : Option (Word V)
  world : W
  kind : Cfg.EdgeKind

section Acts

variable {V W : Type} (env : Surroundings V W)

/-- Leaves a statement to the surroundings. -/
def perform (s : Stmt) (locals : Locals V) (world : W) : Option (Effect V W) :=
  (env.perform s (s.uses.map locals) world).map fun (x, world) => ⟨some x, world, .fallThrough⟩

/-- Assigns the value of an operation. -/
def operate (s : Stmt) (op : BinOp) (x y : Var) (locals : Locals V) (world : W) :
    Option (Effect V W) :=
  match locals x, locals y with
  | .int a, .int b =>
    match op.fold a b with
    | .const c => some ⟨some (.int c), world, .fallThrough⟩
    | _ => none
  | a, b =>
    if op.divides then perform env s locals world
    else some ⟨some (env.operate op a b), world, .fallThrough⟩

/-- Whether a comparison holds. -/
def holds (op : CmpOp) (x y : Word V) : Option Bool :=
  match x, y with
  | .int a, .int b => some (op.holds a b)
  | a, b => env.compare op a b

/-- The integer by which a switch selects. -/
def selector : Word V → Option Int32
  | .int n => some n
  | .other x => env.select x

/-- The edge that a switch takes for an integer. -/
def caseKind (cases : List (Int32 × Jump)) (n : Int32) : Cfg.EdgeKind :=
  if n ∈ cases.map Prod.fst then .switchCase n else .switchDefault

/-- What a statement does; nothing if it stops the run. -/
def act (s : Stmt) (locals : Locals V) (world : W) : Option (Effect V W) :=
  match s with
  | .assign _ (.var v) => some ⟨some (locals v), world, .fallThrough⟩
  | .assign _ (.int n) => some ⟨some (.int n), world, .fallThrough⟩
  | .assign _ .null => some ⟨some (.other env.null), world, .fallThrough⟩
  | .assign _ (.binary op x y) => operate env s op x y locals world
  | .assign _ (.cast ..) | .assign _ (.load _) | .assign _ (.new _) | .store .. | .invoke .. =>
    perform env s locals world
  | .ifGoto op x y _ =>
    (holds env op (locals x) (locals y)).map fun b => ⟨none, world, if b then .ifTrue else .ifFalse⟩
  | .switch v cases _ =>
    (selector env (locals v)).map fun n => ⟨none, world, caseKind cases n⟩
  | .goto _ => some ⟨none, world, .goto⟩
  | .ret _ => some ⟨none, world, .ret⟩
  | .nop => some ⟨none, world, .fallThrough⟩

end Acts

/-! ### Runs -/

/-- A method on its way: the node that is next, the kind of the edge that was taken to it, the
variables, the world, and what was returned. -/
structure Config (V W : Type) where
  node : Node
  via : Cfg.EdgeKind
  locals : Locals V
  world : W
  result : Option (Word V)

/-- How a run ends: after the exit, or at a node where it stops. -/
inductive Outcome (V W : Type)
  | returned (result : Option (Word V)) (world : W)
  | stopped (node : Node) (world : W)
deriving DecidableEq

/-- A method that starts. -/
def start {V W : Type} (locals : Locals V) (world : W) : Config V W :=
  ⟨.entry, .entry, locals, world, none⟩

/-- The variables after an assignment, if there is one. -/
def assign {V : Type} (target : Option Var) (value : Option (Word V)) (locals : Locals V) :
    Locals V :=
  match target, value with
  | some v, some x => fun w => if w = v then x else locals w
  | _, _ => locals

section Machine

variable {V W : Type} (env : Surroundings V W) (body : List Stmt)

/-- What is returned once a statement was executed. -/
def returned (s : Stmt) (c : Config V W) : Option (Word V) :=
  match s with
  | .ret v => v.map c.locals
  | _ => c.result

/-- Executes the statement at an index. -/
def execute (i : Nat) (s : Stmt) (c : Config V W) : Option (Config V W) := do
  let done ← act env s c.locals c.world
  let e ← (Cfg.stmtEdges body.length i s).find? (·.kind = done.kind)
  return ⟨e.target, e.kind, assign s.defined? done.value c.locals, done.world, returned s c⟩

/-- Goes on from a node, unless the run ends there. -/
def advance (c : Config V W) : Option (Config V W) :=
  match c.node with
  | .entry => some { c with node := (Cfg.entryEdge body.length).target, via := .entry }
  | .stmt i => body[i]?.bind fun s => execute env body i s c
  | .exit => none

/-- How a run ends that does not go on. -/
def outcome (c : Config V W) : Outcome V W :=
  if c.node = .exit then .returned c.result c.world else .stopped c.node c.world

/-- One step of a method. -/
def step (c : Config V W) : Step (Config V W) (Outcome V W) :=
  match advance env body c with
  | some c => .next c
  | none => .halt (outcome c)

end Machine

/-! ### What a statement depends on -/

section Congr

variable {V W : Type} {env : Surroundings V W} {s : Stmt} {locals locals' : Locals V} {world : W}

theorem perform_congr (h : ∀ v ∈ s.uses, locals' v = locals v) :
    perform env s locals' world = perform env s locals world := by
  rw [perform, perform, List.map_congr_left h]

/-- **What a statement does depends on the variables that it uses.** -/
theorem act_congr (h : ∀ v ∈ s.uses, locals' v = locals v) :
    act env s locals' world = act env s locals world := by
  cases s with
  | assign lhs e =>
    cases e with
    | var v => simp only [act, h v (List.mem_singleton_self v)]
    | binary op x y =>
      have hx := h x List.mem_cons_self
      have hy := h y (List.mem_cons_of_mem _ (List.mem_singleton_self y))
      simp only [act, operate, hx, hy, perform_congr h]
    | int n => rfl
    | null => rfl
    | cast ty x => exact perform_congr h
    | load place => exact perform_congr h
    | new what => exact perform_congr h
  | store place source => exact perform_congr h
  | invoke result call => exact perform_congr h
  | ifGoto op x y jump =>
    have hx := h x List.mem_cons_self
    have hy := h y (List.mem_cons_of_mem _ (List.mem_singleton_self y))
    simp only [act, hx, hy]
  | switch v cases default => simp only [act, h v (List.mem_singleton_self v)]
  | goto jump => rfl
  | ret value => rfl
  | nop => rfl

/-- **A pure right-hand side has a value, leaves the world alone and passes on control.** -/
theorem act_of_isPure (env : Surroundings V W) (lhs : Var) {e : Expr} (h : e.isPure = true)
    (locals : Locals V) (world : W) : ∃ x,
      act env (.assign lhs e) locals world = some ⟨some x, world, .fallThrough⟩ := by
  cases e with
  | var v => exact ⟨_, rfl⟩
  | int n => exact ⟨_, rfl⟩
  | null => exact ⟨_, rfl⟩
  | binary op x y =>
    have hdivides : op.divides = false := by simpa [Expr.isPure] using h
    simp only [act, operate]
    split
    · rename_i a b _ _
      obtain ⟨c, hc⟩ := BinOp.exists_fold_eq_const hdivides a b
      simp [hc]
    · simp [hdivides]
  | cast ty x => cases h
  | load place => cases h
  | new what => cases h

end Congr

end Runs

end HeapFlow
