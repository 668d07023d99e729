import HeapFlow.Constants.Evaluate
import HeapFlow.Proofs.PointsTo.Rules
import Mathlib.Data.List.Forall2
/-!
# HeapFlow.Proofs.Execution.Machine

**What a program does when it runs.** A state has a stack of frames, a heap and static fields.
Objects remember where they were created, so that what a run does can be compared with what an
analysis says. A run executes entry methods one after the other, in any order and any number of
times, and keeps the heap in between.

A statement passes control along any of its edges: the analyses look at no condition, so what is
proved of all of these runs holds of those that take the branch that the condition selects.
Arithmetic is that of 32 bits where both operands are integers. Casts of anything but references,
binary expressions over other operands and calls that are not resolved give any value that is no
reference. What a read gives where nothing was assigned is a parameter (`unset`).

A run stops, by having no next step, at a division by zero, at a null dereference, and at a call
without a target, of the wrong staticness or with a wrong number of arguments.
-/

namespace HeapFlow

namespace Execution

/-! ### Values and states -/

/-- A value that is no reference to an object. -/
inductive Plain
  | int (n : Int32)
  | null
deriving DecidableEq, Repr

/-- A value of a variable, a field or an element. -/
inductive Val
  | plain (v : Plain)
  /-- The object at an address. -/
  | ref (address : Nat)
deriving DecidableEq, Repr

/-- An object or an array. -/
structure Instance where
  /-- The abstract object that stands for everything created there. -/
  origin : Obj
  fields : Field → Option Val
  elements : Int32 → Option Val

namespace Instance

/-- A newly created object. -/
def fresh (origin : Obj) : Instance := ⟨origin, fun _ => none, fun _ => none⟩

def setField (x : Instance) (f : Field) (v : Val) : Instance :=
  { x with fields := fun g => if g = f then some v else x.fields g }

def setElement (x : Instance) (i : Int32) (v : Val) : Instance :=
  { x with elements := fun j => if j = i then some v else x.elements j }

end Instance

/-- The execution of a method. Below the top of the stack, the node is that of the call. -/
structure Frame where
  method : MethodId
  node : Node
  locals : Var → Option Val

namespace Frame

/-- Goes on to a node. -/
def moveTo (f : Frame) (n : Node) : Frame := { f with node := n }

/-- Assigns a value to a variable, or takes away the value that it had. -/
def put (f : Frame) (v : Var) (x : Option Val) : Frame :=
  { f with locals := fun w => if w = v then x else f.locals w }

/-- Takes the result of a call. -/
def receive (f : Frame) (result : Option Var) (x : Option Val) : Frame :=
  match result with
  | some v => f.put v x
  | none => f

@[simp] theorem method_receive (f : Frame) (result : Option Var) (x : Option Val) :
    (f.receive result x).method = f.method := by
  cases result <;> rfl

/-- What a variable holds is the result that it took, or what it held before. -/
theorem locals_receive {f : Frame} {result : Option Var} {x : Option Val} {w : Var} {y : Val}
    (h : (f.receive result x).locals w = some y) :
    result = some w ∧ x = some y ∨ result ≠ some w ∧ f.locals w = some y := by
  cases result with
  | none => exact Or.inr ⟨nofun, h⟩
  | some v =>
    have hget : (if w = v then x else f.locals w) = some y := h
    split at hget
    · rename_i heq
      exact Or.inl ⟨congrArg some heq.symm, hget⟩
    · rename_i hne
      exact Or.inr ⟨fun heq => hne (Option.some.inj heq).symm, hget⟩

end Frame

/-- A state of a run. -/
structure State where
  /-- The frames, the running one first. -/
  frames : List Frame
  /-- The objects by address. -/
  heap : List Instance
  statics : Field → Option Val
  /-- The methods entered so far. -/
  entered : List MethodId
  /-- The calls executed so far. -/
  called : List (CallGraph.Edge Site MethodId)

namespace State

/-- Before anything is executed. -/
def initial : State := ⟨[], [], fun _ => none, [], []⟩

def withFrames (st : State) (frames : List Frame) : State := { st with frames }

def withHeap (st : State) (heap : List Instance) : State := { st with heap }

def setStatic (st : State) (f : Field) (v : Val) : State :=
  { st with statics := fun g => if g = f then some v else st.statics g }

end State

/-! ### Starting methods -/

/-- The first node of a body. -/
def firstNode (body : List Stmt) : Node := if body.length = 0 then .exit else .stmt 0

/-- What the variables of an entry method hold: its receiver the object at `a`, its parameters
plain values. -/
def entryLocals (m : Method) (a : Nat) (args : Var → Plain) (v : Var) : Option Val :=
  if m.receiver? = some v then some (.ref a)
  else if v ∈ m.params then some (.plain (args v))
  else none

/-- Only the receiver of an entry method refers to an object. -/
theorem entryLocals_ref {m : Method} {a b : Nat} {args : Var → Plain} {v : Var}
    (h : entryLocals m a args v = some (.ref b)) : m.receiver? = some v ∧ a = b := by
  unfold entryLocals at h
  split at h
  · rename_i hthis
    cases h
    exact ⟨hthis, rfl⟩
  · split at h <;> cases h

/-- What the variables of a callee hold. -/
def calleeLocals (m : Method) (receiver : Option Val) (args : List Val) (v : Var) : Option Val :=
  if m.receiver? = some v then receiver else (m.params.zip args).lookup v

/-- The object that the receiver of an instance entry method refers to when it is run. -/
def ownReceiver (p : Program) (id : MethodId) : Obj :=
  .mock (PointsTo.entryDescription p id) (.cls id.owner) id

/-- An entry method starts. An instance method gets a new object of its class as receiver. -/
def State.start (st : State) (p : Program) (id : MethodId) (m : Method) (args : Var → Plain) :
    State where
  frames := [⟨id, firstNode (PointsTo.bodyOf p id), entryLocals m st.heap.length args⟩]
  heap := if m.receiver?.isSome then st.heap ++ [.fresh (ownReceiver p id)] else st.heap
  statics := st.statics
  entered := id :: st.entered
  called := st.called

/-- A callee starts. -/
def State.enter (st : State) (p : Program) (e : CallGraph.Edge Site MethodId)
    (locals : Var → Option Val) : State where
  frames := ⟨e.callee, firstNode (PointsTo.bodyOf p e.callee), locals⟩ :: st.frames
  heap := st.heap
  statics := st.statics
  entered := e.callee :: st.entered
  called := e :: st.called

/-! ### Steps -/

section Steps

variable (p : Program) (unset : Plain → Prop)

/-- The frame is about to execute a statement. -/
def AtStmt (f : Frame) (i : Nat) (s : Stmt) : Prop :=
  f.node = .stmt i ∧ (PointsTo.bodyOf p f.method)[i]? = some s

/-- Control may pass from the statement to a node. -/
def Next (f : Frame) (i : Nat) (s : Stmt) (n : Node) : Prop :=
  ∃ e ∈ Cfg.stmtEdges (PointsTo.bodyOf p f.method).length i s, e.target = n

/-- What the read of a place gives. -/
inductive Reads : Option Val → Val → Prop
  | assigned (x : Val) : Reads (some x) x
  | unassigned {q : Plain} (h : unset q) : Reads none (.plain q)

/-- What an expression evaluates to. Allocations are no part of this. -/
inductive Evaluates (st : State) (f : Frame) : Expr → Val → Prop
  | var {v : Var} {x : Val} (h : Reads unset (f.locals v) x) : Evaluates st f (.var v) x
  | int (n : Int32) : Evaluates st f (.int n) (.plain (.int n))
  | null : Evaluates st f .null (.plain .null)
  | binary {op : BinOp} {v w : Var} {a b c : Int32}
      (hv : Reads unset (f.locals v) (.plain (.int a)))
      (hw : Reads unset (f.locals w) (.plain (.int b))) (hfold : op.fold a b = .const c) :
      Evaluates st f (.binary op v w) (.plain (.int c))
  | binaryOther {op : BinOp} {v w : Var} {x y : Val} (hv : Reads unset (f.locals v) x)
      (hw : Reads unset (f.locals w) y) (hty : ¬ (v.ty.holdsInt ∧ w.ty.holdsInt)) (c : Int32) :
      Evaluates st f (.binary op v w) (.plain (.int c))
  | cast {ty : Ty} {v : Var} {a : Nat} (h : f.locals v = some (.ref a)) :
      Evaluates st f (.cast ty v) (.ref a)
  | convert {ty : Ty} {v : Var} {x : Val} (h : Reads unset (f.locals v) x) (q : Plain) :
      Evaluates st f (.cast ty v) (.plain q)
  | loadField {base : Var} {g : Field} {a : Nat} {o : Instance} {x : Val}
      (hbase : f.locals base = some (.ref a)) (ho : st.heap[a]? = some o)
      (h : Reads unset (o.fields g) x) : Evaluates st f (.load (.field base g)) x
  | loadStatic {g : Field} {x : Val} (h : Reads unset (st.statics g) x) :
      Evaluates st f (.load (.static g)) x
  | loadElement {array index : Var} {a : Nat} {i : Int32} {o : Instance} {x : Val}
      (harray : f.locals array = some (.ref a))
      (hindex : Reads unset (f.locals index) (.plain (.int i))) (ho : st.heap[a]? = some o)
      (h : Reads unset (o.elements i) x) : Evaluates st f (.load (.element array index)) x

/-- What a store does to the heap and the static fields. -/
inductive Stores (st : State) (f : Frame) (x : Val) : Place → State → Prop
  | field {base : Var} {g : Field} {a : Nat} {o : Instance}
      (hbase : f.locals base = some (.ref a)) (ho : st.heap[a]? = some o) :
      Stores st f x (.field base g) (st.withHeap (st.heap.set a (o.setField g x)))
  | static {g : Field} : Stores st f x (.static g) (st.setStatic g x)
  | element {array index : Var} {a : Nat} {i : Int32} {o : Instance}
      (harray : f.locals array = some (.ref a))
      (hindex : Reads unset (f.locals index) (.plain (.int i))) (ho : st.heap[a]? = some o) :
      Stores st f x (.element array index) (st.withHeap (st.heap.set a (o.setElement i x)))

/-- The method that a call runs, and its receiver: a static method, or an instance method selected
for the object that the receiver variable refers to. -/
inductive Selects (st : State) (f : Frame) (call : Call) : MethodId → Method → Option Val → Prop
  | static {callee : MethodId} {m : Method} (hkind : call.kind = .static)
      (hcallee : p.resolveDirect call = some callee) (hm : p.method? callee = some m)
      (hstatic : m.isStatic = true) : Selects st f call callee m none
  | onReceiver {v this : Var} {a : Nat} {o : Instance} {callee : MethodId} {m : Method}
      (hkind : call.kind ≠ .static) (hv : call.receiver = some v)
      (hlocal : f.locals v = some (.ref a)) (ho : st.heap[a]? = some o)
      (hcallee : p.resolveByReceiver o.origin.class? call = some callee)
      (hm : p.method? callee = some m) (hthis : m.receiver? = some this) :
      Selects st f call callee m (some (.ref a))

/-- A method returns, with a value or without one. -/
inductive Returns (f : Frame) : Option Val → Prop
  | value {i : Nat} {v : Var} {x : Val} (hat : AtStmt p f i (.ret (some v)))
      (h : Reads unset (f.locals v) x) : Returns f (some x)
  | void {i : Nat} (hat : AtStmt p f i (.ret none)) : Returns f none
  | done (h : f.node = .exit) : Returns f none

/-- Statements that only pass control on. -/
def Passes : Stmt → Prop
  | .ifGoto .. | .switch .. | .goto _ | .nop => True
  | _ => False

/-- One step of a run. -/
inductive RunStep (st : State) : State → Prop
  | start {id : MethodId} {m : Method} {args : Var → Plain} (hframes : st.frames = [])
      (hid : id ∈ p.entries) (hm : p.method? id = some m)
      (hargs : ∀ v, v.ty.isReference = true → args v = .null) : RunStep st (st.start p id m args)
  | assign {f : Frame} {rest : List Frame} {i : Nat} {lhs : Var} {e : Expr} {x : Val} {n : Node}
      (hframes : st.frames = f :: rest) (hat : AtStmt p f i (.assign lhs e))
      (hx : Evaluates unset st f e x) (hnext : Next p f i (.assign lhs e) n) :
      RunStep st (st.withFrames ((f.put lhs (some x)).moveTo n :: rest))
  | allocate {f : Frame} {rest : List Frame} {i : Nat} {lhs : Var} {what : Alloc} {n : Node}
      (hframes : st.frames = f :: rest) (hat : AtStmt p f i (.assign lhs (.new what)))
      (hnext : Next p f i (.assign lhs (.new what)) n) :
      RunStep st ((st.withHeap (st.heap ++ [.fresh (.alloc ⟨f.method, i⟩ what.ty)])).withFrames
        ((f.put lhs (some (.ref st.heap.length))).moveTo n :: rest))
  | store {f : Frame} {rest : List Frame} {i : Nat} {place : Place} {source : Var} {x : Val}
      {n : Node} {st' : State} (hframes : st.frames = f :: rest)
      (hat : AtStmt p f i (.store place source)) (hx : Reads unset (f.locals source) x)
      (hstore : Stores unset st f x place st') (hnext : Next p f i (.store place source) n) :
      RunStep st (st'.withFrames (f.moveTo n :: rest))
  | pass {f : Frame} {rest : List Frame} {i : Nat} {s : Stmt} {n : Node}
      (hframes : st.frames = f :: rest) (hat : AtStmt p f i s) (hs : Passes s)
      (hnext : Next p f i s n) : RunStep st (st.withFrames (f.moveTo n :: rest))
  | call {f : Frame} {rest : List Frame} {i : Nat} {result : Option Var} {call : Call}
      {callee : MethodId} {m : Method} {receiver : Option Val} {args : List Val}
      (hframes : st.frames = f :: rest) (hat : AtStmt p f i (.invoke result call))
      (hselects : Selects p st f call callee m receiver) (hbody : m.hasBody = true)
      (hargs : List.Forall₂ (fun v x => Reads unset (f.locals v) x) call.args args)
      (hlength : call.args.length = m.params.length) :
      RunStep st (st.enter p ⟨call.kind, ⟨f.method, i⟩, callee⟩ (calleeLocals m receiver args))
  | callDynamic {f : Frame} {rest : List Frame} {i : Nat} {result : Option Var} {call : Call}
      {n : Node} (hframes : st.frames = f :: rest) (hat : AtStmt p f i (.invoke result call))
      (hkind : call.kind = .dynamic) (q : Plain) (hnext : Next p f i (.invoke result call) n) :
      RunStep st (st.withFrames ((f.receive result (some (.plain q))).moveTo n :: rest))
  | leave {f caller : Frame} {rest : List Frame} {x : Option Val} {i : Nat}
      {result : Option Var} {call : Call} {n : Node} (hframes : st.frames = f :: caller :: rest)
      (hreturn : Returns p unset f x) (hat : AtStmt p caller i (.invoke result call))
      (hnext : Next p caller i (.invoke result call) n) :
      RunStep st (st.withFrames ((caller.receive result x).moveTo n :: rest))
  | finish {f : Frame} {x : Option Val} (hframes : st.frames = [f])
      (hreturn : Returns p unset f x) : RunStep st (st.withFrames [])

/-- The states of all runs. -/
inductive Reachable : State → Prop
  | initial : Reachable .initial
  | step {st st' : State} (h : Reachable st) (hstep : RunStep p unset st st') : Reachable st'

variable {p unset}

/-- **What every step keeps holds in every run.** -/
theorem Reachable.invariant (Inv : State → Prop) (hinit : Inv .initial)
    (hstep : ∀ st st', Inv st → RunStep p unset st st' → Inv st') {st : State}
    (h : Reachable p unset st) : Inv st := by
  induction h with
  | initial => exact hinit
  | step _ hs ih => exact hstep _ _ ih hs

end Steps

end Execution

end HeapFlow
