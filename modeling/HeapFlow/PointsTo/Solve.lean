import HeapFlow.CallGraph.Resolve
import HeapFlow.Data.Run
import HeapFlow.PointsTo.State
/-!
# HeapFlow.PointsTo.Solve

**Solving points-to constraints while the call graph is discovered.** Methods become reachable from
the entry methods along the calls that are found on the way. When a method becomes reachable under a
context, its statements are visited once: allocations send an object to a variable, copies, casts
and static fields add flow edges, static calls are resolved. What dereferences a variable is done
again for each object that newly reaches the variable: accesses to fields and elements add flow
edges, calls on a receiver select a callee.

The solver is a machine. Its tasks form a stack, so that everything that follows from a call, the
visit of the callee included, comes before whatever is next. Only when no task is left are arriving
objects taken from the queue.
-/

namespace HeapFlow

namespace PointsTo

/-- A piece of work. -/
inductive Task
  /-- An entry method is analysed under the empty context. -/
  | start (m : MethodId)
  /-- The receiver of an instance entry method refers to an object of its own. -/
  | entryReceiver (m : MethodId)
  /-- A method may have become reachable. -/
  | enter (m : CMethod)
  /-- A statement of a newly reachable method. -/
  | visit (m : CMethod) (index : Nat) (s : Stmt)
  /-- A call edge was found. -/
  | call (e : CallGraph.Edge CSite CMethod)
  /-- Arguments flow to parameters and returned values to the result of a call. -/
  | pass (site : CSite) (callee : CMethod)
  /-- An object newly reached a variable. -/
  | reach (v : Contextual Local) (o : CObj)
  /-- A call runs on an object that newly reached its receiver. -/
  | receive (v : Contextual Local) (o : CObj) (index : Nat) (call : Call)
deriving DecidableEq, Repr

/-- Why an analysis gives up. -/
inductive Failure
  /-- A static call is resolved to an instance method. -/
  | instanceCallee (site : Site) (callee : MethodId)
deriving DecidableEq, Repr

def Failure.message (p : Program) : Failure → String
  | instanceCallee site callee =>
    "static call " ++ p.siteText site ++ " resolves to instance method " ++ p.signature callee

section Rules

variable (p : Program) (policy : Policy)

/-- A variable of a method under the context of the method. -/
def varOf (m : CMethod) (v : Var) : Pointer := .var ⟨m.ctx, ⟨m.val, v⟩⟩

/-! ### Visiting statements -/

/-- An allocation sends its object to the variable. -/
def allocate (s : State) (m : CMethod) (index : Nat) (lhs : Var) (what : Alloc) : State :=
  let (o, heap) := s.heap.alloc ⟨m.val, index⟩ what.ty
  let ctx := policy.heapContext m.ctx
  let s := ({ s with heap }.meet ctx).addObject ⟨ctx, o⟩
  s.send (varOf m lhs) [⟨ctx, o⟩]

/-- The flow edge of a statement that copies a reference between variables and static fields. -/
def stmtFlow? (m : CMethod) : Stmt → Option (Pointer × Pointer)
  | .assign lhs (.var v) => some (varOf m v, varOf m lhs)
  | .assign lhs (.cast _ v) => some (varOf m v, varOf m lhs)
  | .assign lhs (.load (.static f)) => some (.static f, varOf m lhs)
  | .store (.static f) source => some (varOf m source, .static f)
  | _ => none

/-- A static call under the context of its method. -/
def callStatic (s : State) (m : CMethod) (index : Nat) (call : Call) :
    Except Failure (State × List Task) :=
  let site : Site := ⟨m.val, index⟩
  match p.resolveByReceiver none call with
  | none => .ok (s, [])
  | some callee =>
    if ((p.method? callee).map Method.isStatic).getD false then
      let ctx := policy.staticContext m.ctx site
      .ok (s.meet ctx, [.call ⟨.static, ⟨m.ctx, site⟩, ⟨ctx, callee⟩⟩])
    else .error (.instanceCallee site callee)

def visit (s : State) (m : CMethod) (index : Nat) (stmt : Stmt) :
    Except Failure (State × List Task) :=
  match stmt with
  | .assign lhs (.new what) => .ok (allocate policy s m index lhs what, [])
  | .invoke _ call =>
    if call.kind = .static then callStatic p policy s m index call else .ok (s, [])
  | stmt => .ok (s.addFlows (stmtFlow? m stmt).toList, [])

/-! ### Reachable methods and calls -/

/-- The statements that a method runs. -/
def bodyOf (id : MethodId) : List Stmt :=
  match p.method? id with
  | some m => if m.hasBody then m.stmts else []
  | none => []

/-- A newly reachable method has its statements visited. -/
def enter (s : State) (m : CMethod) : State × List Task :=
  if m ∈ s.found.graph.reachable then (s, [])
  else
    (s.addReachable m, (bodyOf p m.val).zipIdx.map fun (stmt, i) => .visit m i stmt)

/-- A new call edge makes its callee reachable and passes values. -/
def addCall (s : State) (e : CallGraph.Edge CSite CMethod) : State × List Task :=
  if s.found.graph.hasEdge e.site e.callee then (s, [])
  else (s.addCall e, [.enter e.callee, .pass e.site e.callee])

/-- The flow edges from arguments to parameters. A method without a body reads no parameter. -/
def argumentFlows (site : CSite) (callee : CMethod) (m : Method) (call : Call) :
    List (Pointer × Pointer) :=
  if m.hasBody then
    (call.args.zip m.params).map fun (arg, param) =>
      (varOf ⟨site.ctx, site.val.method⟩ arg, varOf callee param)
  else []

/-- The flow edges from returned variables to the result. -/
def resultFlows (site : CSite) (callee : CMethod) (m : Method) (result : Option Var) :
    List (Pointer × Pointer) :=
  result.toList.flatMap fun r =>
    m.returnVars.toList.map fun v => (varOf callee v, varOf ⟨site.ctx, site.val.method⟩ r)

/-- Passes arguments and results. If the numbers of arguments and parameters differ, only results
are passed, and the call is reported. -/
def pass (s : State) (site : CSite) (callee : CMethod) : State :=
  match p.stmt? site.val, p.method? callee.val with
  | some (.invoke result call), some m =>
    let s :=
      if call.args.length = m.params.length then s.addFlows (argumentFlows site callee m call)
      else s.report (.argumentCount site.val callee.val)
    s.addFlows (resultFlows site callee m result)
  | _, _ => s

/-! ### Objects that reach a variable -/

/-- The flow edges of the accesses to fields and elements of an object through a variable. -/
def accessFlows (m : Method) (v : Contextual Local) (o : CObj) : List (Pointer × Pointer) :=
  let ptr (w : Var) : Pointer := varOf ⟨v.ctx, v.val.method⟩ w
  let base := v.val.var
  ((m.fieldStores base).map fun (_, f, source) => (ptr source, .field o f)) ++
  ((m.fieldLoads base).map fun (_, f, lhs) => (.field o f, ptr lhs)) ++
  ((m.arrayStores base).map fun (_, source) => (ptr source, .elements o)) ++
  ((m.arrayLoads base).map fun (_, lhs) => (.elements o, ptr lhs))

/-- An object that newly reached a variable: its accesses, then the calls on it. -/
def reach (s : State) (v : Contextual Local) (o : CObj) : State × List Task :=
  match p.method? v.val.method with
  | some m =>
    (s.addFlows (accessFlows m v o),
      (m.receiverCalls v.val.var).map fun (i, call) => .receive v o i call)
  | none => (s, [])

/-- A call on an object. Its callee runs on that object, under the context that the policy
selects. A static callee is reported and skipped. -/
def receive (s : State) (v : Contextual Local) (o : CObj) (index : Nat) (call : Call) :
    State × List Task :=
  let site : Site := ⟨v.val.method, index⟩
  match p.resolveByReceiver o.val.class? call with
  | none => (s, [])
  | some callee =>
    match p.method? callee >>= Method.receiver? with
    | none => (s.report (.staticCallee site callee), [])
    | some this =>
      let ctx := policy.receiverContext v.ctx site o
      let s := (s.meet ctx).send (varOf ⟨ctx, callee⟩ this) [o]
      (s, [.call ⟨call.kind, ⟨v.ctx, site⟩, ⟨ctx, callee⟩⟩])

/-! ### Entry methods -/

/-- The object that stands for the receiver of an instance entry method. -/
def entryReceiver (s : State) (id : MethodId) : State :=
  match p.method? id >>= Method.receiver? with
  | none => s
  | some this =>
    let description := "entry receiver of " ++ p.signature id
    let (o, heap) := s.heap.mock description (.cls id.owner) id
    let s := { s with heap }.addObject ⟨[], o⟩
    s.send (varOf ⟨[], id⟩ this) [⟨[], o⟩]

/-! ### The machine -/

/-- What a task does, and the tasks that follow from it. -/
def perform (s : State) : Task → Except Failure (State × List Task)
  | .start m => .ok (s.addEntry ⟨[], m⟩, [.enter ⟨[], m⟩, .entryReceiver m])
  | .entryReceiver m => .ok (entryReceiver p s m, [])
  | .enter m => .ok (enter p s m)
  | .visit m index stmt => visit p policy s m index stmt
  | .call e => .ok (addCall s e)
  | .pass site callee => .ok (pass p s site callee, [])
  | .reach v o => .ok (reach p s v o)
  | .receive v o index call => .ok (receive p policy s v o index call)

/-- A state with the tasks that are left. -/
structure Config where
  state : State
  tasks : List Task

/-- How an analysis ended. -/
structure Answer where
  state : State
  failure : Option Failure

/-- The tasks of the objects that newly reached a pointer. -/
def reachTasks : Pointer → List CObj → List Task
  | .var v, objs => objs.map (.reach v)
  | _, _ => []

/-- One step: the first task, or else the oldest arrival. -/
def step (c : Config) : Step Config Answer :=
  match c.tasks with
  | t :: tasks =>
    match perform p policy c.state t with
    | .ok (s, more) => .next ⟨s, more ++ tasks⟩
    | .error f => .halt ⟨c.state, some f⟩
  | [] =>
    match c.state.queue.pop? with
    | none => .halt ⟨c.state, none⟩
    | some ((ptr, objs), queue) =>
      let (fresh, s) := { c.state with queue }.absorb ptr objs
      .next ⟨s, reachTasks ptr fresh⟩

/-- The start of an analysis: the entry methods in order. -/
def init (heap : Heap) (contexts : Contexts) : Config :=
  ⟨.start heap contexts, p.entries.map .start⟩

/-- Analyses a program in at most `fuel` steps. -/
def solve (fuel : Nat) (heap : Heap) (contexts : Contexts) : Option Answer :=
  Step.run (step p policy) fuel (init p heap contexts)

end Rules

end PointsTo

end HeapFlow
