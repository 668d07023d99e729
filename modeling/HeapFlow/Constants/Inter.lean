import HeapFlow.Constants.HeapStore
import HeapFlow.Constants.Intra
import HeapFlow.Data.Worklist
import HeapFlow.Icfg
import HeapFlow.PointsTo.Basic
/-!
# HeapFlow.Constants.Inter

**Constant propagation across calls and through the heap.** Facts flow along the interprocedural
control-flow graph. Values stored in fields and array elements are not part of the facts but of one
abstract heap, which loads read through the points-to sets of their base variables. When a store
raises a slot, the loads that may read it through an alias are computed again.

The fact before a point is the meet of its boundary fact and of what comes in along its edges. The
solver is a machine that takes points from a queue without duplicates.
-/

namespace HeapFlow

namespace Constants

/-- What interprocedural constant propagation runs on: the program, its graph and what the
variables may refer to. -/
structure Setting where
  program : Program
  icfg : Icfg
  objects : VarObjects

/-- The facts of a program and the values in its heap. -/
structure Inter where
  before : Table Point Fact
  after : Table Point Fact
  heap : HeapStore
  iterations : Nat

namespace Inter

instance : Inhabited Inter := ⟨∅, ∅, .empty, 0⟩

/-- The fact before a point. -/
def factBefore (r : Inter) (pt : Point) : Fact := r.before.getD pt ∅

/-- The fact after a point. -/
def factAfter (r : Inter) (pt : Point) : Fact := r.after.getD pt ∅

end Inter

section Rules

variable (c : Setting)

/-- The statement at a point. -/
def stmtAt? (pt : Point) : Option Stmt :=
  match pt.node with
  | .stmt i => c.program.stmt? ⟨pt.method, i⟩
  | _ => none

/-- The objects that a variable at a point may refer to. -/
def objectsOf (pt : Point) (v : Var) : List Obj := (c.objects.of ⟨pt.method, v⟩).toList

/-! ### Loads -/

/-- The value that a load reads from the heap. -/
def loaded (pt : Point) (h : HeapStore) (f : Fact) : Place → Value
  | .static field => h.get (.static field)
  | .field base field => Value.meetAll ((objectsOf c pt base).map fun o => h.get (.field o field))
  | .element array index =>
    Value.meetAll ((objectsOf c pt array).map fun o => h.readArray o (f.get index.index))

/-! ### Stores -/

/-- The slots that a store writes. A store at an index of which nothing is known yet writes none. -/
def storeSlots (pt : Point) (f : Fact) : Place → List Slot
  | .static field => [.static field]
  | .field base field => (objectsOf c pt base).map (.field · field)
  | .element array index =>
    match f.get index.index with
    | .undefined => []
    | i => (objectsOf c pt array).map (.element · i)

/-- The loads through a variable that pass a test, if they define an integer variable. -/
def loadsThrough (v : Local) (loads : Method → List (Nat × Var)) : List Point :=
  match c.program.method? v.method with
  | none => []
  | some m => ((loads m).filter fun l => l.2.ty.holdsInt).map fun l => ⟨v.method, .stmt l.1⟩

/-- Whether a point loads a static field into an integer variable. -/
def loadsStatic (field : Field) (pt : Point) : Bool :=
  match stmtAt? c pt with
  | some (.assign lhs (.load (.static f))) => f = field && lhs.ty.holdsInt
  | _ => false

/-- The loads that may read a slot. -/
def readers : Slot → List Point
  | .static field => c.icfg.nodes.filter (loadsStatic c field)
  | .field base field =>
    (c.objects.pointingTo base).flatMap fun v => loadsThrough c v fun m =>
      ((m.fieldLoads v.var).filter fun l => l.2.1 = field).map fun l => (l.1, l.2.2)
  | .element array _ =>
    (c.objects.pointingTo array).flatMap fun v => loadsThrough c v fun m => m.arrayLoads v.var

/-- The heap after a value is stored in some slots, with the loads that have to be computed
again. -/
def storeAll (v : Value) : HeapStore → List Slot → HeapStore × List Point
  | h, [] => (h, [])
  | h, slot :: slots =>
    let (changed, h) := h.meet slot v
    let (h, later) := storeAll v h slots
    (h, (if changed then readers c slot else []) ++ later)

/-! ### Points -/

/-- What a point does: the fact after it, the heap, and the loads to compute again. -/
structure Effect where
  after : Fact
  heap : HeapStore
  awake : List Point

/-- The effect of a point. The result of a call is defined on the edges that leave the call. -/
def effect (pt : Point) (h : HeapStore) (f : Fact) : Effect :=
  match stmtAt? c pt with
  | none => ⟨f, h, []⟩
  | some (.invoke ..) => ⟨f, h, []⟩
  | some (.assign lhs (.load place)) =>
    ⟨if lhs.ty.holdsInt then f.update lhs.index (loaded c pt h f place) else f, h, []⟩
  | some (.store place source) =>
    if source.ty.holdsInt then
      let (h, awake) := storeAll c (f.get source.index) h (storeSlots c pt f place)
      ⟨f, h, awake⟩
    else ⟨f, h, []⟩
  | some s => ⟨s.transfer f, h, []⟩

/-! ### Edges -/

/-- The integer variable that takes the result of the call at a point. -/
def intResult? (pt : Point) : Option Var :=
  match stmtAt? c pt with
  | some (.invoke (some r) _) => if r.ty.holdsInt then some r else none
  | _ => none

/-- Arguments become the integer parameters of a callee, if the call names its subsignature and
passes as many arguments as it has parameters. -/
def intoCallee (pt : Point) (callee : MethodId) (f : Fact) : Fact :=
  match stmtAt? c pt, c.program.method? callee with
  | some (.invoke _ call), some m =>
    if call.kind ≠ .dynamic ∧ call.subsignature = m.subsignature ∧
        call.args.length = m.params.length then
      (call.args.zip m.params).foldl (fun out (arg, param) =>
        if param.ty.holdsInt then out.update param.index (f.get arg.index) else out) ∅
    else ∅
  | _, _ => ∅

/-- The returned values become the result of the call. -/
def outOfCallee (site : Site) (callee : MethodId) (f : Fact) : Fact :=
  match intResult? c site.point, c.program.method? callee with
  | some r, some m =>
    (∅ : Fact).update r.index (Value.meetAll (m.returnVars.toList.map fun v => f.get v.index))
  | _, _ => ∅

/-- Whether some callee of a call has a body. -/
def hasCallee (pt : Point) : Bool :=
  match pt.node with
  | .stmt i => (c.icfg.graph.callees ⟨pt.method, i⟩).any fun m => (c.program.cfg? m).isSome
  | _ => false

/-- Past a call its result is undefined, or unknown if no callee has a body. -/
def pastCall (pt : Point) (f : Fact) : Fact :=
  match intResult? c pt with
  | some r => f.update r.index (if hasCallee c pt then .undefined else .nac)
  | none => f

/-- What an edge makes of the fact after its source. -/
def along (e : Icfg.Edge) (f : Fact) : Fact :=
  match e.kind with
  | .normal => f
  | .callToReturn => pastCall c e.source f
  | .call callee => intoCallee c e.source callee f
  | .ret site callee => outOfCallee c site callee f

/-! ### The machine -/

/-- The facts at the entries of the entry methods. -/
def boundary : List (Point × Fact) :=
  c.icfg.graph.entries.toList.filterMap fun id =>
    match c.program.method? id with
    | some m => if m.cfg.isSome then some (⟨id, .entry⟩, entryFact m) else none
    | none => none

/-- A state: what was found so far and the points to compute. -/
structure InterState where
  found : Inter
  queue : Worklist Point

/-- The fact that flows into a point. -/
def incomingFact (r : Inter) (pt : Point) : Fact :=
  let start := match (boundary c).find? (·.1 = pt) with
    | some b => Fact.meet ∅ b.2
    | none => ∅
  (c.icfg.inEdges pt).foldl (fun f e => f.meet (along c e (r.factAfter e.source))) start

/-- Computes the facts of a point and queues what depends on them. -/
def compute (r : Inter) (queue : Worklist Point) (pt : Point) : InterState :=
  let f := incomingFact c r pt
  let eff := effect c pt r.heap f
  let changed := eff.after ≠ r.factAfter pt
  let found : Inter :=
    { before := r.before.set pt f
      after := if changed then r.after.set pt eff.after else r.after
      heap := eff.heap
      iterations := r.iterations + 1 }
  let queue := if changed then queue.pushAll (c.icfg.succs pt).toList else queue
  ⟨found, queue.pushAll (eff.awake.filter c.icfg.hasNode)⟩

/-- One step: the point that has waited longest. -/
def interStep (s : InterState) : Step InterState Inter :=
  match s.queue.pop? with
  | none => .halt s.found
  | some (pt, queue) => .next (compute c s.found queue pt)

/-- The start: the boundary, then every node. -/
def interInit : InterState :=
  ⟨⟨∅, ∅, .empty, 0⟩, Worklist.empty.pushAll (((boundary c).map Prod.fst).reverse ++ c.icfg.nodes)⟩

/-- Solves interprocedural constant propagation in at most `fuel` steps. -/
def inter (fuel : Nat) : Option Inter := Step.run (interStep c) fuel (interInit c)

end Rules

end Constants

end HeapFlow
