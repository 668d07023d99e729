import HeapFlow.PointsTo.Solve
import Mathlib.Order.Bounds.Basic
/-!
# HeapFlow.Proofs.PointsTo.Rules

**The rules of points-to analysis, without an algorithm.** A `Solution` says which methods are
reachable, which calls there are and which objects each pointer may refer to. It is `Closed` if it
has every consequence of the rules, one field for each rule. Solutions are compared pointwise, so
that "the least closed solution" has its usual meaning.

The rules are stated statement by statement, from what the program says at a place. The solver
groups them differently: by the variable that is dereferenced, in the order of the body.
-/

namespace HeapFlow

namespace PointsTo

/-- What an analysis may say of a program. -/
structure Solution where
  reachable : Set CMethod
  calls : Set (CallGraph.Edge CSite CMethod)
  sets : Pointer → Set CObj

namespace Solution

/-- One solution says no more than another. -/
instance : LE Solution :=
  ⟨fun S T => S.reachable ⊆ T.reachable ∧ S.calls ⊆ T.calls ∧ ∀ ptr, S.sets ptr ⊆ T.sets ptr⟩

/-- What a finished analysis says. -/
def ofResult (r : PointsTo) : Solution :=
  ⟨{m | m ∈ r.graph.reachable}, {e | e ∈ r.graph.edges}, fun ptr => {o | o ∈ r.get ptr}⟩

end Solution

section Rules

variable (p : Program) (policy : Policy) (heap : Heap)

/-- How the receiver object of an entry method is described. -/
def entryDescription (id : MethodId) : String := "entry receiver of " ++ p.signature id

/-- The receiver variable of an instance method. -/
def receiverOf? (id : MethodId) : Option Var := p.method? id >>= Method.receiver?

/-- The first instance entry method with the description of a receiver. -/
def entryDescribed? (entries : List MethodId) (description : String) : Option MethodId :=
  entries.find? fun e => (receiverOf? p e).isSome && entryDescription p e == description

/-- The mock object of a description among some entry methods: the one that the heap has from
before, or else that of the first entry method so described. -/
def mockAmong? (entries : List MethodId) (description : String) : Option Obj :=
  (heap.objects.toList.find? (Obj.isMock description)).or
    ((entryDescribed? p entries description).map fun e => .mock description (.cls e.owner) e)

/-- The object that stands for the receiver of an instance entry method. -/
def entryObject (id : MethodId) : Obj :=
  (mockAmong? p heap p.entries (entryDescription p id)).getD
    (.mock (entryDescription p id) (.cls id.owner) id)

/-- The method has a body with that statement at that index. -/
def Runs (m : CMethod) (i : Nat) (stmt : Stmt) : Prop := (bodyOf p m.val)[i]? = some stmt

/-- **Closed under the rules of the analysis.** -/
structure Closed (S : Solution) : Prop where
  /-- Entry methods are reachable under the empty context. -/
  entry : ∀ id ∈ p.entries, ⟨[], id⟩ ∈ S.reachable
  /-- The receiver of an instance entry method refers to its mock object. -/
  entryReceiver : ∀ id ∈ p.entries, ∀ this, receiverOf? p id = some this →
    ⟨[], entryObject p heap id⟩ ∈ S.sets (varOf ⟨[], id⟩ this)
  /-- An allocation puts its object into the variable. -/
  allocation : ∀ m ∈ S.reachable, ∀ i lhs what,
    Runs p m i (.assign lhs (.new what)) →
    ⟨policy.heapContext m.ctx, .alloc ⟨m.val, i⟩ what.ty⟩ ∈ S.sets (varOf m lhs)
  copy : ∀ m ∈ S.reachable, ∀ i lhs v, Runs p m i (.assign lhs (.var v)) →
    S.sets (varOf m v) ⊆ S.sets (varOf m lhs)
  cast : ∀ m ∈ S.reachable, ∀ i lhs ty v, Runs p m i (.assign lhs (.cast ty v)) →
    S.sets (varOf m v) ⊆ S.sets (varOf m lhs)
  staticLoad : ∀ m ∈ S.reachable, ∀ i lhs f,
    Runs p m i (.assign lhs (.load (.static f))) →
    S.sets (.static f) ⊆ S.sets (varOf m lhs)
  staticStore : ∀ m ∈ S.reachable, ∀ i f source,
    Runs p m i (.store (.static f) source) →
    S.sets (varOf m source) ⊆ S.sets (.static f)
  /-- A static call calls its target, if that is a static method. -/
  staticCall : ∀ m ∈ S.reachable, ∀ i result call callee,
    Runs p m i (.invoke result call) → call.kind = .static →
    p.resolveDirect call = some callee → (p.method? callee).any Method.isStatic →
    ⟨.static, ⟨m.ctx, ⟨m.val, i⟩⟩, ⟨policy.staticContext m.ctx ⟨m.val, i⟩, callee⟩⟩ ∈ S.calls
  /-- A store through a variable goes to the field of each object of the variable. -/
  fieldStore : ∀ m i base f source o, p.stmt? ⟨m.val, i⟩ = some (.store (.field base f) source) →
    o ∈ S.sets (varOf m base) → S.sets (varOf m source) ⊆ S.sets (.field o f)
  fieldLoad : ∀ m i lhs base f o, p.stmt? ⟨m.val, i⟩ = some (.assign lhs (.load (.field base f))) →
    o ∈ S.sets (varOf m base) → S.sets (.field o f) ⊆ S.sets (varOf m lhs)
  arrayStore : ∀ m i array index source o,
    p.stmt? ⟨m.val, i⟩ = some (.store (.element array index) source) →
    o ∈ S.sets (varOf m array) → S.sets (varOf m source) ⊆ S.sets (.elements o)
  arrayLoad : ∀ m i lhs array index o,
    p.stmt? ⟨m.val, i⟩ = some (.assign lhs (.load (.element array index))) →
    o ∈ S.sets (varOf m array) → S.sets (.elements o) ⊆ S.sets (varOf m lhs)
  /-- A call on a variable runs, on each object of the variable, the instance method that it
  resolves to for the class of the object. -/
  receiverCall : ∀ m i result call v o callee this,
    p.stmt? ⟨m.val, i⟩ = some (.invoke result call) → call.receiver = some v →
    o ∈ S.sets (varOf m v) → p.resolveByReceiver o.val.class? call = some callee →
    receiverOf? p callee = some this →
    ⟨call.kind, ⟨m.ctx, ⟨m.val, i⟩⟩, ⟨policy.receiverContext m.ctx ⟨m.val, i⟩ o, callee⟩⟩ ∈ S.calls ∧
      o ∈ S.sets (varOf ⟨policy.receiverContext m.ctx ⟨m.val, i⟩ o, callee⟩ this)
  callee : ∀ e ∈ S.calls, e.callee ∈ S.reachable
  /-- Arguments flow to the parameters of a body, if there are as many of them. -/
  argument : ∀ e ∈ S.calls, ∀ result call m, p.stmt? e.site.val = some (.invoke result call) →
    p.method? e.callee.val = some m → m.hasBody → call.args.length = m.params.length →
    ∀ a q, (a, q) ∈ call.args.zip m.params →
    S.sets (varOf ⟨e.site.ctx, e.site.val.method⟩ a) ⊆ S.sets (varOf e.callee q)
  /-- Returned variables flow to the result. -/
  result : ∀ e ∈ S.calls, ∀ r call m, p.stmt? e.site.val = some (.invoke (some r) call) →
    p.method? e.callee.val = some m → ∀ v ∈ m.returnVars,
    S.sets (varOf e.callee v) ⊆ S.sets (varOf ⟨e.site.ctx, e.site.val.method⟩ r)

end Rules

end PointsTo

end HeapFlow
