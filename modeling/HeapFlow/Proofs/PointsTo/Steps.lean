import HeapFlow.Proofs.PointsTo.Operations
import HeapFlow.Proofs.PointsTo.Rules
/-!
# HeapFlow.Proofs.PointsTo.Steps

**What one task does, said once.** `Performs` has a constructor for each way in which a task can
succeed: the state that it leaves and the tasks that follow from it. `Performs.of_perform` reads a
successful task off the machine; every invariant of the analysis is then a case analysis over
`Performs`. The tasks of newly reachable methods and of arriving objects are described by what is in
their lists, and the flow edges of accesses, arguments and results by the statements they come from.
-/

namespace HeapFlow

namespace PointsTo

variable (p : Program) (policy : Policy)

/-- The tasks of a newly reachable method. -/
def visits (m : CMethod) : List Task :=
  (bodyOf p m.val).zipIdx.map fun (stmt, i) => .visit m i stmt

/-- The tasks of the calls on an object that newly reached a variable. -/
def receives (m : Method) (v : Contextual Local) (o : CObj) : List Task :=
  (m.receiverCalls v.val.var).map fun (i, call) => .receive v o i call

/-- The state once the receiver of an entry method refers to an object. -/
def State.receiveEntry (s : State) (m : MethodId) (this : Var) (o : Obj) (heap : Heap) : State :=
  (({ s with heap } : State).addObject ⟨[], o⟩).send (varOf ⟨[], m⟩ this) [⟨[], o⟩]

/-- What a task does. -/
inductive Performs (s : State) : Task → State → List Task → Prop
  | start (m : MethodId) :
      Performs s (.start m) (s.addEntry ⟨[], m⟩) [.enter ⟨[], m⟩, .entryReceiver m]
  | staticEntry {m : MethodId} (hthis : receiverOf? p m = none) :
      Performs s (.entryReceiver m) s []
  | instanceEntry {m : MethodId} {this : Var} {o : Obj} {heap : Heap}
      (hthis : receiverOf? p m = some this)
      (hmock : s.heap.mock (entryDescription p m) (.cls m.owner) m = (o, heap)) :
      Performs s (.entryReceiver m) (s.receiveEntry m this o heap) []
  | known {m : CMethod} (hm : s.Reached m) : Performs s (.enter m) s []
  | enter {m : CMethod} (hm : ¬ s.Reached m) :
      Performs s (.enter m) (s.addReachable m) (visits p m)
  | allocation (m : CMethod) (i : Nat) (lhs : Var) (what : Alloc) :
      Performs s (.visit m i (.assign lhs (.new what))) (allocate policy s m i lhs what) []
  | flow (m : CMethod) (i : Nat) {stmt : Stmt} (hnew : ∀ lhs what, stmt ≠ .assign lhs (.new what))
      (hcall : ∀ result call, stmt ≠ .invoke result call) :
      Performs s (.visit m i stmt) (s.addFlows (stmtFlow? m stmt).toList) []
  | otherCall (m : CMethod) (i : Nat) (result : Option Var) {call : Call}
      (hkind : call.kind ≠ .static) : Performs s (.visit m i (.invoke result call)) s []
  | unresolvedStatic (m : CMethod) (i : Nat) (result : Option Var) {call : Call}
      (hkind : call.kind = .static) (hcallee : p.resolveDirect call = none) :
      Performs s (.visit m i (.invoke result call)) s []
  | staticCall (m : CMethod) (i : Nat) (result : Option Var) {call : Call} {callee : MethodId}
      (hkind : call.kind = .static) (hcallee : p.resolveDirect call = some callee)
      (hstatic : (p.method? callee).any Method.isStatic = true) :
      Performs s (.visit m i (.invoke result call)) (s.meet (policy.staticContext m.ctx ⟨m.val, i⟩))
        [.call ⟨.static, ⟨m.ctx, ⟨m.val, i⟩⟩, ⟨policy.staticContext m.ctx ⟨m.val, i⟩, callee⟩⟩]
  | knownCall {e : CallGraph.Edge CSite CMethod}
      (he : s.found.graph.hasEdge e.site e.callee = true) : Performs s (.call e) s []
  | call {e : CallGraph.Edge CSite CMethod}
      (he : s.found.graph.hasEdge e.site e.callee ≠ true) :
      Performs s (.call e) (s.addCall e) [.enter e.callee, .pass e.site e.callee]
  | passNothing {site : CSite} {callee : CMethod}
      (hnone : ∀ result call m, p.stmt? site.val = some (.invoke result call) →
        p.method? callee.val ≠ some m) : Performs s (.pass site callee) s []
  | passAll {site : CSite} {callee : CMethod} {result : Option Var} {call : Call} {m : Method}
      (hcall : p.stmt? site.val = some (.invoke result call)) (hm : p.method? callee.val = some m)
      (hlength : call.args.length = m.params.length) :
      Performs s (.pass site callee) ((s.addFlows (argumentFlows site callee m call)).addFlows
        (resultFlows site callee m result)) []
  | passResult {site : CSite} {callee : CMethod} {result : Option Var} {call : Call} {m : Method}
      (hcall : p.stmt? site.val = some (.invoke result call)) (hm : p.method? callee.val = some m)
      (hlength : call.args.length ≠ m.params.length) :
      Performs s (.pass site callee) ((s.report (.argumentCount site.val callee.val)).addFlows
        (resultFlows site callee m result)) []
  | reachNowhere {v : Contextual Local} (o : CObj) (hm : p.method? v.val.method = none) :
      Performs s (.reach v o) s []
  | reach {v : Contextual Local} (o : CObj) {m : Method} (hm : p.method? v.val.method = some m) :
      Performs s (.reach v o) (s.addFlows (accessFlows m v o)) (receives m v o)
  | receiveNone {v : Contextual Local} {o : CObj} (i : Nat) {call : Call}
      (hcallee : p.resolveByReceiver o.val.class? call = none) :
      Performs s (.receive v o i call) s []
  | receiveStatic {v : Contextual Local} {o : CObj} (i : Nat) {call : Call} {callee : MethodId}
      (hcallee : p.resolveByReceiver o.val.class? call = some callee)
      (hthis : receiverOf? p callee = none) :
      Performs s (.receive v o i call) (s.report (.staticCallee ⟨v.val.method, i⟩ callee)) []
  | receive {v : Contextual Local} {o : CObj} (i : Nat) {call : Call} {callee : MethodId}
      {this : Var} (hcallee : p.resolveByReceiver o.val.class? call = some callee)
      (hthis : receiverOf? p callee = some this) :
      Performs s (.receive v o i call)
        ((s.meet (policy.receiverContext v.ctx ⟨v.val.method, i⟩ o)).send
          (varOf ⟨policy.receiverContext v.ctx ⟨v.val.method, i⟩ o, callee⟩ this) [o])
        [.call ⟨call.kind, ⟨v.ctx, ⟨v.val.method, i⟩⟩,
          ⟨policy.receiverContext v.ctx ⟨v.val.method, i⟩ o, callee⟩⟩]

variable {p policy}

/-! ### Reading a task off the machine -/

theorem resolveByReceiver_static {call : Call} (hkind : call.kind = .static)
    (receiver : Option ClassRef) : p.resolveByReceiver receiver call = p.resolveDirect call := by
  rw [Program.resolveByReceiver, hkind]

theorem any_isStatic_iff {m : Option Method} :
    (m.map Method.isStatic).getD false = true ↔ m.any Method.isStatic = true := by
  cases m <;> simp

namespace Performs

variable {s s' : State} {t : Task} {more : List Task}

/-- A visit either does what the constructors say or makes the analysis give up. -/
theorem of_visit {m : CMethod} {i : Nat} {stmt : Stmt}
    (h : visit p policy s m i stmt = .ok (s', more)) :
    Performs p policy s (.visit m i stmt) s' more := by
  unfold visit at h
  split at h
  · cases h
    exact allocation m i _ _
  · rename_i result call
    by_cases hkind : call.kind = .static
    · rw [if_pos hkind, callStatic, resolveByReceiver_static hkind] at h
      cases hcallee : p.resolveDirect call with
      | none =>
        rw [hcallee] at h
        cases h
        exact unresolvedStatic m i result hkind hcallee
      | some callee =>
        rw [hcallee] at h
        dsimp only at h
        split at h
        · rename_i hstatic
          cases h
          exact staticCall m i result hkind hcallee (any_isStatic_iff.1 hstatic)
        · -- a static call of a method that is not static is the only failure
          cases h
    · rw [if_neg hkind] at h
      cases h
      exact otherCall m i result hkind
  · rename_i hnew hcall
    cases h
    -- every other statement adds its flow edge, if it has one
    exact flow m i (fun lhs what heq => hnew lhs what heq) fun result call heq =>
      hcall result call heq

theorem of_pass {site : CSite} {callee : CMethod} :
    Performs p policy s (.pass site callee) (PointsTo.pass p s site callee) [] := by
  unfold PointsTo.pass
  split
  · rename_i result call m hcall hm
    dsimp only
    split
    · rename_i hlength
      exact passAll hcall hm hlength
    · rename_i hlength
      exact passResult hcall hm hlength
  · rename_i hnone
    refine passNothing ?_
    intro result call m hcall hm
    exact hnone result call m hcall hm

/-- **A successful task does what `Performs` says.** -/
theorem of_perform (h : perform p policy s t = .ok (s', more)) :
    Performs p policy s t s' more := by
  cases t with
  | start m =>
    cases h
    exact start m
  | entryReceiver m =>
    cases h
    rw [PointsTo.entryReceiver]
    cases hthis : p.method? m >>= Method.receiver? with
    | none => exact staticEntry hthis
    | some this => exact instanceEntry hthis rfl
  | enter m =>
    have h := Except.ok.inj h
    unfold PointsTo.enter at h
    split at h
    · rename_i hm
      cases h
      exact known hm
    · rename_i hm
      cases h
      exact enter hm
  | visit m i stmt => exact of_visit h
  | call e =>
    have h := Except.ok.inj h
    unfold PointsTo.addCall at h
    split at h
    · rename_i he
      cases h
      exact knownCall he
    · rename_i he
      cases h
      exact call he
  | pass site callee =>
    cases h
    exact of_pass
  | reach v o =>
    have h := Except.ok.inj h
    unfold PointsTo.reach at h
    split at h
    · rename_i m hm
      cases h
      exact reach o hm
    · rename_i hm
      cases h
      exact reachNowhere o hm
  | receive v o i call =>
    have h := Except.ok.inj h
    unfold PointsTo.receive at h
    dsimp only at h
    split at h
    · rename_i hcallee
      cases h
      exact receiveNone i hcallee
    · rename_i callee hcallee
      split at h
      · rename_i hthis
        cases h
        exact receiveStatic i hcallee hthis
      · rename_i this hthis
        cases h
        exact receive i hcallee hthis

end Performs

/-! ### Steps of the machine -/

variable (p policy) in
/-- How a step goes on: it performs the first task, or else it absorbs the oldest arrival. -/
inductive Advances : Config → Config → Prop
  | perform {s s' : State} {t : Task} {tasks more : List Task}
      (hdoes : Performs p policy s t s' more) : Advances ⟨s, t :: tasks⟩ ⟨s', more ++ tasks⟩
  | absorb {s : State} {ptr : Pointer} {objs : List CObj} {queue : Queue (Pointer × List CObj)}
      (hpop : s.queue.pop? = some ((ptr, objs), queue)) :
      Advances ⟨s, []⟩ ⟨((s.withQueue queue).absorb ptr objs).2,
        reachTasks ptr ((s.withQueue queue).absorb ptr objs).1⟩

theorem Advances.of_step {c c' : Config} (h : step p policy c = .next c') :
    Advances p policy c c' := by
  obtain ⟨s, tasks⟩ := c
  cases tasks with
  | cons t tasks =>
    rw [step] at h
    dsimp only at h
    split at h
    · rename_i s' more hperform
      cases h
      exact .perform (Performs.of_perform hperform)
    · cases h
  | nil =>
    rw [step] at h
    dsimp only at h
    split at h
    · cases h
    · rename_i ptr objs queue hpop
      cases h
      exact .absorb hpop

/-! ### Lists of tasks and of flow edges -/

theorem mem_visits {m : CMethod} {t : Task} :
    t ∈ visits p m ↔ ∃ i stmt, Runs p m i stmt ∧ t = .visit m i stmt := by
  simp only [visits, List.mem_map, Prod.exists, List.mem_zipIdx_iff_getElem?, Runs]
  constructor
  · intro ⟨stmt, i, hrun, ht⟩
    exact ⟨i, stmt, hrun, ht.symm⟩
  · intro ⟨i, stmt, hrun, ht⟩
    exact ⟨stmt, i, hrun, ht.symm⟩

/-- What a method runs is in its body. -/
theorem Runs.stmt? {m : CMethod} {i : Nat} {stmt : Stmt} (h : Runs p m i stmt) :
    p.stmt? ⟨m.val, i⟩ = some stmt := by
  unfold Runs bodyOf at h
  cases hm : p.method? m.val with
  | none => simp [hm] at h
  | some method =>
    rw [hm] at h
    dsimp only at h
    split at h
    · simpa [Program.stmt?, hm, Method.stmt?_eq] using h
    · cases h

theorem mem_receives {m : Method} {v : Contextual Local} {o : CObj} {t : Task} :
    t ∈ receives m v o ↔ ∃ i result call, m.stmt? i = some (.invoke result call) ∧
      call.receiver = some v.val.var ∧ t = .receive v o i call := by
  simp only [receives, List.mem_map, Prod.exists, Method.mem_receiverCalls]
  constructor
  · intro ⟨i, call, ⟨result, hcall, hv⟩, ht⟩
    exact ⟨i, result, call, hcall, hv, ht.symm⟩
  · intro ⟨i, result, call, hcall, hv, ht⟩
    exact ⟨i, call, ⟨result, hcall, hv⟩, ht.symm⟩

/-- The accesses of a method to an object through a variable, each with its flow edge. -/
inductive Access (m : Method) (v : Contextual Local) (o : CObj) : Pointer → Pointer → Prop
  | fieldStore {i : Nat} {f : Field} {source : Var}
      (h : m.stmt? i = some (.store (.field v.val.var f) source)) :
      Access m v o (varOf ⟨v.ctx, v.val.method⟩ source) (.field o f)
  | fieldLoad {i : Nat} {f : Field} {lhs : Var}
      (h : m.stmt? i = some (.assign lhs (.load (.field v.val.var f)))) :
      Access m v o (.field o f) (varOf ⟨v.ctx, v.val.method⟩ lhs)
  | arrayStore {i : Nat} {index source : Var}
      (h : m.stmt? i = some (.store (.element v.val.var index) source)) :
      Access m v o (varOf ⟨v.ctx, v.val.method⟩ source) (.elements o)
  | arrayLoad {i : Nat} {index lhs : Var}
      (h : m.stmt? i = some (.assign lhs (.load (.element v.val.var index)))) :
      Access m v o (.elements o) (varOf ⟨v.ctx, v.val.method⟩ lhs)

theorem mem_accessFlows {m : Method} {v : Contextual Local} {o : CObj} {a b : Pointer} :
    (a, b) ∈ accessFlows m v o ↔ Access m v o a b := by
  simp only [accessFlows, List.mem_append, List.mem_map, Prod.exists, Prod.mk.injEq,
    Method.mem_fieldStores, Method.mem_fieldLoads, Method.mem_arrayStores, Method.mem_arrayLoads]
  constructor
  · intro h
    obtain ((⟨i, f, source, hs, rfl, rfl⟩ | ⟨i, f, lhs, hs, rfl, rfl⟩) |
      ⟨i, source, ⟨index, hs⟩, rfl, rfl⟩) | ⟨i, lhs, ⟨index, hs⟩, rfl, rfl⟩ := h
    · exact .fieldStore hs
    · exact .fieldLoad hs
    · exact .arrayStore hs
    · exact .arrayLoad hs
  · intro h
    cases h with
    | fieldStore hs => exact Or.inl (Or.inl (Or.inl ⟨_, _, _, hs, rfl, rfl⟩))
    | fieldLoad hs => exact Or.inl (Or.inl (Or.inr ⟨_, _, _, hs, rfl, rfl⟩))
    | arrayStore hs => exact Or.inl (Or.inr ⟨_, _, ⟨_, hs⟩, rfl, rfl⟩)
    | arrayLoad hs => exact Or.inr ⟨_, _, ⟨_, hs⟩, rfl, rfl⟩

theorem mem_argumentFlows {site : CSite} {callee : CMethod} {m : Method} {call : Call}
    {a b : Pointer} : (a, b) ∈ argumentFlows site callee m call ↔ m.hasBody = true ∧
      ∃ arg q, (arg, q) ∈ call.args.zip m.params ∧ a = varOf ⟨site.ctx, site.val.method⟩ arg ∧
        b = varOf callee q := by
  unfold argumentFlows
  split
  · rename_i hbody
    simp only [List.mem_map, Prod.exists, Prod.mk.injEq, hbody, true_and, eq_comm]
  · rename_i hbody
    simp [hbody]

theorem mem_resultFlows {site : CSite} {callee : CMethod} {m : Method} {result : Option Var}
    {a b : Pointer} : (a, b) ∈ resultFlows site callee m result ↔
      ∃ r v, result = some r ∧ v ∈ m.returnVars ∧ a = varOf callee v ∧
        b = varOf ⟨site.ctx, site.val.method⟩ r := by
  simp only [resultFlows, List.mem_flatMap, Option.mem_toList, List.mem_map, Prod.mk.injEq,
    OrderedSet.mem_iff]
  constructor
  · intro ⟨r, hr, v, hv, ha, hb⟩
    exact ⟨r, v, hr, hv, ha.symm, hb.symm⟩
  · intro ⟨r, v, hr, hv, ha, hb⟩
    exact ⟨r, hr, v, hv, ha.symm, hb.symm⟩

end PointsTo

end HeapFlow
