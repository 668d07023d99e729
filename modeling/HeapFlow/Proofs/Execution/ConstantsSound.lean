import HeapFlow.Proofs.Execution.IntFlow
/-!
# HeapFlow.Proofs.Execution.ConstantsSound

**When interprocedural constant propagation is sound.** In every run of a program that pairs integers
with integers, the fact before a statement admits what the integer variables hold whenever a frame is
about to execute the statement, if the points-to analysis tells the receivers of entry methods apart.

All frames of a method share the facts of its points, whoever called it. A frame that waits for a
callee is admitted by the fact before its call. When the callee returns, what the frame held before
comes along the edge past the call, and the result along the edge from the exit of the callee.

Where two entry methods have the same signature, a method can run that the call graph does not have,
and then the facts are wrong.
-/

namespace HeapFlow

namespace Execution

open Constants

variable {p : Program} {pts : PointsTo} {r : Inter} {m : Method} {f : Frame} {st st' : State}

/-! ### Frames -/

/-- A frame of a method whose variables are admitted by the fact before its node. -/
structure FrameAdmitted (p : Program) (pts : PointsTo) (r : Inter) (m : Method) (f : Frame) :
    Prop where
  method : f.method = m.id
  joined : Joined p pts m
  vars : ∀ v x, f.locals v = some x → v ∈ m.vars
  admits : ⟨m.id, f.node⟩ ∈ (settingOf p pts).icfg.nodes →
    (r.factBefore ⟨m.id, f.node⟩).Admits f.locals

theorem bodyOf_eq (ha : Analysed p pts r) (hm : Joined p pts m) :
    PointsTo.bodyOf p m.id = m.stmts := by
  simp only [PointsTo.bodyOf, hm.inPlace]
  split
  · rfl
  · rename_i hbody
    exact ((ha.complete m.id m hm.inPlace).body (by simpa using hbody)).symm

section Frames

variable (ha : Analysed p pts r) {i : Nat} {s : Stmt} {n : Node}

include ha

namespace FrameAdmitted

theorem stmt (h : FrameAdmitted p pts r m f) (hat : AtStmt p f i s) : m.stmts[i]? = some s := by
  rw [← bodyOf_eq ha h.joined, ← h.method]
  exact hat.2

theorem exists_edge (h : FrameAdmitted p pts r m f) (hnext : Next p f i s n) :
    ∃ d ∈ Cfg.stmtEdges m.stmts.length i s, d.target = n := by
  rw [← bodyOf_eq ha h.joined, ← h.method]
  exact hnext

/-- The fact before a statement that is about to be executed admits the variables. -/
theorem here (h : FrameAdmitted p pts r m f) (hat : AtStmt p f i s) :
    (r.factBefore ⟨m.id, .stmt i⟩).Admits f.locals := by
  rw [← hat.1]
  refine h.admits ?_
  rw [hat.1]
  exact h.joined.stmt_mem ha (h.stmt ha hat)

/-- The frame goes on to a node, where at least as much is admitted of all variables but the one that
the statement defines. -/
theorem receive (h : FrameAdmitted p pts r m f) (hat : AtStmt p f i s) {x : Option Val}
    (hkeep : ⟨m.id, n⟩ ∈ (settingOf p pts).icfg.nodes →
      ∀ j, (∀ v, s.defined? = some v → v.ty.holdsInt = true → v.index ≠ j) →
        (r.factBefore ⟨m.id, .stmt i⟩).get j ≤ (r.factBefore ⟨m.id, n⟩).get j)
    (hx : ⟨m.id, n⟩ ∈ (settingOf p pts).icfg.nodes →
      ∀ v y, s.defined? = some v → x = some y → v.ty.holdsInt = true →
        ((r.factBefore ⟨m.id, n⟩).get v.index).Admits y) :
    FrameAdmitted p pts r m ((f.receive s.defined? x).moveTo n) := by
  have hscoped := (ha.complete m.id m h.joined.inPlace).vars
  have hdefined : ∀ v, s.defined? = some v → v ∈ m.vars :=
    hscoped.defined s (List.mem_of_getElem? (h.stmt ha hat))
  refine ⟨(Frame.method_receive f _ x).trans h.method, h.joined, fun w y hy => ?_, fun hn => ?_⟩
  · obtain ⟨hv, -⟩ | ⟨-, hy⟩ := Frame.locals_receive hy
    · exact hdefined w hv
    · exact h.vars w y hy
  · exact (h.here ha hat).receive hscoped h.vars hdefined (hkeep hn) (hx hn)

/-- An assignment of a value that is admitted. -/
theorem assign (h : FrameAdmitted p pts r m f) {lhs : Var} {e : Expr} {x : Val}
    (hat : AtStmt p f i (.assign lhs e)) (hnext : Next p f i (.assign lhs e) n)
    (hx : lhs.ty.holdsInt = true → (assigned (settingOf p pts) ⟨m.id, .stmt i⟩ r.heap
      (r.factBefore ⟨m.id, .stmt i⟩) e).Admits x) :
    FrameAdmitted p pts r m ((f.put lhs (some x)).moveTo n) := by
  have hs := h.stmt ha hat
  obtain ⟨d, hd, rfl⟩ := h.exists_edge ha hnext
  have hafter : r.factAfter ⟨m.id, .stmt i⟩ = if lhs.ty.holdsInt then
      (r.factBefore ⟨m.id, .stmt i⟩).update lhs.index (assigned (settingOf p pts)
        ⟨m.id, .stmt i⟩ r.heap (r.factBefore ⟨m.id, .stmt i⟩) e)
      else r.factBefore ⟨m.id, .stmt i⟩ := by
    rw [(ha.settled _ (h.joined.stmt_mem ha hs)).after]
    exact after_of_assign ((h.joined.stmtAt? i).trans hs) r.heap _
  refine h.receive ha hat (fun hn j hj => ?_) (fun hn v y hv hy hint => ?_)
  · refine le_trans ?_ (h.joined.factAfter_le ha hs rfl hd hn j)
    rw [hafter]
    split
    · rename_i hint
      rw [Fact.get_update, if_neg (hj lhs rfl hint)]
    · exact le_rfl
  · cases hv
    cases hy
    refine (hx hint).mono (le_trans ?_ (h.joined.factAfter_le ha hs rfl hd hn lhs.index))
    rw [hafter, if_pos hint, Fact.get_update, if_pos rfl]

/-- A statement that defines nothing. -/
theorem pass (h : FrameAdmitted p pts r m f) (hat : AtStmt p f i s) (hnext : Next p f i s n)
    (hassign : ∀ lhs e, s ≠ .assign lhs e) (hcall : s.isInvoke = false) :
    FrameAdmitted p pts r m (f.moveTo n) := by
  have hs := h.stmt ha hat
  obtain ⟨d, hd, rfl⟩ := h.exists_edge ha hnext
  refine ⟨h.method, h.joined, h.vars, fun hn => (h.here ha hat).mono ?_⟩
  rw [← h.joined.factAfter ha hs hassign]
  exact h.joined.factAfter_le ha hs hcall hd hn

/-- A call that has returned. -/
theorem afterCall (h : FrameAdmitted p pts r m f) {result : Option Var} {call : Call}
    (hat : AtStmt p f i (.invoke result call)) (hnext : Next p f i (.invoke result call) n)
    {x : Option Val} (hx : ⟨m.id, n⟩ ∈ (settingOf p pts).icfg.nodes →
      ∀ v y, result = some v → x = some y → v.ty.holdsInt = true →
        ((r.factBefore ⟨m.id, n⟩).get v.index).Admits y) :
    FrameAdmitted p pts r m ((f.receive result x).moveTo n) := by
  have hs := h.stmt ha hat
  obtain ⟨d, hd, rfl⟩ := h.exists_edge ha hnext
  refine h.receive ha hat (fun hn j hj => ?_) hx
  refine le_trans (le_of_eq (get_pastCall_of_ne (fun w hw => ?_) _).symm)
    (h.joined.pastCall_le ha hs hd hn j)
  obtain ⟨hw, hint⟩ := (intResult?_eq_some ((h.joined.stmtAt? i).trans hs)).1 hw
  exact hj w hw hint

end FrameAdmitted

end Frames

/-! ### The stack -/

/-- The frames below one of a method are admitted. Each of them waits at a call of the method above it,
which returns integers where the call takes one. -/
inductive Waiting (p : Program) (pts : PointsTo) (r : Inter) : Method → List Frame → Prop
  | nil (callee : Method) : Waiting p pts r callee []
  | cons {callee m : Method} {f : Frame} {rest : List Frame} {i : Nat} {result : Option Var}
      {call : Call} (hframe : FrameAdmitted p pts r m f)
      (hat : AtStmt p f i (.invoke result call))
      (hcallee : callee.id ∈ pts.methodGraph.callees ⟨m.id, i⟩)
      (hreturns : ∀ w, result = some w → w.ty.holdsInt = true →
        ∀ v ∈ callee.returnVars, v.ty.holdsInt = true)
      (hrest : Waiting p pts r m rest) : Waiting p pts r callee (f :: rest)

/-- A state whose heap and frames are admitted. -/
structure StateAdmitted (p : Program) (pts : PointsTo) (r : Inter) (st : State) : Prop where
  heap : r.heap.Admits st
  stack : ∀ f rest, st.frames = f :: rest →
    ∃ m, FrameAdmitted p pts r m f ∧ Waiting p pts r m rest

theorem Waiting.mem {callee : Method} {frames : List Frame} (h : Waiting p pts r callee frames)
    (hf : f ∈ frames) : ∃ m, FrameAdmitted p pts r m f := by
  induction h with
  | nil => cases hf
  | cons hframe _ _ _ _ ih =>
    obtain rfl | hf := List.mem_cons.1 hf
    · exact ⟨_, hframe⟩
    · exact ih hf

theorem StateAdmitted.mem (h : StateAdmitted p pts r st) (hf : f ∈ st.frames) :
    ∃ m, FrameAdmitted p pts r m f := by
  cases hframes : st.frames with
  | nil =>
    rw [hframes] at hf
    cases hf
  | cons g rest =>
    obtain ⟨m, hframe, hrest⟩ := h.stack g rest hframes
    rw [hframes] at hf
    obtain rfl | hf := List.mem_cons.1 hf
    · exact ⟨m, hframe⟩
    · exact hrest.mem hf

/-- The frames are replaced. -/
theorem StateAdmitted.withFrames {rest : List Frame} (hheap : r.heap.Admits st)
    (hframe : FrameAdmitted p pts r m f) (hrest : Waiting p pts r m rest) :
    StateAdmitted p pts r (st.withFrames (f :: rest)) := by
  refine ⟨hheap.of_eq rfl rfl, fun g rest' heq => ?_⟩
  obtain ⟨rfl, rfl⟩ := List.cons.inj heq
  exact ⟨m, hframe, hrest⟩

/-! ### Steps -/

/-- A method that a run has entered is in the call graph. -/
theorem Covered.joined (hcovered : Covered pts st) (hm : p.method? m.id = some m)
    (hentered : m.id ∈ st.entered) : Joined p pts m :=
  ⟨hm, hcovered.entered m.id hentered⟩

section Steps

variable (ha : Analysed p pts r) {rest : List Frame} {i : Nat}

include ha

/-- An entry method starts. -/
theorem FrameAdmitted.start (hm : Joined p pts m) (hid : m.id ∈ p.entries) (a : Nat)
    (args : Var → Plain) : FrameAdmitted p pts r m
      ⟨m.id, firstNode (PointsTo.bodyOf p m.id), entryLocals m a args⟩ := by
  have hscoped := (ha.complete m.id m hm.inPlace).vars
  refine ⟨rfl, hm, fun v x hx => ?_, fun hn => ?_⟩
  · have hx : entryLocals m a args v = some x := hx
    unfold entryLocals at hx
    split at hx
    · rename_i hthis
      exact Method.mem_vars_of_receiver? hthis
    · split at hx
      · rename_i hparam
        exact hscoped.params.subset hparam
      · cases hx
  · rw [bodyOf_eq ha hm] at hn ⊢
    exact (entryLocals_admitted hscoped a args).mono (hm.entryFact_le ha hid hn)

/-- The edge of the call graph that a run takes is one that the statement makes. -/
theorem callsMethod_of_called (hm : Joined p pts m) {result : Option Var} {call : Call}
    (hs : m.stmts[i]? = some (.invoke result call)) {callee : MethodId}
    (hmem : callee ∈ pts.methodGraph.callees ⟨m.id, i⟩) :
    ∃ m', p.method? callee = some m' ∧ m'.id = callee ∧ call.subsignature = m'.subsignature ∧
      call.kind ≠ .dynamic := by
  obtain ⟨e, he, hends⟩ := PointsTo.methodGraph_indexed.mem_callees.1 hmem
  obtain ⟨hsite, rfl⟩ := Prod.mk.inj hends
  obtain ⟨m', result', call', hm', hid, hstmt, hsub, hkind⟩ := ha.calls e he
  have hsame : p.stmt? ⟨m.id, i⟩ = some (.invoke result call) := (hm.stmtAt? i).trans hs
  rw [hsite, hsame] at hstmt
  cases hstmt
  exact ⟨m', hm', hid, hsub, hkind⟩

/-- **A callee starts.** -/
theorem FrameAdmitted.enter (h : FrameAdmitted p pts r m f) {result : Option Var} {call : Call}
    (hat : AtStmt p f i (.invoke result call)) {callee : Method} {receiver : Option Val}
    {args : List Val} (hselects : Selects p st f call callee.id callee receiver)
    (hargs : List.Forall₂ (fun v x => Reads (fun _ => False) (f.locals v) x) call.args args)
    (hlength : call.args.length = callee.params.length)
    (hpairs : PairsAt p st f (.invoke result call)) (hcallee : Joined p pts callee)
    (hmem : callee.id ∈ pts.methodGraph.callees ⟨m.id, i⟩) :
    FrameAdmitted p pts r callee
      ⟨callee.id, firstNode (PointsTo.bodyOf p callee.id), calleeLocals callee receiver args⟩ := by
  have hs := h.stmt ha hat
  have hscoped := (ha.complete callee.id callee hcallee.inPlace).vars
  obtain ⟨m', hm', -, hsub, hkind⟩ := callsMethod_of_called ha h.joined hs hmem
  obtain rfl := Option.some.inj (hcallee.inPlace.symm.trans hm')
  refine ⟨rfl, hcallee, fun v x hx => ?_, fun hn => ?_⟩
  · obtain ⟨hthis, -⟩ | hmem := calleeLocals_cases hx
    · exact Method.mem_vars_of_receiver? hthis
    · exact hscoped.params.subset (List.of_mem_zip hmem).1
  · rw [bodyOf_eq ha hcallee] at hn ⊢
    refine (calleeLocals_admitted (h.here ha hat) ((h.joined.stmtAt? i).trans hs) hselects hscoped
      hkind hsub hargs hlength hpairs).mono ?_
    exact h.joined.intoCallee_le ha hs hcallee hmem hn

/-- **A callee returns.** Its result is admitted by what the edge from its exit brings. -/
theorem FrameAdmitted.leave (h : FrameAdmitted p pts r m f) {result : Option Var} {call : Call}
    (hat : AtStmt p f i (.invoke result call)) {n : Node}
    (hnext : Next p f i (.invoke result call) n) {callee : Method} {g : Frame}
    (hg : FrameAdmitted p pts r callee g) {x : Option Val}
    (hreturn : Returns p (fun _ => False) g x)
    (hmem : callee.id ∈ pts.methodGraph.callees ⟨m.id, i⟩)
    (hreturns : ∀ w, result = some w → w.ty.holdsInt = true →
      ∀ v ∈ callee.returnVars, v.ty.holdsInt = true) :
    FrameAdmitted p pts r m ((f.receive result x).moveTo n) := by
  refine h.afterCall ha hat hnext fun hn w y hw hy hint => ?_
  cases hreturn with
  | void => cases hy
  | done => cases hy
  | @value j v x hat' hread =>
    cases hy
    have hs := h.stmt ha hat
    have hs' := hg.stmt ha hat'
    obtain ⟨d, hd, rfl⟩ := h.exists_edge ha hnext
    have hv : v ∈ callee.returnVars := Method.mem_returnVars.2 ⟨j, (callee.stmt?_eq j).trans hs'⟩
    have hhere := hg.here ha hat' v y hread.eq_some (hreturns w hw hint v hv)
    -- from the return to the exit, and from there to what follows the call
    have hexit := hg.joined.exit_mem ha hs'
    have hret : (⟨.ret, .stmt j, .exit⟩ : Cfg.Edge) ∈
        Cfg.stmtEdges callee.stmts.length j (.ret (some v)) := List.mem_singleton_self _
    have hle := hg.joined.factAfter_le ha hs' rfl hret hexit v.index
    rw [hg.joined.factAfter ha hs' (by simp)] at hle
    have hresult : intResult? (settingOf p pts) (⟨m.id, i⟩ : Site).point = some w :=
      (intResult?_eq_some ((h.joined.stmtAt? i).trans hs)).2 ⟨hw, hint⟩
    have hback := le_get_outOfCallee hresult hg.joined.inPlace hv (r.factBefore ⟨callee.id, .exit⟩)
    have hout := h.joined.outOfCallee_le ha hs hd hg.joined hmem hexit hn w.index
    exact hhere.mono (hle.trans (hback.trans hout))

/-- A call that is not resolved has no callee in the graph. -/
theorem hasCallee_of_dynamic (hm : Joined p pts m) {result : Option Var} {call : Call}
    (hs : m.stmts[i]? = some (.invoke result call)) (hkind : call.kind = .dynamic) :
    hasCallee (settingOf p pts) ⟨m.id, .stmt i⟩ = false := by
  refine List.any_eq_false.2 fun callee hmem => ?_
  obtain ⟨-, -, -, -, hnot⟩ := callsMethod_of_called ha hm hs hmem
  exact absurd hkind hnot

theorem StateAdmitted.start (h : StateAdmitted p pts r st) {id : MethodId} {args : Var → Plain}
    (hcovered : Covered pts (st.start p id m args)) (hid : id ∈ p.entries)
    (hm : p.method? id = some m) : StateAdmitted p pts r (st.start p id m args) := by
  obtain ⟨m', hm', rfl⟩ := ha.inPlace id hid
  obtain rfl := Option.some.inj (hm.symm.trans hm')
  have hjoined := hcovered.joined hm List.mem_cons_self
  refine ⟨?_, fun g rest heq => ?_⟩
  · cases hthis : m.receiver?.isSome with
    | false => exact h.heap.of_eq (by simp [State.start, hthis]) rfl
    | true =>
      have hheap : (st.start p m.id m args).heap = st.heap ++ [.fresh (ownReceiver p m.id)] := by
        simp [State.start, hthis]
      exact (h.heap.push (ownReceiver p m.id)).of_eq hheap rfl
  · obtain ⟨rfl, rfl⟩ := List.cons.inj heq
    exact ⟨m, .start ha hjoined hid _ args, .nil m⟩

theorem StateAdmitted.call (h : StateAdmitted p pts r st) {result : Option Var} {call : Call}
    {callee : MethodId} {receiver : Option Val} {args : List Val}
    (hcovered : Covered pts
      (st.enter p ⟨call.kind, ⟨f.method, i⟩, callee⟩ (calleeLocals m receiver args)))
    (hframes : st.frames = f :: rest) (hat : AtStmt p f i (.invoke result call))
    (hselects : Selects p st f call callee m receiver)
    (hargs : List.Forall₂ (fun v x => Reads (fun _ => False) (f.locals v) x) call.args args)
    (hlength : call.args.length = m.params.length)
    (hpairs : PairsAt p st f (.invoke result call)) : StateAdmitted p pts r
      (st.enter p ⟨call.kind, ⟨f.method, i⟩, callee⟩ (calleeLocals m receiver args)) := by
  obtain ⟨caller, hframe, hrest⟩ := h.stack f rest hframes
  -- the call that is executed is in the graph, and so its callee is a method in its place
  have hedge := hcovered.called ⟨call.kind, ⟨f.method, i⟩, callee⟩ List.mem_cons_self
  have hmem : callee ∈ pts.methodGraph.callees ⟨caller.id, i⟩ := by
    rw [← hframe.method]
    exact PointsTo.methodGraph_indexed.mem_callees.2 ⟨_, hedge, rfl⟩
  obtain ⟨m', hm', rfl, -⟩ := callsMethod_of_called ha hframe.joined (hframe.stmt ha hat) hmem
  obtain rfl := Option.some.inj (hselects.method?.symm.trans hm')
  have hjoined := hcovered.joined hm' List.mem_cons_self
  have hreturns : ∀ w, result = some w → w.ty.holdsInt = true →
      ∀ v ∈ m.returnVars, v.ty.holdsInt = true := by
    rintro w rfl hint v hv
    exact hpairs _ _ (.result hselects hv) hint
  refine ⟨h.heap.of_eq rfl rfl, fun g rest' heq => ?_⟩
  obtain ⟨rfl, rfl⟩ := List.cons.inj heq
  refine ⟨m, hframe.enter ha hat hselects hargs hlength hpairs hjoined hmem, ?_⟩
  rw [hframes]
  exact .cons hframe hat hmem hreturns hrest

/-- Nothing is known of the result of a call that is not resolved. -/
theorem FrameAdmitted.callDynamic (h : FrameAdmitted p pts r m f) {result : Option Var}
    {call : Call} (hat : AtStmt p f i (.invoke result call)) (hkind : call.kind = .dynamic)
    {n : Node} (hnext : Next p f i (.invoke result call) n) (x : Option Val) :
    FrameAdmitted p pts r m ((f.receive result x).moveTo n) := by
  refine h.afterCall ha hat hnext fun hn w y hw _ hint => ?_
  have hs := h.stmt ha hat
  obtain ⟨d, hd, rfl⟩ := h.exists_edge ha hnext
  have hresult := (intResult?_eq_some ((h.joined.stmtAt? i).trans hs)).2 ⟨hw, hint⟩
  have hle := h.joined.pastCall_le ha hs hd hn w.index
  rw [get_pastCall_of_noCallee hresult (hasCallee_of_dynamic ha h.joined hs hkind),
    Value.nac_le_iff] at hle
  rw [hle]
  trivial

/-- **Each step keeps the state admitted.** -/
theorem StateAdmitted.step (h : StateAdmitted p pts r st) (hcovered : Covered pts st)
    (hcovered' : Covered pts st')
    (hpairs : ∀ f rest i s, st.frames = f :: rest → AtStmt p f i s → PairsAt p st f s)
    (hstep : RunStep p (fun _ => False) st st') : StateAdmitted p pts r st' := by
  have htop {f : Frame} {rest : List Frame} (hframes : st.frames = f :: rest) : f ∈ st.frames := by
    simp [hframes]
  cases hstep with
  | start hframes hid hm => exact h.start ha hcovered' hid hm
  | @assign f rest i lhs e x n hframes hat hx hnext =>
    obtain ⟨m, hframe, hrest⟩ := h.stack f rest hframes
    have hfact := hframe.here ha hat
    refine .withFrames h.heap (hframe.assign ha hat hnext fun hint => ?_) hrest
    rw [← hframe.method] at hfact ⊢
    exact evaluates_admitted h.heap hfact hcovered (htop hframes) (hpairs f rest i _ hframes hat)
      hint hx
  | @allocate f rest i lhs what n hframes hat hnext =>
    obtain ⟨m, hframe, hrest⟩ := h.stack f rest hframes
    exact .withFrames (h.heap.push _) (hframe.assign ha hat hnext fun _ => trivial) hrest
  | @store f rest i place source x n st' hframes hat hx hstore hnext =>
    obtain ⟨m, hframe, hrest⟩ := h.stack f rest hframes
    have hheap : r.heap.Admits st' := by
      refine stores_admitted (n := .stmt i) h.heap (hframe.here ha hat) hcovered (htop hframes)
        (hpairs f rest i _ hframes hat) (fun hint slot hslot => ?_) hx hstore
      rw [hframe.method] at hslot
      exact hframe.joined.stored_le ha (hframe.stmt ha hat) hint hslot
    exact .withFrames hheap (hframe.pass ha hat hnext (by simp) rfl) hrest
  | @pass f rest i s n hframes hat hs hnext =>
    obtain ⟨m, hframe, hrest⟩ := h.stack f rest hframes
    refine .withFrames h.heap (hframe.pass ha hat hnext ?_ ?_) hrest
    · rintro lhs e rfl
      exact hs
    · cases s with
      | invoke => exact hs.elim
      | _ => rfl
  | call hframes hat hselects _ hargs hlength =>
    exact h.call ha hcovered' hframes hat hselects hargs hlength (hpairs _ _ _ _ hframes hat)
  | @callDynamic f rest i result call n hframes hat hkind q hnext =>
    obtain ⟨m, hframe, hrest⟩ := h.stack f rest hframes
    exact .withFrames h.heap (hframe.callDynamic ha hat hkind hnext _) hrest
  | @leave f caller rest x i result call n hframes hreturn hat hnext =>
    obtain ⟨m, hframe, hrest⟩ := h.stack f (caller :: rest) hframes
    cases hrest with
    | @cons _ m' _ _ i' result' call' hcaller hat' hmem hreturns hrest' =>
      -- the call of the step is the one at which the caller waits
      obtain rfl : i' = i := Node.stmt.inj (hat'.1.symm.trans hat.1)
      cases hat'.2.symm.trans hat.2
      exact .withFrames h.heap (hcaller.leave ha hat hnext hframe hreturn hmem hreturns) hrest'
  | finish hframes hreturn => exact ⟨h.heap.of_eq rfl rfl, fun g rest heq => nomatch heq⟩

end Steps

/-! ### Runs -/

section Sound

variable {policy : Policy} {heap : Heap} {contexts : Contexts} {fuel limit : Nat}
  {ans : PointsTo.Answer}

/-- In every run all states are admitted. -/
theorem reachable_admitted (ha : Analysed p pts r) (hpairs : PairsInts p)
    (hcovered : ∀ st, Reachable p (fun _ => False) st → Covered pts st)
    (hst : Reachable p (fun _ => False) st) : StateAdmitted p pts r st := by
  induction hst with
  | initial =>
    refine ⟨⟨fun o ho => ?_, fun g x hx => ?_⟩, fun f rest heq => ?_⟩
    · cases ho
    · cases hx
    · cases heq
  | @step st st' hst hstep ih =>
    exact ih.step ha (hcovered st hst) (hcovered st' (hst.step hstep)) (hpairs st hst) hstep

/-- **Constant propagation is sound for every run, if integers are paired with integers and the
receivers of entry methods can be told apart.** -/
theorem inter_sound (hp : p.Opened)
    (h : PointsTo.solve p policy fuel heap contexts = some ans) (hok : ans.failure = none)
    (hdistinct : DistinctReceivers p heap) (hpairs : PairsInts p)
    (hr : inter (settingOf p ans.state.found) limit = some r)
    (hst : Reachable p (fun _ => False) st) (hf : f ∈ st.frames) {i : Nat} {s : Stmt}
    (hat : AtStmt p f i s) : (r.factBefore ⟨f.method, .stmt i⟩).Admits f.locals := by
  have ha := analysed_of_inter hp h hok hr
  have hcovered (st : State) (hst : Reachable p (fun _ => False) st) :
      Covered ans.state.found st := reachable_covered h hok (ownReceivers_iff.2 hdistinct) hst
  obtain ⟨m, hframe⟩ := (reachable_admitted ha hpairs hcovered hst).mem hf
  rw [hframe.method]
  exact hframe.here ha hat

end Sound

/-! ### Two counters -/

/-- Two classes `a` and `b`, each with an entry method `f` that takes the number that the method `g` of
its class returns: one in `a` and two in `b`. The first `f` is declared to return the class `c`. -/
def twoCounters (a b c : String) : Json.Value :=
  let var (name : String) : Json.Value := .obj [("name", .str name), ("type", .str "int")]
  let g (n : Int) : Json.Value := .obj [("name", .str "g"), ("return", .str "int"),
    ("vars", .arr [var "y"]), ("body", .arr [
      .obj [("op", .str "const"), ("lhs", .str "y"), ("value", .num (.int n))],
      .obj [("op", .str "return"), ("var", .str "y")]])]
  let f (owner result : String) : Json.Value := .obj [("name", .str "f"), ("return", .str result),
    ("vars", .arr [var "x"]), ("body", .arr [
      .obj [("op", .str "invoke"), ("lhs", .str "x"), ("kind", .str "virtual"),
        ("class", .str owner), ("method", .str "int g()"), ("base", .str "this")],
      .obj [("op", .str "return")]])]
  .obj [("classes", .arr [.obj [("name", .str a), ("methods", .arr [f a c, g 1])],
      .obj [("name", .str b), ("methods", .arr [f b "void", g 2])], .obj [("name", .str c)]]),
    ("entries", .arr [.str (a ++ ".f"), .str (b ++ ".f")])]

/-- The program that `twoCounters` describes. -/
def twoCountersProgram (a b c : String) : Program := .described (twoCounters a b c)

/-- The variable that takes the number. -/
def counted : Var := ⟨1, "x", .int⟩

/-- The variable that is returned. -/
def number : Var := ⟨1, "y", .int⟩

/-- The call of `g` in the class `owner`. -/
def countCall (owner : ClassRef) : Call :=
  ⟨.virtual, some owner, "int g()", some ⟨0, "this", .cls owner⟩, []⟩

/-- The methods of the second class of `twoCounters`. -/
structure CountsTwo (p : Program) (owner : ClassRef) : Prop where
  entry : ⟨owner, 0⟩ ∈ p.entries
  receiver : (p.method? ⟨owner, 0⟩).bind Method.receiver? = some ⟨0, "this", .cls owner⟩
  body : PointsTo.bodyOf p ⟨owner, 0⟩ = [.invoke (some counted) (countCall owner), .ret none]
  callee : p.resolveByReceiver (some owner) (countCall owner) = some ⟨owner, 1⟩
  declared : (p.method? ⟨owner, 1⟩).map (fun m => (m.receiver?, m.hasBody, m.params)) =
    some (some ⟨0, "this", .cls owner⟩, true, [])
  calleeBody : PointsTo.bodyOf p ⟨owner, 1⟩ = [.assign number (.int 2), .ret (some number)]

/-- The run that starts the second `f` comes back from `g` with the number two. -/
theorem CountsTwo.exists_run {owner : ClassRef} (h : CountsTwo p owner) :
    ∃ st f, Reachable p (fun _ => False) st ∧ f ∈ st.frames ∧ f.method = ⟨owner, 0⟩ ∧
      AtStmt p f 1 (.ret none) ∧ f.locals counted = some (.plain (.int 2)) := by
  obtain ⟨m, hm, hthis⟩ := Option.bind_eq_some_iff.1 h.receiver
  obtain ⟨g, hg, hdeclared⟩ := Option.map_eq_some_iff.1 h.declared
  simp only [Prod.mk.injEq] at hdeclared
  obtain ⟨hthis', hbody, hparams⟩ := hdeclared
  have hcalleeNode : firstNode (PointsTo.bodyOf p ⟨owner, 1⟩) = .stmt 0 := by
    rw [h.calleeBody]
    rfl
  have hnode : firstNode (PointsTo.bodyOf p ⟨owner, 0⟩) = .stmt 0 := by
    rw [h.body]
    rfl
  -- the second `f` starts
  let caller : Frame := ⟨⟨owner, 0⟩, firstNode (PointsTo.bodyOf p ⟨owner, 0⟩),
    entryLocals m 0 fun _ => .null⟩
  let st := State.initial.start p ⟨owner, 0⟩ m fun _ => .null
  have hstart : Reachable p (fun _ => False) st :=
    .step .initial (.start rfl h.entry hm fun _ _ => rfl)
  have hat : AtStmt p caller 0 (.invoke (some counted) (countCall owner)) :=
    ⟨hnode, by simp [caller, h.body]⟩
  -- it calls `g` on its receiver
  have hobject : st.heap[0]? = some (.fresh (ownReceiver p ⟨owner, 0⟩)) := by
    simp [st, State.start, State.initial, hthis]
  have hselects : Selects p st caller (countCall owner) ⟨owner, 1⟩ g (some (.ref 0)) :=
    .onReceiver (by simp [countCall]) rfl (if_pos hthis) hobject h.callee hg hthis'
  have hlength : (countCall owner).args.length = g.params.length := by rw [hparams]; rfl
  have hcalled := hstart.step (.call rfl hat hselects hbody .nil hlength)
  -- there the number is assigned and returned
  let callee : Frame := ⟨⟨owner, 1⟩, firstNode (PointsTo.bodyOf p ⟨owner, 1⟩),
    calleeLocals g (some (.ref 0)) []⟩
  have hat₀ : AtStmt p callee 0 (.assign number (.int 2)) :=
    ⟨hcalleeNode, by simp [callee, h.calleeBody]⟩
  have hnext : Next p callee 0 (.assign number (.int 2)) (.stmt 1) :=
    ⟨⟨.fallThrough, .stmt 0, .stmt 1⟩, by simp [callee, h.calleeBody, Cfg.stmtEdges, Cfg.next], rfl⟩
  have hassigned := hcalled.step (.assign rfl hat₀ (.int 2) hnext)
  let done : Frame := (callee.put number (some (.plain (.int 2)))).moveTo (.stmt 1)
  have hat₁ : AtStmt p done 1 (.ret (some number)) :=
    ⟨rfl, by simp [done, callee, Frame.moveTo, Frame.put, h.calleeBody]⟩
  have hreturns : Returns p (fun _ => False) done (some (.plain (.int 2))) :=
    .value hat₁ (.assigned _)
  have hback : Next p caller 0 (.invoke (some counted) (countCall owner)) (.stmt 1) :=
    ⟨⟨.fallThrough, .stmt 0, .stmt 1⟩, by simp [caller, h.body, Cfg.stmtEdges, Cfg.next], rfl⟩
  have hleft := hassigned.step (.leave rfl hreturns hat hback)
  refine ⟨_, _, hleft, List.mem_cons_self, rfl, ⟨rfl, ?_⟩, rfl⟩
  simp [Frame.moveTo, Frame.receive, Frame.put, h.body]

/-- With unlike signatures the number is the one that the analysis has found. -/
theorem twoCounters_admitted : ∃ ans r st f,
    PointsTo.solve (twoCountersProgram "A" "B" "C") .insensitive 100 .empty .initial = some ans ∧
      ans.failure = none ∧
      inter (settingOf (twoCountersProgram "A" "B" "C") ans.state.found) 100 = some r ∧
      Reachable (twoCountersProgram "A" "B" "C") (fun _ => False) st ∧ f ∈ st.frames ∧
      AtStmt (twoCountersProgram "A" "B" "C") f 1 (.ret none) ∧
      f.locals counted = some (.plain (.int 2)) ∧
      (r.factBefore ⟨f.method, .stmt 1⟩).Admits f.locals := by
  have hrun : (PointsTo.solve (twoCountersProgram "A" "B" "C") .insensitive 100 .empty
      .initial).bind (fun ans =>
        (inter (settingOf (twoCountersProgram "A" "B" "C") ans.state.found) 100).map fun _ =>
          (ans.failure, decide (∀ v ∈ ans.state.found.vars, ∀ o ∈ (ans.state.found.ofVar v).toList,
            o.ty.element.holdsInt = v.var.ty.element.holdsInt))) = some (none, true) := by
    decide +kernel
  obtain ⟨ans, hans, hresult⟩ := Option.bind_eq_some_iff.1 hrun
  obtain ⟨r, hr, hchecks⟩ := Option.map_eq_some_iff.1 hresult
  obtain ⟨hok, htyped⟩ := Prod.mk.inj hchecks
  have hopened : (twoCountersProgram "A" "B" "C").Opened :=
    Program.opened_described (by decide +kernel) (by decide +kernel)
  have hdistinct : DistinctReceivers (twoCountersProgram "A" "B" "C") .empty := by
    refine ⟨by decide +kernel, ?_⟩
    intro id _ _ o ho
    cases ho
  have hpairs : PairsInts (twoCountersProgram "A" "B" "C") :=
    pairsInts_of_declared hopened.loaded.wellFormed (by decide +kernel)
      (arraysTyped_of_solve hans hok hdistinct (of_decide_eq_true htyped))
  have hcounts : CountsTwo (twoCountersProgram "A" "B" "C") ⟨1, "B"⟩ :=
    ⟨by decide +kernel, by decide +kernel, by decide +kernel, by decide +kernel, by decide +kernel,
      by decide +kernel⟩
  obtain ⟨st, f, hst, hf, -, hat, hx⟩ := hcounts.exists_run
  exact ⟨ans, r, st, f, hans, hok, hr, hst, hf, hat, hx,
    inter_sound hopened hans hok hdistinct hpairs hr hst hf hat⟩

/-- **With like signatures a constant can be wrong.** The signature of both methods `f` is
`<A: B: void f()>`, so the second `f` is analysed with an object of the class `A`, whose `g` returns one,
while the second `f` takes two from the `g` of its own class. -/
theorem twoCounters_not_admitted : ∃ p ans r st f,
    Document.ofJson (twoCounters "A" "A: B" "B: void") = .ok p ∧ p.DeclaresPairs ∧
      PointsTo.solve p .insensitive 100 .empty .initial = some ans ∧ ans.failure = none ∧
      inter (settingOf p ans.state.found) 100 = some r ∧ Reachable p (fun _ => False) st ∧
      f ∈ st.frames ∧ AtStmt p f 1 (.ret none) ∧ counted.ty.holdsInt = true ∧
      f.locals counted = some (.plain (.int 2)) ∧
      (r.factBefore ⟨f.method, .stmt 1⟩).get counted.index = .const 1 := by
  let p := twoCountersProgram "A" "A: B" "B: void"
  have hp : Document.ofJson (twoCounters "A" "A: B" "B: void") = .ok p :=
    ofJson_eq_described (by decide +kernel)
  have hrun : (PointsTo.solve p .insensitive 100 .empty .initial).bind (fun ans =>
      (inter (settingOf p ans.state.found) 100).map fun r =>
        (ans.failure, (r.factBefore ⟨⟨⟨1, "A: B"⟩, 0⟩, .stmt 1⟩).get 1)) =
      some (none, .const 1) := by
    decide +kernel
  obtain ⟨ans, hans, hresult⟩ := Option.bind_eq_some_iff.1 hrun
  obtain ⟨r, hr, hvalues⟩ := Option.map_eq_some_iff.1 hresult
  obtain ⟨hok, hone⟩ := Prod.mk.inj hvalues
  have hcounts : CountsTwo p ⟨1, "A: B"⟩ :=
    ⟨by decide +kernel, by decide +kernel, by decide +kernel, by decide +kernel, by decide +kernel,
      by decide +kernel⟩
  obtain ⟨st, f, hst, hf, hmethod, hat, hx⟩ := hcounts.exists_run
  refine ⟨p, ans, r, st, f, hp, by decide +kernel, hans, hok, hr, hst, hf, hat, rfl, hx, ?_⟩
  rw [hmethod]
  exact hone

end Execution

end HeapFlow
