import HeapFlow.Proofs.DeadCode
import HeapFlow.Proofs.Execution.Runs
import HeapFlow.Proofs.Liveness
/-!
# HeapFlow.Proofs.Execution.Dropped

**What is reported as dead can be dropped** (`Runs.dropped_runs_alike`). A run in which variables have
the constants that the facts bind them to takes feasible edges only, so it never comes to a statement
that is reported as unreachable. Next to it runs the body in which all reported statements are replaced
by `nop` at once. The two go in lockstep: they are always at the same node, with the same world, and
agree on every variable that is read before it is defined again. A dead assignment changes no such
variable, neither when it is executed nor when it is dropped.
-/

namespace HeapFlow

namespace Runs

open Liveness

/-! ### Dropping statements -/

/-- A body in which the statements at some indexes are replaced by `nop`. -/
def drop (dead : List Nat) (body : List Stmt) : List Stmt :=
  body.mapIdx fun i s => if i ∈ dead then .nop else s

theorem length_drop (dead : List Nat) (body : List Stmt) : (drop dead body).length = body.length :=
  List.length_mapIdx

theorem getElem?_drop (dead : List Nat) (body : List Stmt) (i : Nat) :
    (drop dead body)[i]? = body[i]?.map fun s => if i ∈ dead then .nop else s :=
  List.getElem?_mapIdx

variable {V W : Type} {env : Surroundings V W} {p : Program} {id : MethodId} {m : Method} {g : Cfg}
  {constants : Node → Fact} {live : Dataflow.Solution VarSet} {c c' d : Config V W}

/-! ### Executions that the facts describe -/

/-- Every variable that the fact before a statement binds to a constant has that value. -/
def Described (m : Method) (constants : Node → Fact) (c : Config V W) : Prop :=
  ∀ i, c.node = .stmt i → ∀ v ∈ m.vars, ∀ n, (constants c.node).get v.index = .const n →
    c.locals v = .int n

/-- Comparing gives a constant for constants only. -/
theorem evaluate_cmp_eq_const {f : Fact} {op : CmpOp} {x y : Var} {k : Int32}
    (h : (Expr.binary (.cmp op) x y).evaluate f = .const k) :
    ∃ a b, f.get x.index = .const a ∧ f.get y.index = .const b ∧
      k = if op.holds a b then 1 else 0 := by
  obtain ⟨a, b, hx, hy⟩ := BinOp.exists_of_evaluate_eq_const h
  rw [Expr.evaluate, hx, hy] at h
  exact ⟨a, b, hx, hy, (Value.const.inj h).symm⟩

/-- **A statement takes feasible edges,** if variables have the constants that the fact binds them
to. -/
theorem feasible_of_act {f : Fact} {s : Stmt} {locals : Locals V} {world : W} {done : Effect V W}
    (hf : ∀ v ∈ s.uses, ∀ n, f.get v.index = .const n → locals v = .int n)
    (h : act env s locals world = some done) : DeadCode.stmtFeasible s f done.kind = true := by
  cases s with
  | ifGoto op x y jump =>
    obtain ⟨taken, htaken, rfl⟩ := Option.map_eq_some_iff.1 h
    simp only [DeadCode.stmtFeasible]
    split
    · rename_i k hk
      obtain ⟨a, b, ha, hb, rfl⟩ := evaluate_cmp_eq_const hk
      rw [hf x List.mem_cons_self a ha, hf y (by simp [Stmt.uses]) b hb] at htaken
      obtain rfl : op.holds a b = taken := Option.some.inj htaken
      cases op.holds a b <;> rfl
    · rfl
  | switch v cases default =>
    obtain ⟨n, hn, rfl⟩ := Option.map_eq_some_iff.1 h
    simp only [DeadCode.stmtFeasible]
    split
    · rename_i k hk
      rw [hf v (List.mem_singleton_self v) k hk] at hn
      obtain rfl : k = n := Option.some.inj hn
      unfold caseKind
      split
      · exact beq_self_eq_true k
      · rename_i hnot
        show (!(cases.map Prod.fst).contains k) = true
        simpa using hnot
    · rfl
  | _ => rfl

/-! ### One step -/

/-- Statements mention variables of the method. -/
def MentionsOwn (m : Method) : Prop :=
  ∀ (i : Nat) (s : Stmt), m.stmts[i]? = some s → ∀ v ∈ s.mentions, v ∈ m.vars

/-- What a step does. -/
theorem advance_cases {body : List Stmt} (h : advance env body c = some d) :
    (c.node = .entry ∧ d = { c with node := (Cfg.entryEdge body.length).target, via := .entry }) ∨
    ∃ i s done e, c.node = .stmt i ∧ body[i]? = some s ∧ act env s c.locals c.world = some done ∧
      e ∈ Cfg.stmtEdges body.length i s ∧ e.kind = done.kind ∧
      d = ⟨e.target, e.kind, assign s.defined? done.value c.locals, done.world, returned s c⟩ := by
  unfold advance at h
  split at h
  · rename_i hnode
    exact .inl ⟨hnode, (Option.some.inj h).symm⟩
  · rename_i i hnode
    obtain ⟨s, hs, h⟩ := Option.bind_eq_some_iff.1 h
    obtain ⟨done, hdone, h⟩ := Option.bind_eq_some_iff.1 h
    obtain ⟨e, he, h⟩ := Option.bind_eq_some_iff.1 h
    have hkind : e.kind = done.kind := by simpa using List.find?_some he
    exact .inr ⟨i, s, done, e, hnode, hs, hdone, List.mem_of_find?_eq_some he, hkind,
      (Option.some.inj h).symm⟩
  · cases h

/-- The edges of a statement are edges of the graph. -/
theorem mem_edges_of_mem_stmtEdges {body : List Stmt} {i : Nat} {s : Stmt} {e : Cfg.Edge}
    (hs : body[i]? = some s) (he : e ∈ Cfg.stmtEdges body.length i s) :
    e ∈ (Cfg.ofBody body).edges ∧ e.source = .stmt i :=
  Cfg.mem_outEdges.1 (Icfg.mem_outEdges_ofBody hs he)

/-- **A step takes a feasible edge.** -/
theorem exists_feasible_of_advance (hm : MentionsOwn m) (hdescribed : Described m constants c)
    (h : advance env m.stmts c = some d) :
    ∃ e ∈ (Cfg.ofBody m.stmts).edges, e.source = c.node ∧ DeadCode.feasible m constants e = true ∧
      e.target = d.node := by
  obtain ⟨hnode, rfl⟩ | ⟨i, s, done, e, hnode, hs, hdone, he, hkind, rfl⟩ := advance_cases h
  · exact ⟨_, Cfg.entryEdge_mem_ofBody _, hnode.symm, rfl, rfl⟩
  · obtain ⟨hedge, hsource⟩ := mem_edges_of_mem_stmtEdges hs he
    refine ⟨e, hedge, hsource.trans hnode.symm, ?_, rfl⟩
    rw [DeadCode.feasible, hsource]
    simp only [Method.stmt?_eq, hs]
    rw [hkind]
    refine feasible_of_act (fun v hv n hn => ?_) hdone
    exact hdescribed i hnode v (hm i s hs v (List.mem_append_right _ hv)) n (hnode ▸ hn)

/-! ### Lockstep -/

/-- Runs of a body and of what is left of it are alike: they are at the same node, came there the same
way, have the same world and result, and agree on the variables that are read first from there. -/
structure Agree (m : Method) (g : Cfg) (c c' : Config V W) : Prop where
  node : c'.node = c.node
  via : c'.via = c.via
  world : c'.world = c.world
  result : c'.result = c.result
  locals : ∀ v ∈ m.vars, ReadFirst m g v c.node → c'.locals v = c.locals v

/-- What a statement defines has a value. -/
theorem exists_value_of_act {s : Stmt} {locals : Locals V} {world : W} {done : Effect V W} {v : Var}
    (h : act env s locals world = some done) (hv : s.defined? = some v) :
    ∃ x, done.value = some x := by
  have hperform (t : Stmt) (h : perform env t locals world = some done) :
      ∃ x, done.value = some x := by
    obtain ⟨⟨x, world'⟩, -, rfl⟩ := Option.map_eq_some_iff.1 h
    exact ⟨x, rfl⟩
  cases s with
  | assign lhs e =>
    cases e with
    | binary op x y =>
      simp only [act, operate] at h
      split at h
      · split at h
        · cases h
          exact ⟨_, rfl⟩
        · cases h
      · split at h
        · exact hperform _ h
        · cases h
          exact ⟨_, rfl⟩
    | cast ty x => exact hperform _ h
    | load place => exact hperform _ h
    | new what => exact hperform _ h
    | _ =>
      cases h
      exact ⟨_, rfl⟩
  | invoke result call => exact hperform _ h
  | _ => cases hv

/-- Going on along an edge keeps runs alike, if what is defined on the way is the same or is not read
first afterwards. -/
theorem Agree.along {locals locals' : Locals V} {world : W} {result : Option (Word V)} {e : Cfg.Edge}
    (h : Agree m g c c') (hedge : e ∈ g.edges) (hsource : e.source = c.node)
    (hdefined : ∀ v ∈ m.vars, Defines m c.node v → ReadFirst m g v e.target →
      locals' v = locals v)
    (hkept : ∀ v, ¬ Defines m c.node v → locals v = c.locals v ∧ locals' v = c'.locals v) :
    Agree m g ⟨e.target, e.kind, locals, world, result⟩
      ⟨e.target, e.kind, locals', world, result⟩ := by
  refine ⟨rfl, rfl, rfl, rfl, fun v hv hread => ?_⟩
  by_cases hdefines : Defines m c.node v
  · exact hdefined v hv hdefines hread
  · obtain ⟨hsame, hsame'⟩ := hkept v hdefines
    show locals' v = locals v
    rw [hsame, hsame']
    exact h.locals v hv (hread.head ⟨e, hedge, hsource, rfl⟩ hdefines)

/-- The variables that a statement uses are the same in runs that are alike. -/
theorem Agree.uses {i : Nat} {s : Stmt} (hm : MentionsOwn m) (h : Agree m g c c')
    (hnode : c.node = .stmt i) (hs : m.stmts[i]? = some s) {v : Var} (hv : v ∈ s.uses) :
    c'.locals v = c.locals v := by
  have hstmt : m.stmt? i = some s := (m.stmt?_eq i).trans hs
  refine h.locals v (hm i s hs v (List.mem_append_right _ hv)) ⟨c.node, .refl, ?_⟩
  rw [hnode]
  exact (uses_stmt hstmt).2 hv

theorem assign_of_ne {target : Option Var} {value : Option (Word V)} {locals : Locals V} {v : Var}
    (h : target ≠ some v) : assign target value locals v = locals v := by
  unfold assign
  split
  · rename_i w x
    exact if_neg fun (heq : v = w) => h (heq ▸ rfl)
  · rfl

/-- A statement that stays does the same in both runs. -/
theorem Agree.execute {i : Nat} {s : Stmt} {body : List Stmt} (hg : g = .ofBody m.stmts)
    (hm : MentionsOwn m) (h : Agree m g c c') (hnode : c.node = .stmt i) (hs : m.stmts[i]? = some s)
    (hlength : body.length = m.stmts.length) :
    Option.Rel (Agree m g) (Runs.execute env m.stmts i s c) (Runs.execute env body i s c') := by
  have hstmt : m.stmt? i = some s := (m.stmt?_eq i).trans hs
  have huses (v : Var) (hv : v ∈ s.uses) := h.uses hm hnode hs hv
  have hact : act env s c'.locals c'.world = act env s c.locals c.world := by
    rw [h.world, act_congr huses]
  have hreturned : returned s c' = returned s c := by
    cases s with
    | ret value =>
      cases value with
      | none => rfl
      | some v => exact congrArg some (huses v (List.mem_singleton_self v))
    | _ => exact h.result
  unfold Runs.execute
  rw [hact, hlength, hreturned]
  cases hdone : act env s c.locals c.world with
  | none => exact .none
  | some done =>
    simp only [Option.bind_eq_bind, Option.bind_some]
    cases he : (Cfg.stmtEdges m.stmts.length i s).find? (·.kind = done.kind) with
    | none => exact .none
    | some e =>
      obtain ⟨hedge, hsource⟩ := mem_edges_of_mem_stmtEdges hs (List.mem_of_find?_eq_some he)
      refine .some (h.along (hg ▸ hedge) (hsource.trans hnode.symm) (fun v _ hdefines _ => ?_)
        fun v hdefines => ?_)
      · rw [hnode, defines_stmt hstmt] at hdefines
        obtain ⟨x, hx⟩ := exists_value_of_act hdone hdefines
        rw [hdefines, hx, assign, assign]
        simp
      · rw [hnode, defines_stmt hstmt] at hdefines
        exact ⟨assign_of_ne hdefines, assign_of_ne hdefines⟩

/-- A dead assignment changes nothing that is read first afterwards, be it executed or dropped. -/
theorem Agree.drop {i : Nat} {lhs : Var} {e : Expr} {body : List Stmt} (hg : g = .ofBody m.stmts)
    (h : Agree m g c c') (hnode : c.node = .stmt i) (hs : m.stmts[i]? = some (.assign lhs e))
    (hpure : e.isPure = true) (hlength : body.length = m.stmts.length)
    (hdead : ∀ n', g.HasEdge (.stmt i) n' → ¬ ReadFirst m g lhs n') :
    Option.Rel (Agree m g) (Runs.execute env m.stmts i (.assign lhs e) c)
      (Runs.execute env body i .nop c') := by
  have hstmt : m.stmt? i = some (.assign lhs e) := (m.stmt?_eq i).trans hs
  obtain ⟨x, hact⟩ := act_of_isPure env lhs hpure c.locals c.world
  let next : Cfg.Edge := ⟨.fallThrough, .stmt i, Cfg.next m.stmts.length i⟩
  have hedge : next ∈ g.edges :=
    hg ▸ (mem_edges_of_mem_stmtEdges hs (List.mem_singleton_self next)).1
  have hexecuted : Runs.execute env m.stmts i (.assign lhs e) c =
      some ⟨next.target, next.kind, assign (some lhs) (some x) c.locals, c.world, c.result⟩ := by
    simp [Runs.execute, hact, Cfg.stmtEdges, returned, Stmt.defined?, next]
  have hskipped : Runs.execute env body i .nop c' =
      some ⟨next.target, next.kind, c'.locals, c.world, c.result⟩ := by
    simp [Runs.execute, act, Cfg.stmtEdges, returned, Stmt.defined?, assign, next, hlength, h.world,
      h.result]
  rw [hexecuted, hskipped]
  refine .some (h.along hedge hnode.symm (fun v _ hdefines hread => ?_) fun v hdefines => ?_)
  · rw [hnode, defines_stmt hstmt] at hdefines
    obtain rfl : lhs = v := Option.some.inj hdefines
    exact absurd hread (hdead _ ⟨next, hedge, rfl, rfl⟩)
  · rw [hnode, defines_stmt hstmt] at hdefines
    exact ⟨assign_of_ne hdefines, rfl⟩

/-- **One step keeps runs alike,** where the reported statements are dropped in one of them. -/
theorem Agree.advance (hg : g = .ofBody m.stmts) (hm : MentionsOwn m) (h : Agree m g c c')
    (hreached : c.node ∈ DeadCode.reached m g constants) {live : Node → VarSet}
    (hlive : ∀ i lhs, Node.stmt i ∈ g.nodes → lhs ∈ m.vars →
      (live (.stmt i)).contains lhs = false →
        ∀ n', g.HasEdge (.stmt i) n' → ¬ ReadFirst m g lhs n') :
    Option.Rel (Agree m g) (Runs.advance env m.stmts c)
      (Runs.advance env (Runs.drop (DeadCode.detect m g constants live) m.stmts) c') := by
  have hlength := length_drop (DeadCode.detect m g constants live) m.stmts
  unfold Runs.advance
  rw [h.node]
  cases hnode : c.node with
  | entry =>
    have hedge : Cfg.entryEdge m.stmts.length ∈ g.edges := hg ▸ Cfg.entryEdge_mem_ofBody _
    have hkeeps (v : Var) : ¬ Defines m c.node v := by
      rintro ⟨i, s, hn, -⟩
      cases hnode.symm.trans hn
    simp only [hlength, h.world, h.result]
    exact .some (h.along hedge hnode.symm (fun v _ hdefines _ => absurd hdefines (hkeeps v))
      fun v _ => ⟨rfl, rfl⟩)
  | exit => exact .none
  | stmt i =>
    simp only [getElem?_drop]
    cases hs : m.stmts[i]? with
    | none => exact .none
    | some s =>
      simp only [Option.map_some, Option.bind_some]
      split
      · rename_i hdead
        -- the statement is reached, so it is reported as a dead assignment
        obtain ⟨hlt, hunreached | ⟨lhs, e, hassign, hnotLive, hpure⟩⟩ :=
          DeadCode.mem_detect.1 hdead
        · exact absurd (hnode ▸ hreached) hunreached
        · rw [m.stmt?_eq, hs] at hassign
          obtain rfl := Option.some.inj hassign
          have hlhs : lhs ∈ m.vars := hm i _ hs lhs (List.mem_cons_self)
          exact h.drop hg hnode hs hpure hlength
            (hlive i lhs (Icfg.stmt_mem_nodes.2 hlt) hlhs hnotLive)
      · exact h.execute hg hm hnode hs hlength

/-! ### Whole runs -/

/-- Two runs are at the same node, came there along edges of the same kind and have the same world,
the same result and the same values of the variables that the statement at the node uses. -/
structure Alike (body : List Stmt) (c c' : Config V W) : Prop where
  node : c'.node = c.node
  via : c'.via = c.via
  world : c'.world = c.world
  result : c'.result = c.result
  reads : ∀ i s, c.node = .stmt i → body[i]? = some s → ∀ v ∈ s.uses, c'.locals v = c.locals v

theorem step_eq_next {body : List Stmt} :
    step env body c = .next d ↔ advance env body c = some d := by
  unfold step
  cases advance env body c <;> simp

theorem outcome_eq (h : Agree m g c c') : outcome c' = outcome c := by
  rw [outcome, outcome, h.node, h.result, h.world]

/-- Where advancing keeps runs alike, so does a step, which may also be their last. -/
theorem Agree.step {body body' : List Stmt} {Reached : Config V W → Prop} (h : Agree m g c c')
    (hadvance : Option.Rel (Agree m g) (Runs.advance env body c) (Runs.advance env body' c'))
    (hreached : ∀ d, Runs.step env body c = .next d → Reached d) :
    Step.Rel (fun d d' => Agree m g d d' ∧ Reached d) (Runs.step env body c)
      (Runs.step env body' c') := by
  have hnext (d : Config V W) (hd : Runs.advance env body c = some d) : Reached d :=
    hreached d (step_eq_next.2 hd)
  unfold Runs.step
  generalize Runs.advance env body c = a, Runs.advance env body' c' = a' at hadvance hnext
  cases hadvance with
  | some hagree => exact .next ⟨hagree, hnext _ rfl⟩
  | none =>
    rw [outcome_eq h]
    exact .halt _

/-- A run in which variables have the constants that the facts bind them to takes feasible edges. -/
theorem mem_reached_of_described (hbody : g = .ofBody m.stmts) (hclosed : g.Closed)
    (hm : MentionsOwn m) {locals : Locals V} {world : W}
    (hdescribed : ∀ k c, Step.stateAfter (step env m.stmts) (start locals world) k = some c →
      Described m constants c) {k : Nat}
    (h : Step.stateAfter (step env m.stmts) (start locals world) k = some c) :
    c.node ∈ DeadCode.reached m g constants := by
  induction k generalizing c with
  | zero =>
    cases h
    exact (DeadCode.mem_reached_iff hclosed).2 .refl
  | succ k ih =>
    obtain ⟨b, hb, hnext⟩ := Step.stateAfter_succ_eq_some.1 h
    obtain ⟨e, he, hsource, hfeasible, htarget⟩ :=
      exists_feasible_of_advance hm (hdescribed k b hb) (step_eq_next.1 hnext)
    have hreached := (DeadCode.mem_reached_iff hclosed).1 (ih hb)
    refine (DeadCode.mem_reached_iff hclosed).2 (hreached.tail ?_)
    exact DeadCode.mem_feasibleNexts.2 ⟨e, hbody ▸ he, hsource, hfeasible, htarget⟩

/-- **Reported dead code can be dropped.** In a run in which variables have the constants that the
facts bind them to, only nodes on feasible paths are reached, and the body without the reported
statements runs alike: the same nodes in the same order, the same values that are read, the same edges,
the same world and the same answer, for whatever surrounds the method. -/
theorem dropped_runs_alike (hp : p.Loaded) (hm : p.method? id = some m) (hg : m.cfg = some g)
    {fuel : Nat} (hlive : Liveness.solve fuel m g = some live) (constants : Node → Fact)
    (env : Surroundings V W) (locals : Locals V) (world : W)
    (hdescribed : ∀ k c, Step.stateAfter (step env m.stmts) (start locals world) k = some c →
      Described m constants c) :
    let dead := DeadCode.detect m g constants live.after
    (∀ k c, Step.stateAfter (step env m.stmts) (start locals world) k = some c →
        c.node ∈ DeadCode.reached m g constants) ∧
      (∀ k, Option.Rel (Alike m.stmts)
        (Step.stateAfter (step env m.stmts) (start locals world) k)
        (Step.stateAfter (step env (drop dead m.stmts)) (start locals world) k)) ∧
      ∀ k, Step.run (step env m.stmts) k (start locals world) =
        Step.run (step env (drop dead m.stmts)) k (start locals world) := by
  intro dead
  have hbody : g = .ofBody m.stmts := (hp.wellFormed id m hm).2 g hg
  have hclosed : g.Closed := hp.closed hm hg
  have hown : MentionsOwn m := fun i s hs v => hp.mem_vars_of_mentions hm hs
  have hreached {k : Nat} {c : Config V W}
      (hc : Step.stateAfter (step env m.stmts) (start locals world) k = some c) :
      c.node ∈ DeadCode.reached m g constants :=
    mem_reached_of_described hbody hclosed hown hdescribed hc
  have hnotRead (i : Nat) (lhs : Var) (hi : Node.stmt i ∈ g.nodes) (hlhs : lhs ∈ m.vars)
      (hnot : (live.after (.stmt i)).contains lhs = false) (n' : Node)
      (hedge : g.HasEdge (.stmt i) n') : ¬ ReadFirst m g lhs n' := by
    intro hread
    have hiff := (Liveness.contains_iff hclosed (toldApart_of_loaded hp hm hlhs) hlive hi).1
    cases hnot.symm.trans (hiff.2 ⟨n', hedge, hread⟩)
  have hstep (c c' : Config V W) (h : Agree m g c c' ∧
      ∃ k, Step.stateAfter (step env m.stmts) (start locals world) k = some c) :
      Step.Rel (fun d d' => Agree m g d d' ∧
        ∃ k, Step.stateAfter (step env m.stmts) (start locals world) k = some d)
        (step env m.stmts c) (step env (drop dead m.stmts) c') := by
    obtain ⟨hagree, k, hk⟩ := h
    exact hagree.step (hagree.advance hbody hown (hreached hk) hnotRead) fun d hd =>
      ⟨k + 1, Step.stateAfter_succ_eq_some.2 ⟨c, hk, hd⟩⟩
  have hstart : Agree m g (start locals world) (start locals world) ∧
      ∃ k, Step.stateAfter (step env m.stmts) (start locals world) k = some (start locals world) :=
    ⟨⟨rfl, rfl, rfl, rfl, fun _ _ _ => rfl⟩, 0, rfl⟩
  refine ⟨fun k c => hreached, fun k => ?_, Step.run_eq_of_rel hstep hstart⟩
  have hrel := Step.rel_stateAfter hstep hstart k
  generalize Step.stateAfter (step env m.stmts) (start locals world) k = a,
    Step.stateAfter (step env (drop dead m.stmts)) (start locals world) k = a' at hrel ⊢
  cases hrel with
  | none => exact .none
  | some hrel =>
    obtain ⟨h, -⟩ := hrel
    exact .some ⟨h.node, h.via, h.world, h.result, fun i s hnode hs v hv => h.uses hown hnode hs hv⟩

/-! ### An example -/

/-- A run that has ended is described if the states before its end are. -/
theorem described_of_run {body : List Stmt} {fuel : Nat}
    (hend : (Step.run (step env body) fuel c).isSome = true)
    (h : ∀ k < fuel, ∀ d, Step.stateAfter (step env body) c k = some d → Described m constants d)
    (k : Nat) (d : Config V W) (hd : Step.stateAfter (step env body) c k = some d) :
    Described m constants d := by
  refine h k (Nat.lt_of_not_le fun hle => ?_) d hd
  obtain ⟨u, hu⟩ := Step.exists_stateAfter_of_le hd hle
  cases hu.symm.trans (Step.run_isSome_iff.1 hend)

/-- Whether the variables have the constants that the facts bind them to. -/
def describes [DecidableEq V] (m : Method) (constants : Node → Fact) (c : Config V W) : Bool :=
  m.vars.all fun v => match (constants c.node).get v.index with
    | .const n => decide (c.locals v = .int n)
    | _ => true

theorem described_of_describes [DecidableEq V] (h : describes m constants c = true) :
    Described m constants c := by
  intro i _ v hv n hn
  have hv := List.all_eq_true.1 h v hv
  rw [hn] at hv
  exact of_decide_eq_true hv

/-- Surroundings in which there is nothing but integers. -/
def onlyInts : Surroundings Unit Unit where
  null := ()
  operate _ _ _ := .other ()
  compare _ _ _ := none
  select _ := none
  perform _ _ _ := none

/-- A method whose branches are decided by a constant: it jumps over an addition and a jump, and it
switches past a return. The sum of the other variables is never read. -/
def decidedDocument : Json.Value :=
  let int (name : String) : Json.Value := .obj [("name", .str name), ("type", .str "int")]
  let add (lhs x y : String) : Json.Value := .obj [("op", .str "binary"), ("operator", .str "+"),
    ("lhs", .str lhs), ("x", .str x), ("y", .str y)]
  let main : Json.Value := .obj [("name", .str "main"), ("static", .bool true),
    ("return", .str "int"), ("params", .arr [int "p"]), ("vars", .arr [int "one", int "sum"]),
    ("body", .arr [
      .obj [("op", .str "const"), ("lhs", .str "one"), ("value", .num (.int 1))],
      .obj [("label", .str "again"), ("op", .str "if"), ("operator", .str "=="), ("x", .str "one"),
        ("y", .str "one"), ("target", .str "go")],
      add "p" "p" "one",
      .obj [("op", .str "goto"), ("target", .str "again")],
      .obj [("label", .str "go"), ("op", .str "binary"), ("operator", .str "+"),
        ("lhs", .str "sum"), ("x", .str "p"), ("y", .str "one")],
      .obj [("op", .str "switch"), ("var", .str "one"), ("cases", .arr [
        .obj [("value", .num (.int 1)), ("target", .str "done")]]), ("default", .str "other")],
      .obj [("label", .str "other"), ("op", .str "return"), ("var", .str "one")],
      .obj [("label", .str "done"), ("op", .str "return"), ("var", .str "p")]])]
  .obj [("classes", .arr [.obj [("name", .str "Decided"), ("methods", .arr [main])]]),
    ("entry", .str "Decided.main")]

/-- The method called with 7: four of its eight statements are dropped, and it returns 7. -/
theorem dropped_runs_alike_decidedDocument :
    let begin : Config Unit Unit := start (fun v => if v.name = "p" then .int 7 else .other ()) ()
    ∃ m g known live, (Program.described decidedDocument).method? ⟨⟨0, "Decided"⟩, 0⟩ = some m ∧
      m.cfg = some g ∧ Constants.intra 100 m g = some known ∧ Liveness.solve 100 m g = some live ∧
      DeadCode.detect m g known.before live.after = [2, 3, 4, 6] ∧
      Step.run (step onlyInts m.stmts) 10 begin = some (.returned (some (.int 7)) ()) ∧
      (∀ k, Option.Rel (Alike m.stmts) (Step.stateAfter (step onlyInts m.stmts) begin k)
        (Step.stateAfter (step onlyInts (drop [2, 3, 4, 6] m.stmts)) begin k)) ∧
      Step.run (step onlyInts (drop [2, 3, 4, 6] m.stmts)) 10 begin =
        some (.returned (some (.int 7)) ()) := by
  intro begin
  have hrun : (((Program.described decidedDocument).method? ⟨⟨0, "Decided"⟩, 0⟩).bind fun m =>
      m.cfg.bind fun g => (Constants.intra 100 m g).bind fun known =>
        (Liveness.solve 100 m g).map fun live =>
          (DeadCode.detect m g known.before live.after, Step.run (step onlyInts m.stmts) 10 begin,
            (List.range 10).all fun k => (Step.stateAfter (step onlyInts m.stmts) begin k).all
              (describes m known.before))) =
      some ([2, 3, 4, 6], some (.returned (some (.int 7)) ()), true) := by
    decide +kernel
  obtain ⟨m, hm, hrun⟩ := Option.bind_eq_some_iff.1 hrun
  obtain ⟨g, hg, hrun⟩ := Option.bind_eq_some_iff.1 hrun
  obtain ⟨known, hknown, hrun⟩ := Option.bind_eq_some_iff.1 hrun
  obtain ⟨live, hlive, hrun⟩ := Option.map_eq_some_iff.1 hrun
  simp only [Prod.mk.injEq] at hrun
  obtain ⟨hdead, hreturned, hdescribes⟩ := hrun
  have hdescribed : ∀ k c, Step.stateAfter (step onlyInts m.stmts) begin k = some c →
      Described m known.before c := by
    refine described_of_run (Option.isSome_iff_exists.2 ⟨_, hreturned⟩) fun k hk d hd => ?_
    have hall := List.all_eq_true.1 hdescribes k (List.mem_range.2 hk)
    rw [hd] at hall
    exact described_of_describes hall
  have hloaded : (Program.described decidedDocument).Loaded := loaded_described (by decide +kernel)
  obtain ⟨-, halike, hruns⟩ := dropped_runs_alike hloaded hm hg hlive known.before onlyInts _ ()
    hdescribed
  rw [hdead] at halike hruns
  exact ⟨m, g, known, live, hm, hg, hknown, hlive, hdead, hreturned, halike,
    (hruns 10).symm.trans hreturned⟩

end Runs

end HeapFlow
