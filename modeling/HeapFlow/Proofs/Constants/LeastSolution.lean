import HeapFlow.Proofs.Constants.Observed
import HeapFlow.Proofs.Constants.Schedules
import HeapFlow.Proofs.Icfg.PointsToGraph
/-!
# HeapFlow.Proofs.Constants.LeastSolution

**Without divisions, constant propagation finds the least solution in any order.** The facts and the
observed heap of every state that a schedule reaches are below those of every solution, and what is in
the heap was stored under facts that have only risen since. So a schedule that has nothing left to
compute has found the least solution, and there is only one: the order does not matter.
-/

namespace HeapFlow

/-- Whether a statement divides or takes a remainder. -/
def Stmt.divides : Stmt → Bool
  | assign _ (.binary op _ _) => op.divides
  | _ => false

/-- No statement of the program divides or takes a remainder. -/
def Program.NeverDivides (p : Program) : Prop := ∀ m ∈ p.methods, ∀ s ∈ m.stmts, s.divides = false

instance (p : Program) : Decidable p.NeverDivides :=
  inferInstanceAs (Decidable (∀ m ∈ p.methods, ∀ s ∈ m.stmts, s.divides = false))

namespace Constants

variable {c : Setting} {r r' : Inter} {s : InterState}

/-! ### Settings in which only nodes do something -/

/-- Edges leave nodes, and a point that may wait without being a node has no statement. Every load can
be woken. -/
structure Regular (c : Setting) : Prop where
  source : ∀ e ∈ c.icfg.edges, e.source ∈ c.icfg.nodes
  stmt : ∀ pt ∈ points c, pt ∉ c.icfg.nodes → stmtAt? c pt = none
  loads : LoadsHaveEdges c

theorem regular_settingOf {p : Program} (hp : p.WellFormed) {policy : Policy} {fuel : Nat}
    {heap : Heap} {contexts : Contexts} {ans : PointsTo.Answer}
    (h : PointsTo.solve p policy fuel heap contexts = some ans) (hok : ans.failure = none) :
    Regular (settingOf p ans.state.found) := by
  have hreaches := PointsTo.reachesCallees_of_solve hp h hok
  refine ⟨fun e he => Icfg.source_mem_nodes hreaches he, fun pt hpt hnode => ?_,
    loadsHaveEdges_build hp _ _⟩
  cases hs : stmtAt? (settingOf p ans.state.found) pt with
  | none => rfl
  | some s =>
    obtain ⟨i, m, hi, hm, hstmt⟩ := stmtAt?_eq_some.1 hs
    have hstmt : p.stmt? ⟨pt.method, i⟩ = some s := Program.stmt?_eq_some.2 ⟨m, hm, hstmt⟩
    refine absurd ?_ hnode
    obtain hpt | hpt := List.mem_append.1 hpt
    · obtain hpt | hpt := List.mem_append.1 hpt
      · -- the run starts at entries, where there is no statement
        obtain ⟨b, hb, rfl⟩ := List.mem_map.1 hpt
        obtain ⟨-, -, hentry, -⟩ := exists_of_mem_boundary hb
        rw [hentry] at hi
        cases hi
      · exact hpt
    · obtain ⟨e, he, hends⟩ := List.mem_flatMap.1 hpt
      obtain rfl | hends := List.mem_cons.1 hends
      · exact Icfg.source_mem_nodes hreaches he
      · obtain rfl := List.mem_singleton.1 hends
        exact Icfg.target_mem_nodes hp he (by rw [← hi]) hstmt

/-! ### Below every solution -/

/-- One result admits no more than another: neither in the facts before and after the nodes nor in what
loads observe of the heap. -/
structure Below (c : Setting) (r r' : Inter) : Prop where
  before : ∀ pt ∈ c.icfg.nodes, r.factBefore pt ≤ r'.factBefore pt
  after : ∀ pt ∈ c.icfg.nodes, r.factAfter pt ≤ r'.factAfter pt
  heap : ∀ slot, r.heap.observe slot ≤ r'.heap.observe slot

theorem below_interInit (c : Setting) (r : Inter) : Below c (interInit c).found r := by
  refine ⟨fun pt _ => ?_, fun pt _ => ?_, fun slot => ?_⟩
  · rw [factBefore_interInit]
    exact bot_le
  · rw [factAfter_interInit]
    exact bot_le
  · have hempty : (interInit c).found.heap.observe slot = .undefined := HeapStore.observe_empty slot
    rw [hempty]
    exact bot_le

theorem Below.incomingFact (hregular : Regular c) (h : Below c r r') (hr' : JointSolution c r')
    {pt : Point} (hpt : pt ∈ c.icfg.nodes) : incomingFact c r pt ≤ r'.factBefore pt := by
  have hupper := (hr'.before pt hpt).1
  refine incomingFact_le_iff.2 ⟨fun f hf => hupper (.inl hf), fun e he htarget => ?_⟩
  have hafter := h.after e.source (hregular.source e he)
  exact (along_mono e hafter).trans (hupper (.inr ⟨e, he, htarget, rfl⟩))

/-- A point without a statement leaves the heap as it is. -/
theorem writtenSlots_of_no_stmt {pt : Point} (hs : stmtAt? c pt = none) (f : Fact) :
    writtenSlots c pt f = [] := by
  unfold writtenSlots
  rw [hs]

/-- **Computing a point stays below every solution.** -/
theorem Below.compute (hregular : Regular c) (hno : NeverDivides c) (h : Below c r r')
    (hr' : JointSolution c r') {pt : Point} (hpt : pt ∈ points c) (queue : Worklist Point) :
    Below c (compute c r queue pt).found r' := by
  refine ⟨fun n hn => ?_, fun n hn => ?_, fun slot => ?_⟩
  · rw [factBefore_compute]
    split
    · rename_i heq
      subst heq
      exact h.incomingFact hregular hr' hn
    · exact h.before n hn
  · rw [factAfter_compute]
    split
    · rename_i heq
      subst heq
      rw [hr'.after pt hn]
      exact after_mono_of_loaded
        (fun _ place _ => loaded_le_of_observe h.heap (h.incomingFact hregular hr' hn) place)
        (h.incomingFact hregular hr' hn) (hno.not_retractsAt _ _ _)
    · exact h.after n hn
  · rw [heap_compute]
    refine observe_effect_le_iff.2 ⟨h.heap slot, fun w hw hseen => ?_⟩
    by_cases hnode : pt ∈ c.icfg.nodes
    · -- the solution has the value where this slot is seen, if in another slot
      have hincoming := h.incomingFact hregular hr' hnode
      obtain ⟨w', hw', hsees⟩ := exists_mem_writtenSlots hincoming hw
      have hstored := writtenValue_le (h := r'.heap) hw'
      rw [hr'.stored pt hnode] at hstored
      exact (writtenValue_mono hincoming).trans
        (hstored.trans (HeapStore.get_le_observe (hsees slot hseen)))
    · rw [writtenSlots_of_no_stmt (hregular.stmt pt hpt hnode)] at hw
      cases hw

/-! ### What is in the heap was stored -/

/-- The values that the nodes store where a load looks. -/
def storedValues (c : Setting) (r : Inter) (slot : Slot) : Set Value :=
  {v | ∃ pt ∈ c.icfg.nodes, ∃ w ∈ writtenSlots c pt (r.factBefore pt),
    w ∈ HeapStore.seen slot ∧ v = writtenValue c pt (r.factBefore pt)}

/-- Nothing is observed that is not stored. -/
def Stored (c : Setting) (r : Inter) : Prop :=
  ∀ slot, ∀ v ∈ upperBounds (storedValues c r slot), r.heap.observe slot ≤ v

theorem stored_interInit (c : Setting) : Stored c (interInit c).found := by
  intro slot v _
  have hempty : (interInit c).found.heap.observe slot = .undefined := HeapStore.observe_empty slot
  rw [hempty]
  exact bot_le

/-- What was stored under a lesser fact is admitted where the present stores are. -/
theorem le_of_storedValues {slot w : Slot} {v : Value} (hv : v ∈ upperBounds (storedValues c r slot))
    {pt : Point} (hnode : pt ∈ c.icfg.nodes) {f : Fact} (hf : f ≤ r.factBefore pt)
    (hw : w ∈ writtenSlots c pt f) (hseen : w ∈ HeapStore.seen slot) : writtenValue c pt f ≤ v := by
  obtain ⟨w', hw', hsees⟩ := exists_mem_writtenSlots hf hw
  exact (writtenValue_mono hf).trans (hv ⟨pt, hnode, w', hw', hsees slot hseen, rfl⟩)

/-- **Computing a point whose fact rises stores what is observed.** -/
theorem Stored.compute (hregular : Regular c) (h : Stored c r) {pt : Point} (hpt : pt ∈ points c)
    (hrises : r.factBefore pt ≤ incomingFact c r pt) (queue : Worklist Point) :
    Stored c (compute c r queue pt).found := by
  intro slot v hv
  have hbefore (n : Point) : r.factBefore n ≤ (Constants.compute c r queue pt).found.factBefore n := by
    rw [factBefore_compute]
    split
    · rename_i heq
      subst heq
      exact hrises
    · exact le_rfl
  rw [heap_compute]
  refine observe_effect_le_iff.2 ⟨h slot v fun x hx => ?_, fun w hw hseen => ?_⟩
  · obtain ⟨n, hn, w, hw, hseen, rfl⟩ := hx
    exact le_of_storedValues hv hn (hbefore n) hw hseen
  · by_cases hnode : pt ∈ c.icfg.nodes
    · refine le_of_storedValues hv hnode ?_ hw hseen
      rw [factBefore_compute, if_pos rfl]
    · rw [writtenSlots_of_no_stmt (hregular.stmt pt hpt hnode)] at hw
      cases hw

/-! ### The least solution -/

/-- The least solution of the equations of facts and heap. -/
structure IsLeastSolution (c : Setting) (r : Inter) : Prop extends JointSolution c r where
  /-- A load observes the least value above all that is stored where it looks. -/
  observed : ∀ slot, IsLUB (storedValues c r slot) (r.heap.observe slot)
  /-- The facts and what is observed are below those of every solution. -/
  least : ∀ r', JointSolution c r' → Below c r r'

/-- Two results that cannot be told apart: neither by the facts before and after the nodes nor by what
loads observe. -/
structure Agree (c : Setting) (r r' : Inter) : Prop where
  before : ∀ pt ∈ c.icfg.nodes, r.factBefore pt = r'.factBefore pt
  after : ∀ pt ∈ c.icfg.nodes, r.factAfter pt = r'.factAfter pt
  heap : ∀ slot, r.heap.observe slot = r'.heap.observe slot

/-- There is one least solution. -/
theorem IsLeastSolution.agree (h : IsLeastSolution c r) (h' : IsLeastSolution c r') :
    Agree c r r' := by
  have hle := h.least r' h'.toJointSolution
  have hge := h'.least r h.toJointSolution
  exact ⟨fun pt hpt => (hle.before pt hpt).antisymm (hge.before pt hpt),
    fun pt hpt => (hle.after pt hpt).antisymm (hge.after pt hpt),
    fun slot => (hle.heap slot).antisymm (hge.heap slot)⟩

/-- What schedules keep where nothing divides. -/
structure Approaches (c : Setting) (size : Nat) (s : InterState) : Prop where
  rising : Rising c s
  bounded : Bounded c size s
  complete : Complete c s
  stored : Stored c s.found
  below : ∀ r', JointSolution c r' → Below c s.found r'

theorem Reached.approaches (hregular : Regular c) (hno : NeverDivides c) {size : Nat}
    (hspans : Spans c size) (h : Reached c s) : Approaches c size s := by
  refine h.invariant ?_ fun {s pt queue} h htakes => ?_
  · exact ⟨rising_interInit c, bounded_interInit c size, complete_interInit c, stored_interInit c,
      fun r' _ => below_interInit c r'⟩
  · have hpt : pt ∈ points c := h.bounded.queue pt (htakes.mem_iff.2 (.inl rfl))
    exact {
      rising := h.rising.compute queue (hno.not_retractsAt _ _ _)
      bounded := h.bounded.compute hspans htakes
      complete := h.complete.compute hregular.loads htakes
      stored := h.stored.compute hregular hpt (h.rising.before pt) queue
      below r' hr' := (h.below r' hr').compute hregular hno hr' hpt queue }

/-- Where a schedule has nothing left to compute, it has found the least solution. -/
theorem Reached.isLeastSolution (hregular : Regular c) (hno : NeverDivides c) (h : Reached c s)
    (hqueue : s.queue.toList = []) : IsLeastSolution c s.found := by
  obtain ⟨size, hspans⟩ := exists_spans c
  have happroaches := h.approaches hregular hno hspans
  have hsettled (pt : Point) (hpt : pt ∈ c.icfg.nodes) : Settled c s.found pt := by
    refine (happroaches.complete pt hpt).resolve_left ?_
    rw [hqueue]
    exact List.not_mem_nil
  refine ⟨jointSolution_of_settled hsettled, fun slot => ⟨fun v hv => ?_, happroaches.stored slot⟩,
    happroaches.below⟩
  obtain ⟨pt, hpt, w, hw, hseen, rfl⟩ := hv
  exact ((hsettled pt hpt).stored w hw).trans (HeapStore.get_le_observe hseen)

/-- **Without divisions, constant propagation terminates with the least solution.** On the way, facts
and slots only rise. Every order in which waiting points are computed comes to an end, and it ends with
the same facts and the same observed heap. -/
theorem inter_isLeastSolution {p : Program} (hp : p.Loaded) (hno : p.NeverDivides) {policy : Policy}
    {fuel : Nat} {heap : Heap} {contexts : Contexts} {ans : PointsTo.Answer}
    (h : PointsTo.solve p policy fuel heap contexts = some ans) (hok : ans.failure = none) :
    let c := settingOf p ans.state.found
    (∃ limit r, inter c limit = some r) ∧
      (∀ limit r, inter c limit = some r → IsLeastSolution c r ∧
        ∀ s, Reached c s → s.queue.toList = [] → Agree c s.found r) ∧
      (∀ s s', Reached c s → Advances c s s' → Rises s.found s'.found) ∧
      ¬ ∃ run : Nat → InterState, run 0 = interInit c ∧ ∀ n, Advances c (run n) (run (n + 1)) := by
  intro c
  have hregular : Regular c := regular_settingOf hp.wellFormed h hok
  have hno : NeverDivides c := by
    intro pt lhs op x y hs
    obtain ⟨i, m, -, hm, hstmt⟩ := stmtAt?_eq_some.1 hs
    rw [m.stmt?_eq] at hstmt
    exact hno m (Program.mem_methods_of_method? hm) _ (List.mem_of_getElem? hstmt)
  refine ⟨exists_inter_of_neverDivides hno, fun limit r hr => ?_,
    fun s s' hreached hstep => hreached.rises hno hstep, not_exists_infinite_schedule hno⟩
  obtain ⟨t, hreached, hqueue, rfl⟩ := exists_reached_of_inter hr
  have hleast := hreached.isLeastSolution hregular hno hqueue
  exact ⟨hleast, fun s hs hempty => (hs.isLeastSolution hregular hno hempty).agree hleast⟩

/-- The program that loads before it stores through an alias ends with seven in any order. -/
theorem aliasDocument_isLeastSolution : ∃ ans r,
    PointsTo.solve (.described aliasDocument) .insensitive 100 .empty .initial = some ans ∧
      ans.failure = none ∧ (Program.described aliasDocument).NeverDivides ∧
      inter (settingOf (.described aliasDocument) ans.state.found) 100 = some r ∧
      (r.factAfter ⟨⟨⟨0, "Cell"⟩, 0⟩, .stmt 2⟩).get 3 = .const 7 ∧
      IsLeastSolution (settingOf (.described aliasDocument) ans.state.found) r ∧
      ∀ s, Reached (settingOf (.described aliasDocument) ans.state.found) s →
        s.queue.toList = [] → Agree (settingOf (.described aliasDocument) ans.state.found) s.found r := by
  have hrun : (PointsTo.solve (.described aliasDocument) .insensitive 100 .empty .initial).bind
      (fun ans => (inter (settingOf (.described aliasDocument) ans.state.found) 100).map fun r =>
        (ans.failure, (r.factAfter ⟨⟨⟨0, "Cell"⟩, 0⟩, .stmt 2⟩).get 3)) =
      some (none, .const 7) := by
    decide +kernel
  obtain ⟨ans, hans, hresult⟩ := Option.bind_eq_some_iff.1 hrun
  obtain ⟨r, hr, hvalues⟩ := Option.map_eq_some_iff.1 hresult
  obtain ⟨hok, hseven⟩ := Prod.mk.inj hvalues
  have hloaded : (Program.described aliasDocument).Loaded := loaded_described (by decide +kernel)
  have hno : (Program.described aliasDocument).NeverDivides := by decide +kernel
  have hleast := (inter_isLeastSolution hloaded hno hans hok).2.1 100 r hr
  exact ⟨ans, r, hans, hok, hno, hr, hseven, hleast⟩

end Constants

end HeapFlow
