import HeapFlow.PointsTo.State
import HeapFlow.Proofs.CallGraph.Edges
/-!
# HeapFlow.Proofs.PointsTo.Operations

**What the operations on the state of a points-to analysis do to its view.** The view of a state
says which objects are in the set of a pointer (`Holds`) or on their way there (`Waits`), along which
edges references flow (`Flows`), and which methods and calls were found (`Reached`, `Called`). Later
proofs use the equations below and open no operation again.

`Extends` is what all operations have in common: a state only ever says more, and it stays
`Settled`, which means that every object that a pointer holds has been sent along every flow edge
that leaves the pointer.
-/

namespace HeapFlow

namespace PointsTo

namespace State

/-! ### The view -/

/-- An object is in the set of a pointer. -/
def Holds (s : State) (ptr : Pointer) (o : CObj) : Prop := o ∈ s.found.get ptr

/-- An object is on its way to a pointer. -/
def Waits (s : State) (ptr : Pointer) (o : CObj) : Prop :=
  ∃ objs, (ptr, objs) ∈ s.queue.toList ∧ o ∈ objs

/-- An object is in the set of a pointer or on its way there. -/
def Sent (s : State) (ptr : Pointer) (o : CObj) : Prop := s.Holds ptr o ∨ s.Waits ptr o

theorem Holds.sent {s : State} {ptr : Pointer} {o : CObj} (h : s.Holds ptr o) : s.Sent ptr o :=
  Or.inl h

theorem Waits.sent {s : State} {ptr : Pointer} {o : CObj} (h : s.Waits ptr o) : s.Sent ptr o :=
  Or.inr h

/-- References flow from one pointer to another. -/
def Flows (s : State) (a b : Pointer) : Prop := b ∈ s.found.flowsFrom a

def Reached (s : State) (m : CMethod) : Prop := m ∈ s.found.graph.reachable

def Called (s : State) (e : CallGraph.Edge CSite CMethod) : Prop := e ∈ s.found.graph.edges

/-- What a pointer holds has been sent on. -/
def Settled (s : State) : Prop := ∀ a b o, s.Flows a b → s.Holds a o → s.Sent b o

/-! ### The start -/

section Start

variable (heap : Heap) (contexts : Contexts)

theorem not_sent_start (ptr : Pointer) (o : CObj) : ¬ (start heap contexts).Sent ptr o := by
  intro h
  rcases h with hholds | ⟨objs, hmem, -⟩
  · have hempty : (∅ : Table Pointer ObjSet).getD ptr ∅ = ∅ := Table.getD_empty ptr ∅
    have hmem : o ∈ (∅ : Table Pointer ObjSet).getD ptr ∅ := hholds
    rw [hempty] at hmem
    exact OrderedSet.not_mem_empty o hmem
  · cases hmem

theorem not_flows_start (a b : Pointer) : ¬ (start heap contexts).Flows a b := by
  intro h
  have hempty : (∅ : Table Pointer (OrderedSet Pointer)).getD a ∅ = ∅ := Table.getD_empty a ∅
  have hmem : b ∈ (∅ : Table Pointer (OrderedSet Pointer)).getD a ∅ := h
  rw [hempty] at hmem
  exact OrderedSet.not_mem_empty b hmem

theorem not_reached_start (m : CMethod) : ¬ (start heap contexts).Reached m :=
  OrderedSet.not_mem_empty m

theorem not_called_start (e : CallGraph.Edge CSite CMethod) :
    ¬ (start heap contexts).Called e :=
  List.not_mem_nil

end Start

section Operations

variable (s : State)

/-- The state with another queue. -/
def withQueue (s : State) (queue : Queue (Pointer × List CObj)) : State := { s with queue }

/-- A queue has the arrivals of a state but for one, which may have been anywhere among them. -/
def Takes (s : State) (ptr : Pointer) (objs : List CObj) (queue : Queue (Pointer × List CObj)) :
    Prop :=
  ∃ before after, s.queue.toList = before ++ (ptr, objs) :: after ∧ queue.toList = before ++ after

theorem takes_of_pop? {s : State} {ptr : Pointer} {objs : List CObj}
    {queue : Queue (Pointer × List CObj)} (hpop : s.queue.pop? = some ((ptr, objs), queue)) :
    s.Takes ptr objs queue :=
  ⟨[], queue.toList, Queue.toList_of_pop? hpop, rfl⟩

/-- What waits is the entry taken from the queue and what is left there. -/
theorem Takes.waits {s : State} {ptr q : Pointer} {objs : List CObj} {o : CObj}
    {queue : Queue (Pointer × List CObj)} (h : s.Takes ptr objs queue) :
    s.Waits q o ↔ (s.withQueue queue).Waits q o ∨ q = ptr ∧ o ∈ objs := by
  obtain ⟨before, after, hall, hrest⟩ := h
  show (∃ xs, (q, xs) ∈ s.queue.toList ∧ o ∈ xs) ↔ (∃ xs, (q, xs) ∈ queue.toList ∧ o ∈ xs) ∨ _
  simp only [hall, hrest, List.mem_append, List.mem_cons, Prod.mk.injEq]
  constructor
  · rintro ⟨xs, hbefore | ⟨rfl, rfl⟩ | hafter, ho⟩
    · exact Or.inl ⟨xs, Or.inl hbefore, ho⟩
    · exact Or.inr ⟨rfl, ho⟩
    · exact Or.inl ⟨xs, Or.inr hafter, ho⟩
  · rintro (⟨xs, hbefore | hafter, ho⟩ | ⟨rfl, ho⟩)
    · exact ⟨xs, Or.inl hbefore, ho⟩
    · exact ⟨xs, Or.inr (Or.inr hafter), ho⟩
    · exact ⟨objs, Or.inr (Or.inl ⟨rfl, rfl⟩), ho⟩

theorem Takes.length {s : State} {ptr : Pointer} {objs : List CObj}
    {queue : Queue (Pointer × List CObj)} (h : s.Takes ptr objs queue) :
    s.queue.toList.length = queue.toList.length + 1 := by
  obtain ⟨before, after, hall, hrest⟩ := h
  simp only [hall, hrest, List.length_append, List.length_cons]
  omega

/-! ### Mentioning and sending -/

@[simp] theorem get_mention (ptr q : Pointer) : (s.mention ptr).found.get q = s.found.get q := by
  show (s.found.sets.set ptr (s.found.get ptr)).getD q ∅ = s.found.get q
  rw [Table.getD_set]
  split
  · rename_i h
    rw [h]
  · rfl

theorem holds_send {ptr q : Pointer} {objs : List CObj} {o : CObj} :
    (s.send ptr objs).Holds q o ↔ s.Holds q o := by
  show o ∈ (s.mention ptr).found.get q ↔ o ∈ s.found.get q
  rw [get_mention]

theorem flows_send {ptr a b : Pointer} {objs : List CObj} :
    (s.send ptr objs).Flows a b ↔ s.Flows a b := Iff.rfl

theorem waits_send {ptr q : Pointer} {objs : List CObj} {o : CObj} :
    (s.send ptr objs).Waits q o ↔ s.Waits q o ∨ q = ptr ∧ o ∈ objs := by
  show (∃ xs, (q, xs) ∈ (s.queue.push (ptr, objs)).toList ∧ o ∈ xs) ↔ _
  simp only [Queue.toList_push, List.mem_append, List.mem_singleton, Prod.mk.injEq]
  constructor
  · rintro ⟨xs, h | ⟨rfl, rfl⟩, ho⟩
    · exact Or.inl ⟨xs, h, ho⟩
    · exact Or.inr ⟨rfl, ho⟩
  · rintro (⟨xs, h, ho⟩ | ⟨rfl, ho⟩)
    · exact ⟨xs, Or.inl h, ho⟩
    · exact ⟨objs, Or.inr ⟨rfl, rfl⟩, ho⟩

@[simp] theorem graph_send (ptr : Pointer) (objs : List CObj) :
    (s.send ptr objs).found.graph = s.found.graph := rfl

@[simp] theorem heap_send (ptr : Pointer) (objs : List CObj) : (s.send ptr objs).heap = s.heap :=
  rfl

/-! ### Adding flow edges -/

theorem holds_addFlow {a b q : Pointer} {o : CObj} :
    (s.addFlow a b).Holds q o ↔ s.Holds q o := by
  have hget : ((s.mention b).mention a).found.get q = s.found.get q := by simp
  rw [addFlow]
  dsimp only
  split
  · rw [Holds, hget, Holds]
  · split
    · exact iff_of_eq (congrArg (o ∈ ·) hget)
    · exact (holds_send _).trans (iff_of_eq (congrArg (o ∈ ·) hget))

theorem flows_addFlow {a b x y : Pointer} :
    (s.addFlow a b).Flows x y ↔ s.Flows x y ∨ x = a ∧ y = b := by
  have hset (t : Table Pointer (OrderedSet Pointer)) (targets : OrderedSet Pointer)
      (ht : t.getD a ∅ = targets) :
      y ∈ (t.set a (targets.insert b)).getD x ∅ ↔ y ∈ t.getD x ∅ ∨ x = a ∧ y = b := by
    rw [Table.getD_set]
    split
    · rename_i hax
      subst hax ht
      rw [OrderedSet.mem_insert]
      exact ⟨fun h => h.elim (fun h => Or.inr ⟨rfl, h⟩) Or.inl,
        fun h => h.elim Or.inr fun h => Or.inl h.2⟩
    · rename_i hax
      exact ⟨Or.inl, fun h => h.elim id fun h => absurd h.1.symm hax⟩
  rw [addFlow]
  dsimp only
  -- an edge that exists is not added again
  split
  · rename_i hmem
    refine ⟨Or.inl, fun h => h.elim id ?_⟩
    rintro ⟨rfl, rfl⟩
    exact hmem
  · split <;> exact hset _ _ rfl

/-- Objects are sent along a flow edge when it is added. -/
theorem waits_addFlow {a b q : Pointer} {o : CObj} :
    (s.addFlow a b).Waits q o ↔ s.Waits q o ∨ ¬ s.Flows a b ∧ q = b ∧ s.Holds a o := by
  have hget : ((s.mention b).mention a).found.get a = s.found.get a := by simp
  rw [addFlow]
  dsimp only
  split
  · rename_i hmem
    exact ⟨Or.inl, fun h => h.elim id fun h => absurd hmem h.1⟩
  · rename_i hmem
    have hflows : ¬ s.Flows a b := hmem
    split
    · rename_i hempty
      -- an empty set is not sent at all
      have hnil : (s.found.get a).toList = [] := by
        rw [← hget]
        exact List.isEmpty_iff.1 hempty
      have hnone : ¬ s.Holds a o := by
        rw [Holds, OrderedSet.mem_iff, hnil]
        exact List.not_mem_nil
      exact ⟨Or.inl, fun h => h.elim id fun h => absurd h.2.2 hnone⟩
    · refine (waits_send _).trans (or_congr Iff.rfl ?_)
      refine (and_congr_right fun _ => ?_).trans (and_iff_right hflows).symm
      exact iff_of_eq (congrArg (fun objs => o ∈ OrderedSet.toList objs) hget)

@[simp] theorem graph_addFlow (a b : Pointer) :
    (s.addFlow a b).found.graph = s.found.graph := by
  rw [addFlow]
  dsimp only
  split
  · rfl
  · split <;> rfl

@[simp] theorem heap_addFlow (a b : Pointer) : (s.addFlow a b).heap = s.heap := by
  rw [addFlow]
  dsimp only
  split
  · rfl
  · split <;> rfl

theorem addFlows_nil : s.addFlows [] = s := rfl

theorem addFlows_cons (f : Pointer × Pointer) (fs : List (Pointer × Pointer)) :
    s.addFlows (f :: fs) = (s.addFlow f.1 f.2).addFlows fs := rfl

theorem flows_addFlows {fs : List (Pointer × Pointer)} {x y : Pointer} :
    (s.addFlows fs).Flows x y ↔ s.Flows x y ∨ (x, y) ∈ fs := by
  induction fs generalizing s with
  | nil => simp [addFlows_nil]
  | cons f fs ih =>
    rw [addFlows_cons, ih, flows_addFlow, List.mem_cons, or_assoc, Prod.ext_iff]

@[simp] theorem graph_addFlows (fs : List (Pointer × Pointer)) :
    (s.addFlows fs).found.graph = s.found.graph := by
  induction fs generalizing s with
  | nil => rfl
  | cons f fs ih => rw [addFlows_cons, ih, graph_addFlow]

@[simp] theorem heap_addFlows (fs : List (Pointer × Pointer)) :
    (s.addFlows fs).heap = s.heap := by
  induction fs generalizing s with
  | nil => rfl
  | cons f fs ih => rw [addFlows_cons, ih, heap_addFlow]

/-! ### Absorbing what arrives -/

theorem foldl_send_holds (targets : List Pointer) {objs : List CObj} {q : Pointer} {o : CObj} :
    (targets.foldl (fun s t => s.send t objs) s).Holds q o ↔ s.Holds q o := by
  induction targets generalizing s with
  | nil => rfl
  | cons t targets ih => rw [List.foldl_cons, ih, holds_send]

theorem foldl_send_flows (targets : List Pointer) {objs : List CObj} {a b : Pointer} :
    (targets.foldl (fun s t => s.send t objs) s).Flows a b ↔ s.Flows a b := by
  induction targets generalizing s with
  | nil => rfl
  | cons t targets ih => rw [List.foldl_cons, ih, flows_send]

theorem foldl_send_waits (targets : List Pointer) {objs : List CObj} {q : Pointer} {o : CObj} :
    (targets.foldl (fun s t => s.send t objs) s).Waits q o ↔
      s.Waits q o ∨ q ∈ targets ∧ o ∈ objs := by
  induction targets generalizing s with
  | nil => simp
  | cons t targets ih =>
    rw [List.foldl_cons, ih, waits_send, List.mem_cons, or_assoc, or_and_right]

theorem foldl_send_graph (targets : List Pointer) (objs : List CObj) :
    (targets.foldl (fun s t => s.send t objs) s).found.graph = s.found.graph := by
  induction targets generalizing s with
  | nil => rfl
  | cons t targets ih => rw [List.foldl_cons, ih, graph_send]

theorem foldl_send_heap (targets : List Pointer) (objs : List CObj) :
    (targets.foldl (fun s t => s.send t objs) s).heap = s.heap := by
  induction targets generalizing s with
  | nil => rfl
  | cons t targets ih => rw [List.foldl_cons, ih, heap_send]

/-- What a pointer lacks of the arriving objects. -/
theorem mem_absorb_fst {ptr : Pointer} {objs : List CObj} {o : CObj} :
    o ∈ (s.absorb ptr objs).1 ↔ o ∈ objs ∧ ¬ s.Holds ptr o := by
  rw [absorb]
  dsimp only
  split <;> exact OrderedSet.mem_missing

theorem holds_absorb {ptr q : Pointer} {objs : List CObj} {o : CObj} :
    (s.absorb ptr objs).2.Holds q o ↔ s.Holds q o ∨ q = ptr ∧ o ∈ objs := by
  have hfresh : o ∈ (s.found.get ptr).missing objs ↔ o ∈ objs ∧ ¬ s.Holds ptr o :=
    OrderedSet.mem_missing
  rw [absorb]
  dsimp only
  split
  · rename_i hempty
    -- all of `objs` is in the set already
    refine ⟨Or.inl, fun h => h.elim id ?_⟩
    rintro ⟨rfl, ho⟩
    rw [List.isEmpty_iff.1 hempty] at hfresh
    exact Classical.byContradiction fun hno => List.not_mem_nil (hfresh.2 ⟨ho, hno⟩)
  · rw [foldl_send_holds]
    show o ∈ (s.found.sets.set ptr _).getD q ∅ ↔ _
    rw [Table.getD_set]
    split
    · rename_i hq
      subst hq
      rw [OrderedSet.mem_insertAll, hfresh]
      show s.Holds ptr o ∨ _ ↔ _
      by_cases hold : s.Holds ptr o <;> simp [hold]
    · rename_i hq
      exact ⟨Or.inl, fun h => h.elim id fun h => absurd h.1.symm hq⟩

theorem flows_absorb {ptr a b : Pointer} {objs : List CObj} :
    (s.absorb ptr objs).2.Flows a b ↔ s.Flows a b := by
  rw [absorb]
  dsimp only
  split
  · rfl
  · rw [foldl_send_flows]
    rfl

theorem waits_absorb {ptr q : Pointer} {objs : List CObj} {o : CObj} :
    (s.absorb ptr objs).2.Waits q o ↔
      s.Waits q o ∨ s.Flows ptr q ∧ o ∈ objs ∧ ¬ s.Holds ptr o := by
  have hfresh : o ∈ (s.found.get ptr).missing objs ↔ o ∈ objs ∧ ¬ s.Holds ptr o :=
    OrderedSet.mem_missing
  rw [absorb]
  dsimp only
  split
  · rename_i hempty
    rw [List.isEmpty_iff.1 hempty] at hfresh
    exact ⟨Or.inl, fun h => h.elim id fun h => absurd (hfresh.2 h.2) List.not_mem_nil⟩
  · rw [foldl_send_waits, hfresh]
    rfl

theorem graph_absorb (ptr : Pointer) (objs : List CObj) :
    (s.absorb ptr objs).2.found.graph = s.found.graph := by
  rw [absorb]
  dsimp only
  split
  · rfl
  · rw [foldl_send_graph]

theorem heap_absorb (ptr : Pointer) (objs : List CObj) : (s.absorb ptr objs).2.heap = s.heap := by
  rw [absorb]
  dsimp only
  split
  · rfl
  · rw [foldl_send_heap]

theorem reached_absorb {ptr : Pointer} {objs : List CObj} {m : CMethod} :
    (s.absorb ptr objs).2.Reached m ↔ s.Reached m := by
  rw [Reached, graph_absorb, Reached]

theorem called_absorb {ptr : Pointer} {objs : List CObj} {e : CallGraph.Edge CSite CMethod} :
    (s.absorb ptr objs).2.Called e ↔ s.Called e := by
  rw [Called, graph_absorb, Called]

/-! ### Methods and calls -/

theorem reached_addEntry {m n : CMethod} : (s.addEntry m).Reached n ↔ s.Reached n := Iff.rfl

theorem called_addEntry {m : CMethod} {e : CallGraph.Edge CSite CMethod} :
    (s.addEntry m).Called e ↔ s.Called e := Iff.rfl

theorem reached_addReachable {m n : CMethod} :
    (s.addReachable m).Reached n ↔ n = m ∨ s.Reached n := OrderedSet.mem_insert

theorem reached_addCall {e : CallGraph.Edge CSite CMethod} {n : CMethod} :
    (s.addCall e).Reached n ↔ s.Reached n := by
  show n ∈ (s.found.graph.addEdge e).reachable ↔ _
  rw [CallGraph.reachable_addEdge]
  rfl

/-- A call whose edge is missing is added with its kind. -/
theorem called_addCall {e d : CallGraph.Edge CSite CMethod}
    (hnew : s.found.graph.hasEdge e.site e.callee ≠ true) :
    (s.addCall e).Called d ↔ d = e ∨ s.Called d := by
  show d ∈ (s.found.graph.addEdge e).edges ↔ _
  rw [CallGraph.edges_addEdge_of_new hnew, List.mem_append, List.mem_singleton, or_comm]
  rfl

/-- An edge that is there has some kind. -/
theorem exists_called_of_hasEdge (hindexed : s.found.graph.Indexed) {site : CSite}
    {callee : CMethod} (h : s.found.graph.hasEdge site callee = true) :
    ∃ kind, s.Called ⟨kind, site, callee⟩ := by
  obtain ⟨⟨kind, site', callee'⟩, he, hends⟩ := hindexed.hasEdge_iff.1 h
  cases hends
  exact ⟨kind, he⟩

end Operations

/-! ### Growth -/

/-- Nothing that a state says is lost. -/
structure Extends (s t : State) : Prop where
  sent : ∀ {ptr o}, s.Sent ptr o → t.Sent ptr o
  flows : ∀ {a b}, s.Flows a b → t.Flows a b
  reached : ∀ {m}, s.Reached m → t.Reached m
  called : ∀ {e}, s.Called e → t.Called e

/-- Nothing is lost, the sets of pointers are as they were, and what they hold is still sent on. -/
structure Grows (s t : State) : Prop extends Extends s t where
  holds : ∀ {ptr o}, t.Holds ptr o ↔ s.Holds ptr o
  settled : s.Settled → t.Settled

namespace Grows

theorem refl (s : State) : Grows s s where
  sent := id
  flows := id
  reached := id
  called := id
  holds := Iff.rfl
  settled := id

theorem trans {s t u : State} (hst : Grows s t) (htu : Grows t u) : Grows s u where
  sent h := htu.sent (hst.sent h)
  flows h := htu.flows (hst.flows h)
  reached h := htu.reached (hst.reached h)
  called h := htu.called (hst.called h)
  holds := htu.holds.trans hst.holds
  settled h := htu.settled (hst.settled h)

/-- Growth of a state in which sets and queue stay as they are. -/
theorem of_same {s t : State} (hsets : t.found.sets = s.found.sets)
    (hflows : t.found.flows = s.found.flows) (hqueue : t.queue = s.queue)
    (hreached : ∀ {m}, s.Reached m → t.Reached m) (hcalled : ∀ {e}, s.Called e → t.Called e) :
    Grows s t := by
  have hholds {ptr : Pointer} {o : CObj} : t.Holds ptr o ↔ s.Holds ptr o := by
    simp only [Holds, PointsTo.get, hsets]
  have hflow {a b : Pointer} : t.Flows a b ↔ s.Flows a b := by
    simp only [Flows, PointsTo.flowsFrom, hflows]
  have hsent {ptr : Pointer} {o : CObj} : t.Sent ptr o ↔ s.Sent ptr o := by
    simp only [Sent, hholds, Waits, hqueue]
  exact {
    sent := hsent.2
    flows := hflow.2
    reached := hreached
    called := hcalled
    holds := hholds
    settled := fun hs a b o hab ho => hsent.2 (hs a b o (hflow.1 hab) (hholds.1 ho)) }

/-- Growth of a state whose graph stays as it is. -/
theorem of_graph {s t : State} (hgraph : t.found.graph = s.found.graph)
    (hholds : ∀ {ptr o}, t.Holds ptr o ↔ s.Holds ptr o)
    (hsent : ∀ {ptr o}, s.Sent ptr o → t.Sent ptr o) (hflows : ∀ {a b}, s.Flows a b → t.Flows a b)
    (hsettled : s.Settled → t.Settled) : Grows s t where
  sent := hsent
  flows := hflows
  reached h := by rwa [Reached, hgraph]
  called h := by rwa [Called, hgraph]
  holds := hholds
  settled := hsettled

theorem send (s : State) (ptr : Pointer) (objs : List CObj) : Grows s (s.send ptr objs) := by
  have hsent {q : Pointer} {o : CObj} (h : s.Sent q o) : (s.send ptr objs).Sent q o :=
    h.imp (holds_send s).2 fun h => (waits_send s).2 (Or.inl h)
  exact of_graph rfl (holds_send s) hsent id fun hs a b o hab ho =>
    hsent (hs a b o hab ((holds_send s).1 ho))

theorem addFlow (s : State) (a b : Pointer) : Grows s (s.addFlow a b) := by
  have hsent {q : Pointer} {o : CObj} (h : s.Sent q o) : (s.addFlow a b).Sent q o :=
    h.imp (holds_addFlow s).2 fun h => (waits_addFlow s).2 (Or.inl h)
  refine of_graph (graph_addFlow s a b) (holds_addFlow s) hsent
    (fun h => (flows_addFlow s).2 (Or.inl h)) fun hs x y o hxy hx => ?_
  have hheld : s.Holds x o := (holds_addFlow s).1 hx
  by_cases hold : s.Flows x y
  · exact hsent (hs x y o hold hheld)
  · -- the edge is the new one, along which everything has just been sent
    obtain ⟨hxa, hyb⟩ := ((flows_addFlow s).1 hxy).resolve_left hold
    rw [hxa] at hold hheld
    rw [hyb] at hold ⊢
    exact Waits.sent ((waits_addFlow s).2 (Or.inr ⟨hold, rfl, hheld⟩))

theorem addFlows (s : State) (fs : List (Pointer × Pointer)) : Grows s (s.addFlows fs) := by
  induction fs generalizing s with
  | nil => exact refl s
  | cons f fs ih => exact (addFlow s f.1 f.2).trans (ih _)

theorem report (s : State) (e : Event) : Grows s (s.report e) := of_same rfl rfl rfl id id

theorem meet (s : State) (c : Context) : Grows s (s.meet c) := of_same rfl rfl rfl id id

theorem addObject (s : State) (o : CObj) : Grows s (s.addObject o) := of_same rfl rfl rfl id id

theorem withHeap (s : State) (heap : Heap) : Grows s { s with heap } := of_same rfl rfl rfl id id

theorem addEntry (s : State) (m : CMethod) : Grows s (s.addEntry m) :=
  of_same rfl rfl rfl (reached_addEntry s).2 (called_addEntry s).2

theorem addReachable (s : State) (m : CMethod) : Grows s (s.addReachable m) :=
  of_same rfl rfl rfl (fun h => (reached_addReachable s).2 (Or.inr h)) id

theorem addCall (s : State) {e : CallGraph.Edge CSite CMethod}
    (hnew : s.found.graph.hasEdge e.site e.callee ≠ true) : Grows s (s.addCall e) :=
  of_same rfl rfl rfl (reached_addCall s).2 fun h => (called_addCall s hnew).2 (Or.inr h)

end Grows

/-- Absorbing an entry of the queue loses nothing: its objects are in the set of the pointer. -/
theorem extends_absorb {s : State} {ptr : Pointer} {objs : List CObj}
    {queue : Queue (Pointer × List CObj)} (htakes : s.Takes ptr objs queue) :
    Extends s ((s.withQueue queue).absorb ptr objs).2 where
  sent := by
    intro q o h
    rcases h with hholds | hwaits
    · exact Holds.sent ((holds_absorb _).2 (Or.inl hholds))
    · rcases htakes.waits.1 hwaits with hrest | harrived
      · exact Waits.sent ((waits_absorb _).2 (Or.inl hrest))
      · exact Holds.sent ((holds_absorb _).2 (Or.inr harrived))
  flows h := (flows_absorb _).2 h
  reached h := (reached_absorb _).2 h
  called h := (called_absorb _).2 h

/-- What is absorbed is sent on. -/
theorem settled_absorb {s : State} (hs : s.Settled) {ptr : Pointer} {objs : List CObj}
    {queue : Queue (Pointer × List CObj)} (htakes : s.Takes ptr objs queue) :
    ((s.withQueue queue).absorb ptr objs).2.Settled := by
  intro a b o hflow hholds
  have hab : (s.withQueue queue).Flows a b := (flows_absorb _).1 hflow
  by_cases hold : (s.withQueue queue).Holds a o
  · exact (extends_absorb htakes).sent (hs a b o hab hold)
  · obtain ⟨rfl, hmem⟩ := ((holds_absorb _).1 hholds).resolve_left hold
    exact Waits.sent ((waits_absorb _).2 (Or.inr ⟨hab, hmem, hold⟩))

end State

end PointsTo

end HeapFlow
