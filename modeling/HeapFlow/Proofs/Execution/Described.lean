import HeapFlow.Proofs.Execution.Machine
import HeapFlow.Proofs.PointsTo.Steps
/-!
# HeapFlow.Proofs.Execution.Described

**Runs stay inside a closed solution.** The states of a run have no contexts, so a solution describes
a state through a choice that is made on the way: each address stands for an object under a heap
context (`abs`), and each frame runs under a context of its method. The frames of the stack are
linked by call edges of the solution, which is what a return needs to know of the frame below.

`Describes` is the invariant. Each kind of step keeps it by one rule of the analysis; the only step
that needs more is the start of an instance entry method, whose receiver is an object of its own.
-/

namespace HeapFlow

namespace Execution

open PointsTo (Solution Closed Runs varOf bodyOf receiverOf? entryObject)

variable {p : Program} {policy : Policy} {heap : Heap} {S : Solution} {unset : Plain → Prop}

/-! ### Values -/

/-- A reference is to an address in use whose object is in the set of a pointer. -/
def ValDescribed (S : Solution) (abs : Nat → CObj) (size : Nat) (x : Option Val)
    (ptr : Pointer) : Prop :=
  ∀ a, x = some (.ref a) → a < size ∧ abs a ∈ S.sets ptr

namespace ValDescribed

variable {abs abs' : Nat → CObj} {size size' : Nat} {ptr ptr' : Pointer}

theorem none : ValDescribed S abs size none ptr := by
  intro a h
  cases h

theorem plain (q : Plain) : ValDescribed S abs size (some (.plain q)) ptr := by
  intro a h
  cases h

theorem ref {a : Nat} (hlt : a < size) (ha : abs a ∈ S.sets ptr) :
    ValDescribed S abs size (some (.ref a)) ptr := by
  intro b h
  cases h
  exact ⟨hlt, ha⟩

theorem subset {x : Option Val} (h : ValDescribed S abs size x ptr)
    (hsub : S.sets ptr ⊆ S.sets ptr') : ValDescribed S abs size x ptr' := by
  intro a ha
  exact ⟨(h a ha).1, hsub (h a ha).2⟩

/-- New addresses change nothing for old references. -/
theorem extend {x : Option Val} (h : ValDescribed S abs size x ptr) (hsize : size ≤ size')
    (habs : ∀ a < size, abs' a = abs a) : ValDescribed S abs' size' x ptr := by
  intro a ha
  obtain ⟨hlt, hmem⟩ := h a ha
  rw [habs a hlt]
  exact ⟨Nat.lt_of_lt_of_le hlt hsize, hmem⟩

theorem reads {x : Option Val} {y : Val} (h : ValDescribed S abs size x ptr)
    (hy : Reads unset x y) : ValDescribed S abs size (some y) ptr := by
  cases hy with
  | assigned => exact h
  | unassigned => exact plain _

end ValDescribed

/-! ### Heap and frames -/

/-- What an object holds is described by the pointers of the object that stands for it. -/
structure InstanceDescribed (S : Solution) (abs : Nat → CObj) (size : Nat) (c : CObj)
    (o : Instance) : Prop where
  origin : o.origin = c.val
  fields : ∀ f, ValDescribed S abs size (o.fields f) (.field c f)
  elements : ∀ i, ValDescribed S abs size (o.elements i) (.elements c)

/-- The heap and the static fields are described. -/
structure HeapDescribed (S : Solution) (abs : Nat → CObj) (st : State) : Prop where
  instances : ∀ a o, st.heap[a]? = some o → InstanceDescribed S abs st.heap.length (abs a) o
  statics : ∀ f, ValDescribed S abs st.heap.length (st.statics f) (.static f)

/-- A frame is described under a context. -/
structure FrameDescribed (S : Solution) (abs : Nat → CObj) (size : Nat) (ctx : Context)
    (f : Frame) : Prop where
  reachable : ⟨ctx, f.method⟩ ∈ S.reachable
  locals : ∀ v, ValDescribed S abs size (f.locals v) (varOf ⟨ctx, f.method⟩ v)

/-- The frames below one of a method are described, each calling the one above it. -/
inductive Callers (p : Program) (S : Solution) (abs : Nat → CObj) (size : Nat) :
    CMethod → List Frame → Prop
  | nil (callee : CMethod) : Callers p S abs size callee []
  | cons {callee : CMethod} {f : Frame} {rest : List Frame} {ctx : Context} {i : Nat}
      {result : Option Var} {call : Call} {kind : CallKind}
      (hframe : FrameDescribed S abs size ctx f) (hat : AtStmt p f i (.invoke result call))
      (hedge : ⟨kind, ⟨ctx, ⟨f.method, i⟩⟩, callee⟩ ∈ S.calls)
      (hrest : Callers p S abs size ⟨ctx, f.method⟩ rest) : Callers p S abs size callee (f :: rest)

/-- The stack is described. -/
def StackDescribed (p : Program) (S : Solution) (abs : Nat → CObj) (size : Nat)
    (frames : List Frame) : Prop :=
  ∀ f rest, frames = f :: rest →
    ∃ ctx, FrameDescribed S abs size ctx f ∧ Callers p S abs size ⟨ctx, f.method⟩ rest

/-- A solution describes a state. -/
structure Describes (p : Program) (S : Solution) (abs : Nat → CObj) (st : State) : Prop where
  heap : HeapDescribed S abs st
  stack : StackDescribed p S abs st.heap.length st.frames
  entered : ∀ m ∈ st.entered, ∃ ctx, ⟨ctx, m⟩ ∈ S.reachable
  called : ∀ e ∈ st.called, ∃ c c', ⟨e.kind, ⟨c, e.site⟩, ⟨c', e.callee⟩⟩ ∈ S.calls

section Heap

variable {abs abs' : Nat → CObj} {size size' : Nat} {c : CObj} {o : Instance} {st : State}

theorem instanceDescribed_fresh : InstanceDescribed S abs size c (.fresh c.val) :=
  ⟨rfl, fun _ => .none, fun _ => .none⟩

theorem InstanceDescribed.extend (h : InstanceDescribed S abs size c o) (hsize : size ≤ size')
    (habs : ∀ a < size, abs' a = abs a) : InstanceDescribed S abs' size' c o :=
  ⟨h.origin, fun f => (h.fields f).extend hsize habs, fun i => (h.elements i).extend hsize habs⟩

theorem InstanceDescribed.setField (h : InstanceDescribed S abs size c o) {g : Field} {x : Val}
    (hx : ValDescribed S abs size (some x) (.field c g)) :
    InstanceDescribed S abs size c (o.setField g x) := by
  refine ⟨h.origin, ?_, h.elements⟩
  intro f
  show ValDescribed S abs size (if f = g then some x else o.fields f) _
  split
  · rename_i hf
    rw [hf]
    exact hx
  · exact h.fields f

theorem InstanceDescribed.setElement (h : InstanceDescribed S abs size c o) {i : Int32} {x : Val}
    (hx : ValDescribed S abs size (some x) (.elements c)) :
    InstanceDescribed S abs size c (o.setElement i x) := by
  refine ⟨h.origin, h.fields, ?_⟩
  intro j
  show ValDescribed S abs size (if j = i then some x else o.elements j) _
  split
  · exact hx
  · exact h.elements j

theorem HeapDescribed.of_eq (h : HeapDescribed S abs st) {st' : State} (hheap : st'.heap = st.heap)
    (hstatics : st'.statics = st.statics) : HeapDescribed S abs st' := by
  refine ⟨?_, ?_⟩
  · rw [hheap]
    exact h.instances
  · rw [hheap, hstatics]
    exact h.statics

/-- One object of the heap is replaced. -/
theorem HeapDescribed.set (h : HeapDescribed S abs st) {a : Nat}
    (ho : InstanceDescribed S abs st.heap.length (abs a) o) :
    HeapDescribed S abs (st.withHeap (st.heap.set a o)) := by
  have hlen : (st.withHeap (st.heap.set a o)).heap.length = st.heap.length := List.length_set
  refine ⟨?_, ?_⟩
  · intro b o' hb
    rw [hlen]
    have hget : (st.heap.set a o)[b]? = some o' := hb
    rw [List.getElem?_set] at hget
    split at hget
    · rename_i heq
      subst heq
      split at hget
      · obtain rfl := Option.some.inj hget
        exact ho
      · cases hget
    · exact h.instances b o' hget
  · intro f
    rw [hlen]
    exact h.statics f

/-- A new object is put behind the others. -/
theorem HeapDescribed.push (h : HeapDescribed S abs st)
    (habs : ∀ a < st.heap.length, abs' a = abs a) (hnew : abs' st.heap.length = c) :
    HeapDescribed S abs' (st.withHeap (st.heap ++ [.fresh c.val])) := by
  have hlen : (st.withHeap (st.heap ++ [.fresh c.val])).heap.length = st.heap.length + 1 :=
    List.length_append
  have hle : st.heap.length ≤ st.heap.length + 1 := by omega
  refine ⟨?_, ?_⟩
  · intro b o' hb
    rw [hlen]
    have hget : (st.heap ++ [Instance.fresh c.val])[b]? = some o' := hb
    by_cases hlt : b < st.heap.length
    · rw [List.getElem?_append_left hlt] at hget
      rw [habs b hlt]
      exact (h.instances b o' hget).extend hle habs
    · obtain ⟨hbound, -⟩ := List.getElem?_eq_some_iff.1 hget
      rw [List.length_append, List.length_singleton] at hbound
      have hlast : b = st.heap.length := by omega
      rw [hlast, List.getElem?_concat_length] at hget
      rw [hlast]
      obtain rfl := Option.some.inj hget
      rw [hnew]
      exact instanceDescribed_fresh
  · intro f
    rw [hlen]
    exact (h.statics f).extend hle habs

end Heap

section Frames

variable {abs abs' : Nat → CObj} {size size' : Nat} {ctx : Context} {f : Frame}

theorem FrameDescribed.extend (h : FrameDescribed S abs size ctx f) (hsize : size ≤ size')
    (habs : ∀ a < size, abs' a = abs a) : FrameDescribed S abs' size' ctx f :=
  ⟨h.reachable, fun v => (h.locals v).extend hsize habs⟩

theorem FrameDescribed.moveTo (h : FrameDescribed S abs size ctx f) (n : Node) :
    FrameDescribed S abs size ctx (f.moveTo n) :=
  ⟨h.reachable, h.locals⟩

theorem FrameDescribed.put (h : FrameDescribed S abs size ctx f) {v : Var} {x : Option Val}
    (hx : ValDescribed S abs size x (varOf ⟨ctx, f.method⟩ v)) :
    FrameDescribed S abs size ctx (f.put v x) := by
  refine ⟨h.reachable, ?_⟩
  intro w
  show ValDescribed S abs size (if w = v then x else f.locals w) _
  split
  · rename_i hw
    rw [hw]
    exact hx
  · exact h.locals w

theorem FrameDescribed.receive (h : FrameDescribed S abs size ctx f) {result : Option Var}
    {x : Option Val}
    (hx : ∀ v, result = some v → ValDescribed S abs size x (varOf ⟨ctx, f.method⟩ v)) :
    FrameDescribed S abs size ctx (f.receive result x) := by
  cases result with
  | none => exact h
  | some v => exact h.put (hx v rfl)

theorem Callers.extend {callee : CMethod} {frames : List Frame}
    (h : Callers p S abs size callee frames) (hsize : size ≤ size')
    (habs : ∀ a < size, abs' a = abs a) : Callers p S abs' size' callee frames := by
  induction h with
  | nil callee => exact .nil callee
  | cons hframe hat hedge _ ih => exact .cons (hframe.extend hsize habs) hat hedge ih

theorem StackDescribed.cons {rest : List Frame} (hframe : FrameDescribed S abs size ctx f)
    (hrest : Callers p S abs size ⟨ctx, f.method⟩ rest) :
    StackDescribed p S abs size (f :: rest) := by
  intro g rest' heq
  obtain ⟨rfl, rfl⟩ := List.cons.inj heq
  exact ⟨ctx, hframe, hrest⟩

theorem stackDescribed_nil : StackDescribed p S abs size [] := by
  intro f rest heq
  cases heq

end Frames

/-! ### Arguments -/

/-- Arguments meet parameters as the values of the arguments meet them. -/
theorem mem_zip_of_forall₂ {α β γ : Type} {R : α → β → Prop} {as : List α} {xs : List β}
    (h : List.Forall₂ R as xs) {qs : List γ} {q : γ} {x : β} (hmem : (q, x) ∈ qs.zip xs) :
    ∃ a, (a, q) ∈ as.zip qs ∧ R a x := by
  induction h generalizing qs with
  | nil => simp at hmem
  | cons hax _ ih =>
    cases qs with
    | nil => simp at hmem
    | cons r qs =>
      rw [List.zip_cons_cons] at hmem ⊢
      rcases List.mem_cons.1 hmem with heq | hmem
      · obtain ⟨rfl, rfl⟩ := Prod.mk.inj heq
        exact ⟨_, List.mem_cons_self, hax⟩
      · obtain ⟨a, ha, hR⟩ := ih hmem
        exact ⟨a, List.mem_cons_of_mem _ ha, hR⟩

theorem mem_of_lookup {α β : Type} [BEq α] [LawfulBEq α] {xs : List (α × β)} {a : α} {b : β}
    (h : xs.lookup a = some b) : (a, b) ∈ xs := by
  obtain ⟨l₁, l₂, rfl, -⟩ := List.lookup_eq_some_iff.1 h
  simp

/-- The variables of a callee hold its receiver and its arguments. -/
theorem calleeLocals_cases {m : Method} {receiver : Option Val} {args : List Val} {v : Var}
    {x : Val} (h : calleeLocals m receiver args v = some x) :
    m.receiver? = some v ∧ receiver = some x ∨ (v, x) ∈ m.params.zip args := by
  unfold calleeLocals at h
  split at h
  · rename_i hthis
    exact Or.inl ⟨hthis, h⟩
  · exact Or.inr (mem_of_lookup h)

theorem method_of_receiverOf {id : MethodId} {m : Method} (hm : p.method? id = some m) :
    receiverOf? p id = m.receiver? := by
  simp [receiverOf?, hm]

/-- A static method has no receiver. -/
theorem receiver?_of_isStatic {m : Method} (h : m.isStatic = true) : m.receiver? = none := by
  simp [Method.receiver?, h]

/-- A store is no entry and no call. -/
theorem Stores.history {st st' : State} {f : Frame} {x : Val} {place : Place}
    (h : Stores unset st f x place st') : st'.entered = st.entered ∧ st'.called = st.called := by
  cases h <;> exact ⟨rfl, rfl⟩

/-! ### Expressions and stores -/

section Closed

variable (hS : Closed p policy heap S) {abs : Nat → CObj} {st : State} {f : Frame}
  {ctx : Context}

include hS

/-- An expression evaluates to what its variable is described to refer to. -/
theorem evaluates_described (hheap : HeapDescribed S abs st)
    (hframe : FrameDescribed S abs st.heap.length ctx f) {i : Nat} {lhs : Var} {e : Expr} {x : Val}
    (hrun : Runs p ⟨ctx, f.method⟩ i (.assign lhs e)) (hx : Evaluates unset st f e x) :
    ValDescribed S abs st.heap.length (some x) (varOf ⟨ctx, f.method⟩ lhs) := by
  have hreachable := hframe.reachable
  cases hx with
  | var h => exact ((hframe.locals _).reads h).subset (hS.copy _ hreachable i lhs _ hrun)
  | int n => exact .plain _
  | null => exact .plain _
  | binary => exact .plain _
  | binaryOther => exact .plain _
  | @cast ty v a h =>
    have hv : ValDescribed S abs st.heap.length (some (.ref a)) (varOf ⟨ctx, f.method⟩ v) :=
      h ▸ hframe.locals v
    exact hv.subset (hS.cast _ hreachable i lhs ty v hrun)
  | convert h q => exact .plain q
  | @loadField base g a o x hbase ho h =>
    -- the object read through the variable is one for which the rule speaks
    obtain ⟨hlt, ha⟩ := hframe.locals base a hbase
    exact (((hheap.instances a o ho).fields g).reads h).subset
      (hS.fieldLoad ⟨ctx, f.method⟩ i lhs base g (abs a) hrun.stmt? ha)
  | @loadStatic g x h =>
    exact ((hheap.statics g).reads h).subset (hS.staticLoad _ hreachable i lhs g hrun)
  | @loadElement array index a j o x harray hindex ho h =>
    obtain ⟨hlt, ha⟩ := hframe.locals array a harray
    exact (((hheap.instances a o ho).elements j).reads h).subset
      (hS.arrayLoad ⟨ctx, f.method⟩ i lhs array index (abs a) hrun.stmt? ha)

/-- A store writes what its place is described to refer to. -/
theorem stores_described (hheap : HeapDescribed S abs st)
    (hframe : FrameDescribed S abs st.heap.length ctx f) {i : Nat} {place : Place} {source : Var}
    {x : Val} {st' : State} (hrun : Runs p ⟨ctx, f.method⟩ i (.store place source))
    (hx : Reads unset (f.locals source) x) (hstore : Stores unset st f x place st') :
    HeapDescribed S abs st' ∧ st'.heap.length = st.heap.length := by
  have hx : ValDescribed S abs st.heap.length (some x) (varOf ⟨ctx, f.method⟩ source) :=
    (hframe.locals source).reads hx
  cases hstore with
  | @field base g a o hbase ho =>
    obtain ⟨hlt, ha⟩ := hframe.locals base a hbase
    -- only the slot written changes, and it gets what the rule for the store allows
    have hnew : ValDescribed S abs st.heap.length (some x) (.field (abs a) g) :=
      hx.subset (hS.fieldStore ⟨ctx, f.method⟩ i base g source (abs a) hrun.stmt? ha)
    exact ⟨hheap.set ((hheap.instances a o ho).setField hnew), List.length_set⟩
  | @static g =>
    have hnew : ValDescribed S abs st.heap.length (some x) (.static g) :=
      hx.subset (hS.staticStore _ hframe.reachable i g source hrun)
    refine ⟨⟨hheap.instances, ?_⟩, rfl⟩
    intro h
    show ValDescribed S abs st.heap.length (if h = g then some x else st.statics h) _
    split
    · rename_i heq
      rw [heq]
      exact hnew
    · exact hheap.statics h
  | @element array index a j o harray hindex ho =>
    obtain ⟨hlt, ha⟩ := hframe.locals array a harray
    have hnew : ValDescribed S abs st.heap.length (some x) (.elements (abs a)) :=
      hx.subset (hS.arrayStore ⟨ctx, f.method⟩ i array index source (abs a) hrun.stmt? ha)
    exact ⟨hheap.set ((hheap.instances a o ho).setElement hnew), List.length_set⟩

/-! ### Calls and returns -/

/-- **A call of a described frame has an edge to a callee whose variables are described.** -/
theorem call_described (hheap : HeapDescribed S abs st)
    (hframe : FrameDescribed S abs st.heap.length ctx f) {i : Nat} {result : Option Var}
    {call : Call} (hrun : Runs p ⟨ctx, f.method⟩ i (.invoke result call)) {callee : MethodId}
    {m : Method} {receiver : Option Val} (hselects : Selects p st f call callee m receiver)
    (hbody : m.hasBody = true) {args : List Val}
    (hargs : List.Forall₂ (fun v x => Reads unset (f.locals v) x) call.args args)
    (hlength : call.args.length = m.params.length) :
    ∃ ctx', ⟨call.kind, ⟨ctx, ⟨f.method, i⟩⟩, ⟨ctx', callee⟩⟩ ∈ S.calls ∧
      ∀ v, ValDescribed S abs st.heap.length (calleeLocals m receiver args v)
        (varOf ⟨ctx', callee⟩ v) := by
  -- both kinds of calls pass their arguments along the edge
  have hparam {ctx' : Context} {kind : CallKind} (hm : p.method? callee = some m)
      (he : ⟨kind, ⟨ctx, ⟨f.method, i⟩⟩, ⟨ctx', callee⟩⟩ ∈ S.calls) {v : Var} {x : Val}
      (hmem : (v, x) ∈ m.params.zip args) :
      ValDescribed S abs st.heap.length (some x) (varOf ⟨ctx', callee⟩ v) := by
    obtain ⟨a, ha, hread⟩ := mem_zip_of_forall₂ hargs hmem
    exact ((hframe.locals a).reads hread).subset
      (hS.argument _ he result call m hrun.stmt? hm hbody hlength a v ha)
  have hlocals {ctx' : Context} {kind : CallKind} (hm : p.method? callee = some m)
      (he : ⟨kind, ⟨ctx, ⟨f.method, i⟩⟩, ⟨ctx', callee⟩⟩ ∈ S.calls)
      (hthis : ∀ v, m.receiver? = some v →
        ValDescribed S abs st.heap.length receiver (varOf ⟨ctx', callee⟩ v)) (v : Var) :
      ValDescribed S abs st.heap.length (calleeLocals m receiver args v)
        (varOf ⟨ctx', callee⟩ v) := by
    intro a hlocal
    rcases calleeLocals_cases hlocal with ⟨hv, hreceiver⟩ | hmem
    · exact hthis v hv a hreceiver
    · exact hparam hm he hmem a rfl
  cases hselects with
  | static hkind hcallee hm hstatic =>
    have hany : (p.method? callee).any Method.isStatic = true := by
      rw [hm]
      exact hstatic
    have he := hS.staticCall ⟨ctx, f.method⟩ hframe.reachable i result call callee hrun hkind
      hcallee hany
    rw [← hkind] at he
    refine ⟨_, he, hlocals hm he ?_⟩
    intro v hv
    rw [receiver?_of_isStatic hstatic] at hv
    cases hv
  | @onReceiver v this a o callee m hkind hv hlocal ho hcallee hm hthis =>
    obtain ⟨hlt, ha⟩ := hframe.locals v a hlocal
    rw [(hheap.instances a o ho).origin] at hcallee
    have hreceiver : receiverOf? p callee = some this := (method_of_receiverOf hm).trans hthis
    obtain ⟨he, hself⟩ := hS.receiverCall ⟨ctx, f.method⟩ i result call v (abs a) callee this
      hrun.stmt? hv ha hcallee hreceiver
    refine ⟨_, he, hlocals hm he ?_⟩
    intro w hw
    obtain rfl := Option.some.inj (hthis.symm.trans hw)
    exact .ref hlt hself

/-- **What a method returns is described by the result of the call below it.** -/
theorem return_described {abs : Nat → CObj} {size : Nat} {f caller : Frame} {ctx ctx' : Context}
    (hframe : FrameDescribed S abs size ctx f) {x : Option Val} (hx : Returns p unset f x)
    {i : Nat} {result : Option Var} {call : Call} {kind : CallKind}
    (hrun : Runs p ⟨ctx', caller.method⟩ i (.invoke result call))
    (he : ⟨kind, ⟨ctx', ⟨caller.method, i⟩⟩, ⟨ctx, f.method⟩⟩ ∈ S.calls) {v : Var}
    (hv : result = some v) : ValDescribed S abs size x (varOf ⟨ctx', caller.method⟩ v) := by
  subst hv
  cases hx with
  | @value j w x hat h =>
    have hret : Runs p ⟨ctx, f.method⟩ j (.ret (some w)) := hat.2
    obtain ⟨m, hm, hstmt⟩ := Program.stmt?_eq_some.1 hret.stmt?
    have hw : w ∈ m.returnVars := Method.mem_returnVars.2 ⟨j, hstmt⟩
    exact ((hframe.locals w).reads h).subset (hS.result _ he v call m hrun.stmt? hm w hw)
  | void => exact .none
  | done => exact .none

/-! ### Steps -/

/-- Every instance entry method has a receiver object of its own. -/
def OwnReceivers (p : Program) (heap : Heap) : Prop :=
  ∀ id ∈ p.entries, (receiverOf? p id).isSome = true → entryObject p heap id = ownReceiver p id

omit hS in
/-- Addresses that are in use keep their description when a new object is described. -/
theorem update_of_lt (abs : Nat → CObj) (size : Nat) (c : CObj) :
    ∀ a < size, Function.update abs size c a = abs a := by
  intro a ha
  exact Function.update_of_ne (Nat.ne_of_lt ha) c abs

/-- An entry method starts. -/
theorem Describes.start (hown : OwnReceivers p heap) (h : Describes p S abs st) {id : MethodId}
    {m : Method} (args : Var → Plain) (hid : id ∈ p.entries) (hm : p.method? id = some m) :
    ∃ abs', Describes p S abs' (st.start p id m args) := by
  have hreachable : ∀ n ∈ id :: st.entered, ∃ ctx, ⟨ctx, n⟩ ∈ S.reachable := by
    intro n hn
    rcases List.mem_cons.1 hn with rfl | hn
    · exact ⟨[], hS.entry n hid⟩
    · exact h.entered n hn
  cases hthis : m.receiver? with
  | none =>
    have hheap : (st.start p id m args).heap = st.heap := by simp [State.start, hthis]
    refine ⟨abs, h.heap.of_eq hheap rfl, ?_, hreachable, h.called⟩
    refine StackDescribed.cons ⟨hS.entry id hid, ?_⟩ (.nil _)
    intro v a ha
    exact nomatch hthis.symm.trans (entryLocals_ref ha).1
  | some this =>
    have hsome : receiverOf? p id = some this := (method_of_receiverOf hm).trans hthis
    let c : CObj := ⟨[], ownReceiver p id⟩
    have hc : c ∈ S.sets (varOf ⟨[], id⟩ this) := by
      have hentry := hS.entryReceiver id hid this hsome
      rwa [hown id hid (by rw [hsome]; rfl)] at hentry
    have hheap : (st.start p id m args).heap = st.heap ++ [Instance.fresh c.val] := by
      simp [State.start, hthis, c]
    have hlen : (st.start p id m args).heap.length = st.heap.length + 1 := by
      rw [hheap]
      exact List.length_append
    have hself : Function.update abs st.heap.length c st.heap.length = c :=
      Function.update_self _ _ _
    refine ⟨Function.update abs st.heap.length c,
      (h.heap.push (update_of_lt abs _ c) hself).of_eq hheap rfl, ?_, hreachable, h.called⟩
    rw [hlen]
    -- the only reference that the method starts with is the one to its receiver
    refine StackDescribed.cons ⟨hS.entry id hid, ?_⟩ (.nil _)
    intro v a ha
    obtain ⟨hv, rfl⟩ := entryLocals_ref ha
    obtain rfl := Option.some.inj (hthis.symm.trans hv)
    rw [hself]
    exact ⟨by omega, hc⟩

/-- A new object is described by its site under the heap context of the method. -/
theorem Describes.allocate (h : Describes p S abs st) {f : Frame} {rest : List Frame} {i : Nat}
    {lhs : Var} {what : Alloc} (n : Node) (hframes : st.frames = f :: rest)
    (hat : AtStmt p f i (.assign lhs (.new what))) :
    ∃ abs', Describes p S abs'
      ((st.withHeap (st.heap ++ [.fresh (.alloc ⟨f.method, i⟩ what.ty)])).withFrames
        ((f.put lhs (some (.ref st.heap.length))).moveTo n :: rest)) := by
  obtain ⟨ctx, hframe, hrest⟩ := h.stack f rest hframes
  have hlen : (st.heap ++ [Instance.fresh (.alloc ⟨f.method, i⟩ what.ty)]).length =
      st.heap.length + 1 := List.length_append
  have hle : st.heap.length ≤ st.heap.length + 1 := by omega
  let c : CObj := ⟨policy.heapContext ctx, .alloc ⟨f.method, i⟩ what.ty⟩
  have hc : c ∈ S.sets (varOf ⟨ctx, f.method⟩ lhs) :=
    hS.allocation _ hframe.reachable i lhs what hat.2
  have hself : Function.update abs st.heap.length c st.heap.length = c :=
    Function.update_self _ _ _
  have hkeeps := update_of_lt abs st.heap.length c
  refine ⟨Function.update abs st.heap.length c, (h.heap.push hkeeps hself).of_eq rfl rfl, ?_,
    h.entered, h.called⟩
  show StackDescribed p S _ (st.heap ++ [Instance.fresh _]).length _
  rw [hlen]
  have hlocal : ValDescribed S (Function.update abs st.heap.length c) (st.heap.length + 1)
      (some (.ref st.heap.length)) (varOf ⟨ctx, f.method⟩ lhs) := by
    refine .ref (by omega) ?_
    rw [hself]
    exact hc
  exact .cons (((hframe.extend hle hkeeps).put hlocal).moveTo n) (hrest.extend hle hkeeps)

/-- A callee starts under the context of the edge that the call has in the solution. -/
theorem Describes.call (h : Describes p S abs st) {f : Frame} {rest : List Frame} {i : Nat}
    {result : Option Var} {call : Call} {callee : MethodId} {m : Method} {receiver : Option Val}
    {args : List Val} (hframes : st.frames = f :: rest) (hat : AtStmt p f i (.invoke result call))
    (hselects : Selects p st f call callee m receiver) (hbody : m.hasBody = true)
    (hargs : List.Forall₂ (fun v x => Reads unset (f.locals v) x) call.args args)
    (hlength : call.args.length = m.params.length) :
    Describes p S abs
      (st.enter p ⟨call.kind, ⟨f.method, i⟩, callee⟩ (calleeLocals m receiver args)) := by
  obtain ⟨ctx, hframe, hrest⟩ := h.stack f rest hframes
  obtain ⟨ctx', he, hlocals⟩ := call_described hS h.heap hframe hat.2 hselects hbody hargs hlength
  have hreachable : ⟨ctx', callee⟩ ∈ S.reachable := hS.callee _ he
  refine ⟨h.heap.of_eq rfl rfl, ?_, ?_, ?_⟩
  · show StackDescribed p S abs st.heap.length (_ :: st.frames)
    rw [hframes]
    exact .cons ⟨hreachable, hlocals⟩ (.cons hframe hat he hrest)
  · intro n hn
    rcases List.mem_cons.1 hn with rfl | hn
    · exact ⟨ctx', hreachable⟩
    · exact h.entered n hn
  · intro e' he'
    rcases List.mem_cons.1 he' with rfl | he'
    · exact ⟨ctx, ctx', he⟩
    · exact h.called e' he'

/-- **Every step of a run keeps a closed solution a description of it**, if entry methods have
receivers of their own. -/
theorem Describes.step (hown : OwnReceivers p heap) {st' : State} (h : Describes p S abs st)
    (hstep : RunStep p unset st st') : ∃ abs', Describes p S abs' st' := by
  have htop {f : Frame} {rest : List Frame} (hframes : st.frames = f :: rest) :=
    h.stack f rest hframes
  -- the frame on top goes on, and heap and static fields stay as they are
  have hmoved {f : Frame} {rest : List Frame} {ctx : Context} {n : Node}
      (hframe : FrameDescribed S abs st.heap.length ctx f)
      (hrest : Callers p S abs st.heap.length ⟨ctx, f.method⟩ rest) :
      Describes p S abs (st.withFrames (f.moveTo n :: rest)) :=
    ⟨h.heap.of_eq rfl rfl, .cons (hframe.moveTo n) hrest, h.entered, h.called⟩
  cases hstep with
  | @start id m args hframes hid hm hargs => exact h.start hS hown args hid hm
  | @assign f rest i lhs e x n hframes hat hx hnext =>
    obtain ⟨ctx, hframe, hrest⟩ := htop hframes
    exact ⟨abs, hmoved (hframe.put (evaluates_described hS h.heap hframe hat.2 hx)) hrest⟩
  | @allocate f rest i lhs what n hframes hat hnext => exact h.allocate hS n hframes hat
  | @store f rest i place source x n st' hframes hat hx hstore hnext =>
    obtain ⟨ctx, hframe, hrest⟩ := htop hframes
    obtain ⟨hheap, hlen⟩ := stores_described hS h.heap hframe hat.2 hx hstore
    obtain ⟨hentered, hcalled⟩ := hstore.history
    refine ⟨abs, hheap.of_eq rfl rfl, ?_, ?_, ?_⟩
    · show StackDescribed p S abs st'.heap.length _
      rw [hlen]
      exact .cons (hframe.moveTo n) hrest
    · show ∀ m ∈ st'.entered, _
      rw [hentered]
      exact h.entered
    · show ∀ e ∈ st'.called, _
      rw [hcalled]
      exact h.called
  | pass hframes hat hs hnext =>
    obtain ⟨ctx, hframe, hrest⟩ := htop hframes
    exact ⟨abs, hmoved hframe hrest⟩
  | call hframes hat hselects hbody hargs hlength =>
    exact ⟨abs, h.call hS hframes hat hselects hbody hargs hlength⟩
  | @callDynamic f rest i result call n hframes hat hkind q hnext =>
    obtain ⟨ctx, hframe, hrest⟩ := htop hframes
    have hrest : Callers p S abs st.heap.length
        ⟨ctx, (f.receive result (some (.plain q))).method⟩ rest := by
      rw [Frame.method_receive]
      exact hrest
    exact ⟨abs, hmoved (hframe.receive fun _ _ => .plain q) hrest⟩
  | @leave f caller rest x i result call n hframes hreturn hat hnext =>
    obtain ⟨ctx, hframe, hrest⟩ := htop hframes
    cases hrest with
    | @cons _ _ _ ctx' i' result' call' kind hcaller hat' he hrest' =>
      -- the call of the step is the one that the edge comes from
      obtain rfl : i' = i := Node.stmt.inj (hat'.1.symm.trans hat.1)
      cases hat'.2.symm.trans hat.2
      have hrest : Callers p S abs st.heap.length ⟨ctx', (caller.receive result x).method⟩ rest := by
        rw [Frame.method_receive]
        exact hrest'
      exact ⟨abs, hmoved (hcaller.receive fun v hv =>
        return_described hS hframe hreturn hat.2 he hv) hrest⟩
  | finish hframes hreturn =>
    exact ⟨abs, h.heap.of_eq rfl rfl, stackDescribed_nil, h.entered, h.called⟩

end Closed

end Execution

end HeapFlow
