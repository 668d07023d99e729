import HeapFlow.Proofs.Ir.Loaded
import HeapFlow.Proofs.PointsTo.Rules
import HeapFlow.Proofs.PointsTo.Steps
import Mathlib.Data.Set.Finite.Lattice
import Mathlib.Data.Set.Finite.List
/-!
# HeapFlow.Proofs.PointsTo.Scope

**Whatever an analysis can find lies in a finite scope.** A policy cuts every context to a limit, and
contexts are made of sites, objects and classes of the program, so there are finitely many contexts
in the scope. Hence there are finitely many methods, calls, pointers and objects under them. The
solution that says all of this is closed under the rules: recursion in the program leads from one
context of the scope to another.

Objects stand under heap contexts, heap contexts come from calling contexts, and calling contexts may
be made of objects. This is no circle, because an object is an element of a context without its own
heap context, and there are finitely many such elements before there are any contexts.
-/

namespace HeapFlow

namespace PointsTo

namespace Scope

/-- Some things, each under some contexts. -/
def under {α : Type} (contexts : Set Context) (things : Set α) : Set (Contextual α) :=
  {x | x.ctx ∈ contexts ∧ x.val ∈ things}

theorem finite_under {α : Type} {contexts : Set Context} {things : Set α}
    (hcontexts : contexts.Finite) (hthings : things.Finite) : (under contexts things).Finite := by
  refine (hcontexts.image2 Contextual.mk hthings).subset ?_
  intro x hx
  exact ⟨x.ctx, hx.1, x.val, hx.2, rfl⟩

section Parts

variable (p : Program) (heap : Heap)

/-- The references under which methods are analysed. -/
def methods : Set MethodId := {id | id ∈ p.entries ++ p.methods.map Method.id}

/-- The sites of statements of these methods. -/
def sites : Set Site := {site | site.method ∈ methods p ∧ (p.stmt? site).isSome}

/-- The objects of allocations and of entry receivers. -/
def objects : Set Obj :=
  {o | ∃ site ∈ sites p, ∃ lhs what, p.stmt? site = some (.assign lhs (.new what)) ∧
    o = .alloc site what.ty} ∪ entryObject p heap '' {id | id ∈ p.entries}

/-- What contexts are made of. -/
def elements : Set ContextElement :=
  .site '' sites p ∪ .obj '' objects p heap ∪ (fun o => .cls o.container.owner) '' objects p heap

/-- The contexts up to a limit. -/
def contexts (limit : Nat) : Set Context := {c | c.length ≤ limit ∧ ∀ e ∈ c, e ∈ elements p heap}

/-- The variables of a method into which something may flow. -/
def targets (m : Method) : List Var :=
  m.receiver?.toList ++ m.params ++ m.stmts.filterMap Stmt.defined?

/-- The field into which a statement stores. -/
def storedField? : Stmt → Option Field
  | .store (.field _ f) _ => some f
  | .store (.static f) _ => some f
  | _ => none

variable (policy : Policy)

/-- The heap contexts of a policy are cut twice. -/
def heapContexts : Set Context := contexts p heap (min policy.limit policy.heapLimit)

/-- The pointers to which something may flow. -/
inductive Target : Pointer → Prop
  | var {m : CMethod} {method : Method} {v : Var}
      (hm : m ∈ under (contexts p heap policy.limit) (methods p))
      (hmethod : p.method? m.val = some method) (hv : v ∈ targets method) : Target (varOf m v)
  | static {f : Field} {site : Site} {stmt : Stmt} (hstmt : p.stmt? site = some stmt)
      (hf : storedField? stmt = some f) : Target (.static f)
  | field {o : CObj} {f : Field} {site : Site} {stmt : Stmt}
      (ho : o ∈ under (heapContexts p heap policy) (objects p heap))
      (hstmt : p.stmt? site = some stmt) (hf : storedField? stmt = some f) : Target (.field o f)
  | elements {o : CObj} (ho : o ∈ under (heapContexts p heap policy) (objects p heap)) :
      Target (.elements o)

/-- Everything that an analysis may ever find. -/
def solution : Solution where
  reachable := under (contexts p heap policy.limit) (methods p)
  calls := {e | e.site ∈ under (contexts p heap policy.limit) (sites p) ∧
    e.callee ∈ under (contexts p heap policy.limit) (methods p)}
  sets ptr := {o | Target p heap policy ptr ∧
    o ∈ under (heapContexts p heap policy) (objects p heap)}

end Parts

variable {p : Program} {policy : Policy} {heap : Heap}

/-! ### The scope is finite -/

theorem finite_methods (p : Program) : (methods p).Finite := List.finite_toSet _

/-- Every method has finitely many statements. -/
theorem finite_sites (p : Program) : (sites p).Finite := by
  refine ((finite_methods p).biUnion (t := fun id => {site | site.method = id ∧
    (p.stmt? site).isSome}) fun id _ => ?_).subset ?_
  · cases hm : p.method? id with
    | none =>
      refine Set.finite_empty.subset ?_
      rintro site ⟨rfl, hsite⟩
      simp [Program.stmt?, hm] at hsite
    | some m =>
      refine ((List.range m.body.length).finite_toSet.image (Site.mk id)).subset ?_
      rintro site ⟨rfl, hsite⟩
      refine ⟨site.index, List.mem_range.2 ?_, rfl⟩
      simpa [Program.stmt?, hm, Method.stmt?] using hsite
  · intro site hsite
    exact Set.mem_biUnion hsite.1 ⟨rfl, hsite.2⟩

theorem finite_objects (p : Program) (heap : Heap) : (objects p heap).Finite := by
  refine Set.Finite.union ?_ ((List.finite_toSet p.entries).image _)
  have hsite (site : Site) (_ : site ∈ sites p) : {o | ∃ lhs what,
      p.stmt? site = some (.assign lhs (.new what)) ∧ o = Obj.alloc site what.ty}.Finite := by
    -- a site has one statement, and that creates at most one object
    refine Set.Subsingleton.finite ?_
    rintro o ⟨lhs, what, hstmt, rfl⟩ o' ⟨lhs', what', hstmt', rfl⟩
    cases hstmt.symm.trans hstmt'
    rfl
  refine ((finite_sites p).biUnion hsite).subset ?_
  intro o ⟨site, hmem, ho⟩
  exact Set.mem_biUnion hmem ho

theorem finite_elements (p : Program) (heap : Heap) : (elements p heap).Finite :=
  (((finite_sites p).image _).union ((finite_objects p heap).image _)).union
    ((finite_objects p heap).image _)

theorem finite_contexts (p : Program) (heap : Heap) (limit : Nat) :
    (contexts p heap limit).Finite := by
  have : Finite (elements p heap) := (finite_elements p heap).to_subtype
  refine ((List.finite_length_le (elements p heap) limit).image (List.map Subtype.val)).subset ?_
  intro c ⟨hlength, hmem⟩
  refine ⟨c.attach.map fun e => ⟨e.1, hmem e.1 e.2⟩, ?_, ?_⟩
  · simpa using hlength
  · simp

theorem finite_reachable (p : Program) (heap : Heap) (policy : Policy) :
    (solution p heap policy).reachable.Finite :=
  finite_under (finite_contexts p heap _) (finite_methods p)

/-- The objects of the scope, whatever points to them. -/
theorem finite_objects_under (p : Program) (heap : Heap) (policy : Policy) :
    (under (heapContexts p heap policy) (objects p heap)).Finite :=
  finite_under (finite_contexts p heap _) (finite_objects p heap)

/-- The variables of all methods into which something may flow. -/
theorem finite_targets (p : Program) : {v | ∃ m ∈ p.methods, v ∈ targets m}.Finite := by
  refine (List.finite_toSet (p.methods.flatMap targets)).subset ?_
  intro v ⟨m, hm, hv⟩
  exact List.mem_flatMap.2 ⟨m, hm, hv⟩

theorem finite_storedFields (p : Program) :
    {f | ∃ site stmt, p.stmt? site = some stmt ∧ storedField? stmt = some f}.Finite := by
  refine (List.finite_toSet (p.methods.flatMap fun m => m.stmts.filterMap storedField?)).subset ?_
  intro f ⟨site, stmt, hstmt, hf⟩
  obtain ⟨m, hm, hs⟩ := Program.stmt?_eq_some.1 hstmt
  rw [m.stmt?_eq] at hs
  refine List.mem_flatMap.2 ⟨m, Program.mem_methods_of_method? hm, ?_⟩
  exact List.mem_filterMap.2 ⟨stmt, List.mem_of_getElem? hs, hf⟩

theorem finite_target (p : Program) (heap : Heap) (policy : Policy) :
    {ptr | Target p heap policy ptr}.Finite := by
  have hvar := (finite_reachable p heap policy).image2 varOf (finite_targets p)
  have hstatic := (finite_storedFields p).image Pointer.static
  have hfield := (finite_objects_under p heap policy).image2 Pointer.field (finite_storedFields p)
  have helements := (finite_objects_under p heap policy).image Pointer.elements
  refine (((hvar.union hstatic).union hfield).union helements).subset ?_
  intro ptr hptr
  cases hptr with
  | var hm hmethod hv =>
    exact Or.inl (Or.inl (Or.inl ⟨_, hm, _, ⟨_, Program.mem_methods_of_method? hmethod, hv⟩, rfl⟩))
  | static hstmt hf => exact Or.inl (Or.inl (Or.inr ⟨_, ⟨_, _, hstmt, hf⟩, rfl⟩))
  | field ho hstmt hf => exact Or.inl (Or.inr ⟨_, ho, _, ⟨_, _, hstmt, hf⟩, rfl⟩)
  | elements ho => exact Or.inr ⟨_, ho, rfl⟩

/-! ### Contexts of the scope -/

theorem nil_mem_contexts (limit : Nat) : [] ∈ contexts p heap limit :=
  ⟨Nat.zero_le _, fun _ he => nomatch he⟩

theorem truncate_mem {c : Context} (h : ∀ e ∈ c, e ∈ elements p heap) (limit : Nat) :
    c.truncate limit ∈ contexts p heap (min c.length limit) := by
  exact ⟨(Context.length_truncate c limit).le, fun e he => h e (List.mem_of_mem_drop he)⟩

theorem contexts_mono {m n : Nat} (hmn : m ≤ n) : contexts p heap m ⊆ contexts p heap n :=
  fun _ h => ⟨h.1.trans hmn, h.2⟩

theorem append_mem {c : Context} {limit n : Nat} (hc : c ∈ contexts p heap n)
    {e : ContextElement} (he : e ∈ elements p heap) :
    c.append e limit ∈ contexts p heap limit := by
  refine contexts_mono (Nat.min_le_right ..) (truncate_mem (c := c ++ [e]) ?_ limit)
  intro x hx
  rcases List.mem_append.1 hx with hx | hx
  · exact hc.2 x hx
  · rw [List.mem_singleton.1 hx]
    exact he

theorem site_mem_elements {site : Site} (h : site ∈ sites p) :
    .site site ∈ elements p heap := Or.inl (Or.inl ⟨site, h, rfl⟩)

variable {c : Context}

theorem staticContext_mem (hc : c ∈ contexts p heap policy.limit) {site : Site}
    (hsite : site ∈ sites p) :
    policy.staticContext c site ∈ contexts p heap policy.limit := by
  cases policy with
  | insensitive => exact nil_mem_contexts _
  | limited s k h =>
    cases s with
    | callSite => exact append_mem hc (site_mem_elements hsite)
    | object => exact hc
    | type => exact hc

theorem receiverContext_mem (hc : c ∈ contexts p heap policy.limit) {site : Site}
    (hsite : site ∈ sites p) {o : CObj}
    (ho : o ∈ under (heapContexts p heap policy) (objects p heap)) :
    policy.receiverContext c site o ∈ contexts p heap policy.limit := by
  cases policy with
  | insensitive => exact nil_mem_contexts _
  | limited s k h =>
    cases s with
    | callSite => exact append_mem hc (site_mem_elements hsite)
    | object => exact append_mem ho.1 (Or.inl (Or.inr ⟨_, ho.2, rfl⟩))
    | type => exact append_mem ho.1 (Or.inr ⟨_, ho.2, rfl⟩)

theorem heapContext_mem (hc : c ∈ contexts p heap policy.limit) :
    policy.heapContext c ∈ heapContexts p heap policy := by
  cases policy with
  | insensitive => exact nil_mem_contexts _
  | limited s k h =>
    exact contexts_mono (min_le_min_right h hc.1) (truncate_mem hc.2 h)

/-! ### Pointers of the scope -/

/-- Only variables of methods of the scope are targets. -/
theorem Target.mem_reachable {m : CMethod} {v : Var} (h : Target p heap policy (varOf m v)) :
    m ∈ (solution p heap policy).reachable := by
  generalize hptr : varOf m v = ptr at h
  cases h with
  | @var m' _ _ hm =>
    obtain ⟨hctx, hval⟩ := Contextual.mk.inj (Pointer.var.inj hptr)
    obtain ⟨hval, -⟩ := Local.mk.inj hval
    have heq : m = m' := by
      cases m
      cases m'
      cases hctx
      cases hval
      rfl
    rw [heq]
    exact hm
  | _ => cases hptr

theorem mem_sites {m : CMethod} (hm : m ∈ (solution p heap policy).reachable) {i : Nat} {stmt : Stmt}
    (hstmt : p.stmt? ⟨m.val, i⟩ = some stmt) : ⟨m.val, i⟩ ∈ sites p :=
  ⟨hm.2, by rw [hstmt]; rfl⟩

/-- What a statement defines is a target. -/
theorem Target.defined {m : CMethod} (hm : m ∈ (solution p heap policy).reachable) {i : Nat}
    {stmt : Stmt} (hstmt : p.stmt? ⟨m.val, i⟩ = some stmt) {v : Var}
    (hv : stmt.defined? = some v) : Target p heap policy (varOf m v) := by
  obtain ⟨method, hmethod, hs⟩ := Program.stmt?_eq_some.1 hstmt
  rw [method.stmt?_eq] at hs
  refine .var hm hmethod (List.mem_append_right _ ?_)
  exact List.mem_filterMap.2 ⟨stmt, List.mem_of_getElem? hs, hv⟩

theorem Target.receiver {m : CMethod} (hm : m ∈ (solution p heap policy).reachable) {this : Var}
    (hthis : receiverOf? p m.val = some this) : Target p heap policy (varOf m this) := by
  obtain ⟨method, hmethod, hreceiver⟩ := Option.bind_eq_some_iff.1 hthis
  refine .var hm hmethod (List.mem_append_left _ (List.mem_append_left _ ?_))
  exact Option.mem_toList.2 hreceiver

/-- Dispatch ends at a method of the program. -/
theorem mem_methods_of_dispatch? {c : ClassRef} {subsignature : String} {id : MethodId}
    (h : p.dispatch? c subsignature = some id) : id ∈ methods p := by
  obtain ⟨d, hd, m, hm, rfl, -⟩ := Program.exists_of_dispatch? h
  exact List.mem_append_right _ (List.mem_map.2 ⟨m, List.mem_flatMap.2 ⟨d, hd, hm⟩, rfl⟩)

/-! ### The scope is closed -/

/-- What flows into a target of the scope stays in the scope. -/
theorem subset_of_target {a b : Pointer} (hb : Target p heap policy b) :
    (solution p heap policy).sets a ⊆ (solution p heap policy).sets b := fun _ ho => ⟨hb, ho.2⟩

/-- **The scope is closed under the rules of the analysis.** -/
theorem closed_solution : Closed p policy heap (solution p heap policy) where
  entry id hid := ⟨nil_mem_contexts _, List.mem_append_left _ hid⟩
  entryReceiver := by
    intro id hid this hthis
    refine ⟨.receiver ⟨nil_mem_contexts _, List.mem_append_left _ hid⟩ hthis, ?_⟩
    exact ⟨nil_mem_contexts _, Or.inr ⟨id, hid, rfl⟩⟩
  allocation := by
    intro m hm i lhs what hrun
    refine ⟨.defined hm hrun.stmt? rfl, heapContext_mem hm.1, Or.inl ?_⟩
    exact ⟨_, mem_sites hm hrun.stmt?, lhs, what, hrun.stmt?, rfl⟩
  copy m hm i lhs v hrun := subset_of_target (.defined hm hrun.stmt? rfl)
  cast m hm i lhs ty v hrun := subset_of_target (.defined hm hrun.stmt? rfl)
  staticLoad m hm i lhs f hrun := subset_of_target (.defined hm hrun.stmt? rfl)
  staticStore m hm i f source hrun := subset_of_target (.static hrun.stmt? rfl)
  staticCall := by
    intro m hm i result call callee hrun hkind hcallee hstatic
    have hsite := mem_sites hm hrun.stmt?
    refine ⟨⟨hm.1, hsite⟩, staticContext_mem hm.1 hsite, ?_⟩
    obtain ⟨c, hdispatch⟩ := Program.exists_of_resolveDirect hcallee
    exact mem_methods_of_dispatch? hdispatch
  fieldStore m i base f source o hstmt ho := subset_of_target (.field ho.2 hstmt rfl)
  fieldLoad m i lhs base f o hstmt ho := subset_of_target (.defined ho.1.mem_reachable hstmt rfl)
  arrayStore m i array index source o hstmt ho := subset_of_target (.elements ho.2)
  arrayLoad m i lhs array index o hstmt ho :=
    subset_of_target (.defined ho.1.mem_reachable hstmt rfl)
  receiverCall := by
    intro m i result call v o callee this hstmt hv ho hcallee hthis
    have hm := ho.1.mem_reachable
    have hsite := mem_sites hm hstmt
    have hctx := receiverContext_mem hm.1 hsite ho.2
    obtain ⟨c, hdispatch⟩ := Program.exists_of_resolveByReceiver hcallee
    have hmethod := mem_methods_of_dispatch? hdispatch
    exact ⟨⟨⟨hm.1, hsite⟩, hctx, hmethod⟩, .receiver ⟨hctx, hmethod⟩ hthis, ho.2⟩
  callee e he := he.2
  argument := by
    intro e he result call m hcall hm hbody hlength a q hmem
    refine subset_of_target (.var he.2 hm (List.mem_append_left _ (List.mem_append_right _ ?_)))
    exact (List.of_mem_zip hmem).2
  result := by
    intro e he r call m hcall hm v hv
    have hm : ⟨e.site.ctx, e.site.val.method⟩ ∈ (solution p heap policy).reachable :=
      ⟨he.1.1, he.1.2.1⟩
    exact subset_of_target (.defined hm hcall rfl)

end Scope

end PointsTo

end HeapFlow
