import HeapFlow.Proofs.Ir.Bodies
/-!
# HeapFlow.Proofs.Ir.Declarations

**Every method of a program is read from its own description** (`Document.readFrom_readProgram`).
Classes are numbered in the order in which they are described, methods in the order within their
class. So the description of a method is found by its reference, and the body of each method is the
one that its own description gives, read against the declarations of the whole program.

Two passes need an invariant that tells what is done from what is left. While methods are declared,
the bodies to be read are those of the methods that are there (`Announced`). While bodies are read,
a method is either as it was declared, with its body still to be read, or read from its description
(`BodiesRead`).
-/

namespace HeapFlow

/-- A class without its methods. -/
def Class.bare (c : Class) : Class := { c with methods := [] }

namespace Program

variable {p : Program}

theorem class?_modifyClass {ref d : ClassRef} {f : Class → Class} :
    (p.modifyClass ref f).class? d =
      if ref.index = d.index then (p.class? d).map f else p.class? d := by
  rw [class?, modifyClass, List.getElem?_modify]
  split
  · rfl
  · exact Option.map_id'

/-- Putting a method in its place changes what is found there and nothing else. -/
theorem method?_setMethod {m m' : Method} {id : MethodId}
    (h : (p.setMethod m).method? id = some m') :
    (id.owner.index = m.id.owner.index ∧ id.index = m.id.index ∧ m' = m) ∨
      p.method? id = some m' ∧ (id.owner.index = m.id.owner.index → id.index ≠ m.id.index) := by
  obtain ⟨c, hc, hm'⟩ := Option.bind_eq_some_iff.1 h
  rw [setMethod, class?_modifyClass] at hc
  split at hc
  · rename_i howner
    obtain ⟨old, hold, rfl⟩ := Option.map_eq_some_iff.1 hc
    have hm' : (old.methods.set m.id.index m)[id.index]? = some m' := hm'
    rw [List.getElem?_set] at hm'
    split at hm'
    · rename_i hindex
      split at hm'
      · exact .inl ⟨howner.symm, hindex.symm, (Option.some.inj hm').symm⟩
      · cases hm'
    · rename_i hindex
      exact .inr ⟨Option.bind_eq_some_iff.2 ⟨old, hold, hm'⟩, fun _ h => hindex h.symm⟩
  · rename_i howner
    exact .inr ⟨Option.bind_eq_some_iff.2 ⟨c, hc, hm'⟩, fun h => absurd h.symm howner⟩

/-- Putting a method in its place changes the methods of its class only. -/
theorem map_setMethod {α : Type} {g : Class → α} (hg : ∀ c methods, g { c with methods } = g c)
    (m : Method) : (p.setMethod m).classes.map g = p.classes.map g :=
  map_classes_modifyClass fun c => hg c _

end Program

theorem Builder.class?_addMethod {b : Builder} {c : Class} {name : String}
    {params : List (String × Ty)} {returnType : Ty} {isStatic isAbstract : Bool} {d : ClassRef} :
    (b.addMethod c name params returnType isStatic isAbstract).2.skeleton.class? d =
      if c.ref.index = d.index then
        (b.skeleton.class? d).map fun cls => { cls with methods := cls.methods ++
          [.declare ⟨c.ref, c.methods.length⟩ name params returnType isStatic
            (isAbstract || c.isInterface)] }
      else b.skeleton.class? d :=
  Program.class?_modifyClass

/-- Declaring a method changes the methods of its class only. -/
theorem Builder.map_addMethod {α : Type} {g : Class → α} (hg : ∀ c methods, g { c with methods } = g c)
    {b : Builder} {c : Class} {name : String} {params : List (String × Ty)} {returnType : Ty}
    {isStatic isAbstract : Bool} :
    (b.addMethod c name params returnType isStatic isAbstract).2.skeleton.classes.map g =
      b.skeleton.classes.map g :=
  Program.map_classes_modifyClass fun c => hg c _

namespace Document

open Json (Object)

/-! ### Where a declaration is described -/

/-- The description of the class at a place. -/
def classDecl? (root : Object) (i : Nat) : Option Object :=
  (root.elements "classes")[i]?.bind Json.Value.object?

/-- The description of a method. -/
def methodDecl? (root : Object) (id : MethodId) : Option Object :=
  (classDecl? root id.owner.index).bind fun c =>
    (c.elements "methods")[id.index]?.bind Json.Value.object?

variable {root : Object} {p skeleton : Program} {b b' : Builder}

/-! ### Classes -/

/-- A class that is declared: where it stands, and its description. -/
structure DeclaredAt (vs : List Json.Value) (first : Nat) (b : Builder) (c : Declared) : Prop where
  le : first ≤ c.1.index
  lt : c.1.index < b.skeleton.classes.length
  decl : vs[c.1.index - first]?.bind Json.Value.object? = some c.2

theorem length_addClass (b : Builder) (name : String) (isInterface isAbstract : Bool) :
    (b.addClass name isInterface isAbstract).2.skeleton.classes.length =
      b.skeleton.classes.length + 1 :=
  List.length_append

/-- Classes are numbered in the order of their descriptions. -/
theorem declaredAt_readClasses {vs : List Json.Value} {cs : List Declared}
    (h : readClasses b vs = .ok (b', cs)) :
    b.skeleton.classes.length ≤ b'.skeleton.classes.length ∧
      (∀ c ∈ cs, DeclaredAt vs b.skeleton.classes.length b' c) ∧
      cs.Pairwise fun c d => c.1.index ≠ d.1.index := by
  induction vs generalizing b cs with
  | nil =>
    rw [readClasses] at h
    cases h
    exact ⟨Nat.le_refl _, fun c hc => absurd hc List.not_mem_nil, .nil⟩
  | cons v vs ih =>
    simp only [readClasses, bind_eq_ok, pure_eq_ok, Prod.exists, Prod.mk.injEq] at h
    obtain ⟨next, ref, o, hclass, last, rest, hrest, rfl, rfl⟩ := h
    obtain ⟨o', name, ho, -, -, rfl, heq⟩ := readClass_cases hclass
    cases heq
    obtain ⟨hlength, hdeclared, hdistinct⟩ := ih hrest
    rw [length_addClass] at hlength hdeclared
    refine ⟨by omega, ?_, ?_⟩
    · intro c hc
      obtain rfl | hc := List.mem_cons.1 hc
      · exact ⟨Nat.le_refl _, hlength, by simpa using ho⟩
      · obtain ⟨hstart, hlt, hdecl⟩ := hdeclared c hc
        refine ⟨by omega, hlt, ?_⟩
        have hindex : c.1.index - b.skeleton.classes.length =
            (c.1.index - (b.skeleton.classes.length + 1)) + 1 := by omega
        rw [hindex]
        exact hdecl
    · refine List.pairwise_cons.2 ⟨fun c hc => ?_, hdistinct⟩
      have := (hdeclared c hc).le
      show b.skeleton.classes.length ≠ c.1.index
      omega

/-- Reading what is above a class changes its superclass and its interfaces only. -/
theorem map_readHierarchy {α : Type} {g : Class → α}
    (hsuper : ∀ c super, g { c with super? := some super } = g c)
    (hinterfaces : ∀ c interfaces, g { c with interfaces } = g c) {c : Declared}
    (h : readHierarchy b c = .ok b') : b'.skeleton.classes.map g = b.skeleton.classes.map g := by
  obtain ⟨ref, o⟩ := c
  have hsuper (super : ClassRef) :
      (b.setSuper ref super).skeleton.classes.map g = b.skeleton.classes.map g :=
    Program.map_classes_modifyClass fun c => hsuper c super
  -- interfaces are added one by one after the superclass, if there is one
  have hinterface (before : Builder) (v : Json.Value) (after : Builder)
      (hbefore : before.skeleton.classes.map g = b.skeleton.classes.map g)
      (h : (do
        let interface ← require (.cls ref.name) (v.string? >>= before.skeleton.classNamed?)
          .badInterface
        if interface.isInterface then return before.addInterface ref interface.ref
        else refuse (.cls ref.name) .badInterface) = Except.ok after) :
      after.skeleton.classes.map g = b.skeleton.classes.map g := by
    rw [bind_eq_ok] at h
    obtain ⟨interface, -, h⟩ := h
    have hadd : (before.addInterface ref interface.ref).skeleton.classes.map g =
        before.skeleton.classes.map g :=
      Program.map_classes_modifyClass fun c => hinterfaces c _
    split at h
    · cases h
      exact hadd.trans hbefore
    · cases h
  unfold readHierarchy at h
  simp only at h
  split at h
  · rw [bind_eq_ok] at h
    obtain ⟨super, -, h⟩ := h
    split at h
    · cases h
    · exact foldlM_invariant (fun d => d.skeleton.classes.map g = b.skeleton.classes.map g) hinterface
        (hsuper super.ref) h
  · exact foldlM_invariant (fun d => d.skeleton.classes.map g = b.skeleton.classes.map g) hinterface
      rfl h

/-- Reading a field changes the fields of its class only. -/
theorem map_readField {α : Type} {g : Class → α} (hfields : ∀ c fields, g { c with fields } = g c)
    {ref : ClassRef} {v : Json.Value} (h : readField ref b v = .ok b') :
    b'.skeleton.classes.map g = b.skeleton.classes.map g := by
  obtain ⟨o, name, ty, -, -, ⟨-, rfl⟩ | ⟨c, -, rfl⟩⟩ := readField_cases h
  · rfl
  · exact Program.map_classes_modifyClass fun c => hfields c _

/-- The pass over the hierarchy changes what is above the classes only. -/
theorem map_above {α : Type} {g : Class → α}
    (hsuper : ∀ c super, g { c with super? := some super } = g c)
    (hinterfaces : ∀ c interfaces, g { c with interfaces } = g c) {declared : List Declared}
    {named above : Builder} (habove : declared.foldlM readHierarchy named = .ok above) :
    above.skeleton.classes.map g = named.skeleton.classes.map g :=
  foldlM_invariant (fun b => b.skeleton.classes.map g = named.skeleton.classes.map g)
    (fun _ _ _ hb h => (map_readHierarchy hsuper hinterfaces h).trans hb) rfl habove

/-- The passes over hierarchy and fields change what is above the classes and their fields only. -/
theorem map_fields {α : Type} {g : Class → α}
    (hsuper : ∀ c super, g { c with super? := some super } = g c)
    (hinterfaces : ∀ c interfaces, g { c with interfaces } = g c)
    (hfields : ∀ c fields, g { c with fields } = g c) {declared : List Declared}
    {named above fields : Builder} (habove : declared.foldlM readHierarchy named = .ok above)
    (hread : declared.foldlM readFields above = .ok fields) :
    fields.skeleton.classes.map g = named.skeleton.classes.map g :=
  foldlM_invariant (fun b => b.skeleton.classes.map g = named.skeleton.classes.map g)
    (fun _ _ _ hb h =>
      foldlM_invariant (fun b => b.skeleton.classes.map g = named.skeleton.classes.map g)
        (fun _ _ _ hb h => (map_readField hfields h).trans hb) hb h)
    (map_above hsuper hinterfaces habove) hread

/-- The classes are added as they are declared. -/
theorem map_readClasses {α : Type} {g : Class → α} {k : ClassRef → α}
    (hg : ∀ ref isInterface isAbstract, g (.declare ref isInterface isAbstract) = k ref)
    {vs : List Json.Value} {cs : List Declared} (h : readClasses b vs = .ok (b', cs)) :
    b'.skeleton.classes.map g = b.skeleton.classes.map g ++ cs.map (k ·.1) := by
  induction vs generalizing b cs with
  | nil =>
    rw [readClasses] at h
    cases h
    exact (List.append_nil _).symm
  | cons v vs ih =>
    simp only [readClasses, bind_eq_ok, pure_eq_ok, Prod.exists, Prod.mk.injEq] at h
    obtain ⟨next, ref, o, hclass, last, rest, hrest, rfl, rfl⟩ := h
    obtain ⟨o', name, -, -, -, rfl, heq⟩ := readClass_cases hclass
    cases heq
    rw [ih hrest, Builder.addClass, List.map_append, List.map_singleton, hg, List.append_assoc]
    rfl

/-! ### Methods -/

/-- The bodies to be read are those of the methods that are there. -/
structure Announced (root : Object) (p : Program) (pending : List Pending) : Prop where
  described : ∀ x ∈ pending, methodDecl? root x.1 = some x.2
  complete : ∀ id m, p.method? id = some m → ∃ decl, (m.id, decl) ∈ pending

/-- The methods of one class are being declared: `rest` is what is left of their descriptions. -/
structure Announcing (root : Object) (c : Declared) (start : Builder) (rest : List Json.Value)
    (b : Builder) (pending : List Pending) : Prop where
  placed : b.skeleton.Placed Blank
  announced : Announced root b.skeleton pending
  here : ∃ cls, b.skeleton.class? c.1 = some cls ∧
    rest = (c.2.elements "methods").drop cls.methods.length
  elsewhere : ∀ d : ClassRef, c.1.index ≠ d.index → b.skeleton.class? d = start.skeleton.class? d

theorem blank_declare : Method.HoldsDeclared Blank := fun _ _ _ _ _ _ => ⟨rfl, rfl⟩

theorem Announcing.readMethod {c : Declared} {start : Builder} {v : Json.Value}
    {rest : List Json.Value} {pending more : List Pending}
    (hdecl : classDecl? root c.1.index = some c.2)
    (h : Announcing root c start (v :: rest) b pending) (hread : readMethod c.1 b v = .ok (b', more)) :
    Announcing root c start rest b' (pending ++ more) := by
  obtain ⟨cls, hcls, hrest⟩ := h.here
  have helement : (c.2.elements "methods")[cls.methods.length]? = some v := by
    rw [← Nat.add_zero cls.methods.length, ← List.getElem?_drop, ← hrest]
    rfl
  have hplaced := h.placed.declarations blank_declare (declarations_readMethod hread)
  obtain ⟨o, spot, name, params, returnType, ho, -, ⟨hnone, -, -⟩ | ⟨cls', hcls', -, rfl, rfl⟩⟩ :=
    readMethod_cases hread
  · cases hnone.symm.trans hcls
  obtain rfl := Option.some.inj (hcls'.symm.trans hcls)
  have hindex : cls'.ref.index = c.1.index := (h.placed _ cls' hcls).ref
  refine ⟨hplaced, ⟨?_, ?_⟩, ?_, ?_⟩
  · intro x hx
    obtain hx | hx := List.mem_append.1 hx
    · exact h.announced.described x hx
    · obtain rfl := List.mem_singleton.1 hx
      rw [methodDecl?, hindex, hdecl, Option.bind_some, helement]
      exact ho
  · intro id m hm
    obtain ⟨d, hd, hm⟩ := Option.bind_eq_some_iff.1 hm
    rw [Builder.class?_addMethod] at hd
    have hold (hm : b.skeleton.method? id = some m) :
        ∃ decl, (m.id, decl) ∈ pending ++ [(⟨cls'.ref, cls'.methods.length⟩, o)] := by
      obtain ⟨decl, hmem⟩ := h.announced.complete id m hm
      exact ⟨decl, List.mem_append_left _ hmem⟩
    split at hd
    · rename_i hhere
      obtain ⟨old, hclass, rfl⟩ := Option.map_eq_some_iff.1 hd
      obtain hm | ⟨-, rfl⟩ := cases_getElem?_concat hm
      · exact hold (Option.bind_eq_some_iff.2 ⟨old, hclass, hm⟩)
      · exact ⟨o, List.mem_append_right _ (List.mem_singleton_self _)⟩
    · exact hold (Option.bind_eq_some_iff.2 ⟨d, hd, hm⟩)
  · rw [Builder.class?_addMethod, if_pos hindex, hcls]
    refine ⟨_, rfl, ?_⟩
    rw [List.length_append, ← List.drop_drop, ← hrest]
    rfl
  · intro d hd
    rw [Builder.class?_addMethod, if_neg (hindex ▸ hd)]
    exact h.elsewhere d hd

/-- The methods of a class that had none are those of its description. -/
theorem announced_readMethods {c : Declared} {cls : Class} {pending more : List Pending}
    (hdecl : classDecl? root c.1.index = some c.2) (hplaced : b.skeleton.Placed Blank)
    (hannounced : Announced root b.skeleton pending) (hcls : b.skeleton.class? c.1 = some cls)
    (hnone : cls.methods = []) (h : readMethods b c = .ok (b', more)) :
    Announcing root c b [] b' (pending ++ more) := by
  refine foldlM_invariant_rest
    (fun rest s => Announcing root c b rest s.1 (pending ++ s.2)) ?_ ?_ h
  · intro s v rest s' hs hstep
    simp only [bind_eq_ok, pure_eq_ok, Prod.exists] at hstep
    obtain ⟨next, new, hread, rfl⟩ := hstep
    rw [← List.append_assoc]
    exact hs.readMethod hdecl hread
  · refine ⟨hplaced, ?_, ⟨cls, hcls, by simp [hnone]⟩, fun _ _ => rfl⟩
    rwa [List.append_nil]

/-- All classes were declared, and the methods of those before `rest`. -/
structure AnnouncingAll (root : Object) (rest : List Declared) (b : Builder)
    (pending : List Pending) : Prop where
  placed : b.skeleton.Placed Blank
  announced : Announced root b.skeleton pending
  decl : ∀ c ∈ rest, classDecl? root c.1.index = some c.2
  distinct : rest.Pairwise fun c d => c.1.index ≠ d.1.index
  empty : ∀ c ∈ rest, ∃ cls, b.skeleton.class? c.1 = some cls ∧ cls.methods = []

theorem AnnouncingAll.readMethods {c : Declared} {rest : List Declared}
    {pending more : List Pending} (h : AnnouncingAll root (c :: rest) b pending)
    (hread : readMethods b c = .ok (b', more)) :
    AnnouncingAll root rest b' (pending ++ more) := by
  obtain ⟨cls, hcls, hnone⟩ := h.empty c List.mem_cons_self
  have hdecl := h.decl c List.mem_cons_self
  have hdone := announced_readMethods hdecl h.placed h.announced hcls hnone hread
  obtain ⟨hdistinct, hrest⟩ := List.pairwise_cons.1 h.distinct
  refine ⟨hdone.placed, hdone.announced, fun d hd => h.decl d (List.mem_cons_of_mem c hd), hrest,
    fun d hd => ?_⟩
  rw [hdone.elsewhere d.1 (hdistinct d hd)]
  exact h.empty d (List.mem_cons_of_mem c hd)

/-! ### Bodies -/

/-- A method that was read from its own description. -/
def FromDecl (root : Object) (skeleton : Program) (id : MethodId) (m : Method) : Prop :=
  ∃ decl declared, methodDecl? root id = some decl ∧ skeleton.method? id = some declared ∧
    Read skeleton (decl.elements "body") declared m

/-- The bodies before `rest` were read: every method was read from its own description or is still
as it was declared, with its body to be read. The rest of the program is that of the skeleton. -/
structure BodiesRead (root : Object) (skeleton : Program) (rest : List Pending) (p : Program) :
    Prop where
  classes : p.classes.map Class.bare = skeleton.classes.map Class.bare
  methods : ∀ id m, p.method? id = some m → FromDecl root skeleton id m ∨
    skeleton.method? id = some m ∧ ∃ decl, (m.id, decl) ∈ rest
  described : ∀ x ∈ rest, methodDecl? root x.1 = some x.2

theorem methodDecl?_congr {id id' : MethodId} (howner : id.owner.index = id'.owner.index)
    (hindex : id.index = id'.index) : methodDecl? root id = methodDecl? root id' := by
  rw [methodDecl?, methodDecl?, howner, hindex]

theorem BodiesRead.read {rest : List Pending} {id : MethodId} {decl : Object} {declared m : Method}
    (hplaced : skeleton.Placed Blank) (h : BodiesRead root skeleton ((id, decl) :: rest) p)
    (hdeclared : skeleton.method? id = some declared)
    (hread : readBody skeleton declared decl = .ok m) :
    BodiesRead root skeleton rest (p.setMethod m) := by
  have hdecl : methodDecl? root id = some decl := h.described _ List.mem_cons_self
  obtain ⟨howner, hindex, hblank⟩ := hplaced.of_method? hdeclared
  have hbody := read_of_readBody hblank hread
  rw [← hbody.header.1] at howner hindex
  refine ⟨(Program.map_setMethod (fun _ _ => rfl) m).trans h.classes, fun id' m' hm' => ?_,
    fun x hx => h.described x (List.mem_cons_of_mem _ hx)⟩
  obtain ⟨howner', hindex', rfl⟩ | ⟨hm', helsewhere⟩ := Program.method?_setMethod hm'
  · refine .inl ⟨decl, declared, ?_, ?_, hbody⟩
    · rw [methodDecl?_congr (howner'.trans howner) (hindex'.trans hindex), hdecl]
    · rw [Program.method?_congr (howner'.trans howner) (hindex'.trans hindex), hdeclared]
  · obtain hdone | ⟨hstill, decl', hmem⟩ := h.methods id' m' hm'
    · exact .inl hdone
    · obtain heq | hmem := List.mem_cons.1 hmem
      · obtain ⟨hid, -⟩ := Prod.mk.inj heq
        obtain ⟨howner', hindex', -⟩ := hplaced.of_method? hstill
        rw [hid] at howner' hindex'
        exact absurd (hindex'.symm.trans hindex.symm) (helsewhere (howner'.symm.trans howner.symm))
      · exact .inr ⟨hstill, decl', hmem⟩

/-- A body is never left out: what is to be read is there. -/
theorem BodiesRead.skip {rest : List Pending} {id : MethodId} {decl : Object}
    (hplaced : skeleton.Placed Blank) (h : BodiesRead root skeleton ((id, decl) :: rest) p)
    (hnone : skeleton.method? id = none) : BodiesRead root skeleton rest p := by
  refine ⟨h.classes, fun id' m hm => ?_, fun x hx => h.described x (List.mem_cons_of_mem _ hx)⟩
  obtain hdone | ⟨hstill, decl', hmem⟩ := h.methods id' m hm
  · exact .inl hdone
  · obtain heq | hmem := List.mem_cons.1 hmem
    · obtain ⟨hid, -⟩ := Prod.mk.inj heq
      cases (hid ▸ hplaced.method?_id hstill).symm.trans hnone
    · exact .inr ⟨hstill, decl', hmem⟩

/-! ### The whole description -/

/-- A program that was read from a description: it has the classes of the skeleton, which declarations
lead to, each of its methods was read from its own description, and so were its entries. -/
structure ReadFrom (root : Object) (skeleton p : Program) : Prop where
  built : Program.empty.Declarations skeleton
  placed : skeleton.Placed Blank
  classes : p.classes.map Class.bare = skeleton.classes.map Class.bare
  methods : ∀ id m, p.method? id = some m → FromDecl root skeleton id m
  entries : readEntries p root = .ok p.entries

/-- **Every method of a program is read from its own description.** -/
theorem readFrom_readProgram (h : readProgram root = .ok p) :
    ∃ skeleton, ReadFrom root skeleton p := by
  unfold readProgram at h
  split at h
  · cases h
  rename_i classes hroot
  simp only [bind_eq_ok, pure_eq_ok, Prod.exists] at h
  obtain ⟨named, declared, hclasses, above, habove, fields, hfields, announced, pending, hmethods,
    done, hbodies, entries, hentries, rfl⟩ := h
  -- classes, superclasses and fields: no class has methods yet
  obtain ⟨-, hdeclared, hdistinct⟩ := declaredAt_readClasses hclasses
  have hmethodless : fields.skeleton.classes.map Class.methods = declared.map fun _ => [] :=
    (map_fields (fun _ _ => rfl) (fun _ _ => rfl) (fun _ _ => rfl) habove hfields).trans
      (map_readClasses (k := fun _ => []) (fun _ _ _ => rfl) hclasses)
  have hnone {i : Nat} {c : Class} (hc : fields.skeleton.classes[i]? = some c) : c.methods = [] := by
    have hmem : c.methods ∈ fields.skeleton.classes.map Class.methods :=
      List.mem_map_of_mem (List.mem_of_getElem? hc)
    rw [hmethodless] at hmem
    obtain ⟨-, -, heq⟩ := List.mem_map.1 hmem
    exact heq.symm
  have hlength : fields.skeleton.classes.length = named.skeleton.classes.length := by
    have hrefs := map_fields (g := Class.ref) (fun _ _ => rfl) (fun _ _ => rfl) (fun _ _ => rfl) habove
      hfields
    simpa using congrArg List.length hrefs
  -- methods
  have hannounced : AnnouncingAll root [] announced pending := by
    refine foldlM_invariant_rest (fun rest s => AnnouncingAll root rest s.1 s.2) ?_ ?_ hmethods
    · intro s c rest s' hs hstep
      simp only [bind_eq_ok, pure_eq_ok, Prod.exists] at hstep
      obtain ⟨next, more, hread, rfl⟩ := hstep
      exact hs.readMethods hread
    · refine ⟨Program.placed_of_declarations blank_declare
        (declarations_fields hclasses habove hfields), ⟨by simp, fun id m hm => ?_⟩, fun c hc => ?_,
        hdistinct, fun c hc => ?_⟩
      · obtain ⟨c, hc, hj⟩ := Option.bind_eq_some_iff.1 hm
        rw [hnone hc] at hj
        cases hj
      · have hdecl := (hdeclared c hc).decl
        rw [classDecl?, Object.elements, hroot]
        exact hdecl
      · have hcls := List.getElem?_eq_getElem (hlength ▸ (hdeclared c hc).lt)
        exact ⟨_, hcls, hnone hcls⟩
  -- bodies
  have hdone : BodiesRead root announced.skeleton [] done := by
    refine foldlM_invariant_rest (BodiesRead root announced.skeleton) ?_ ?_ hbodies
    · rintro q ⟨id, decl⟩ rest q' hq hstep
      split at hstep
      · rename_i m hm
        simp only [bind_eq_ok, pure_eq_ok] at hstep
        obtain ⟨m', hread, rfl⟩ := hstep
        exact hq.read hannounced.placed hm hread
      · rename_i hm
        cases hstep
        exact hq.skip hannounced.placed hm
    · refine ⟨rfl, fun id m hm => .inr ⟨hm, ?_⟩, hannounced.announced.described⟩
      exact hannounced.announced.complete id m hm
  refine ⟨announced.skeleton, declarations_skeleton hclasses habove hfields hmethods,
    hannounced.placed, hdone.classes, fun id m hm => ?_, hentries⟩
  obtain hread | ⟨-, decl, hmem⟩ := hdone.methods id m hm
  · exact hread
  · cases hmem

end Document

end HeapFlow
