import HeapFlow.Proofs.Ir.Names
import Mathlib.Data.List.Induction
import Mathlib.Data.List.ReduceOption
/-!
# HeapFlow.Proofs.Ir.Redeclared

**What becomes of names that a description declares twice** (`Document.accepted_redeclarations`). A
program has the names of its description, in order. Classes with one name, or methods with one
subsignature in a class, are refused, whatever else the description says. Fields with one name and
labels that stand at several lines are accepted, and of these the last one counts.

Each pass over the members of the classes appends to the names of one class (`view_members`), and
the classes follow each other in the order of their descriptions, so that a pass gives all classes
their names (`view_classes`).
-/

namespace HeapFlow

/-! ### Lists -/

/-- What is found by a key is the last element that has it. -/
theorem getLast?_filter_eq_some_iff {α : Type} {key : α → String} {xs : List α} {name : String}
    {x : α} : (xs.filter (key · == name)).getLast? = some x ↔
      ∃ i, LastAt (xs.map key) name i ∧ xs[i]? = some x := by
  induction xs using List.reverseRecOn with
  | nil => simp
  | append_singleton xs y ih =>
    simp only [List.map_append, List.map_singleton, lastAt_concat, List.length_map, List.filter_append]
    by_cases hkey : key y = name
    · simp [hkey]
    · have hbefore (i : Nat) : LastAt (xs.map key) name i ∧ (xs ++ [y])[i]? = some x ↔
          LastAt (xs.map key) name i ∧ xs[i]? = some x := by
        refine and_congr_right fun hi => ?_
        have hlt := (List.getElem?_eq_some_iff.1 hi.1).1
        rw [List.getElem?_append_left (List.length_map key ▸ hlt)]
      rw [List.filter_singleton, beq_false_of_ne hkey, cond_false, List.append_nil, ih]
      simp only [hkey, if_false, hbefore]

/-- Changing an element to itself changes nothing. -/
theorem modify_eq_self {α : Type} {xs : List α} {i : Nat} {f : α → α}
    (h : ∀ x, xs[i]? = some x → f x = x) : xs.modify i f = xs := by
  refine List.ext_getElem? fun j => ?_
  rw [List.getElem?_modify]
  split
  · rename_i hi
    subst hi
    cases hx : xs[i]? with
    | none => rfl
    | some x => simp [h x hx]
  · simp

theorem modify_append_cons {α : Type} (xs : List α) (y : α) (ys : List α) (f : α → α) :
    (xs ++ y :: ys).modify xs.length f = xs ++ f y :: ys := by
  induction xs with
  | nil => rfl
  | cons x xs ih => simpa using ih

namespace Program

variable {p : Program}

theorem map_modifyClass {α : Type} {ref : ClassRef} {f : Class → Class} {g : Class → α} {k : α → α}
    (hg : ∀ c, g (f c) = k (g c)) :
    (p.modifyClass ref f).classes.map g = (p.classes.map g).modify ref.index k := by
  refine List.ext_getElem? fun i => ?_
  simp only [modifyClass, List.getElem?_map, List.getElem?_modify]
  cases p.classes[i]? with
  | none => rfl
  | some c => by_cases hi : ref.index = i <;> simp [hi, hg]

/-- Nothing changes at a place without a class. -/
theorem modify_map_classes {α : Type} {ref : ClassRef} (hnone : p.class? ref = none) (g : Class → α)
    (k : α → α) : (p.classes.map g).modify ref.index k = p.classes.map g := by
  refine modify_eq_self fun x hx => ?_
  rw [List.getElem?_map, show p.classes[ref.index]? = none from hnone] at hx
  cases hx

/-- The names of the fields, class by class. -/
def fieldNames (p : Program) : List (List String) := p.classes.map fun c => c.fields.map Field.name

/-- The subsignatures of the methods, class by class. -/
def subsignatures (p : Program) : List (List String) :=
  p.classes.map fun c => c.methods.map Method.subsignature

end Program

namespace Document

open Json (Object)

/-! ### What a description declares -/

/-- An object with the name that it has. -/
def named? (v : Json.Value) : Option (String × Object) := do
  let o ← v.object?
  let name ← o.string? "name"
  return (name, o)

/-- The names of the objects in a list. -/
def namesOf (vs : List Json.Value) : List String := (vs.filterMap named?).map Prod.fst

/-- The classes that are described, numbered in order from `start`. -/
def numbered (start : Nat) (vs : List Json.Value) : List Declared :=
  ((vs.filterMap named?).zipIdx start).map fun ((name, o), i) => (⟨i, name⟩, o)

/-- The classes of a description with the references that they get. -/
def classDecls (root : Object) : List Declared := numbered 0 (root.elements "classes")

def classNames (root : Object) : List String := (classDecls root).map (·.1.name)

/-- The names of the fields, class by class. -/
def fieldNames (root : Object) : List (List String) :=
  (classDecls root).map fun c => namesOf (c.2.elements "fields")

/-- The type that a name denotes. -/
def typeNamed? (root : Object) (name : String) : Option Ty :=
  Ty.parse? (fun name => (((classDecls root).map Prod.fst).filter (·.name == name)).getLast?)
    name.toList

/-- The type of the result of a method. -/
def returned? (types : String → Option Ty) (o : Object) : Option Ty :=
  if o.has "return" then o.string? "return" >>= types else some .void

/-- The subsignature of a method, where `types` tells what the names of types denote. -/
def subsignature? (types : String → Option Ty) (o : Object) : Option String := do
  let name ← o.string? "name"
  let params ← (o.elements "params").mapM fun v => do (← v.object?).string? "type" >>= types
  let returnType ← returned? types o
  return Method.subsignatureOf name params returnType

/-- The subsignatures of the methods, class by class. -/
def subsignatures (root : Object) : List (List String) :=
  (classDecls root).map fun c =>
    (c.2.elements "methods").filterMap fun v => v.object? >>= subsignature? (typeNamed? root)

/-- The labels of the lines of a body. -/
def labelsOf (root : Object) (id : MethodId) : List (Option String) :=
  ((methodDecl? root id).map fun o => (o.elements "body").map lineLabel?).getD []

/-! ### Passes over the classes -/

section Views

variable {σ ε β α : Type} (Inv : σ → Prop) (view : σ → List (List β))

/-- A pass over members appends what it reads of them to one list. -/
theorem view_members {i : Nat} {read : α → Option β} {f : σ → α → Except ε σ}
    (hstep : ∀ s x s', Inv s → f s x = .ok s' → Inv s' ∧
      ∃ b, read x = some b ∧ view s' = (view s).modify i (· ++ [b]))
    {xs : List α} {s s' : σ} (hs : Inv s) (h : xs.foldlM f s = .ok s') :
    Inv s' ∧ view s' = (view s).modify i (· ++ xs.filterMap read) := by
  induction xs generalizing s with
  | nil =>
    rw [List.foldlM_nil, pure_eq_ok] at h
    subst h
    refine ⟨hs, (modify_eq_self fun x _ => ?_).symm⟩
    rw [List.filterMap_nil, List.append_nil]
  | cons x xs ih =>
    rw [List.foldlM_cons, bind_eq_ok] at h
    obtain ⟨next, hx, hrest⟩ := h
    obtain ⟨hnext, b, hb, hview⟩ := hstep s x next hs hx
    obtain ⟨hs', hview'⟩ := ih hnext hrest
    refine ⟨hs', ?_⟩
    rw [hview', hview, List.modify_modify_eq, List.filterMap_cons_some hb]
    congr 1
    funext ys
    rw [Function.comp_apply, List.append_assoc, List.singleton_append]

/-- A pass over the classes gives each of them, in order, what it reads of it. -/
theorem view_classes {read : Declared → List β} {f : σ → Declared → Except ε σ}
    (hstep : ∀ s c s', Inv s → f s c = .ok s' → Inv s' ∧
      view s' = (view s).modify c.1.index (· ++ read c))
    {cs : List Declared} {s s' : σ} (hs : Inv s) (h : cs.foldlM f s = .ok s')
    (done : List (List β)) (hindex : cs.map (·.1.index) = List.range' done.length cs.length)
    (hview : view s = done ++ cs.map fun _ => []) :
    Inv s' ∧ view s' = done ++ cs.map read := by
  induction cs generalizing s done with
  | nil =>
    rw [List.foldlM_nil, pure_eq_ok] at h
    subst h
    exact ⟨hs, hview⟩
  | cons c cs ih =>
    rw [List.foldlM_cons, bind_eq_ok] at h
    obtain ⟨next, hc, hrest⟩ := h
    obtain ⟨hnext, hstep⟩ := hstep s c next hs hc
    obtain ⟨hfirst : c.1.index = done.length, hindex⟩ := List.cons_eq_cons.1 hindex
    have hview' : view next = (done ++ [read c]) ++ cs.map fun _ => [] := by
      rw [hstep, hview, hfirst, List.map_cons, modify_append_cons, List.nil_append]
      exact List.append_cons ..
    obtain ⟨hs', heq⟩ := ih hnext hrest _ (by simpa using hindex) hview'
    exact ⟨hs', heq.trans (List.append_assoc ..)⟩

end Views

/-! ### The passes -/

variable {root : Object} {p : Program} {b b' : Builder}

theorem named?_eq_some {v : Json.Value} {o : Object} {name : String} (ho : v.object? = some o)
    (hname : o.string? "name" = some name) : named? v = some (name, o) := by
  simp [named?, ho, hname]

/-- The classes are declared in the order of their descriptions. -/
theorem numbered_readClasses {vs : List Json.Value} {cs : List Declared}
    (h : readClasses b vs = .ok (b', cs)) : cs = numbered b.skeleton.classes.length vs := by
  induction vs generalizing b cs with
  | nil =>
    rw [readClasses] at h
    cases h
    rfl
  | cons v vs ih =>
    simp only [readClasses, bind_eq_ok, pure_eq_ok, Prod.exists, Prod.mk.injEq] at h
    obtain ⟨next, ref, o, hclass, last, rest, hrest, rfl, rfl⟩ := h
    obtain ⟨o', name, ho, hname, -, rfl, heq⟩ := readClass_cases hclass
    cases heq
    have hnumbered := ih hrest
    rw [length_addClass] at hnumbered
    rw [numbered, List.filterMap_cons_some (named?_eq_some ho hname), List.zipIdx_cons, List.map_cons,
      hnumbered]
    rfl

theorem indexes_numbered (start : Nat) (vs : List Json.Value) :
    (numbered start vs).map (·.1.index) = List.range' start (numbered start vs).length := by
  simp [numbered, Function.comp_def, List.zipIdx_map_snd]

/-! #### Fields -/

/-- Reading the fields of a class appends their names. -/
theorem fieldNames_readFields {c : Declared} (hplaced : b.skeleton.Placed fun _ => True)
    (h : readFields b c = .ok b') : b'.skeleton.Placed (fun _ => True) ∧
      b'.skeleton.fieldNames =
        b.skeleton.fieldNames.modify c.1.index (· ++ namesOf (c.2.elements "fields")) := by
  have hstep (b : Builder) (v : Json.Value) (b' : Builder) (hb : b.skeleton.Placed fun _ => True)
      (h : readField c.1 b v = .ok b') : b'.skeleton.Placed (fun _ => True) ∧
      ∃ name, (named? v).map Prod.fst = some name ∧
        b'.skeleton.fieldNames = b.skeleton.fieldNames.modify c.1.index (· ++ [name]) := by
    refine ⟨hb.declarations Method.holdsDeclared_true (declarations_readField h), ?_⟩
    obtain ⟨o, name, ty, ho, hname, hcases⟩ := readField_cases h
    refine ⟨name, by rw [named?_eq_some ho hname]; rfl, ?_⟩
    obtain ⟨hnone, rfl⟩ | ⟨cls, hcls, rfl⟩ := hcases
    · exact (Program.modify_map_classes hnone _ _).symm
    · rw [← (hb _ cls hcls).ref]
      exact Program.map_modifyClass fun cls => List.map_append
  have hread := view_members _ (fun b : Builder => b.skeleton.fieldNames) hstep hplaced h
  rwa [namesOf, List.map_filterMap]

/-! #### Methods -/

/-- What a fallible map gives, where faults do not matter. -/
theorem mapM_eq_some {α β γ ε : Type} {f : α → Except ε β} {g : α → Option γ} {k : β → γ}
    (hfg : ∀ x y, f x = .ok y → g x = some (k y)) {xs : List α} {ys : List β}
    (h : xs.mapM f = .ok ys) : xs.mapM g = some (ys.map k) := by
  induction xs generalizing ys with
  | nil =>
    rw [List.mapM_nil, pure_eq_ok] at h
    subst h
    rfl
  | cons x xs ih =>
    simp only [List.mapM_cons, bind_eq_ok, pure_eq_ok] at h
    obtain ⟨y, hy, rest, hrest, rfl⟩ := h
    simp [List.mapM_cons, hfg x y hy, ih hrest]

theorem type_eq_ok {spot : Spot} {o : Object} {key : String} {ty : Ty} :
    type spot p o key = .ok ty ↔ o.string? key >>= p.type? = some ty := by
  simp [type, string, bind_eq_ok, require_eq_ok, Option.bind_eq_some_iff]

/-- The subsignature that is read is the one that is described. -/
theorem SignatureRead.subsignature? {spot : Spot} {o : Object} {name : String}
    {params : List (String × Ty)} {returnType : Ty} (h : SignatureRead spot p o name params returnType) :
    subsignature? p.type? o = some (Method.subsignatureOf name (params.map Prod.snd) returnType) := by
  have hparam (v : Json.Value) (x : String × Ty) (hx : readParam spot p v = .ok x) :
      (do (← v.object?).string? "type" >>= p.type?) = some x.2 := by
    simp only [readParam, bind_eq_ok, require_eq_ok, type_eq_ok, pure_eq_ok] at hx
    obtain ⟨o, ho, name, -, ty, hty, rfl⟩ := hx
    rw [ho]
    exact hty
  have hreturned : returned? p.type? o = some returnType := by
    have hread := h.returned
    unfold returned?
    split at hread
    · rename_i hreturns
      rw [if_pos hreturns]
      exact type_eq_ok.1 hread
    · rename_i hnot
      rw [if_neg hnot, pure_eq_ok.1 hread]
  simp only [Document.subsignature?, h.name, mapM_eq_some hparam h.params, hreturned]
  rfl

/-- Types are those of the description if the classes are. -/
theorem type?_eq_typeNamed? (h : p.classes.map Class.ref = (classDecls root).map Prod.fst) :
    p.type? = typeNamed? root := by
  funext name
  rw [Program.type?, typeNamed?, ← h]
  congr 1
  funext name
  rw [Program.classRef?, Program.classNamed?, List.filter_map, List.getLast?_map]
  rfl

/-- A program with the classes and fields of a description, while methods are declared. -/
structure Declaring (root : Object) (p : Program) : Prop where
  placed : p.Placed fun _ => True
  refs : p.classes.map Class.ref = (classDecls root).map Prod.fst
  fields : p.fieldNames = fieldNames root

/-- Reading the methods of a class appends their subsignatures. -/
theorem subsignatures_readMethods {c : Declared} {pending : List Pending}
    (hb : Declaring root b.skeleton) (h : readMethods b c = .ok (b', pending)) :
    Declaring root b'.skeleton ∧ b'.skeleton.subsignatures =
      b.skeleton.subsignatures.modify c.1.index (· ++ (c.2.elements "methods").filterMap fun v =>
        v.object? >>= subsignature? (typeNamed? root)) := by
  refine view_members (fun s : Builder × List Pending => Declaring root s.1.skeleton)
    (fun s => s.1.skeleton.subsignatures) ?_ hb h
  rintro ⟨b, pending⟩ v s' hb h
  simp only [bind_eq_ok, pure_eq_ok, Prod.exists] at h
  obtain ⟨b', more, hread, rfl⟩ := h
  have hplaced := hb.placed.declarations Method.holdsDeclared_true (declarations_readMethod hread)
  obtain ⟨o, spot, name, params, returnType, ho, hsignature, hcases⟩ := readMethod_cases hread
  have hdescribed := type?_eq_typeNamed? hb.refs ▸ hsignature.subsignature?
  obtain ⟨hnone, rfl, -⟩ | ⟨cls, hcls, -, rfl, -⟩ := hcases
  · refine ⟨hb, _, by rw [ho]; exact hdescribed, ?_⟩
    exact (Program.modify_map_classes hnone _ _).symm
  · refine ⟨⟨hplaced, (Builder.map_addMethod fun _ _ => rfl).trans hb.refs,
      (Builder.map_addMethod fun _ _ => rfl).trans hb.fields⟩, _, by rw [ho]; exact hdescribed, ?_⟩
    rw [← (hb.placed _ cls hcls).ref]
    refine Program.map_modifyClass fun cls => ?_
    rw [List.map_append, List.map_singleton, Method.subsignature_declare]

/-! #### All of them -/

/-- A program with the names of its description. -/
structure Named (root : Object) (p : Program) : Prop where
  refs : p.classes.map Class.ref = (classDecls root).map Prod.fst
  fields : p.fieldNames = fieldNames root
  methods : p.subsignatures = subsignatures root

/-- After the passes over classes, hierarchy and fields, everything but the methods is declared. -/
theorem declaring_fields {declared : List Declared} {named above fields : Builder}
    (hclasses : readClasses .empty (root.elements "classes") = .ok (named, declared))
    (habove : declared.foldlM readHierarchy named = .ok above)
    (hfields : declared.foldlM readFields above = .ok fields) : declared = classDecls root ∧
      Declaring root fields.skeleton ∧ fields.skeleton.subsignatures = declared.map fun _ => [] := by
  obtain rfl : declared = classDecls root := numbered_readClasses hclasses
  have hplaced : named.skeleton.Placed fun _ => True :=
    Program.placed_of_declarations Method.holdsDeclared_true (declarations_readClasses hclasses)
  have habove' : above.skeleton.Placed fun _ => True :=
    hplaced.of_shape (map_above (fun _ _ => rfl) (fun _ _ => rfl) habove)
  have hnone : above.skeleton.fieldNames = (classDecls root).map fun _ => [] :=
    (map_above (fun _ _ => rfl) (fun _ _ => rfl) habove).trans
      (map_readClasses (k := fun _ => []) (fun _ _ _ => rfl) hclasses)
  obtain ⟨hplaced', hnames⟩ := view_classes _ (fun b : Builder => b.skeleton.fieldNames)
    (fun _ _ _ => fieldNames_readFields) habove' hfields [] (indexes_numbered 0 _) hnone
  refine ⟨rfl, ⟨hplaced', ?_, hnames⟩, ?_⟩
  · exact (map_fields (fun _ _ => rfl) (fun _ _ => rfl) (fun _ _ => rfl) habove hfields).trans
      (map_readClasses (k := id) (fun _ _ _ => rfl) hclasses)
  · exact (map_fields (fun _ _ => rfl) (fun _ _ => rfl) (fun _ _ => rfl) habove hfields).trans
      (map_readClasses (k := fun _ => []) (fun _ _ _ => rfl) hclasses)

/-- After the pass over the methods, everything is declared. -/
theorem named_methods {fields announced : Builder} {pending : List Pending}
    (hfields : Declaring root fields.skeleton)
    (hnone : fields.skeleton.subsignatures = (classDecls root).map fun _ => [])
    (hmethods : (classDecls root).foldlM (fun (s : Builder × List Pending) c => do
      let (b, more) ← readMethods s.1 c
      return (b, s.2 ++ more)) (fields, []) = .ok (announced, pending)) :
    Named root announced.skeleton := by
  obtain ⟨hdeclared, hnames⟩ := view_classes
    (fun s : Builder × List Pending => Declaring root s.1.skeleton)
    (fun s => s.1.skeleton.subsignatures) (fun s c s' hs h => by
      simp only [bind_eq_ok, pure_eq_ok, Prod.exists] at h
      obtain ⟨next, more, hread, rfl⟩ := h
      exact subsignatures_readMethods hs hread) hfields hmethods [] (indexes_numbered 0 _) hnone
  exact ⟨hdeclared.refs, hdeclared.fields, hnames⟩

/-- A body that is put in its place does not change what its method is called. -/
theorem subsignatures_setMethod {q : Program} {m m' : Method} (hp : p.subsignatures = q.subsignatures)
    (hm : q.method? m'.id = some m) (hname : m'.subsignature = m.subsignature) :
    (p.setMethod m').subsignatures = q.subsignatures := by
  have hset : (p.setMethod m').subsignatures = p.subsignatures.modify m'.id.owner.index
      (·.set m'.id.index m'.subsignature) :=
    Program.map_modifyClass fun _ => List.map_set
  rw [hset, hp]
  refine modify_eq_self fun names hnames => ?_
  obtain ⟨c, hc, hm⟩ := Option.bind_eq_some_iff.1 hm
  have hplace : names[m'.id.index]? = some m'.subsignature := by
    rw [Program.subsignatures, List.getElem?_map, show q.classes[_]? = some c from hc] at hnames
    obtain rfl := Option.some.inj hnames
    rw [List.getElem?_map, hm, hname]
    rfl
  obtain ⟨hlt, heq⟩ := List.getElem?_eq_some_iff.1 hplace
  rw [← heq, List.set_getElem_self]

/-- Reading bodies does not change names. -/
theorem Named.setMethod {skeleton : Program} {id : MethodId} {m m' : Method} {decl : Object}
    (hskeleton : Named root skeleton) (hplaced : skeleton.Placed Blank) (hp : Named root p)
    (hm : skeleton.method? id = some m) (hread : readBody skeleton m decl = .ok m') :
    Named root (p.setMethod m') := by
  obtain ⟨-, -, hblank⟩ := hplaced.of_method? hm
  obtain ⟨hid, hname⟩ := (read_of_readBody hblank hread).header
  refine ⟨(Program.map_setMethod (fun _ _ => rfl) m').trans hp.refs,
    (Program.map_setMethod (fun _ _ => rfl) m').trans hp.fields, ?_⟩
  have hsame : p.subsignatures = skeleton.subsignatures := hp.methods.trans hskeleton.methods.symm
  rw [subsignatures_setMethod hsame (hid ▸ hplaced.method?_id hm) hname]
  exact hskeleton.methods

/-- **The names of a program are those of its description.** -/
theorem named_readProgram (h : readProgram root = .ok p) : Named root p := by
  unfold readProgram at h
  split at h
  · cases h
  rename_i classes hroot
  simp only [bind_eq_ok, pure_eq_ok, Prod.exists] at h
  obtain ⟨named, declared, hclasses, above, habove, fields, hfields, announced, pending, hmethods,
    done, hbodies, entries, -, rfl⟩ := h
  have hplaced : announced.skeleton.Placed Blank := Program.placed_of_declarations blank_declare
    (declarations_skeleton hclasses habove hfields hmethods)
  obtain rfl : classes = root.elements "classes" := by rw [Object.elements, hroot]; rfl
  obtain ⟨rfl, hdeclaring, hnone⟩ := declaring_fields hclasses habove hfields
  have hannounced : Named root announced.skeleton := named_methods hdeclaring hnone hmethods
  have hdone : Named root done := by
    refine foldlM_invariant (Named root) ?_ hannounced hbodies
    rintro q ⟨id, decl⟩ q' hq hstep
    split at hstep
    · rename_i m hm
      simp only [bind_eq_ok, pure_eq_ok] at hstep
      obtain ⟨m', hread, rfl⟩ := hstep
      exact hannounced.setMethod hplaced hq hm hread
    · cases hstep
      exact hq
  exact ⟨hdone.refs, hdone.fields, hdone.methods⟩

/-! ### Names that are declared twice -/

/-- A description that declares every name once in its scope. -/
structure DeclaresOnce (root : Object) : Prop where
  classes : (classNames root).Nodup
  methods : ∀ names ∈ subsignatures root, names.Nodup
  fields : ∀ names ∈ fieldNames root, names.Nodup
  labels : ∀ id, (labelsOf root id).reduceOption.Nodup

/-- A program with the names of its description, of which the last ones count: of the fields with one
name the last is found, and jumps lead to the last line with their label. -/
structure LastNamesCount (root : Object) (p : Program) : Prop extends Named root p where
  found : ∀ c ∈ p.classes, ∀ name f, c.field? name = some f ↔
    ∃ i, LastAt (c.fields.map Field.name) name i ∧ c.fields[i]? = some f
  jumps : ∀ id m, p.method? id = some m → ∀ s ∈ m.stmts, ∀ j ∈ s.jumps,
    ∃ t, j.target = some t ∧ LastAt (labelsOf root id) (some j.label) t

theorem lastNamesCount_readProgram (h : readProgram root = .ok p) : LastNamesCount root p where
  toNamed := named_readProgram h
  found _ _ _ _ := getLast?_filter_eq_some_iff
  jumps id m hm s hs j hj := by
    obtain ⟨skeleton, hread⟩ := readFrom_readProgram h
    obtain ⟨decl, declared, hdecl, -, hbody⟩ := hread.methods id m hm
    obtain ⟨t, ht, -⟩ := hbody.jumps s hs j hj
    refine ⟨t, ht, ?_⟩
    rw [labelsOf, hdecl]
    exact (hbody.targets s hs j hj t).1 ht

/-- Classes and methods of a description that is accepted are named apart. -/
theorem Named.nodup (h : Named root p) (hp : p.NamedApart) :
    (classNames root).Nodup ∧ ∀ names ∈ subsignatures root, names.Nodup := by
  constructor
  · have hnames : p.classes.map Class.name = classNames root :=
      calc p.classes.map Class.name
        _ = (p.classes.map Class.ref).map ClassRef.name := List.map_map.symm
        _ = ((classDecls root).map Prod.fst).map ClassRef.name := by rw [h.refs]
        _ = classNames root := List.map_map
    exact hnames ▸ hp.classes
  · rw [← h.methods]
    intro names hnames
    obtain ⟨c, hc, rfl⟩ := List.mem_map.1 hnames
    exact hp.methods c hc

/-- **What becomes of names that a description declares twice.** The classes of an accepted program
and the methods of each class have names of their own. All names are those of the description, and
of names that are declared twice the last ones count. So the description of an accepted program
declares every name once exactly if it does so for fields and labels. A description that gives two
classes one name, or two methods of a class one subsignature, is refused. -/
theorem accepted_redeclarations {v : Json.Value} (hroot : v.object? = some root) :
    (∀ p, ofJson v = .ok p → p.NamedApart ∧ LastNamesCount root p ∧
      (DeclaresOnce root ↔ (∀ names ∈ fieldNames root, names.Nodup) ∧
        ∀ id, (labelsOf root id).reduceOption.Nodup)) ∧
    (¬ ((classNames root).Nodup ∧ ∀ names ∈ subsignatures root, names.Nodup) →
      ∃ e, ofJson v = .error e) := by
  have hread : ofJson v = readProgram root := by rw [ofJson, hroot]
  have haccepted (p : Program) (h : ofJson v = .ok p) : p.NamedApart ∧ LastNamesCount root p :=
    ⟨Program.Loaded.namedApart ⟨v, p, h, rfl⟩, lastNamesCount_readProgram (hread ▸ h)⟩
  refine ⟨fun p h => ?_, fun htwice => ?_⟩
  · obtain ⟨hapart, hnames⟩ := haccepted p h
    obtain ⟨hclasses, hmethods⟩ := hnames.toNamed.nodup hapart
    exact ⟨hapart, hnames, fun honce => ⟨honce.fields, honce.labels⟩,
      fun ⟨hfields, hlabels⟩ => ⟨hclasses, hmethods, hfields, hlabels⟩⟩
  · cases h : ofJson v with
    | error e => exact ⟨e, rfl⟩
    | ok p =>
      obtain ⟨hapart, hnames⟩ := haccepted p h
      exact absurd (hnames.toNamed.nodup hapart) htwice

/-- A class with two fields `f` and a method with the label `again` at two lines, `classes` times. -/
def twiceDeclared (classes : Nat) : Object :=
  let field (ty : String) : Json.Value := .obj [("name", .str "f"), ("type", .str ty)]
  let line (op : String) : Json.Value := .obj [("op", .str op), ("label", .str "again")]
  let jump : Json.Value := .obj [("op", .str "goto"), ("target", .str "again")]
  let main : Json.Value := .obj [("name", .str "main"), ("static", .bool true),
    ("body", .arr [line "nop", jump, line "return"])]
  [("classes", .arr (.replicate classes (.obj [("name", .str "Main"),
      ("fields", .arr [field "int", field "Main"]), ("methods", .arr [main])]))),
    ("entry", .str "Main.main")]

/-- One such class is accepted although it does not declare every name once, and two are refused. -/
theorem twiceDeclared_redeclarations :
    LastNamesCount (twiceDeclared 1) (.described (.obj (twiceDeclared 1))) ∧
      ¬ DeclaresOnce (twiceDeclared 1) ∧ ∃ e, ofJson (.obj (twiceDeclared 2)) = .error e := by
  obtain ⟨hone, -⟩ := accepted_redeclarations (v := .obj (twiceDeclared 1)) rfl
  obtain ⟨-, hnames, honce⟩ := hone _ (ofJson_eq_described (by decide +kernel))
  refine ⟨hnames, fun hall => ?_, (accepted_redeclarations rfl).2 fun hall => ?_⟩
  · exact absurd (honce.1 hall).1 (by decide +kernel)
  · exact absurd hall.1 (by decide +kernel)

/-- **A field and a label that are declared twice are accepted.** The second field is found, and the jump
leads to the second line with the label. -/
theorem twiceDeclared_accepted :
    ∃ p c m, ofJson (.obj (twiceDeclared 1)) = .ok p ∧ c ∈ p.classes ∧ m ∈ c.methods ∧
      c.fields.map Field.name = ["f", "f"] ∧ (c.field? "f").map Field.index = some 1 ∧
      labelsOf (twiceDeclared 1) m.id = [some "again", none, some "again"] ∧
      m.stmts = [.nop, .goto ⟨"again", some 2⟩, .ret none] := by
  have hrun : ((Program.described (.obj (twiceDeclared 1))).classes.any fun c =>
      c.fields.map Field.name == ["f", "f"] && (c.field? "f").map Field.index == some 1 &&
        c.methods.any fun m =>
          labelsOf (twiceDeclared 1) m.id == [some "again", none, some "again"] &&
            m.stmts == [.nop, .goto ⟨"again", some 2⟩, .ret none]) = true := by
    decide +kernel
  simp only [List.any_eq_true, Bool.and_eq_true, beq_iff_eq] at hrun
  obtain ⟨c, hc, ⟨hfields, hfound⟩, m, hm, hlabels, hstmts⟩ := hrun
  exact ⟨_, c, m, ofJson_eq_described (by decide +kernel), hc, hm, hfields, hfound, hlabels, hstmts⟩

end Document

end HeapFlow
