import HeapFlow.Proofs.Ir.Declarations
import HeapFlow.Proofs.Ir.Entries
import HeapFlow.Proofs.Ir.Recorded
/-!
# HeapFlow.Proofs.Ir.Regular

**Programs that were read are regular** (`Document.regular_of_ofJson`). What every analysis relies on
without a check: statements name variables of their method and members that the accessed classes
have, jumps lead to statements of the body, methods with a body have its control-flow graph, what is
recorded for a variable are the statements that dereference it, and there are entry methods, all with
bodies.
-/

namespace HeapFlow

/-! ### Programs with the same declarations -/

/-- What the declaration of a class consists of besides its methods. -/
theorem Class.eq_of_bare {c d : Class} (h : c.bare = d.bare) :
    c.ref = d.ref ∧ c.isAbstract = d.isAbstract ∧ c.super? = d.super? ∧ c.fields = d.fields := by
  obtain ⟨href, -, habstract, hsuper, -, hfields, -⟩ := Class.mk.inj h
  exact ⟨href, habstract, hsuper, hfields⟩

namespace Program

variable {p q : Program} {c d : ClassRef} {f : Field}

/-- Classes that agree but for their methods. -/
def SameDeclarations (p q : Program) : Prop := p.classes.map Class.bare = q.classes.map Class.bare

theorem SameDeclarations.symm (h : p.SameDeclarations q) : q.SameDeclarations p := Eq.symm h

theorem SameDeclarations.getElem? (h : p.SameDeclarations q) {i : Nat} {cls : Class}
    (hc : p.classes[i]? = some cls) : ∃ cls', q.classes[i]? = some cls' ∧ cls'.bare = cls.bare := by
  have hi : (p.classes.map Class.bare)[i]? = some cls.bare := by rw [List.getElem?_map, hc]; rfl
  rw [show _ = _ from h, List.getElem?_map] at hi
  exact Option.map_eq_some_iff.1 hi

theorem SameDeclarations.mem (h : p.SameDeclarations q) {cls : Class} (hc : cls ∈ p.classes) :
    ∃ cls' ∈ q.classes, cls'.bare = cls.bare := by
  obtain ⟨i, hi⟩ := List.mem_iff_getElem?.1 hc
  obtain ⟨cls', hi', hbare⟩ := h.getElem? hi
  exact ⟨cls', List.mem_of_getElem? hi', hbare⟩

theorem SameDeclarations.extends (h : p.SameDeclarations q) (hcd : p.Extends c d) :
    q.Extends c d := by
  obtain ⟨cls, hc, hsuper⟩ := Option.bind_eq_some_iff.1 hcd
  obtain ⟨cls', hc', hbare⟩ := h.getElem? hc
  obtain ⟨-, -, hsame, -⟩ := Class.eq_of_bare hbare
  exact Option.bind_eq_some_iff.2 ⟨cls', hc', hsame.trans hsuper⟩

theorem SameDeclarations.declares (h : p.SameDeclarations q) (hf : p.Declares c f) :
    q.Declares c f := by
  obtain ⟨d, cls, habove, hd, hf⟩ := hf
  obtain ⟨cls', hd', hbare⟩ := h.getElem? hd
  obtain ⟨-, -, -, hfields⟩ := Class.eq_of_bare hbare
  have habove' : Relation.ReflTransGen q.Extends c d :=
    Relation.ReflTransGen.mono (fun _ _ => h.extends) _ _ habove
  exact ⟨d, cls', habove', hd', hfields ▸ hf⟩

theorem SameDeclarations.classRef? (h : p.SameDeclarations q) (name : String) :
    p.classRef? name = q.classRef? name := by
  have hbare (r : Program) : r.classRef? name =
      ((r.classes.map Class.bare).filter (·.name == name)).getLast?.map Class.ref := by
    rw [List.filter_map, List.getLast?_map, Option.map_map]
    rfl
  rw [hbare, hbare, show _ = _ from h]

end Program

theorem Stmt.Legal.of_sameDeclarations {p q : Program} {vars : List Var} {named : Option ClassRef}
    {s : Stmt} (h : s.Legal p vars named) (hsame : p.SameDeclarations q) : s.Legal q vars named where
  vars := h.vars
  receiver := h.receiver
  created c hc := by
    obtain ⟨cls, hmem, href, habstract⟩ := h.created c hc
    obtain ⟨i, hi⟩ := List.mem_iff_getElem?.1 hmem
    obtain ⟨cls', hi', hbare⟩ := hsame.getElem? hi
    obtain ⟨href', habstract', -, -⟩ := Class.eq_of_bare hbare
    exact ⟨cls', List.mem_of_getElem? hi', href'.trans href, habstract'.trans habstract⟩
  place place hplace := by
    have hlegal := h.place place hplace
    cases place with
    | field base f =>
      obtain ⟨hstatic, c, hty, hdeclares⟩ := hlegal
      exact ⟨hstatic, c, hty, hsame.declares hdeclares⟩
    | static f =>
      obtain ⟨hstatic, c, hnamed, hdeclares⟩ := hlegal
      exact ⟨hstatic, c, hnamed, hsame.declares hdeclares⟩
    | element array index => exact hlegal

theorem Stmt.NamesClass.of_sameDeclarations {p q : Program} {s : Stmt} (h : s.NamesClass p)
    (hsame : p.SameDeclarations q) : s.NamesClass q := by
  intro call hcall
  obtain ⟨cls, hmem, hnamed⟩ := h call hcall
  obtain ⟨i, hi⟩ := List.mem_iff_getElem?.1 hmem
  obtain ⟨cls', hi', hbare⟩ := hsame.getElem? hi
  obtain ⟨href, -, -, -⟩ := Class.eq_of_bare hbare
  exact ⟨cls', List.mem_of_getElem? hi', href ▸ hnamed⟩

/-! ### Regular programs -/

/-- A method as the analyses expect it, where `named` gives the class that is named in the
description of a statement. -/
structure Method.Regular (p : Program) (named : Nat → Option ClassRef) (m : Method) : Prop where
  legal : ∀ (i : Nat) (s : Stmt), m.stmts[i]? = some s → s.Legal p m.vars (named i)
  jumps : ∀ s ∈ m.stmts, ∀ j ∈ s.jumps, ∃ t, j.target = some t ∧ t < m.stmts.length
  cfg : m.hasBody = true → m.cfg = some (.ofBody m.stmts)
  body : m.hasBody = false → m.stmts = []
  recorded : m.Recorded
  indexed : ∀ v, m.Indexed v
  returned : ∀ v, v ∈ m.records.returned.toList ↔ ∃ i : Nat, m.stmts[i]? = some (.ret (some v))
  once : m.records.returned.toList.Nodup

/-- The class that is named in the description of a statement. -/
def Document.namedAt? (root : Json.Object) (p : Program) (id : MethodId) (i : Nat) :
    Option ClassRef :=
  (Document.methodDecl? root id).bind fun decl => Document.lineClass? p (decl.elements "body") i

/-- A program as the analyses expect it, where `root` is its description. Classes, methods and
statements stand where they say. -/
structure Program.Regular (root : Json.Object) (p : Program) : Prop where
  classes : ∀ c ∈ p.classes, p.class? c.ref = some c
  methods : ∀ id m, p.method? id = some m → p.method? m.id = some m
  position : ∀ id m, p.method? id = some m → ∀ i, p.stmt? ⟨m.id, i⟩ = m.stmts[i]?
  regular : ∀ id m, p.method? id = some m → m.Regular p (Document.namedAt? root p m.id)
  entries : p.entries ≠ []
  bodies : ∀ id ∈ p.entries, ∃ m, p.method? id = some m ∧ m.hasBody = true

namespace Document

open Json (Object)

variable {root : Object} {skeleton p : Program}

theorem ReadFrom.lineClass?_eq (h : ReadFrom root skeleton p) (lines : List Json.Value) (i : Nat) :
    lineClass? skeleton lines i = lineClass? p lines i := by
  have hsame : skeleton.SameDeclarations p := h.classes.symm
  have hnamed (o : Object) : namedClass? skeleton o = namedClass? p o := by
    rw [namedClass?, namedClass?]
    congr 1
    exact funext hsame.classRef?
  rw [lineClass?, lineClass?]
  congr 1
  exact funext hnamed

/-- A method refers to the place at which it stands. -/
theorem ReadFrom.of_method? (h : ReadFrom root skeleton p) {id : MethodId} {m : Method}
    (hm : p.method? id = some m) : m.id.owner.index = id.owner.index ∧ m.id.index = id.index := by
  obtain ⟨decl, declared, -, hdeclared, hread⟩ := h.methods id m hm
  obtain ⟨howner, hindex, -⟩ := h.placed.of_method? hdeclared
  rw [hread.header.1]
  exact ⟨howner, hindex⟩

/-- A method that was read is regular, as what is recorded for it is what its body says. -/
theorem ReadFrom.regular (h : ReadFrom root skeleton p) {id : MethodId} {m : Method}
    (hm : p.method? id = some m) (hrecorded : m.Recorded) :
    m.Regular p (namedAt? root p m.id) := by
  obtain ⟨howner, hindex⟩ := h.of_method? hm
  obtain ⟨decl, declared, hdecl, hdeclared, hread⟩ := h.methods id m hm
  rw [← methodDecl?_congr howner hindex] at hdecl
  refine ⟨fun i s hs => ?_, hread.jumps, fun hbody => ?_, hread.body, hrecorded, hrecorded.indexed,
    fun v => ?_, m.records.returned.nodup⟩
  · have hnamed : namedAt? root p m.id i = lineClass? skeleton (decl.elements "body") i := by
      rw [namedAt?, hdecl, Option.bind_some, h.lineClass?_eq]
    rw [hnamed]
    exact (hread.legal i s hs).of_sameDeclarations h.classes.symm
  · rw [hread.cfg, if_pos hbody]
  · rw [hrecorded.returned, ← OrderedSet.mem_iff, Method.mem_returnVars]
    simp only [Method.stmt?_eq]

/-- Loaded programs were read from a description, whatever their entry methods. -/
theorem exists_readFrom_of_loaded (h : p.Loaded) : ∃ root skeleton q, ReadFrom root skeleton q ∧
    p.classes = q.classes := by
  obtain ⟨v, q, hq, hp⟩ := h
  unfold ofJson at hq
  split at hq
  · rename_i root _
    obtain ⟨skeleton, hread⟩ := readFrom_readProgram hq
    exact ⟨root, skeleton, q, hread, by rw [hp]⟩
  · cases hq

/-- Methods are looked up in the classes. -/
theorem method?_of_classes {q : Program} (h : p.classes = q.classes) (id : MethodId) :
    p.method? id = q.method? id := by
  rw [Program.method?, Program.method?, Program.class?, Program.class?, h]

/-- Methods of loaded programs are regular, whatever the entry methods. -/
theorem exists_regular_of_loaded (h : p.Loaded) {id : MethodId} {m : Method}
    (hm : p.method? id = some m) : ∃ named, m.Regular p named := by
  have hrecorded := h.recorded hm
  obtain ⟨root, skeleton, q, hread, hclasses⟩ := exists_readFrom_of_loaded h
  rw [method?_of_classes hclasses] at hm
  have hsame : q.SameDeclarations p := congrArg (List.map Class.bare) hclasses.symm
  have hregular := hread.regular hm hrecorded
  exact ⟨namedAt? root q m.id, { hregular with
    legal := fun i s hs => (hregular.legal i s hs).of_sameDeclarations hsame }⟩

/-- **Programs that were read are regular.** -/
theorem regular_of_ofJson {v : Json.Value} (h : ofJson v = .ok p) :
    ∃ root, v.object? = some root ∧ p.Regular root := by
  have hloaded : p.Loaded := ⟨v, p, h, rfl⟩
  have hwell : p.WellFormed := hloaded.wellFormed
  unfold ofJson at h
  split at h
  · rename_i root hroot
    obtain ⟨skeleton, hread⟩ := readFrom_readProgram h
    obtain ⟨hentries, hbodies⟩ := of_readEntries hwell hread.entries
    refine ⟨root, hroot, fun c hc => ?_, fun id m hm => (hwell id m hm).1, fun id m hm i => ?_,
      fun id m hm => hread.regular hm (hloaded.recorded hm), hentries, fun id hid => ?_⟩
    · obtain ⟨i, hi⟩ := List.mem_iff_getElem?.1 hc
      have hsame : p.SameDeclarations skeleton := hread.classes
      obtain ⟨c', hc', hbare⟩ := hsame.getElem? hi
      obtain ⟨href, -, -, -⟩ := Class.eq_of_bare hbare
      rw [Program.class?, ← href, (hread.placed i c' hc').ref, hi]
    · rw [← Method.stmt?_eq]
      exact congrArg (Option.bind · (Method.stmt? · i)) (hwell id m hm).1
    · obtain ⟨m, hm, -, hbody⟩ := hbodies id hid
      exact ⟨m, hm, hbody⟩
  · cases h

/-- Accesses of all kinds, among them one to a static field of a class above the one that is named,
and jumps forwards and backwards. -/
def accessesDocument : Json.Value :=
  let var (name type : String) : Json.Value := .obj [("name", .str name), ("type", .str type)]
  let op (name : String) (rest : List (String × Json.Value)) : Json.Value :=
    .obj (("op", .str name) :: rest)
  let main : Json.Value := .obj [("name", .str "main"), ("static", .bool true),
    ("vars", .arr [var "b" "Box", var "x" "int", var "a" "int[]"]), ("body", .arr [
      op "new" [("lhs", .str "b"), ("class", .str "Box")],
      op "load" [("label", .str "again"), ("lhs", .str "x"), ("class", .str "Box"),
        ("field", .str "count")],
      op "store" [("base", .str "b"), ("field", .str "f"), ("rhs", .str "x")],
      op "load" [("lhs", .str "x"), ("base", .str "b"), ("field", .str "f")],
      op "newarray" [("lhs", .str "a"), ("elem", .str "int"), ("length", .str "x")],
      op "astore" [("base", .str "a"), ("index", .str "x"), ("rhs", .str "x")],
      op "aload" [("lhs", .str "x"), ("base", .str "a"), ("index", .str "x")],
      op "invoke" [("kind", .str "virtual"), ("class", .str "Box"), ("method", .str "int get()"),
        ("base", .str "b"), ("lhs", .str "x")],
      op "switch" [("var", .str "x"), ("cases", .arr [
        .obj [("value", .num (.int 1)), ("target", .str "again")]]), ("default", .str "end")],
      op "return" [("label", .str "end")]])]
  let get : Json.Value := .obj [("name", .str "get"), ("return", .str "int"),
    ("vars", .arr [var "x" "int"]), ("body", .arr [
      op "load" [("lhs", .str "x"), ("base", .str "this"), ("field", .str "f")],
      op "return" [("var", .str "x")]])]
  let count : Json.Value :=
    .obj [("name", .str "count"), ("type", .str "int"), ("static", .bool true)]
  .obj [("classes", .arr [
      .obj [("name", .str "Box"), ("super", .str "Base"), ("fields", .arr [var "f" "int"]),
        ("methods", .arr [main, get])],
      .obj [("name", .str "Base"), ("abstract", .bool true), ("fields", .arr [count])]]),
    ("entry", .str "Box.main")]

theorem regular_accessesDocument :
    ∃ root, accessesDocument.object? = some root ∧
      (Program.described accessesDocument).Regular root :=
  regular_of_ofJson (ofJson_eq_described (by decide +kernel))

end Document

/-- **Calls of loaded methods name classes of the program.** -/
theorem Program.Loaded.namesClass {p : Program} (h : p.Loaded) {id : MethodId} {m : Method}
    (hm : p.method? id = some m) {s : Stmt} (hs : s ∈ m.stmts) : s.NamesClass p := by
  obtain ⟨root, skeleton, q, hread, hclasses⟩ := Document.exists_readFrom_of_loaded h
  rw [Document.method?_of_classes hclasses] at hm
  obtain ⟨decl, declared, -, -, hread'⟩ := hread.methods id m hm
  have hsame : skeleton.SameDeclarations p :=
    hread.classes.symm.trans (congrArg (List.map Class.bare) hclasses.symm)
  exact (hread'.named s hs).of_sameDeclarations hsame

/-- **Loaded methods with a body have its graph, and others have none.** -/
theorem Program.Loaded.cfg_eq {p : Program} (h : p.Loaded) {id : MethodId} {m : Method}
    (hm : p.method? id = some m) : m.cfg = if m.hasBody then some (.ofBody m.stmts) else none := by
  obtain ⟨root, skeleton, q, hread, hclasses⟩ := Document.exists_readFrom_of_loaded h
  rw [Document.method?_of_classes hclasses] at hm
  obtain ⟨decl, declared, -, -, hread⟩ := hread.methods id m hm
  exact hread.cfg

/-- **Statements of loaded methods mention variables of the method.** -/
theorem Program.Loaded.mem_vars_of_mentions {p : Program} (h : p.Loaded) {id : MethodId} {m : Method}
    (hm : p.method? id = some m) {i : Nat} {s : Stmt} (hs : m.stmts[i]? = some s) {v : Var}
    (hv : v ∈ s.mentions) : v ∈ m.vars := by
  obtain ⟨named, hregular⟩ := Document.exists_regular_of_loaded h hm
  exact (hregular.legal i s hs).vars v hv

end HeapFlow
