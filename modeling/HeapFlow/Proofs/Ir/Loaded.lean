import HeapFlow.Proofs.Ir.Patches
import HeapFlow.Proofs.Ir.Skeleton
/-!
# HeapFlow.Proofs.Ir.Loaded

**What holds of every program that was read from a description.** Classes and methods stand where
their references say. Reading keeps this, declaration by declaration, together with whatever holds of
methods as they are declared and whatever reading their bodies then establishes
(`Program.Loaded.placed`). In particular the control-flow graph of a method is the graph of its body:
while the skeleton is built no method has a graph, and a method is put back in its place with the graph
of the body that was just read.
-/

namespace HeapFlow

/-- An element of a list with one more at its end. -/
theorem cases_getElem?_concat {α : Type} {xs : List α} {x y : α} {i : Nat}
    (h : (xs ++ [x])[i]? = some y) : xs[i]? = some y ∨ i = xs.length ∧ y = x := by
  obtain hlt | hge := Nat.lt_or_ge i xs.length
  · rw [List.getElem?_append_left hlt] at h
    exact .inl h
  · rw [List.getElem?_append_right hge, List.getElem?_singleton] at h
    split at h
    · exact .inr ⟨by omega, (Option.some.inj h).symm⟩
    · cases h

/-- The last place at which something stands in a list. -/
def LastAt {α : Type} (xs : List α) (x : α) (i : Nat) : Prop :=
  xs[i]? = some x ∧ ∀ j, i < j → xs[j]? ≠ some x

theorem not_lastAt_nil {α : Type} {x : α} {i : Nat} : ¬ LastAt [] x i := fun h => nomatch h.1

/-- One more element: it is the last, or the last one is where it was. -/
theorem lastAt_concat {α : Type} [DecidableEq α] {xs : List α} {x y : α} {i : Nat} :
    LastAt (xs ++ [y]) x i ↔ if y = x then i = xs.length else LastAt xs x i := by
  have hlast : (xs ++ [y])[xs.length]? = some y := List.getElem?_concat_length
  split
  · rename_i heq
    subst heq
    constructor
    · rintro ⟨hi, hlater⟩
      obtain hi | ⟨hi, -⟩ := cases_getElem?_concat hi
      · exact absurd hlast (hlater _ (List.getElem?_eq_some_iff.1 hi).1)
      · exact hi
    · rintro rfl
      refine ⟨hlast, fun j hj hmem => ?_⟩
      have hlt := (List.getElem?_eq_some_iff.1 hmem).1
      rw [List.length_append, List.length_singleton] at hlt
      omega
  · rename_i hne
    have hold {j : Nat} : (xs ++ [y])[j]? = some x ↔ xs[j]? = some x := by
      refine ⟨fun hj => ?_, fun hj => ?_⟩
      · obtain hj | ⟨-, rfl⟩ := cases_getElem?_concat hj
        · exact hj
        · exact absurd rfl hne
      · rw [List.getElem?_append_left (List.getElem?_eq_some_iff.1 hj).1, hj]
    simp only [LastAt, ne_eq, hold]

/-! ### Programs in which everything is in its place -/

/-- A complete body has its own control-flow graph. -/
def Method.HasOwnGraph (m : Method) : Prop := ∀ g, m.cfg = some g → g = .ofBody m.stmts

/-- A method is where its reference says, and its graph is that of its body. -/
def Program.WellFormed (p : Program) : Prop :=
  ∀ id m, p.method? id = some m → p.method? m.id = some m ∧ m.HasOwnGraph

/-- A class that refers to the place at which it stands, with methods that do so too and of which
something holds. -/
structure Class.StandsAt (good : Method → Prop) (i : Nat) (c : Class) : Prop where
  ref : c.ref.index = i
  owner : ∀ m ∈ c.methods, m.id.owner.index = i
  index : ∀ (j : Nat) (m : Method), c.methods[j]? = some m → m.id.index = j
  good : ∀ m ∈ c.methods, good m

/-- Every class of a program stands in its place. -/
def Program.Placed (good : Method → Prop) (p : Program) : Prop :=
  ∀ (i : Nat) (c : Class), p.classes[i]? = some c → c.StandsAt good i

/-- The references of the classes, with their methods. -/
def Program.shape (p : Program) : List (ClassRef × List Method) :=
  p.classes.map fun c => (c.ref, c.methods)

/-- A change of a class keeps what it keeps of every class. -/
theorem Program.map_classes_modifyClass {α : Type} {p : Program} {ref : ClassRef}
    {f : Class → Class} {g : Class → α} (hg : ∀ c, g (f c) = g c) :
    (p.modifyClass ref f).classes.map g = p.classes.map g := by
  refine List.ext_getElem? fun i => ?_
  simp only [modifyClass, List.getElem?_map, List.getElem?_modify, Option.map_eq_map,
    Option.map_map]
  congr 1
  funext c
  by_cases hi : ref.index = i <;> simp [hi, hg]

section Placed

variable {good : Method → Prop} {p : Program}

/-- Only the places count that a reference tells. -/
theorem Program.method?_congr {id id' : MethodId} (howner : id.owner.index = id'.owner.index)
    (hindex : id.index = id'.index) : p.method? id = p.method? id' := by
  rw [method?, method?, class?, class?, howner, hindex]

/-- A method refers to the place at which it stands. -/
theorem Program.Placed.of_method? (h : p.Placed good) {id : MethodId} {m : Method}
    (hm : p.method? id = some m) :
    m.id.owner.index = id.owner.index ∧ m.id.index = id.index ∧ good m := by
  obtain ⟨c, hc, hj⟩ := Option.bind_eq_some_iff.1 hm
  have hstands := h _ c hc
  have hmem : m ∈ c.methods := List.mem_of_getElem? hj
  exact ⟨hstands.owner m hmem, hstands.index _ m hj, hstands.good m hmem⟩

/-- The reference of a method finds it. -/
theorem Program.Placed.method?_id (h : p.Placed good) {id : MethodId} {m : Method}
    (hm : p.method? id = some m) : p.method? m.id = some m := by
  obtain ⟨howner, hindex, -⟩ := h.of_method? hm
  rw [method?_congr howner hindex, hm]

/-- The reference of a class finds it. -/
theorem Program.Placed.class?_ref (h : p.Placed good) {ref : ClassRef} {c : Class}
    (hc : p.class? ref = some c) : p.class? c.ref = some c := by
  rw [class?, (h _ c hc).ref]
  exact hc

theorem Program.Placed.wellFormed (h : p.Placed Method.HasOwnGraph) : p.WellFormed :=
  fun _ _ hm => ⟨h.method?_id hm, (h.of_method? hm).2.2⟩

theorem Program.mem_methods_of_method? {id : MethodId} {m : Method} (h : p.method? id = some m) :
    m ∈ p.methods := by
  obtain ⟨c, hc, hm⟩ := Option.bind_eq_some_iff.1 h
  exact List.mem_flatMap.2 ⟨c, List.mem_of_getElem? hc, List.mem_of_getElem? hm⟩

/-- A method of a class stands where its reference says. -/
theorem Program.WellFormed.method?_of_mem (h : p.WellFormed) {c : Class} (hc : c ∈ p.classes)
    {m : Method} (hm : m ∈ c.methods) : p.method? m.id = some m := by
  obtain ⟨i, hi⟩ := List.mem_iff_getElem?.1 hc
  obtain ⟨j, hj⟩ := List.mem_iff_getElem?.1 hm
  refine (h ⟨⟨i, ""⟩, j⟩ m ?_).1
  simp [Program.method?, Program.class?, hi, hj]

theorem Program.Placed.imp {better : Method → Prop} (h : p.Placed good)
    (himp : ∀ m, good m → better m) : p.Placed better := fun i c hc =>
  have hstands := h i c hc
  ⟨hstands.ref, hstands.owner, hstands.index, fun m hm => himp m (hstands.good m hm)⟩

/-- Changing one class keeps every class in its place if it keeps that class in its place. -/
theorem Program.Placed.modifyClass {ref : ClassRef} {f : Class → Class} (h : p.Placed good)
    (hf : ∀ c, p.class? ref = some c → c.StandsAt good ref.index →
      (f c).StandsAt good ref.index) : (p.modifyClass ref f).Placed good := by
  intro i c hc
  rw [Program.modifyClass, List.getElem?_modify] at hc
  obtain ⟨old, hold, rfl⟩ := Option.map_eq_some_iff.1 hc
  have hstands := h i old hold
  by_cases hi : ref.index = i
  · subst hi
    rw [if_pos rfl]
    exact hf old hold hstands
  · rw [if_neg hi]
    exact hstands

/-- Where the members of classes stand depends on the shape of the program only. -/
theorem Program.Placed.of_shape {q : Program} (h : p.Placed good) (hshape : q.shape = p.shape) :
    q.Placed good := by
  intro i d hd
  have hi : q.shape[i]? = some (d.ref, d.methods) := by simp [Program.shape, hd]
  rw [hshape, Program.shape, List.getElem?_map, Option.map_eq_some_iff] at hi
  obtain ⟨c, hc, heq⟩ := hi
  obtain ⟨href, hmethods⟩ := Prod.mk.inj heq
  have hstands := h i c hc
  refine ⟨href ▸ hstands.ref, ?_, ?_, ?_⟩
  · rw [← hmethods]
    exact hstands.owner
  · rw [← hmethods]
    exact hstands.index
  · rw [← hmethods]
    exact hstands.good

/-- A method is put in its place. -/
theorem Program.Placed.setMethod {m : Method} (h : p.Placed good) (hm : good m) :
    (p.setMethod m).Placed good := by
  refine h.modifyClass fun c _ hc => ⟨hc.ref, ?_, ?_, ?_⟩
  · intro m' hm'
    obtain hold | rfl := List.mem_or_eq_of_mem_set hm'
    · exact hc.owner m' hold
    · rfl
  · intro j m' hj
    rw [List.getElem?_set] at hj
    split at hj
    · rename_i heq
      split at hj
      · cases hj
        exact heq
      · cases hj
    · exact hc.index j m' hj
  · intro m' hm'
    obtain hold | rfl := List.mem_or_eq_of_mem_set hm'
    · exact hc.good m' hold
    · exact hm

end Placed

/-! ### The skeleton -/

/-- A property that every method has as it is declared. -/
def Method.HoldsDeclared (good : Method → Prop) : Prop :=
  ∀ id name params returnType isStatic isAbstract,
    good (Method.declare id name params returnType isStatic isAbstract)

theorem Method.holdsDeclared_true : Method.HoldsDeclared fun _ => True :=
  fun _ _ _ _ _ _ => trivial

namespace Program

variable {good : Method → Prop} {p q : Program}

theorem Placed.addMethod {c : Class} {ref : ClassRef} (hdeclare : Method.HoldsDeclared good)
    (h : p.Placed good) (hc : p.class? ref = some c) (name : String)
    (params : List (String × Ty)) (returnType : Ty) (isStatic isAbstract : Bool) :
    (p.modifyClass c.ref fun cls => { cls with methods := cls.methods ++
      [.declare ⟨c.ref, c.methods.length⟩ name params returnType isStatic isAbstract] }).Placed
      good := by
  -- a class is modified at its own place, which `c` is known to have
  refine h.modifyClass fun d hd hplace => ?_
  obtain rfl : c = d := Option.some.inj ((h.class?_ref hc).symm.trans hd)
  refine ⟨hplace.ref, ?_, ?_, ?_⟩
  · intro m hm
    obtain hold | hnew := List.mem_append.1 hm
    · exact hplace.owner m hold
    · rw [List.mem_singleton.1 hnew]
      rfl
  · intro j m hj
    obtain hj | ⟨rfl, rfl⟩ := cases_getElem?_concat hj
    · exact hplace.index j m hj
    · rfl
  · intro m hm
    obtain hold | hnew := List.mem_append.1 hm
    · exact hplace.good m hold
    · rw [List.mem_singleton.1 hnew]
      exact hdeclare ..

/-- **Declarations keep everything in its place.** -/
theorem Placed.declaration (hdeclare : Method.HoldsDeclared good) (h : p.Placed good)
    (hstep : p.Declaration q) : q.Placed good := by
  cases hstep with
  | addClass name isInterface isAbstract =>
    intro i c hc
    obtain hc | ⟨rfl, rfl⟩ := cases_getElem?_concat hc
    · exact h i c hc
    · refine ⟨rfl, ?_, ?_, ?_⟩ <;> simp [Class.declare]
  | setSuper => exact h.of_shape (map_classes_modifyClass fun _ => rfl)
  | addInterface => exact h.of_shape (map_classes_modifyClass fun _ => rfl)
  | addField => exact h.of_shape (map_classes_modifyClass fun _ => rfl)
  | addMethod hc name params returnType isStatic isAbstract =>
    exact h.addMethod hdeclare hc name params returnType isStatic isAbstract

theorem Placed.declarations (hdeclare : Method.HoldsDeclared good) (h : p.Placed good)
    (hsteps : p.Declarations q) : q.Placed good := by
  induction hsteps with
  | refl => exact h
  | tail _ hstep ih => exact ih.declaration hdeclare hstep

theorem placed_of_declarations (hdeclare : Method.HoldsDeclared good)
    (h : Program.empty.Declarations p) : p.Placed good :=
  Placed.declarations hdeclare (fun i c hc => by cases hc) h

end Program

/-! ### Bodies -/

/-- A method whose body was not read yet. -/
def Method.Unread (m : Method) : Prop := m.cfg = none

namespace Document

open Json (Object)

variable {p : Program} {d d' : Draft} {b b' : Builder} {good : Method → Prop}

/-- A variable that was read is added to the method. -/
theorem readVar_cases {v : Json.Value} (h : readVar p d v = .ok d') :
    ∃ name ty, d' = d.addVar name ty := by
  simp only [readVar, bind_eq_ok] at h
  obtain ⟨o, -, name, -, h⟩ := h
  split at h
  · cases h
  · simp only [bind_eq_ok, pure_eq_ok] at h
    obtain ⟨ty, -, rfl⟩ := h
    exact ⟨name, ty, rfl⟩

/-- The draft with the label of a line, if it has one. -/
def withLabel (d : Draft) (o : Object) : Draft :=
  { d with waiting := d.waiting ++ (o.string? "label").toList }

/-- A line that was read is a statement that is appended; a label and a source line only change what
the draft remembers besides its method. -/
theorem readLine_cases {v : Json.Value} {index : Nat} (h : readLine p d v index = .ok d') :
    ∃ o s line, v.object? = some o ∧
      readStmt (.stmt d.method.signature index) p d.method o = .ok s ∧
      d' = ((withLabel d o).atLine line).emit s := by
  simp only [readLine, bind_eq_ok, pure_eq_ok] at h
  obtain ⟨o, ho, s, hs, rfl⟩ := h
  refine ⟨o, s, ?_⟩
  cases hl : o.string? "label" with
  | none =>
    have hlabelled : withLabel d o = d := by simp [withLabel, hl]
    rw [hlabelled]
    split <;> exact ⟨_, require_eq_ok.1 ho, hs, rfl⟩
  | some l =>
    have hlabelled : withLabel d o = d.label l := by simp [withLabel, hl, Draft.label]
    rw [hlabelled]
    split <;> exact ⟨_, require_eq_ok.1 ho, hs, rfl⟩

/-- What every line keeps is kept by all of them. -/
theorem readLines_invariant (kept : Draft → Prop)
    (hline : ∀ d v index d', kept d → readLine p d v index = .ok d' → kept d')
    {vs : List Json.Value} {index : Nat} (hd : kept d) (h : readLines p d index vs = .ok d') :
    kept d' := by
  induction vs generalizing d index with
  | nil =>
    rw [readLines] at h
    cases h
    exact hd
  | cons v vs ih =>
    rw [readLines, bind_eq_ok] at h
    obtain ⟨next, hread, hrest⟩ := h
    exact ih (hline d v index next hd hread) hrest

/-- After the variables, the lines of a body are read and the draft is finished. A method without a body
has no lines. -/
theorem readBody_cases {m m' : Method} {decl : Object} (h : readBody p m decl = .ok m') :
    ∃ d, (decl.elements "vars").foldlM (readVar p) (.ofMethod m) = .ok d ∧
      (m.hasBody = true ∧ (∃ read done, readLines p d 0 (decl.elements "body") = .ok read ∧
        read.finish = (done, none) ∧ m' = done.method) ∨
      m.hasBody = false ∧ m' = d.method) := by
  simp only [readBody, bind_eq_ok] at h
  obtain ⟨d, hvars, h⟩ := h
  refine ⟨d, hvars, ?_⟩
  split at h
  · rename_i hbody
    simp only [bind_eq_ok] at h
    obtain ⟨lines, hlines, read, hread, h⟩ := h
    have helements : decl.elements "body" = lines := by
      rw [Object.elements, require_eq_ok.1 hlines]
      rfl
    rw [← helements] at hread
    split at h
    · rename_i done hfinish
      cases h
      exact .inl ⟨hbody, read, done, hread, hfinish, rfl⟩
    · cases h
  · rename_i hbody
    split at h
    · cases h
      exact .inr ⟨Bool.not_eq_true _ ▸ hbody, rfl⟩
    · cases h

theorem stmts_emit (d : Draft) (s : Stmt) : (d.emit s).method.stmts = d.method.stmts ++ [s] := by
  simp [Draft.emit, Method.stmts]

theorem unread_readVar {v : Json.Value} (hd : d.method.Unread) (h : readVar p d v = .ok d') :
    d'.method.Unread := by
  obtain ⟨name, ty, rfl⟩ := readVar_cases h
  exact hd

theorem unread_readLine {v : Json.Value} {index : Nat} (hd : d.method.Unread)
    (h : readLine p d v index = .ok d') : d'.method.Unread := by
  obtain ⟨o, s, line, -, -, rfl⟩ := readLine_cases h
  exact hd

theorem hasOwnGraph_of_unread {m : Method} (hm : m.Unread) : m.HasOwnGraph := by
  intro g hg
  rw [hm] at hg
  cases hg

theorem unread_resolveJumps (hd : d.method.Unread) : d.closeLabels.resolveJumps.1.method.Unread :=
  Draft.closeLabels_of_emit (P := fun d => d.method.Unread) hd hd

/-- Finishing a draft gives its method the graph of its body. -/
theorem hasOwnGraph_finish (hd : d.method.Unread) : d.finish.1.method.HasOwnGraph := by
  obtain ⟨h, -⟩ | ⟨l, -, h⟩ | ⟨-, h⟩ := d.finish_cases <;> rw [h]
  · exact hasOwnGraph_of_unread hd
  · exact hasOwnGraph_of_unread (unread_resolveJumps hd)
  · intro g hg
    exact (Option.some.inj hg).symm

theorem hasOwnGraph_readBody {m m' : Method} {decl : Object} (hm : m.Unread)
    (h : readBody p m decl = .ok m') : m'.HasOwnGraph := by
  obtain ⟨d, hvars, hcases⟩ := readBody_cases h
  have hd : d.method.Unread :=
    foldlM_invariant (fun d => d.method.Unread) (fun _ _ _ => unread_readVar) hm hvars
  obtain ⟨-, read, done, hread, hfinish, rfl⟩ | ⟨-, rfl⟩ := hcases
  · have hlines : read.method.Unread :=
      readLines_invariant (fun d => d.method.Unread) (fun _ _ _ _ => unread_readLine) hd hread
    have hgraph := hasOwnGraph_finish hlines
    rwa [hfinish] at hgraph
  · exact hasOwnGraph_of_unread hd

/-! ### The whole description -/

/-- Reading a body turns a method as it is declared into one with another property. -/
def ReadingGives (declared read : Method → Prop) : Prop :=
  ∀ p m decl m', declared m → readBody p m decl = .ok m' → read m'

theorem placed_readProgram {declared read : Method → Prop} {root : Object}
    (hdeclare : Method.HoldsDeclared declared) (hread : ReadingGives declared read)
    (hkeep : ∀ m, declared m → read m) (h : readProgram root = .ok p) : p.Placed read := by
  unfold readProgram at h
  split at h
  · cases h
  simp only [bind_eq_ok, pure_eq_ok, Prod.exists] at h
  obtain ⟨named, classes, hclasses, above, habove, fields, hfields, skeleton, pending, hmethods,
    done, hbodies, entries, -, rfl⟩ := h
  have hskeleton : skeleton.skeleton.Placed declared :=
    Program.placed_of_declarations hdeclare (declarations_skeleton hclasses habove hfields hmethods)
  -- the bodies are read against the skeleton, whose methods are all as they were declared
  have hdone : done.Placed read := by
    refine foldlM_invariant (fun p => p.Placed read) ?_ (hskeleton.imp hkeep) hbodies
    intro before x after hbefore h
    obtain ⟨id, decl⟩ := x
    split at h
    · rename_i m hm
      simp only [bind_eq_ok, pure_eq_ok] at h
      obtain ⟨m', hbody, rfl⟩ := h
      exact hbefore.setMethod (hread _ m decl m' (hskeleton.of_method? hm).2.2 hbody)
    · cases h
      exact hbefore
  exact hdone

end Document

/-- A program that was read from a description, for any choice of entry methods. -/
def Program.Loaded (p : Program) : Prop :=
  ∃ v q, Document.ofJson v = .ok q ∧ p = { q with entries := p.entries }

theorem Program.Loaded.withEntries {p : Program} (h : p.Loaded) (entries : List MethodId) :
    ({ p with entries } : Program).Loaded := by
  obtain ⟨v, q, hq, hp⟩ := h
  exact ⟨v, q, hq, by rw [hp]⟩

/-- **What reading a body establishes holds of the methods of loaded programs.** -/
theorem Program.Loaded.placed {p : Program} (h : p.Loaded) {declared read : Method → Prop}
    (hdeclare : Method.HoldsDeclared declared) (hread : Document.ReadingGives declared read)
    (hkeep : ∀ m, declared m → read m) : p.Placed read := by
  obtain ⟨v, q, hq, hp⟩ := h
  have hplaced : q.Placed read := by
    unfold Document.ofJson at hq
    split at hq
    · exact Document.placed_readProgram hdeclare hread hkeep hq
    · cases hq
  rw [hp]
  exact hplaced

/-- **Loaded programs are well formed.** -/
theorem Program.Loaded.wellFormed {p : Program} (h : p.Loaded) : p.WellFormed := by
  have hdeclare : Method.HoldsDeclared Method.Unread := fun _ _ _ _ _ _ => rfl
  have hread : Document.ReadingGives Method.Unread Method.HasOwnGraph :=
    fun _ _ _ _ => Document.hasOwnGraph_readBody
  exact (h.placed hdeclare hread fun _ => Document.hasOwnGraph_of_unread).wellFormed

/-! ### Programs given by their descriptions -/

/-- The program that a JSON value describes; the empty program if it describes none. -/
def Program.described (v : Json.Value) : Program := (Document.ofJson v).toOption.getD .empty

theorem ofJson_eq_described {v : Json.Value} (h : (Document.ofJson v).toOption.isSome = true) :
    Document.ofJson v = .ok (.described v) := by
  rw [Program.described]
  cases hv : Document.ofJson v with
  | error e =>
    rw [hv] at h
    cases h
  | ok p => rfl

theorem loaded_described {v : Json.Value} (h : (Document.ofJson v).toOption.isSome = true) :
    (Program.described v).Loaded :=
  ⟨v, .described v, ofJson_eq_described h, rfl⟩

end HeapFlow
