import HeapFlow.Proofs.Ir.Supertypes
import Mathlib.Data.List.TakeWhile
/-!
# HeapFlow.Proofs.Ir.Names

**Which names find a method.** A class is the only one with its name and a method the only one with its
subsignature in its class, because nothing is declared twice. So a name that is split between the class
and the subsignature finds the method (`Program.Loaded.lookupMethod?_eq_some_iff`). It is split at the last
point before the parameters. That is the right one unless the class has a parenthesis in its name or
there is a point in front of the parameters, where the type of the result stands.
-/

namespace HeapFlow

/-- A method is named as it is declared. -/
theorem Method.subsignature_declare (id : MethodId) (name : String) (params : List (String × Ty))
    (returnType : Ty) (isStatic isAbstract : Bool) :
    (Method.declare id name params returnType isStatic isAbstract).subsignature =
      subsignatureOf name (params.map Prod.snd) returnType := by
  have htypes (n : Nat) : (params.zipIdx.map fun x => (⟨n + x.2, x.1.1, x.1.2⟩ : Var)).map Var.ty =
      params.map Prod.snd := by
    rw [List.map_map]
    conv_rhs => rw [← List.zipIdx_map_fst 0 params, List.map_map]
    rfl
  rw [subsignature]
  exact congrArg (subsignatureOf name · returnType) (htypes _)

/-- What stands in front of the parameters of a method. -/
def Method.heading (m : Method) : String := m.returnType.name ++ " " ++ m.name

namespace Program

/-! ### Splitting a name -/

/-- The characters in front of the parameters. -/
def headOf (cs : List Char) : List Char := cs.takeWhile (· != '(')

theorem headOf_append {as : List Char} (h : '(' ∉ as) (bs : List Char) :
    headOf (as ++ bs) = as ++ headOf bs :=
  List.takeWhile_append_of_pos fun _ hc => bne_iff_ne.2 fun heq => h (heq ▸ hc)

theorem headOf_point (bs : List Char) : headOf ('.' :: bs) = '.' :: headOf bs :=
  List.takeWhile_cons_of_pos (by decide)

theorem not_mem_headOf (cs : List Char) : '(' ∉ headOf cs := by
  intro h
  have := List.mem_takeWhile_imp h
  simp at this

theorem headOf_dropWhile (cs : List Char) : headOf (cs.dropWhile (· != '(')) = [] := by
  induction cs with
  | nil => rfl
  | cons c cs ih =>
    rw [List.dropWhile_cons]
    split
    · exact ih
    · rename_i hc
      exact List.takeWhile_cons_of_neg hc

/-- The parameters do not count. -/
theorem headOf_subsignature (m : Method) : headOf m.subsignature.toList = headOf m.heading.toList := by
  have hstop (as bs : List Char) : headOf (as ++ '(' :: bs) = headOf as := by
    induction as with
    | nil => rfl
    | cons c as ih =>
      rw [List.cons_append, headOf, headOf, List.takeWhile_cons, List.takeWhile_cons]
      split
      · exact congrArg _ ih
      · rfl
  have hsplit : m.subsignature.toList = m.heading.toList ++
      '(' :: (Text.joined "," ((m.params.map Var.ty).map Ty.name) ++ ")").toList := by
    simp [Method.subsignature, Method.subsignatureOf, Method.heading]
  rw [hsplit, hstop]

/-- A name without a point before its parameters is not split. -/
theorem splitQualified?_eq_none {name : String} (h : '.' ∉ headOf name.toList) :
    splitQualified? name = none := by
  have hall : (headOf name.toList).reverse.takeWhile (· != '.') = (headOf name.toList).reverse := by
    rw [List.takeWhile_eq_self_iff]
    intro c hc
    exact bne_iff_ne.2 fun heq => h (heq ▸ List.mem_reverse.1 hc)
  exact if_pos (by rw [← headOf, hall, List.length_reverse])

/-- A name is split at its last point before the parameters. -/
theorem splitQualified?_append {a b : String} (ha : '(' ∉ a.toList)
    (hb : '.' ∉ headOf b.toList) : splitQualified? (a ++ "." ++ b) = some (a, b) := by
  have hname : (a ++ "." ++ b).toList = a.toList ++ '.' :: b.toList := by simp
  have hhead : headOf (a ++ "." ++ b).toList = a.toList ++ '.' :: headOf b.toList := by
    rw [hname, headOf_append ha, headOf_point]
  have hmember : (headOf (a ++ "." ++ b).toList).reverse.takeWhile (· != '.') =
      (headOf b.toList).reverse := by
    rw [hhead, List.reverse_append, List.reverse_cons, List.append_assoc,
      List.takeWhile_append_of_pos]
    · simp
    · intro c hc
      exact bne_iff_ne.2 fun heq => hb (heq ▸ List.mem_reverse.1 hc)
  have hdot : (a.toList ++ '.' :: headOf b.toList).length - (headOf b.toList).length - 1 =
      a.toList.length := by
    rw [List.length_append, List.length_cons]
    omega
  unfold splitQualified?
  simp only
  rw [← headOf, hmember, hhead, List.length_reverse, hdot, if_neg, hname]
  · simp
  · rw [List.length_append, List.length_cons]
    omega

/-- A name with a point before its parameters has a last one there. -/
theorem exists_of_point_mem_headOf {name : String} (h : '.' ∈ headOf name.toList) :
    ∃ a b : String, name = a ++ "." ++ b ∧ '(' ∉ a.toList ∧ '.' ∉ headOf b.toList := by
  obtain ⟨after, before, hhead, hafter⟩ := List.eq_append_cons_of_mem (List.mem_reverse.2 h)
  have hhead : headOf name.toList = before.reverse ++ '.' :: after.reverse := by
    rw [← List.reverse_reverse (headOf _), hhead]
    simp
  have hname : name.toList = before.reverse ++ '.' :: after.reverse ++
      name.toList.dropWhile (· != '(') := by
    rw [← hhead]
    exact List.takeWhile_append_dropWhile.symm
  have hnone : '(' ∉ before.reverse ++ '.' :: after.reverse := hhead ▸ not_mem_headOf _
  refine ⟨.ofList before.reverse, .ofList (after.reverse ++ name.toList.dropWhile (· != '(')),
    ?_, ?_, ?_⟩
  · apply String.toList_injective
    simpa using hname
  · simpa using fun hmem => hnone (List.mem_append_left _ (List.mem_reverse.2 hmem))
  · have hparen : '(' ∉ after.reverse := fun hmem =>
      hnone (List.mem_append_right _ (List.mem_cons_of_mem _ hmem))
    rw [String.toList_ofList, headOf_append hparen, headOf_dropWhile, List.append_nil]
    exact fun hmem => hafter (List.mem_reverse.1 hmem)

theorem splitQualified?_eq_some_iff {name a b : String} :
    splitQualified? name = some (a, b) ↔
      name = a ++ "." ++ b ∧ '(' ∉ a.toList ∧ '.' ∉ headOf b.toList := by
  constructor
  · intro h
    by_cases hdot : '.' ∈ headOf name.toList
    · obtain ⟨a', b', rfl, ha, hb⟩ := exists_of_point_mem_headOf hdot
      rw [splitQualified?_append ha hb] at h
      cases h
      exact ⟨rfl, ha, hb⟩
    · rw [splitQualified?_eq_none hdot] at h
      cases h
  · rintro ⟨rfl, ha, hb⟩
    exact splitQualified?_append ha hb

/-! ### Declared names -/

/-- Classes have different names, and the methods of a class different subsignatures. -/
structure NamedApart (p : Program) : Prop where
  classes : (p.classes.map Class.name).Nodup
  methods : ∀ c ∈ p.classes, (c.methods.map Method.subsignature).Nodup

variable {p q : Program} {c : Class} {m : Method} {ref : ClassRef}

/-- A name that finds no class is new. -/
theorem not_mem_names {name : String} (h : p.classNamed? name = none) :
    name ∉ p.classes.map Class.name := by
  intro hmem
  obtain ⟨c, hc, hname⟩ := List.mem_map.1 hmem
  have hnil := List.getLast?_eq_none_iff.1 h
  exact List.filter_eq_nil_iff.1 hnil c hc (beq_iff_eq.2 hname)

/-- A subsignature that finds no method is new. -/
theorem not_mem_subsignatures {subsignature : String} (h : c.method? subsignature = none) :
    subsignature ∉ c.methods.map Method.subsignature := by
  intro hmem
  obtain ⟨m, hm, hname⟩ := List.mem_map.1 hmem
  have hnil := List.getLast?_eq_none_iff.1 h
  exact List.filter_eq_nil_iff.1 hnil m hm (beq_iff_eq.2 hname)

/-- A change of one class that keeps its name needs to keep its methods named apart. -/
theorem NamedApart.modifyClass (h : p.NamedApart) {f : Class → Class}
    (hname : ∀ c, (f c).name = c.name)
    (hf : ∀ c ∈ p.classes, p.class? ref = some c → ((f c).methods.map Method.subsignature).Nodup) :
    (p.modifyClass ref f).NamedApart := by
  refine ⟨?_, fun c hc => ?_⟩
  · rw [map_classes_modifyClass hname]
    exact h.classes
  · obtain ⟨i, hi⟩ := List.mem_iff_getElem?.1 hc
    rw [Program.modifyClass, List.getElem?_modify] at hi
    obtain ⟨old, hold, rfl⟩ := Option.map_eq_some_iff.1 hi
    have hmem : old ∈ p.classes := List.mem_of_getElem? hold
    by_cases hindex : ref.index = i
    · subst hindex
      rw [if_pos rfl]
      exact hf old hmem hold
    · rw [if_neg hindex]
      exact h.methods old hmem

/-- **Nothing is declared twice.** -/
theorem NamedApart.declaration (h : p.NamedApart) (hplaced : p.Placed fun _ => True)
    (hstep : p.Declaration q) : q.NamedApart := by
  cases hstep with
  | addClass name isInterface isAbstract hnew =>
    refine ⟨?_, fun c hc => ?_⟩
    · rw [List.map_append]
      exact Worklist.nodup_concat h.classes (not_mem_names hnew)
    · obtain hold | hnew := List.mem_append.1 hc
      · exact h.methods c hold
      · obtain rfl := List.mem_singleton.1 hnew
        exact List.nodup_nil
  | setSuper => exact h.modifyClass (fun _ => rfl) fun c hc _ => h.methods c hc
  | addInterface => exact h.modifyClass (fun _ => rfl) fun c hc _ => h.methods c hc
  | addField => exact h.modifyClass (fun _ => rfl) fun c hc _ => h.methods c hc
  | @addMethod ref cls hcls name params returnType isStatic isAbstract hnew =>
    refine h.modifyClass (fun _ => rfl) fun c hc hhere => ?_
    -- the changed class is the one that was looked up
    obtain rfl : cls = c := Option.some.inj ((hplaced.class?_ref hcls).symm.trans hhere)
    rw [List.map_append, List.map_singleton, Method.subsignature_declare]
    exact Worklist.nodup_concat (h.methods cls hc) (not_mem_subsignatures hnew)

theorem namedApart_of_declarations (h : Program.empty.Declarations p) : p.NamedApart := by
  induction h with
  | refl => exact ⟨List.nodup_nil, fun c hc => absurd hc List.not_mem_nil⟩
  | tail hsteps hstep ih =>
    exact ih.declaration (placed_of_declarations Method.holdsDeclared_true hsteps) hstep

theorem nodup_of_getElem?_imp {α : Type} {xs ys : List α} (hys : ys.Nodup)
    (h : ∀ (i : Nat) (x : α), xs[i]? = some x → ys[i]? = some x) : xs.Nodup := by
  rw [List.nodup_iff_getElem?_ne_getElem?]
  intro i j hij hj heq
  have hx := List.getElem?_eq_getElem hj
  have hj' := h j _ hx
  have hlt : j < ys.length := (List.getElem?_eq_some_iff.1 hj').1
  exact List.nodup_iff_getElem?_ne_getElem?.1 hys i j hij hlt
    ((h i _ (heq.trans hx)).trans hj'.symm)

/-- **Classes and methods of loaded programs are named apart.** -/
theorem Loaded.namedApart (h : p.Loaded) : p.NamedApart := by
  obtain ⟨root, skeleton, q, hread, hclasses⟩ := Document.exists_readFrom_of_loaded h
  have hsame : p.SameDeclarations skeleton :=
    (congrArg (List.map Class.bare) hclasses).trans hread.classes
  have hskeleton := namedApart_of_declarations hread.built
  refine ⟨?_, fun c hc => ?_⟩
  · have hname (r : Program) : r.classes.map Class.name =
        (r.classes.map Class.bare).map Class.name := by
      rw [List.map_map]
      rfl
    rw [hname, show _ = _ from hsame, ← hname]
    exact hskeleton.classes
  · obtain ⟨i, hi⟩ := List.mem_iff_getElem?.1 hc
    obtain ⟨d, hd, -⟩ := hsame.getElem? hi
    refine nodup_of_getElem?_imp (hskeleton.methods d (List.mem_of_getElem? hd)) fun j s hs => ?_
    rw [List.getElem?_map] at hs ⊢
    obtain ⟨m, hm, rfl⟩ := Option.map_eq_some_iff.1 hs
    -- a method is named as it was declared in its place
    have hplace : q.method? ⟨⟨i, ""⟩, j⟩ = some m := by
      rw [← Document.method?_of_classes hclasses]
      exact Option.bind_eq_some_iff.2 ⟨c, hi, hm⟩
    obtain ⟨decl, declared, -, hdeclared, hbody⟩ := hread.methods _ m hplace
    obtain ⟨d', hd', hdeclared⟩ := Option.bind_eq_some_iff.1 hdeclared
    obtain rfl : d' = d := Option.some.inj (hd'.symm.trans hd)
    rw [hdeclared, Option.map_some, hbody.header.2]

/-! ### Looking up -/

/-- Among things that are told apart by a key, each is found by its own. -/
theorem getLast?_filter_key {α : Type} {key : α → String} {xs : List α} (h : (xs.map key).Nodup)
    {x : α} (hx : x ∈ xs) : (xs.filter (key · == key x)).getLast? = some x := by
  have hmem : x ∈ xs.filter (key · == key x) := List.mem_filter.2 ⟨hx, beq_self_eq_true _⟩
  obtain ⟨y, hy⟩ := Option.isSome_iff_exists.1
    (List.getLast?_isSome.2 (List.ne_nil_of_mem hmem))
  obtain ⟨hymem, hkey⟩ := List.mem_filter.1 (List.mem_of_getLast? hy)
  rw [hy, List.inj_on_of_nodup_map h hymem hx (eq_of_beq hkey)]

theorem NamedApart.classNamed?_name (h : p.NamedApart) (hc : c ∈ p.classes) :
    p.classNamed? c.name = some c :=
  getLast?_filter_key h.classes hc

theorem NamedApart.method?_subsignature (h : p.NamedApart) (hc : c ∈ p.classes)
    (hm : m ∈ c.methods) : c.method? m.subsignature = some m :=
  getLast?_filter_key (h.methods c hc) hm

/-- A method is found in one class only. -/
theorem Loaded.eq_of_mem_methods (h : p.Loaded) {d : Class} (hc : c ∈ p.classes) (hd : d ∈ p.classes)
    (hm : m ∈ c.methods) (hm' : m ∈ d.methods) : c = d := by
  have hplaced : p.Placed fun _ => True :=
    h.placed Method.holdsDeclared_true (fun _ _ _ _ _ _ => trivial) fun _ _ => trivial
  obtain ⟨i, hi⟩ := List.mem_iff_getElem?.1 hc
  obtain ⟨j, hj⟩ := List.mem_iff_getElem?.1 hd
  obtain rfl : i = j := ((hplaced i c hi).owner m hm).symm.trans ((hplaced j d hj).owner m hm')
  exact Option.some.inj (hi.symm.trans hj)

/-- **The class and the subsignature of a method find it exactly if the class has no parenthesis in its
name and there is no point in front of the parameters.** Points in the name of the class or in the
types of the parameters do not matter. -/
theorem Loaded.lookupMethod?_eq_some_iff (h : p.Loaded) (hc : c ∈ p.classes) (hm : m ∈ c.methods) :
    p.lookupMethod? (c.name ++ "." ++ m.subsignature) = some m ↔
      '(' ∉ c.name.toList ∧ '.' ∉ headOf m.heading.toList := by
  rw [← headOf_subsignature]
  constructor
  · intro hfound
    obtain ⟨className, member, d, hsplit, hd, hmd⟩ := exists_of_lookupMethod? hfound
    obtain ⟨hdmem, rfl⟩ := of_classNamed? hd
    obtain rfl : c = d := h.eq_of_mem_methods hc hdmem hm hmd
    -- the name was split behind the right class, so what is left is the subsignature
    obtain ⟨hname, hclass, hmember⟩ := splitQualified?_eq_some_iff.1 hsplit
    obtain rfl : m.subsignature = member := String.append_right_inj _ |>.1 hname
    exact ⟨hclass, hmember⟩
  · rintro ⟨ha, hb⟩
    have hnamed := h.namedApart
    rw [lookupMethod?, splitQualified?_append ha hb]
    simp [hnamed.classNamed?_name hc, hnamed.method?_subsignature hc hm]

end Program

/-! ### An example -/

/-- A class with points in its name, one method that takes an object of the class and one that returns
an object of the class. -/
def dottedDocument (entry : String) : Json.Value :=
  let method (name result : String) (params : List Json.Value) : Json.Value :=
    .obj [("name", .str name), ("static", .bool true), ("return", .str result), ("params", .arr params),
      ("body", .arr [.obj [("op", .str "return")]])]
  .obj [("classes", .arr [.obj [("name", .str "a.b.T"), ("methods", .arr [
      method "size" "int" [.obj [("name", .str "t"), ("type", .str "a.b.T")]],
      method "make" "a.b.T" []])]]),
    ("entry", .str entry)]

/-- The method that takes the object is found, and what the other name finds is not the method that
returns it. -/
theorem dottedDocument_looksUp :
    ∃ c m m', c ∈ (Program.described (dottedDocument "a.b.T.make")).classes ∧
      m ∈ c.methods ∧ m' ∈ c.methods ∧ c.name = "a.b.T" ∧
      m.subsignature = "int size(a.b.T)" ∧ m'.subsignature = "a.b.T make()" ∧
      (Program.described (dottedDocument "a.b.T.make")).lookupMethod? "a.b.T.int size(a.b.T)" =
        some m ∧
      (Program.described (dottedDocument "a.b.T.make")).lookupMethod? "a.b.T.a.b.T make()" ≠ some m' := by
  have hloaded : (Program.described (dottedDocument "a.b.T.make")).Loaded :=
    loaded_described (by decide +kernel)
  have hrun : (Program.described (dottedDocument "a.b.T.make")).classes.map (fun c =>
      (c.name, c.methods.map fun m => (m.subsignature, m.heading))) =
        [("a.b.T", [("int size(a.b.T)", "int size"), ("a.b.T make()", "a.b.T make")])] := by
    decide +kernel
  obtain ⟨c, hclasses, hc⟩ := List.map_eq_singleton_iff.1 hrun
  simp only [Prod.mk.injEq] at hc
  obtain ⟨hname, hmethods⟩ := hc
  obtain ⟨m, rest, hm, hsize, hrest⟩ := List.map_eq_cons_iff.1 hmethods
  obtain ⟨m', rfl, hmake⟩ := List.map_eq_singleton_iff.1 hrest
  simp only [Prod.mk.injEq] at hsize hmake
  have hc : c ∈ (Program.described (dottedDocument "a.b.T.make")).classes := by simp [hclasses]
  have hmem : m ∈ c.methods := by simp [hm]
  have hmem' : m' ∈ c.methods := by simp [hm]
  have hfound := Program.Loaded.lookupMethod?_eq_some_iff hloaded hc hmem
  have hlost := Program.Loaded.lookupMethod?_eq_some_iff hloaded hc hmem'
  rw [hname, hsize.1, hsize.2] at hfound
  rw [hname, hmake.1, hmake.2] at hlost
  exact ⟨c, m, m', hc, hmem, hmem', hname, hsize.1, hmake.1, hfound.2 (by decide +kernel),
    fun h => absurd (hlost.1 h).2 (by decide +kernel)⟩

/-- **A method with a point in the type of its result is not found by its subsignature**, and is unknown
as an entry method. -/
theorem dottedDocument_notFound :
    ∃ p c m, Document.ofJson (dottedDocument "a.b.T.make") = .ok p ∧ c ∈ p.classes ∧ m ∈ c.methods ∧
      c.name ++ "." ++ m.subsignature = "a.b.T.a.b.T make()" ∧
      p.lookupMethod? "a.b.T.a.b.T make()" = none ∧
      Document.ofJson (dottedDocument "a.b.T.a.b.T make()") =
        .error (.unknownEntry "a.b.T.a.b.T make()") := by
  have hloaded : Document.ofJson (dottedDocument "a.b.T.make") =
      .ok (.described (dottedDocument "a.b.T.make")) :=
    ofJson_eq_described (by decide +kernel)
  have hrun : (Program.described (dottedDocument "a.b.T.make")).classes.any (fun c =>
      c.methods.any fun m => c.name ++ "." ++ m.subsignature == "a.b.T.a.b.T make()") = true := by
    decide +kernel
  obtain ⟨c, hc, hrun⟩ := List.any_eq_true.1 hrun
  obtain ⟨m, hm, hname⟩ := List.any_eq_true.1 hrun
  have hnone : ((Program.described (dottedDocument "a.b.T.make")).lookupMethod?
      "a.b.T.a.b.T make()").isNone = true := by
    decide +kernel
  have hrefused : (match Document.ofJson (dottedDocument "a.b.T.a.b.T make()") with
      | .error e => some e
      | .ok _ => none) = some (LoadError.unknownEntry "a.b.T.a.b.T make()") := by
    decide +kernel
  refine ⟨_, c, m, hloaded, hc, hm, eq_of_beq hname, Option.isNone_iff_eq_none.1 hnone, ?_⟩
  split at hrefused
  · rename_i h
    rw [h, Option.some.inj hrefused]
  · cases hrefused

end HeapFlow
