import HeapFlow.CallGraph.Resolve
import HeapFlow.Proofs.Ir.Regular
import HeapFlow.Proofs.Ir.Supertypes
import HeapFlow.Proofs.Search
/-!
# HeapFlow.Proofs.Hierarchy

**Subtypes are the same from above, from below and for call resolution.** One class is directly below
another if it names it as its superclass or among its interfaces. Going up, the types above a class
are read off the class; going down, subclasses, subinterfaces and implementors are searched for; and
call resolution goes down from an interface and from a class in different ways. In a loaded program
all three lead along the same edges, since superclasses are no interfaces and interfaces are
interfaces. So each of the three closures is the reflexive and transitive closure of being directly
below, also if interfaces extend one another in a circle.
-/

namespace HeapFlow

namespace Program

/-- The class `sub` names `c` as its superclass or among its interfaces. -/
def DirectlyBelow (p : Program) (sub c : ClassRef) : Prop :=
  ∃ d ∈ p.classes, d.ref = sub ∧ (d.super? = some c ∨ c ∈ d.interfaces)

variable {p : Program} {c d : ClassRef}

theorem mem_refs : c ∈ p.refs ↔ ∃ cls ∈ p.classes, cls.ref = c := List.mem_map

theorem Has.mem_refs {isInterface : Bool} (h : p.Has isInterface c) : c ∈ p.refs := by
  obtain ⟨cls, hmem, href, -⟩ := h
  exact Program.mem_refs.2 ⟨cls, hmem, href⟩

/-! ### Direct relations -/

theorem mem_occurrences {cls : Class} : d ∈ occurrences c cls ↔ c ∈ cls.interfaces ∧ d = cls.ref := by
  simp only [occurrences, List.mem_map, List.mem_filter, decide_eq_true_eq]
  constructor
  · rintro ⟨_, ⟨hmem, rfl⟩, rfl⟩
    exact ⟨hmem, rfl⟩
  · rintro ⟨hmem, rfl⟩
    exact ⟨c, ⟨hmem, rfl⟩, rfl⟩

theorem mem_subclasses : d ∈ p.subclasses c ↔ ∃ cls ∈ p.classes, cls.ref = d ∧ cls.super? = some c := by
  simp only [subclasses, List.mem_map, List.mem_filter, decide_eq_true_eq]
  constructor
  · rintro ⟨cls, ⟨hmem, hsuper⟩, rfl⟩
    exact ⟨cls, hmem, rfl, hsuper⟩
  · rintro ⟨cls, hmem, rfl, hsuper⟩
    exact ⟨cls, ⟨hmem, hsuper⟩, rfl⟩

/-- What names an interface is itself an interface or implements it. -/
theorem mem_subinterfaces_or_implementors :
    d ∈ p.subinterfaces c ∨ d ∈ p.implementors c ↔
      ∃ cls ∈ p.classes, cls.ref = d ∧ c ∈ cls.interfaces := by
  simp only [subinterfaces, implementors, List.mem_flatMap, List.mem_filter, mem_occurrences]
  constructor
  · rintro (⟨cls, ⟨hmem, -⟩, hnames, rfl⟩ | ⟨cls, ⟨hmem, -⟩, hnames, rfl⟩)
    · exact ⟨cls, hmem, rfl, hnames⟩
    · exact ⟨cls, hmem, rfl, hnames⟩
  · rintro ⟨cls, hmem, rfl, hnames⟩
    cases hkind : cls.isInterface with
    | true => exact Or.inl ⟨cls, ⟨hmem, hkind⟩, hnames, rfl⟩
    | false => exact Or.inr ⟨cls, ⟨hmem, by rw [hkind]; rfl⟩, hnames, rfl⟩

theorem directlyBelow_iff : p.DirectlyBelow d c ↔
    d ∈ p.subclasses c ∨ d ∈ p.subinterfaces c ∨ d ∈ p.implementors c := by
  rw [mem_subinterfaces_or_implementors, mem_subclasses]
  constructor
  · rintro ⟨cls, hmem, href, hsuper | hnames⟩
    · exact Or.inl ⟨cls, hmem, href, hsuper⟩
    · exact Or.inr ⟨cls, hmem, href, hnames⟩
  · rintro (⟨cls, hmem, href, hsuper⟩ | ⟨cls, hmem, href, hnames⟩)
    · exact ⟨cls, hmem, href, Or.inl hsuper⟩
    · exact ⟨cls, hmem, href, Or.inr hnames⟩

theorem DirectlyBelow.mem_refs (h : p.DirectlyBelow d c) : d ∈ p.refs := by
  obtain ⟨cls, hmem, href, -⟩ := h
  exact Program.mem_refs.2 ⟨cls, hmem, href⟩

/-! ### Three ways to follow them -/

/-- Going up. -/
theorem mem_parents (hp : p.Loaded) (hd : d ∈ p.refs) : c ∈ p.parents d ↔ p.DirectlyBelow d c := by
  obtain ⟨cls, hmem, rfl⟩ := mem_refs.1 hd
  rw [parents, hp.class?_ref hmem]
  simp only [List.mem_append, Option.mem_toList]
  constructor
  · exact fun h => ⟨cls, hmem, rfl, h⟩
  · rintro ⟨cls', hmem', href, h⟩
    -- there is only one class with the reference
    have hsame : some cls' = some cls := by
      rw [← hp.class?_ref hmem', href, hp.class?_ref hmem]
    obtain rfl := Option.some.inj hsame
    exact h

/-- Going down. -/
theorem mem_children : d ∈ p.children c ↔ p.DirectlyBelow d c := by
  rw [children, List.mem_append, List.mem_append, or_assoc, directlyBelow_iff]

/-- Going down as call resolution does. No class is below an interface as its subclass, and none below
a class as an implementor. -/
theorem mem_searchChildren (hp : p.Loaded) (hc : c ∈ p.refs) :
    d ∈ p.searchChildren c ↔ p.DirectlyBelow d c := by
  obtain ⟨cls, hmem, rfl⟩ := mem_refs.1 hc
  have hkind {b : Bool} (h : p.Has b cls.ref) : cls.isInterface = b := by
    obtain ⟨cls', hmem', href, hb⟩ := h
    have hsame : some cls' = some cls := by
      rw [← hp.class?_ref hmem', href, hp.class?_ref hmem]
    exact Option.some.inj hsame ▸ hb
  rw [searchChildren, hp.class?_ref hmem]
  cases hinterface : cls.isInterface with
  | true =>
    have hnone : d ∉ p.subclasses cls.ref := by
      intro hd
      obtain ⟨sub, hsub, -, hsuper⟩ := mem_subclasses.1 hd
      exact Bool.noConfusion (hinterface.symm.trans (hkind (hp.layered.super sub hsub _ hsuper)))
    simp [hinterface, directlyBelow_iff, hnone]
  | false =>
    have hnone : ¬ (d ∈ p.subinterfaces cls.ref ∨ d ∈ p.implementors cls.ref) := by
      intro hd
      obtain ⟨sub, hsub, -, hnames⟩ := mem_subinterfaces_or_implementors.1 hd
      exact Bool.noConfusion
        (hinterface.symm.trans (hkind (hp.layered.interfaces sub hsub _ hnames)))
    simp [hinterface, directlyBelow_iff, hnone]

/-! ### Their closures -/

/-- What is directly above a class is a class of the program. -/
theorem DirectlyBelow.mem_refs_above (hp : p.Loaded) (h : p.DirectlyBelow d c) : c ∈ p.refs := by
  obtain ⟨cls, hmem, -, hsuper | hnames⟩ := h
  · exact (hp.layered.super cls hmem c hsuper).mem_refs
  · exact (hp.layered.interfaces cls hmem c hnames).mem_refs

/-- Going up and up is going along direct relations. -/
theorem reflTransGen_parents_iff (hp : p.Loaded) (hd : d ∈ p.refs) :
    Relation.ReflTransGen (Reach.Leads p.parents) d c ↔
      Relation.ReflTransGen p.DirectlyBelow d c :=
  Reach.reflTransGen_leads_iff (fun _ hx _ => mem_parents hp hx) (fun _ _ _ h => h.mem_refs_above hp)
    hd

/-- The search upwards finds what is above, and stops there. -/
theorem isSubtype_iff (hp : p.Loaded) (hd : d ∈ p.refs) :
    p.isSubtype c d = true ↔ Relation.ReflTransGen p.DirectlyBelow d c := by
  rw [isSubtype, Search.finds_iff, ← reflTransGen_parents_iff hp hd]
  · simp only [List.mem_singleton, exists_eq_left]
  · exact Search.mem_whole_of_reaches (List.forall_mem_singleton.2 hd)
      fun x hx y hy => ((mem_parents hp hx).1 hy).mem_refs_above hp

/-- A search downwards, in whichever order, lists what is below. -/
theorem mem_sweep_iff {next : ClassRef → List ClassRef} {order : Search.Order}
    (hnext : ∀ x ∈ p.refs, ∀ y, y ∈ next x ↔ p.DirectlyBelow y x) (hc : c ∈ p.refs) :
    d ∈ Search.sweep next order p.refs [c] ↔ Relation.ReflTransGen p.DirectlyBelow d c := by
  rw [← Relation.reflTransGen_swap,
    ← Reach.reflTransGen_leads_iff hnext (fun _ _ _ h => h.mem_refs) hc, Search.mem_sweep]
  · simp only [List.mem_singleton, exists_eq_left]
  · exact Search.mem_whole_of_reaches (List.forall_mem_singleton.2 hc)
      fun x hx y hy => ((hnext x hx y).1 hy).mem_refs

theorem mem_subtypes (hc : c ∈ p.refs) :
    d ∈ p.subtypes c ↔ Relation.ReflTransGen p.DirectlyBelow d c :=
  mem_sweep_iff (fun _ _ _ => mem_children) hc

/-- The targets below a class are those that its subtypes select. -/
theorem mem_resolveBelow (hp : p.Loaded) (hc : c ∈ p.refs) {subsignature : String}
    {callee : MethodId} : callee ∈ p.resolveBelow c subsignature ↔
      ∃ d ∈ p.subtypes c, p.dispatch? d subsignature = some callee := by
  have hsearch (d : ClassRef) :
      d ∈ Search.sweep p.searchChildren .oldest p.refs [c] ↔ d ∈ p.subtypes c := by
    rw [mem_subtypes hc]
    exact mem_sweep_iff (fun x hx y => mem_searchChildren hp hx) hc
  rw [resolveBelow, ← OrderedSet.mem_iff, OrderedSet.mem_ofList, List.mem_filterMap]
  simp only [← OrderedSet.mem_iff, hsearch]

theorem nodup_resolveBelow (p : Program) (c : ClassRef) (subsignature : String) :
    (p.resolveBelow c subsignature).Nodup := OrderedSet.nodup _

/-- Virtual and interface calls are resolved below the receiver class or the class that they name. -/
theorem resolveByHierarchy_eq {receiver : Option ClassRef} {call : Call}
    (hkind : call.kind = .virtual ∨ call.kind = .interface) (hroot : receiver.or call.cls = some c) :
    p.resolveByHierarchy receiver call = p.resolveBelow c call.subsignature := by
  unfold resolveByHierarchy
  obtain hkind | hkind := hkind <;> rw [hkind] <;> dsimp only <;> rw [hroot]

/-- **Subtypes agree.** In a loaded program, subtyping as it is found from below and from above is the
reflexive and transitive closure of being directly below. A virtual or interface call has each target
once, and its targets are the methods that the subtypes of its class select; every call of the program
names such a class. -/
theorem subtypes_agree (hp : p.Loaded) :
    (∀ c ∈ p.classes, ∀ d ∈ p.classes,
      (p.isSubtype c.ref d.ref = true ↔ Relation.ReflTransGen p.DirectlyBelow d.ref c.ref) ∧
      (d.ref ∈ p.subtypes c.ref ↔ Relation.ReflTransGen p.DirectlyBelow d.ref c.ref)) ∧
    (∀ (receiver : Option ClassRef) (call : Call), call.kind = .virtual ∨ call.kind = .interface →
      ∀ root ∈ p.classes, receiver.or call.cls = some root.ref →
        (p.resolveByHierarchy receiver call).Nodup ∧
        ∀ callee, callee ∈ p.resolveByHierarchy receiver call ↔
          ∃ c ∈ p.subtypes root.ref, p.dispatch? c call.subsignature = some callee) ∧
    ∀ id m, p.method? id = some m → ∀ s ∈ m.stmts, ∀ call, s.call? = some call →
      ∃ root ∈ p.classes, call.cls = some root.ref := by
  have href {c : Class} (hc : c ∈ p.classes) : c.ref ∈ p.refs := mem_refs.2 ⟨c, hc, rfl⟩
  refine ⟨fun c hc d hd => ⟨isSubtype_iff hp (href hd), mem_subtypes (href hc)⟩, ?_, ?_⟩
  · intro receiver call hkind root hroot hor
    rw [resolveByHierarchy_eq hkind hor]
    exact ⟨nodup_resolveBelow p root.ref call.subsignature,
      fun callee => mem_resolveBelow hp (href hroot)⟩
  · intro id m hm s hs call hcall
    exact hp.namesClass hm hs call hcall

/-- Two interfaces that extend each other, one of them below a class, and a class that implements one
of them and has a subclass with a method of its own. -/
def circleDocument : Json.Value :=
  let run : Json.Value := .obj [("name", .str "run"), ("body", .arr [
    .obj [("op", .str "return")]])]
  let main : Json.Value := .obj [("name", .str "main"), ("static", .bool true),
    ("vars", .arr [.obj [("name", .str "x"), ("type", .str "Left")]]), ("body", .arr [
      .obj [("op", .str "new"), ("lhs", .str "x"), ("class", .str "Sub")],
      .obj [("op", .str "invoke"), ("kind", .str "interface"), ("class", .str "Left"),
        ("method", .str "void run()"), ("base", .str "x")],
      .obj [("op", .str "return")]])]
  .obj [("classes", .arr [
      .obj [("name", .str "Top")],
      .obj [("name", .str "Left"), ("interface", .bool true), ("super", .str "Top"),
        ("interfaces", .arr [.str "Right"])],
      .obj [("name", .str "Right"), ("interface", .bool true), ("interfaces", .arr [.str "Left"])],
      .obj [("name", .str "Base"), ("super", .str "Top"), ("interfaces", .arr [.str "Right"]),
        ("methods", .arr [run, main])],
      .obj [("name", .str "Sub"), ("super", .str "Base"), ("methods", .arr [run])]]),
    ("entry", .str "Base.main")]

/-- The call in `circleDocument`. -/
def circleCall : Call :=
  ⟨.interface, some ⟨1, "Left"⟩, "void run()", some ⟨0, "x", .cls ⟨1, "Left"⟩⟩, []⟩

/-- In `circleDocument`, the subclass is below the interface that the call names. -/
theorem circleDocument_agrees :
    let p := Program.described circleDocument
    Relation.ReflTransGen p.DirectlyBelow ⟨4, "Sub"⟩ ⟨1, "Left"⟩ ∧
      (⟨4, "Sub"⟩ : ClassRef) ∈ p.subtypes ⟨1, "Left"⟩ ∧
      ∀ callee, callee ∈ p.resolveByHierarchy none circleCall ↔
        ∃ c ∈ p.subtypes ⟨1, "Left"⟩, p.dispatch? c "void run()" = some callee := by
  intro p
  have hp : p.Loaded := loaded_described (by decide +kernel)
  obtain ⟨hagree, hresolve, -⟩ := subtypes_agree hp
  have hclass (i : Nat) (ref : ClassRef) (h : (p.classes[i]?).map Class.ref = some ref) :
      ∃ c ∈ p.classes, c.ref = ref := by
    obtain ⟨c, hc, href⟩ := Option.map_eq_some_iff.1 h
    exact ⟨c, List.mem_of_getElem? hc, href⟩
  obtain ⟨left, hleft, hleftRef⟩ := hclass 1 ⟨1, "Left"⟩ (by decide +kernel)
  obtain ⟨sub, hsub, hsubRef⟩ := hclass 4 ⟨4, "Sub"⟩ (by decide +kernel)
  obtain ⟨hup, hdown⟩ := hagree left hleft sub hsub
  rw [hleftRef, hsubRef] at hup hdown
  have hbelow := hup.1 (by decide +kernel)
  refine ⟨hbelow, hdown.2 hbelow, ?_⟩
  have htargets := (hresolve none circleCall (.inr rfl) left hleft (by rw [hleftRef]; rfl)).2
  rwa [hleftRef] at htargets

end Program

end HeapFlow
