import HeapFlow.Data.Search
import HeapFlow.Ir.Program
import HeapFlow.Json.Printer
/-!
# HeapFlow.Hierarchy

**The class hierarchy of a program.** Superclass and interface edges can be followed upwards
(`parents`) and downwards (`children`); subtyping is the closure of either. `dispatch?` selects the
method that runs when an object of a class receives a call.
-/

namespace HeapFlow

namespace Program

/-! ### Direct relations -/

/-- The classes whose superclass is `c`, in the order of declaration. -/
def subclasses (p : Program) (c : ClassRef) : List ClassRef :=
  (p.classes.filter fun d => d.super? = some c).map Class.ref

/-- One occurrence of `d` for each time that it names `c` among its interfaces. -/
def occurrences (c : ClassRef) (d : Class) : List ClassRef :=
  (d.interfaces.filter (· = c)).map fun _ => d.ref

/-- The interfaces that extend the interface `c`. -/
def subinterfaces (p : Program) (c : ClassRef) : List ClassRef :=
  (p.classes.filter Class.isInterface).flatMap (occurrences c)

/-- The classes that implement the interface `c`. -/
def implementors (p : Program) (c : ClassRef) : List ClassRef :=
  (p.classes.filter fun d => !d.isInterface).flatMap (occurrences c)

/-- The types directly above a class. -/
def parents (p : Program) (c : ClassRef) : List ClassRef :=
  match p.class? c with
  | some d => d.super?.toList ++ d.interfaces
  | none => []

/-- The types directly below a class. -/
def children (p : Program) (c : ClassRef) : List ClassRef :=
  p.subclasses c ++ p.subinterfaces c ++ p.implementors c

/-! ### Subtypes -/

/-- The references of the classes of a program. -/
def refs (p : Program) : List ClassRef := p.classes.map Class.ref

/-- Whether objects of `sub` are objects of `c`: a search upwards from `sub` comes upon `c`. -/
def isSubtype (p : Program) (c sub : ClassRef) : Bool :=
  Search.finds p.parents .newest p.refs [sub] c

/-- The class and everything below it. -/
def subtypes (p : Program) (c : ClassRef) : OrderedSet ClassRef :=
  Search.sweep p.children .newest p.refs [c]

/-! ### Dispatch -/

/-- The method with that subsignature that a class itself implements. -/
def implementation? (p : Program) (subsignature : String) (c : ClassRef) : Option MethodId := do
  let d ← p.class? c
  let m ← d.method? subsignature
  if m.isAbstract then none else some m.id

/-- The method that a call with that subsignature runs on an object of class `c`: the nearest
implementation from `c` upwards. -/
def dispatch? (p : Program) (c : ClassRef) (subsignature : String) : Option MethodId :=
  (p.superChain c).findSome? (p.implementation? subsignature)

/-- A selected method is in a class of the program, has the subsignature and is not abstract. -/
theorem exists_of_dispatch? {p : Program} {c : ClassRef} {subsignature : String} {id : MethodId}
    (h : p.dispatch? c subsignature = some id) : ∃ d ∈ p.classes, ∃ m ∈ d.methods,
      m.id = id ∧ m.subsignature = subsignature ∧ m.isAbstract = false := by
  obtain ⟨c', -, himplementation⟩ := List.exists_of_findSome?_eq_some h
  obtain ⟨d, hd, himplementation⟩ := Option.bind_eq_some_iff.1 himplementation
  obtain ⟨m, hm, himplementation⟩ := Option.bind_eq_some_iff.1 himplementation
  obtain ⟨hmem, hsubsignature⟩ := List.mem_filter.1 (List.mem_of_getLast? hm)
  refine ⟨d, List.mem_of_getElem? hd, m, hmem, ?_, eq_of_beq hsubsignature, ?_⟩
  · split at himplementation
    · cases himplementation
    · exact Option.some.inj himplementation
  · split at himplementation
    · cases himplementation
    · rename_i habstract
      simpa using habstract

/-! ### Printing -/

/-- The description of one class. -/
def classJson (p : Program) (c : Class) : String :=
  let names (cs : List ClassRef) := Json.Printer.strings 2 (cs.map ClassRef.name)
  let super := c.super?.toList.map fun s => ("super", Json.Printer.quoted s.name)
  Json.Printer.object 1 <|
    [("interface", Json.Printer.bool c.isInterface), ("abstract", Json.Printer.bool c.isAbstract)] ++
    super ++ [("interfaces", names c.interfaces), ("subtypes", names (p.children c.ref))]

/-- The hierarchy as a JSON document, one member for each class. -/
def hierarchyJson (p : Program) : String :=
  Json.Printer.object 0 (p.classes.map fun c => (c.name, p.classJson c)) ++ "\n"

end Program

end HeapFlow
