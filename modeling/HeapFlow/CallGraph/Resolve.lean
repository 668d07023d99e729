import HeapFlow.CallGraph.Basic
import HeapFlow.Hierarchy
/-!
# HeapFlow.CallGraph.Resolve

**Which methods a call may run.** Static and special calls are dispatched on the class that they
name, and dynamic calls are not resolved. Virtual and interface calls depend on the receiver: class
hierarchy analysis takes every subtype of its declared class into account, while a known receiver
object selects one method by its own class.
-/

namespace HeapFlow

namespace Program

/-- The method selected from the class named at the call. -/
def resolveDirect (p : Program) (call : Call) : Option MethodId :=
  call.cls >>= fun c => p.dispatch? c call.subsignature

/-! ### By class hierarchy -/

/-- The types below `c` in the order in which they are searched: below an interface the interfaces
that extend it and then the classes that implement it, below a class its subclasses. -/
def searchChildren (p : Program) (c : ClassRef) : List ClassRef :=
  if ((p.class? c).map Class.isInterface).getD false then p.subinterfaces c ++ p.implementors c
  else p.subclasses c

/-- The targets of a call on any object whose class is `root` or below it, each once. -/
def resolveBelow (p : Program) (root : ClassRef) (subsignature : String) : List MethodId :=
  let classes := Search.sweep p.searchChildren .oldest p.refs [root]
  (OrderedSet.ofList (classes.toList.filterMap (p.dispatch? · subsignature))).toList

/-- The targets of a call by class hierarchy analysis. A receiver class, if it is known, stands in
for the class named at the call. -/
def resolveByHierarchy (p : Program) (receiver : Option ClassRef) (call : Call) : List MethodId :=
  match call.kind with
  | .static | .special => (p.resolveDirect call).toList
  | .dynamic => []
  | .virtual | .interface =>
    match receiver.or call.cls with
    | some root => p.resolveBelow root call.subsignature
    | none => []

/-! ### By receiver object -/

/-- The target of a call on an object of class `receiver`; an array has no class. -/
def resolveByReceiver (p : Program) (receiver : Option ClassRef) (call : Call) :
    Option MethodId :=
  match call.kind with
  | .static | .special => p.resolveDirect call
  | .dynamic => none
  | .virtual | .interface => receiver >>= fun c => p.dispatch? c call.subsignature

/-! ### Targets -/

/-- A target is selected from some class by the subsignature at the call. -/
theorem exists_of_resolveDirect {p : Program} {call : Call} {id : MethodId}
    (h : p.resolveDirect call = some id) : ∃ c, p.dispatch? c call.subsignature = some id := by
  obtain ⟨c, -, hdispatch⟩ := Option.bind_eq_some_iff.1 h
  exact ⟨c, hdispatch⟩

theorem exists_of_resolveByReceiver {p : Program} {receiver : Option ClassRef} {call : Call}
    {id : MethodId} (h : p.resolveByReceiver receiver call = some id) :
    ∃ c, p.dispatch? c call.subsignature = some id := by
  unfold resolveByReceiver at h
  split at h
  · exact exists_of_resolveDirect h
  · exact exists_of_resolveDirect h
  · cases h
  · obtain ⟨c, -, hdispatch⟩ := Option.bind_eq_some_iff.1 h
    exact ⟨c, hdispatch⟩
  · obtain ⟨c, -, hdispatch⟩ := Option.bind_eq_some_iff.1 h
    exact ⟨c, hdispatch⟩

end Program

end HeapFlow
