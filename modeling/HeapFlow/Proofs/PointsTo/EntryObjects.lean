import HeapFlow.Proofs.PointsTo.Exploration
/-!
# HeapFlow.Proofs.PointsTo.EntryObjects

**The mock object of an entry receiver does not depend on when it is asked for.** The heap gives the
mock object of a description to everyone who asks, and the first request decides what it is. Entry
methods ask in order, so the object that a receiver gets is the `entryObject` of the rules, which
looks at the program alone. The invariant (`Entered`) splits the entry methods into those that have
asked and those whose task is still on the stack.
-/

namespace HeapFlow

namespace PointsTo

variable {p : Program} {policy : Policy} {heap : Heap}

/-! ### Mock objects among entry methods -/

section Mock

variable (p heap) (entries : List MethodId) (description : String)

theorem entryDescribed?_append (id : MethodId) :
    entryDescribed? p (entries ++ [id]) description =
      (entryDescribed? p entries description).or (entryDescribed? p [id] description) :=
  List.find?_append

/-- Once a description has an object, later entry methods do not change it. -/
theorem mockAmong?_append {o : Obj} (more : List MethodId)
    (h : mockAmong? p heap entries description = some o) :
    mockAmong? p heap (entries ++ more) description = some o := by
  rw [mockAmong?] at h ⊢
  cases hfind : heap.objects.toList.find? (Obj.isMock description) with
  | some o' =>
    rw [hfind] at h
    exact h
  | none =>
    rw [hfind] at h
    rw [Option.none_or] at h ⊢
    obtain ⟨e, he, rfl⟩ := Option.map_eq_some_iff.1 h
    have happ : entryDescribed? p (entries ++ more) description = some e := by
      rw [entryDescribed?] at he ⊢
      rw [List.find?_append, he]
      rfl
    rw [happ]
    rfl

/-- The first entry method with a description decides its object. -/
theorem mockAmong?_append_self {id : MethodId} {this : Var} (hthis : receiverOf? p id = some this)
    (rest : List MethodId) (h : mockAmong? p heap entries (entryDescription p id) = none) :
    mockAmong? p heap (entries ++ id :: rest) (entryDescription p id) =
      some (.mock (entryDescription p id) (.cls id.owner) id) := by
  rw [mockAmong?, Option.or_eq_none_iff, Option.map_eq_none_iff] at h
  obtain ⟨hfind, hentry⟩ := h
  have happ : entryDescribed? p (entries ++ id :: rest) (entryDescription p id) = some id := by
    rw [entryDescribed?] at hentry ⊢
    rw [List.find?_append, hentry, Option.none_or]
    exact List.find?_cons_of_pos (by simp [hthis])
  rw [mockAmong?, hfind, happ]
  rfl

end Mock

/-- The mock objects of a heap are those of some entry methods and of the heap from before. -/
def MocksOf (p : Program) (heap : Heap) (entries : List MethodId) (h : Heap) : Prop :=
  ∀ d, h.objects.toList.find? (Obj.isMock d) = mockAmong? p heap entries d

theorem mocksOf_nil : MocksOf p heap [] heap := by
  intro d
  rw [mockAmong?]
  exact Option.or_none.symm

/-- The object that an entry method gets is the one of the rules. -/
theorem mock_eq_entryObject {done rest : List MethodId} {id : MethodId} {h : Heap}
    (hmocks : MocksOf p heap done h) (hentries : p.entries = done ++ id :: rest) {this : Var}
    (hthis : receiverOf? p id = some this) :
    (h.mock (entryDescription p id) (.cls id.owner) id).1 = entryObject p heap id := by
  rw [Heap.mock, hmocks, entryObject, hentries]
  cases hmock : mockAmong? p heap done (entryDescription p id) with
  | some o => rw [mockAmong?_append p heap done _ _ hmock]; rfl
  | none => rw [mockAmong?_append_self p heap done hthis rest hmock]; rfl

/-- Allocation sites are no mock objects. -/
theorem find?_isMock_alloc (h : Heap) (site : Site) (ty : Ty) (d : String) :
    (h.alloc site ty).2.objects.toList.find? (Obj.isMock d) =
      h.objects.toList.find? (Obj.isMock d) := by
  show (h.objects.insert (.alloc site ty)).toList.find? _ = _
  rw [OrderedSet.toList_insert]
  split
  · rfl
  · rw [List.find?_append]
    exact Option.or_none

/-- The heap after an instance entry method has asked for its object. -/
theorem MocksOf.mock {done : List MethodId} {id : MethodId} {h : Heap} {this : Var}
    (hmocks : MocksOf p heap done h) (hthis : receiverOf? p id = some this) :
    MocksOf p heap (done ++ [id]) (h.mock (entryDescription p id) (.cls id.owner) id).2 := by
  intro d
  rw [Heap.mock, hmocks]
  cases hmock : mockAmong? p heap done (entryDescription p id) with
  | some o =>
    -- an object with the description is there, and the heap stays the same
    show h.objects.toList.find? _ = _
    rw [hmocks d]
    by_cases hd : entryDescription p id = d
    · subst hd
      rw [hmock, mockAmong?_append p heap done _ _ hmock]
    · have hnone : entryDescribed? p [id] d = none := by simp [entryDescribed?, hd]
      rw [mockAmong?, mockAmong?, entryDescribed?_append, hnone, Option.or_none]
  | none =>
    -- the new object comes last, so it is found under its own description only
    have hnew : Obj.mock (entryDescription p id) (.cls id.owner) id ∉ h.objects := by
      intro hmem
      have hfound := List.find?_eq_none.1 ((hmocks _).trans hmock) _ hmem
      exact hfound (beq_self_eq_true _)
    show (h.objects.insert _).toList.find? _ = _
    rw [OrderedSet.toList_insert, if_neg hnew, List.find?_append, hmocks d]
    by_cases hd : entryDescription p id = d
    · subst hd
      rw [hmock, mockAmong?_append_self p heap done hthis [] hmock, Option.none_or]
      exact List.find?_cons_of_pos (beq_self_eq_true _)
    · have hnone : entryDescribed? p [id] d = none := by simp [entryDescribed?, hd]
      have hother : [Obj.mock (entryDescription p id) (.cls id.owner) id].find? (Obj.isMock d) =
          none := by
        simp [Obj.isMock, hd]
      rw [hother, Option.or_none, mockAmong?, mockAmong?, entryDescribed?_append, hnone,
        Option.or_none]

/-- A static entry method asks for no object. -/
theorem MocksOf.static {done : List MethodId} {id : MethodId} {h : Heap}
    (hmocks : MocksOf p heap done h) (hthis : receiverOf? p id = none) :
    MocksOf p heap (done ++ [id]) h := by
  intro d
  have hnone : entryDescribed? p [id] d = none := by simp [entryDescribed?, hthis]
  rw [hmocks d, mockAmong?, mockAmong?, entryDescribed?_append, hnone, Option.or_none]

/-! ### What tasks do to the mock objects -/

section Step

variable {s s' : State} {t : Task} {more : List Task}

/-- A task other than the one that asks for an object leaves the pending entry methods as they are:
either it stands for none, or it is followed by one that does. -/
theorem Performs.pendingEntries (h : Performs p policy s t s' more)
    (hne : ∀ m, t ≠ .entryReceiver m) :
    PointsTo.pendingEntries more = PointsTo.pendingEntries [t] := by
  cases h with
  | staticEntry | instanceEntry => exact absurd rfl (hne _)
  | enter =>
    refine pendingEntries_eq_nil ?_
    intro t ht
    obtain ⟨i, stmt, -, rfl⟩ := mem_visits.1 ht
    exact ⟨fun _ => Task.noConfusion, fun _ => Task.noConfusion⟩
  | reach =>
    refine pendingEntries_eq_nil ?_
    intro t ht
    obtain ⟨i, result, call, -, -, rfl⟩ := mem_receives.1 ht
    exact ⟨fun _ => Task.noConfusion, fun _ => Task.noConfusion⟩
  | _ => rfl

/-- The heap has the objects of allocation sites and of entry receivers only. -/
theorem Performs.mocks (h : Performs p policy s t s' more) (hne : ∀ m, t ≠ .entryReceiver m)
    (d : String) : s'.heap.objects.toList.find? (Obj.isMock d) =
      s.heap.objects.toList.find? (Obj.isMock d) := by
  cases h with
  | staticEntry | instanceEntry => exact absurd rfl (hne _)
  | allocation m i lhs what => exact find?_isMock_alloc _ _ _ _
  | flow => rw [State.heap_addFlows]
  | reach => rw [State.heap_addFlows]
  | passResult =>
    rw [State.heap_addFlows]
    rfl
  | passAll => rw [State.heap_addFlows, State.heap_addFlows]
  | _ => rfl

end Step

/-! ### The invariant -/

/-- The entry methods that are no longer pending have asked for their objects. -/
def Entered (p : Program) (heap : Heap) (c : Config) : Prop :=
  ∃ done, p.entries = done ++ pendingEntries c.tasks ∧ MocksOf p heap done c.state.heap

theorem entered_init (contexts : Contexts) : Entered p heap (init p heap contexts) := by
  refine ⟨[], ?_, mocksOf_nil⟩
  have hpending (ids : List MethodId) : pendingEntries (ids.map .start) = ids := by
    rw [pendingEntries, List.filterMap_map]
    exact List.filterMap_some
  exact (hpending p.entries).symm

/-- The object that an entry receiver is about to get. -/
theorem Entered.mock_eq {s : State} {before after : List Task} {id : MethodId} {this : Var}
    (h : Entered p heap ⟨s, before ++ .entryReceiver id :: after⟩)
    (horder : PointsTo.pendingEntries before = []) (hthis : receiverOf? p id = some this) :
    (s.heap.mock (entryDescription p id) (.cls id.owner) id).1 = entryObject p heap id := by
  obtain ⟨done, hentries, hmocks⟩ := h
  rw [pendingEntries_append, horder] at hentries
  exact mock_eq_entryObject hmocks hentries hthis

theorem Entered.perform {s s' : State} {t : Task} {before after more : List Task}
    (h : Entered p heap ⟨s, before ++ t :: after⟩) (hstep : Performs p policy s t s' more)
    (horder : ∀ id, t = .entryReceiver id → PointsTo.pendingEntries before = []) :
    Entered p heap ⟨s', before ++ more ++ after⟩ := by
  obtain ⟨done, hentries, hmocks⟩ := h
  by_cases ht : ∃ id, t = .entryReceiver id
  · obtain ⟨id, rfl⟩ := ht
    have hnone := horder id rfl
    have hentries : p.entries = done ++ [id] ++ pendingEntries (before ++ after) := by
      rw [hentries, pendingEntries_append, pendingEntries_append, hnone, List.append_assoc]
      rfl
    cases hstep with
    | staticEntry hthis =>
      exact ⟨done ++ [id], by rwa [List.append_nil], hmocks.static hthis⟩
    | instanceEntry hthis hmock =>
      refine ⟨done ++ [id], by rwa [List.append_nil], ?_⟩
      have hmocks := hmocks.mock hthis
      rw [hmock] at hmocks
      exact hmocks
  · have hne : ∀ id, t ≠ .entryReceiver id := fun id heq => ht ⟨id, heq⟩
    refine ⟨done, ?_, fun d => (hstep.mocks hne d).trans (hmocks d)⟩
    rw [hentries]
    show done ++ pendingEntries (before ++ ([t] ++ after)) =
      done ++ pendingEntries (before ++ more ++ after)
    simp only [pendingEntries_append, hstep.pendingEntries hne, List.append_assoc]

/-- Arrivals ask for nothing. -/
theorem Entered.absorb {s : State} {tasks : List Task} (h : Entered p heap ⟨s, tasks⟩)
    {ptr : Pointer} {objs : List CObj} (queue : Queue (Pointer × List CObj))
    (fresh : List CObj) :
    Entered p heap ⟨((s.withQueue queue).absorb ptr objs).2, reachTasks ptr fresh ++ tasks⟩ := by
  obtain ⟨done, hentries, hmocks⟩ := h
  have hnil : pendingEntries (reachTasks ptr fresh) = [] := by
    refine pendingEntries_eq_nil ?_
    intro t ht
    obtain ⟨v, -, o, -, rfl⟩ := mem_reachTasks.1 ht
    exact ⟨fun _ => Task.noConfusion, fun _ => Task.noConfusion⟩
  refine ⟨done, ?_, ?_⟩
  · rw [pendingEntries_append, hnil]
    exact hentries
  · show MocksOf p heap done ((s.withQueue queue).absorb ptr objs).2.heap
    rw [State.heap_absorb]
    exact hmocks

theorem Entered.explore {c c' : Config} (h : Entered p heap c) (hstep : Explores p policy c c') :
    Entered p heap c' := by
  cases hstep with
  | perform hperform horder => exact h.perform (.of_perform hperform) horder
  | absorb => exact h.absorb _ _

end PointsTo

end HeapFlow
