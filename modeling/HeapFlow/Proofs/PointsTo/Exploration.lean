import HeapFlow.Proofs.PointsTo.Steps
/-!
# HeapFlow.Proofs.PointsTo.Exploration

**Points-to analysis in any order.** An exploration may perform any pending task and absorb any
arrival next, also while tasks are pending; the machine is one such exploration, which takes the
first task and, if there is none, the oldest arrival (`Explores.of_step`). Invariants are shown for
explorations, so none of them depends on the order in which methods and objects are discovered.

Only the receivers of entry methods wait for one another: the heap gives the mock object of a
description to everyone who asks, and what it is depends on who asks first.
-/

namespace HeapFlow

namespace PointsTo

variable (p : Program) (policy : Policy)

/-- The entry methods whose receiver has not asked for its object. -/
def pendingEntries (tasks : List Task) : List MethodId :=
  tasks.filterMap fun
    | .start m => some m
    | .entryReceiver m => some m
    | _ => none

theorem pendingEntries_append (ts us : List Task) :
    pendingEntries (ts ++ us) = pendingEntries ts ++ pendingEntries us :=
  List.filterMap_append

/-- No task of the list is about the start of an entry method. -/
theorem pendingEntries_eq_nil {ts : List Task}
    (h : ∀ t ∈ ts, (∀ m, t ≠ .start m) ∧ ∀ m, t ≠ .entryReceiver m) : pendingEntries ts = [] := by
  rw [pendingEntries, List.filterMap_eq_nil_iff]
  intro t ht
  cases t with
  | start m => exact absurd rfl ((h _ ht).1 m)
  | entryReceiver m => exact absurd rfl ((h _ ht).2 m)
  | _ => rfl

/-! ### Moves -/

/-- The tasks of arriving objects are about a variable. -/
theorem mem_reachTasks {ptr : Pointer} {objs : List CObj} {t : Task} :
    t ∈ reachTasks ptr objs ↔ ∃ v, ptr = .var v ∧ ∃ o ∈ objs, t = .reach v o := by
  cases ptr with
  | var v => simp [reachTasks, eq_comm]
  | _ => simp [reachTasks]

/-- One move in whatever order: some pending task is performed, or some arrival absorbed. -/
inductive Explores : Config → Config → Prop
  | perform {s s' : State} {t : Task} {before after more : List Task}
      (hperform : perform p policy s t = .ok (s', more))
      (horder : ∀ m, t = .entryReceiver m → pendingEntries before = []) :
      Explores ⟨s, before ++ t :: after⟩ ⟨s', before ++ more ++ after⟩
  | absorb {s : State} {ptr : Pointer} {objs : List CObj} {queue : Queue (Pointer × List CObj)}
      (tasks : List Task) (htakes : s.Takes ptr objs queue) :
      Explores ⟨s, tasks⟩ ⟨((s.withQueue queue).absorb ptr objs).2,
        reachTasks ptr ((s.withQueue queue).absorb ptr objs).1 ++ tasks⟩

variable {p policy}

/-- The machine takes the first task, or else the oldest arrival. -/
theorem Explores.of_step {c c' : Config} (h : step p policy c = .next c') :
    Explores p policy c c' := by
  obtain ⟨s, tasks⟩ := c
  cases tasks with
  | cons t tasks =>
    rw [step] at h
    dsimp only at h
    split at h
    · rename_i s' more hperform
      cases h
      have hmove : Explores p policy ⟨s, [] ++ t :: tasks⟩ ⟨s', [] ++ more ++ tasks⟩ :=
        perform hperform fun _ _ => rfl
      exact hmove
    · cases h
  | nil =>
    rw [step] at h
    dsimp only at h
    split at h
    · cases h
    · rename_i ptr objs queue hpop
      cases h
      have hmove : Explores p policy ⟨s, []⟩ _ := absorb [] (State.takes_of_pop? hpop)
      rwa [List.append_nil] at hmove

/-! ### The indexes of the call graph -/

theorem Performs.indexed {s s' : State} {t : Task} {more : List Task}
    (h : Performs p policy s t s' more) (hs : s.found.graph.Indexed) : s'.found.graph.Indexed := by
  have hsame (hgraph : s'.found.graph = s.found.graph) : s'.found.graph.Indexed := by rwa [hgraph]
  cases h with
  | start m => exact hs.addEntry _
  | enter => exact hs.addReachable _
  | call => exact hs.addEdge _
  | flow => exact hsame (State.graph_addFlows s _)
  | reach => exact hsame (State.graph_addFlows s _)
  | passResult => exact hsame (State.graph_addFlows _ _)
  | passAll => exact hsame ((State.graph_addFlows _ _).trans (State.graph_addFlows s _))
  | _ => exact hs

/-- **Every move keeps the indexes of the call graph in agreement.** -/
theorem Explores.indexed {c c' : Config} (h : Explores p policy c c')
    (hc : c.state.found.graph.Indexed) : c'.state.found.graph.Indexed := by
  cases h with
  | perform hperform => exact (Performs.of_perform hperform).indexed hc
  | absorb =>
    show ((State.withQueue _ _).absorb _ _).2.found.graph.Indexed
    rw [State.graph_absorb]
    exact hc

/-! ### Endings -/

variable (p policy) in
/-- An exploration may end where a pending task makes it give up, or where nothing is left to do. -/
inductive Ends (c : Config) : Option Failure → Prop
  | fails {t : Task} {f : Failure} (ht : t ∈ c.tasks)
      (herror : perform p policy c.state t = .error f) : Ends c (some f)
  | finishes (htasks : c.tasks = []) (hqueue : c.state.queue.toList = []) : Ends c none

/-- The machine halts at an ending, and keeps the state. -/
theorem Ends.of_step {c : Config} {ans : Answer} (h : step p policy c = .halt ans) :
    ans.state = c.state ∧ Ends p policy c ans.failure := by
  obtain ⟨s, tasks⟩ := c
  cases tasks with
  | cons t tasks =>
    rw [step] at h
    dsimp only at h
    split at h
    · cases h
    · rename_i f herror
      cases h
      exact ⟨rfl, .fails List.mem_cons_self herror⟩
  | nil =>
    rw [step] at h
    dsimp only at h
    split at h
    · rename_i hpop
      cases h
      exact ⟨rfl, .finishes rfl (Queue.pop?_eq_none.1 hpop)⟩
    · cases h

/-- A machine that halts keeps the state, and has nothing left to do unless it gives up. -/
theorem step_halt {c : Config} {ans : Answer} (h : step p policy c = .halt ans) :
    ans.state = c.state ∧
      (ans.failure = none → c.tasks = [] ∧ ans.state.queue.toList = []) := by
  obtain ⟨hstate, hends⟩ := Ends.of_step h
  refine ⟨hstate, fun hok => ?_⟩
  rw [hok] at hends
  cases hends with
  | finishes htasks hqueue => exact ⟨htasks, hstate ▸ hqueue⟩

/-- Where an exploration cannot go on, it has ended. -/
theorem exists_explores_or_ends (c : Config) :
    (∃ c', Explores p policy c c') ∨ ∃ failure, Ends p policy c failure := by
  cases h : step p policy c with
  | next c' => exact Or.inl ⟨c', .of_step h⟩
  | halt ans => exact Or.inr ⟨ans.failure, (Ends.of_step h).2⟩

end PointsTo

end HeapFlow
