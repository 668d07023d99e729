import HeapFlow.Proofs.Ir.Labels
import Mathlib.Data.List.Nodup
import Mathlib.Data.List.Sort
/-!
# HeapFlow.Proofs.Ir.Recorded

**What is recorded for a method is what its body says** (`Program.Loaded.recorded`). An operation that
emits a statement notes down its index at the variable that the statement dereferences, or the variable
that it returns. Nothing else writes to the records, and what comes later changes the targets of jumps only.
So the records and the body agree at every moment, whatever is asked of a draft, and they still do when
the draft is finished.

It follows which statements are recorded for a variable (`Method.Recorded.indexed`).
-/

namespace HeapFlow

/-! ### What one statement uses -/

namespace Stmt

/-- A statement dereferences a variable in some way. -/
def Uses (s : Stmt) (v : Var) : Usage → Prop
  | .storeField => ∃ f source, s = store (.field v f) source
  | .loadField => ∃ f lhs, s = assign lhs (.load (.field v f))
  | .storeArray => ∃ source index, s = store (.element v index) source
  | .loadArray => ∃ lhs index, s = assign lhs (.load (.element v index))
  | .invoke => ∃ call result, s = invoke result call ∧ call.receiver = some v

/-- The variable that a statement dereferences, and how. -/
def usage? : Stmt → Option (Var × Usage)
  | assign _ (.load (.field base _)) => some (base, .loadField)
  | store (.field base _) _ => some (base, .storeField)
  | assign _ (.load (.element array _)) => some (array, .loadArray)
  | store (.element array _) _ => some (array, .storeArray)
  | invoke _ call => call.receiver.map (·, .invoke)
  | _ => none

/-- The variable that a statement returns. -/
def returned? : Stmt → Option Var
  | ret value => value
  | _ => none

variable {s : Stmt} {v : Var} {u : Usage}

theorem usage?_eq_some_iff : s.usage? = some (v, u) ↔ s.Uses v u := by
  cases s with
  | store place source => cases place <;> cases u <;> simp [usage?, Uses]
  | assign lhs rhs =>
    cases rhs with
    | load place => cases place <;> cases u <;> simp [usage?, Uses]
    | _ => cases u <;> simp [usage?, Uses]
  | invoke result call => cases u <;> simp [usage?, Uses]
  | _ => cases u <;> simp [usage?, Uses]

/-- The targets of jumps are no part of what a statement uses. -/
theorem usage?_unresolved (s : Stmt) : s.unresolved.usage? = s.usage? := by cases s <;> rfl

theorem returned?_unresolved (s : Stmt) : s.unresolved.returned? = s.returned? := by
  cases s <;> rfl

end Stmt

/-! ### What a body uses -/

/-- The indexes of the statements that dereference a variable in some way. -/
def usesIn (body : List Stmt) (v : Var) (u : Usage) : List Nat :=
  body.zipIdx.filterMap fun (s, i) => if s.usage? = some (v, u) then some i else none

/-- What a test finds is in the order of the list, if it tells where it was found. -/
theorem pairwise_filterMap_zipIdx {α β : Type} {f : α × Nat → Option β} {place : β → Nat}
    (hplace : ∀ x i y, f (x, i) = some y → place y = i) (xs : List α) :
    (xs.zipIdx.filterMap f).Pairwise fun y z => place y < place z := by
  have hindexes : (xs.zipIdx.map Prod.snd).Pairwise (· < ·) := by
    rw [List.zipIdx_map_snd]
    exact List.pairwise_lt_range'
  refine (List.pairwise_map.1 hindexes).filterMap f ?_
  rintro ⟨x, i⟩ ⟨x', j⟩ hlt y hy z hz
  rwa [hplace x i y hy, hplace x' j z hz]

section Uses

variable {body : List Stmt} {v : Var} {u : Usage} {i : Nat}

theorem mem_usesIn : i ∈ usesIn body v u ↔ ∃ s, body[i]? = some s ∧ s.Uses v u := by
  simp only [usesIn, List.mem_filterMap, Prod.exists, List.mem_zipIdx_iff_getElem?,
    Option.ite_none_right_eq_some, Option.some_inj, Stmt.usage?_eq_some_iff]
  constructor
  · rintro ⟨s, j, hs, hu, rfl⟩
    exact ⟨s, hs, hu⟩
  · rintro ⟨s, hs, hu⟩
    exact ⟨s, i, hs, hu, rfl⟩

/-- The indexes are in the order of the body. -/
theorem pairwise_usesIn (body : List Stmt) (v : Var) (u : Usage) :
    (usesIn body v u).Pairwise (· < ·) := by
  have hplace (s : Stmt) (i j : Nat)
      (h : (if s.usage? = some (v, u) then some i else none) = some j) : id j = i :=
    (Option.some.inj (Option.ite_none_right_eq_some.1 h).2).symm
  exact pairwise_filterMap_zipIdx hplace body

theorem usesIn_concat (body : List Stmt) (s : Stmt) : usesIn (body ++ [s]) v u =
    usesIn body v u ++ if s.usage? = some (v, u) then [body.length] else [] := by
  rw [usesIn, List.zipIdx_append, List.filterMap_append, usesIn]
  congr 1
  split <;> simp [*]

/-- Bodies that agree but for the targets of jumps use the same. -/
theorem usesIn_congr {body' : List Stmt} (h : body.map Stmt.unresolved = body'.map Stmt.unresolved) :
    usesIn body v u = usesIn body' v u := by
  have hunresolved (body : List Stmt) : usesIn (body.map Stmt.unresolved) v u = usesIn body v u := by
    simp [usesIn, List.zipIdx_map, List.filterMap_map, Stmt.usage?_unresolved]
  rw [← hunresolved body, h, hunresolved]

end Uses

/-! ### Notes and readings -/

namespace Records

variable {r : Records} {v w : Var} {u : Usage}

theorem usesOf_use {t : Usage} (r : Records) (i : Nat) : (r.use w t i).usesOf v u =
    if (w, t) = (v, u) then r.usesOf v u ++ [i] else r.usesOf v u := by
  rw [usesOf, use, Index.get?_set]
  split
  · rename_i heq
    cases heq
    rfl
  · rfl

/-- An operation notes down the statement at the variable that it dereferences, or the variable that it
returns, or nothing. -/
theorem enter_eq (r : Records) (i : Nat) (s : Stmt) : r.enter i s =
    match s.usage? with
    | some (v, u) => r.use v u i
    | none => { r with returned := r.returned.insertAll s.returned?.toList } := by
  cases s with
  | store place source => cases place <;> rfl
  | assign lhs rhs =>
    cases rhs with
    | load place => cases place <;> rfl
    | _ => rfl
  | invoke result call =>
    obtain ⟨kind, owner, method, receiver, args⟩ := call
    cases receiver <;> rfl
  | ret value => cases value <;> rfl
  | _ => rfl

theorem usesOf_enter (r : Records) (i : Nat) (s : Stmt) : (r.enter i s).usesOf v u =
    r.usesOf v u ++ if s.usage? = some (v, u) then [i] else [] := by
  rw [enter_eq]
  cases s.usage? with
  | none =>
    rw [if_neg nofun, List.append_nil]
    rfl
  | some x =>
    obtain ⟨w, t⟩ := x
    simp only [usesOf_use, Option.some_inj]
    split
    · rfl
    · rw [List.append_nil]

theorem returned_enter (r : Records) (i : Nat) (s : Stmt) :
    (r.enter i s).returned = r.returned.insertAll s.returned?.toList := by
  rw [enter_eq]
  cases husage : s.usage? with
  | none => rfl
  | some x =>
    -- what dereferences a variable returns none
    have hreturned : s.returned? = none := by
      cases s with
      | ret => cases husage
      | _ => rfl
    rw [hreturned]
    rfl

end Records

namespace Method

variable {m : Method} {v : Var} {u : Usage}

/-- The statements that dereference a variable, as they are read off the body. -/
def readUses (m : Method) (v : Var) : Usage → List Nat
  | .storeField => (m.fieldStores v).map Prod.fst
  | .loadField => (m.fieldLoads v).map Prod.fst
  | .storeArray => (m.arrayStores v).map Prod.fst
  | .loadArray => (m.arrayLoads v).map Prod.fst
  | .invoke => (m.receiverCalls v).map Prod.fst

theorem mem_readUses {i : Nat} :
    i ∈ m.readUses v u ↔ ∃ s, m.stmts[i]? = some s ∧ s.Uses v u := by
  cases u <;>
    simp [readUses, Stmt.Uses, mem_fieldStores, mem_fieldLoads, mem_arrayStores, mem_arrayLoads,
      mem_receiverCalls, stmt?_eq, ← exists_and_right]

/-- What a test finds is in the order of the body. -/
theorem pairwise_select {α : Type} (m : Method) (f : Stmt → Option α) :
    ((m.select f).map Prod.fst).Pairwise (· < ·) := by
  have hplace (s : Stmt) (i : Nat) (y : Nat × α) (h : (f s).map (i, ·) = some y) : y.1 = i := by
    obtain ⟨x, -, rfl⟩ := Option.map_eq_some_iff.1 h
    rfl
  exact List.pairwise_map.2 (pairwise_filterMap_zipIdx hplace m.stmts)

/-- Reading off the body gives the uses in the order of the body. -/
theorem readUses_eq (m : Method) (v : Var) (u : Usage) : m.readUses v u = usesIn m.stmts v u := by
  have hordered : (m.readUses v u).Pairwise (· < ·) := by cases u <;> exact m.pairwise_select _
  exact hordered.eq_of_mem_iff (pairwise_usesIn ..) fun i => mem_readUses.trans mem_usesIn.symm

theorem returnVars_eq (m : Method) :
    m.returnVars = OrderedSet.ofList (m.stmts.filterMap Stmt.returned?) := by
  rw [returnVars]
  congr 2

/-- What was noted down is what the body says. -/
structure Recorded (m : Method) : Prop where
  uses : ∀ v u, m.usesOf v u = m.readUses v u
  returned : m.records.returned = m.returnVars

theorem recorded_iff : m.Recorded ↔ (∀ v u, m.usesOf v u = usesIn m.stmts v u) ∧
    m.records.returned = OrderedSet.ofList (m.stmts.filterMap Stmt.returned?) := by
  simp only [← readUses_eq, ← returnVars_eq]
  exact ⟨fun h => ⟨h.uses, h.returned⟩, fun h => ⟨h.1, h.2⟩⟩

/-- The targets of jumps, the variables and the graph do not matter. -/
theorem Recorded.congr {m' : Method} (h : m.Recorded) (hrecords : m'.records = m.records)
    (hstmts : m'.stmts.map Stmt.unresolved = m.stmts.map Stmt.unresolved) : m'.Recorded := by
  obtain ⟨huses, hreturned⟩ := recorded_iff.1 h
  have hread (body : List Stmt) :
      (body.map Stmt.unresolved).filterMap Stmt.returned? = body.filterMap Stmt.returned? := by
    simp [List.filterMap_map, Stmt.returned?_unresolved]
  refine recorded_iff.2 ⟨fun v u => ?_, ?_⟩
  · rw [usesIn_congr hstmts, ← huses, usesOf, hrecords, usesOf]
  · rw [hrecords, hreturned, ← hread m'.stmts, hstmts, hread]

theorem recorded_declare : HoldsDeclared Recorded := by
  intro id name params returnType isStatic isAbstract
  have hnothing (v : Var) (u : Usage) : Records.empty.usesOf v u = [] :=
    congrArg (Option.getD · []) (Index.get?_empty (v, u))
  exact recorded_iff.2 ⟨hnothing, rfl⟩

end Method

/-! ### Operations on a draft -/

namespace Draft

variable {d : Draft}

/-- **A statement that is appended is noted down.** -/
theorem recorded_emit (h : d.method.Recorded) (s : Stmt) : (d.emit s).method.Recorded := by
  obtain ⟨huses, hreturned⟩ := Method.recorded_iff.1 h
  have hrecords : (d.emit s).method.records = d.method.records.enter d.method.stmts.length s := by
    rw [Method.stmts, List.length_map]
    rfl
  refine Method.recorded_iff.2 ⟨fun v u => ?_, ?_⟩
  · rw [Method.usesOf, hrecords, Records.usesOf_enter, Document.stmts_emit, usesIn_concat, ← huses]
    rfl
  · have hlast : [s].filterMap Stmt.returned? = s.returned?.toList := by
      cases hs : s.returned? <;> simp [hs]
    rw [hrecords, Records.returned_enter, hreturned, Document.stmts_emit, List.filterMap_append, hlast]
    exact List.foldl_append.symm

theorem recorded_closeLabels (h : d.method.Recorded) : d.closeLabels.method.Recorded :=
  closeLabels_of_emit (P := fun d => d.method.Recorded) h (recorded_emit h .nop)

theorem recorded_resolveJumps (h : d.method.Recorded) : d.resolveJumps.1.method.Recorded :=
  h.congr rfl d.unresolved_resolveJumps

/-- Finishing keeps what is recorded, whether or not it succeeds. -/
theorem recorded_finish (h : d.method.Recorded) : d.finish.1.method.Recorded := by
  have hresolved := recorded_resolveJumps (recorded_closeLabels h)
  obtain ⟨heq, -⟩ | ⟨l, -, heq⟩ | ⟨-, heq⟩ := d.finish_cases <;> rw [heq]
  · exact h
  · exact hresolved
  · exact hresolved.congr rfl rfl

/-- **Whatever is asked of a draft, what is recorded is what its body says.** -/
theorem recorded_performAll (h : d.method.Recorded) (actions : List Action) :
    (d.performAll actions).method.Recorded := by
  induction actions using List.reverseRecOn with
  | nil => exact h
  | append_singleton actions a ih =>
    rw [performAll, List.foldl_append]
    cases a with
    | stmt s => exact recorded_emit ih s
    | label | line | var => exact ih.congr rfl rfl

end Draft

/-! ### Methods that were read -/

namespace Document

variable {p : Program} {d d' : Draft}

theorem recorded_readVar {v : Json.Value} (hd : d.method.Recorded) (h : readVar p d v = .ok d') :
    d'.method.Recorded := by
  obtain ⟨name, ty, rfl⟩ := readVar_cases h
  exact hd.congr rfl rfl

theorem recorded_readLine {v : Json.Value} {index : Nat} (hd : d.method.Recorded)
    (h : readLine p d v index = .ok d') : d'.method.Recorded := by
  obtain ⟨o, s, line, -, -, rfl⟩ := readLine_cases h
  exact Draft.recorded_emit (d := (withLabel d o).atLine line) hd s

/-- **Reading a body keeps what is recorded in step with it.** -/
theorem recorded_readBody : ReadingGives Method.Recorded Method.Recorded := by
  intro p m decl m' hm h
  obtain ⟨d, hvars, hcases⟩ := readBody_cases h
  have hd : d.method.Recorded :=
    foldlM_invariant (fun d => d.method.Recorded) (fun _ _ _ => recorded_readVar) hm hvars
  obtain ⟨-, read, done, hread, hfinish, rfl⟩ | ⟨-, rfl⟩ := hcases
  · have hlines : read.method.Recorded :=
      readLines_invariant (fun d => d.method.Recorded) (fun _ _ _ _ => recorded_readLine) hd hread
    have hdone := Draft.recorded_finish hlines
    rwa [hfinish] at hdone
  · exact hd

end Document

/-- **What is recorded for a loaded method is what its body says.** -/
theorem Program.Loaded.recorded {p : Program} (h : p.Loaded) {id : MethodId} {m : Method}
    (hm : p.method? id = some m) : m.Recorded := by
  have hplaced : p.Placed Method.Recorded :=
    h.placed Method.recorded_declare Document.recorded_readBody fun _ h => h
  exact (hplaced.of_method? hm).2.2

/-! ### What is recorded for a variable -/

/-- The variable that an access goes through. -/
def Place.base? : Place → Option Var
  | field base _ => some base
  | static _ => none
  | element array _ => some array

/-- The variable that a statement dereferences: the base of an access or the receiver of a call. -/
def Stmt.dereferenced? : Stmt → Option Var
  | assign _ (.load place) | store place _ => place.base?
  | invoke _ call => call.receiver
  | _ => none

/-- The ways to dereference a variable. -/
def Usage.all : List Usage := [.storeField, .loadField, .storeArray, .loadArray, .invoke]

theorem Usage.mem_all (u : Usage) : u ∈ all := by cases u <;> decide

theorem Stmt.exists_uses_iff {s : Stmt} {v : Var} : (∃ u, s.Uses v u) ↔ s.dereferenced? = some v := by
  simp only [← usage?_eq_some_iff]
  cases s with
  | store place source => cases place <;> simp [usage?, dereferenced?, Place.base?]
  | assign lhs rhs =>
    cases rhs with
    | load place => cases place <;> simp [usage?, dereferenced?, Place.base?]
    | _ => simp [usage?, dereferenced?]
  | invoke result call => simp [usage?, dereferenced?]
  | _ => simp [usage?, dereferenced?]

namespace Method

/-- The indexes recorded for a variable, one list for each way to dereference it. -/
def usageIndexes (m : Method) (v : Var) : List (List Nat) := Usage.all.map (m.usesOf v)

/-- The statements recorded for a variable are those that dereference it, each in the list of its
kind and there once, in the order of the body. -/
structure Indexed (m : Method) (v : Var) : Prop where
  uses : ∀ u i, i ∈ m.usesOf v u ↔ ∃ s, m.stmts[i]? = some s ∧ s.Uses v u
  all : ∀ i, i ∈ (m.usageIndexes v).flatten ↔
    ∃ s, m.stmts[i]? = some s ∧ s.dereferenced? = some v
  ordered : ∀ is ∈ m.usageIndexes v, is.Pairwise (· < ·)
  once : (m.usageIndexes v).flatten.Nodup

/-- **The records list the statements that dereference a variable.** -/
theorem Recorded.indexed {m : Method} (h : m.Recorded) (v : Var) : m.Indexed v := by
  have huses (u : Usage) (i : Nat) : i ∈ m.usesOf v u ↔ ∃ s, m.stmts[i]? = some s ∧ s.Uses v u := by
    rw [h.uses, mem_readUses]
  have hordered : ∀ is ∈ m.usageIndexes v, is.Pairwise (· < ·) := by
    intro is his
    obtain ⟨u, -, rfl⟩ := List.mem_map.1 his
    rw [(recorded_iff.1 h).1]
    exact pairwise_usesIn ..
  refine ⟨huses, fun i => ?_, hordered, List.nodup_flatten.2 ⟨fun is his => ?_, ?_⟩⟩
  · simp only [usageIndexes, List.mem_flatten, List.mem_map, exists_exists_and_eq_and]
    constructor
    · rintro ⟨u, -, hi⟩
      obtain ⟨s, hs, hu⟩ := (huses u i).1 hi
      exact ⟨s, hs, Stmt.exists_uses_iff.1 ⟨u, hu⟩⟩
    · rintro ⟨s, hs, hv⟩
      obtain ⟨u, hu⟩ := Stmt.exists_uses_iff.2 hv
      exact ⟨u, u.mem_all, (huses u i).2 ⟨s, hs, hu⟩⟩
  · exact (hordered is his).imp Nat.ne_of_lt
  · -- no statement dereferences a variable in two ways
    have hnodup : Usage.all.Nodup := by decide
    refine List.pairwise_map.2 (hnodup.imp fun hne i hi hi' => hne ?_)
    obtain ⟨s, hs, hu⟩ := (huses _ i).1 hi
    obtain ⟨s', hs', hu'⟩ := (huses _ i).1 hi'
    obtain rfl := Option.some.inj (hs.symm.trans hs')
    have hsame := (Stmt.usage?_eq_some_iff.2 hu).symm.trans (Stmt.usage?_eq_some_iff.2 hu')
    exact (Prod.mk.inj (Option.some.inj hsame)).2

end Method

end HeapFlow
