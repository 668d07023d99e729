import HeapFlow.Proofs.Constants.Termination
/-!
# HeapFlow.Proofs.Constants.Divergence

**A program on which constant propagation never halts.** What a step does depends on the facts after
the points, the heap and the queue, so a run that comes back to the same ones goes round forever. Such
a run starts with a division whose divisor is first undefined and then zero. Its result is first
passed on as "not a constant" and then taken back, and in a loop that is long enough the two waves of
facts follow each other and never meet.
-/

namespace HeapFlow

namespace Constants

variable {c : Setting} {s s' t : InterState}

/-! ### Going round -/

/-- Two states agree in everything on which the next steps depend. -/
structure SameView (s t : InterState) : Prop where
  queue : s.queue = t.queue
  after : ∀ pt, s.found.factAfter pt = t.found.factAfter pt
  heap : ∀ slot, s.found.heap.get slot = t.found.heap.get slot

theorem SameView.trans {u : InterState} (h : SameView s t) (h' : SameView t u) : SameView s u :=
  ⟨h.queue.trans h'.queue, fun pt => (h.after pt).trans (h'.after pt),
    fun slot => (h.heap slot).trans (h'.heap slot)⟩

/-- Which loads are woken depends on the values of the slots only. -/
theorem awake_congr {v : Value} {h k : HeapStore} {slots : List Slot}
    (hget : ∀ slot, h.get slot = k.get slot) :
    (storeAll c v h slots).2 = (storeAll c v k slots).2 := by
  induction slots generalizing h k with
  | nil => rfl
  | cons first slots ih =>
    have hchanged : (h.meet first v).1 = (k.meet first v).1 := by
      rw [Bool.eq_iff_iff, HeapStore.meet_fst, HeapStore.meet_fst, hget]
    have hrest : (storeAll c v (h.meet first v).2 slots).2 =
        (storeAll c v (k.meet first v).2 slots).2 := by
      refine ih fun slot => ?_
      rw [HeapStore.get_meet, HeapStore.get_meet, hget]
    simp only [storeAll, hchanged, hrest]

/-- States that agree still agree after a step. -/
theorem SameView.step (h : SameView s t) (hstep : interStep c s = .next s') :
    ∃ t', interStep c t = .next t' ∧ SameView s' t' := by
  obtain ⟨pt, queue, hpop, rfl⟩ := interStep_eq_next.1 hstep
  have hpop' : t.queue.pop? = some (pt, queue) :=
    (congrArg Worklist.pop? h.queue).symm.trans hpop
  -- facts before points are computed anew, so they need not agree
  have hincoming : incomingFact c s.found pt = incomingFact c t.found pt :=
    incomingFact_congr fun e _ _ => h.after e.source
  have hafter : (effect c pt s.found.heap (incomingFact c s.found pt)).after =
      (effect c pt t.found.heap (incomingFact c t.found pt)).after := by
    rw [hincoming]
    exact after_congr fun lhs place _ slot _ => h.heap slot
  have hawake : (effect c pt s.found.heap (incomingFact c s.found pt)).awake =
      (effect c pt t.found.heap (incomingFact c t.found pt)).awake := by
    rw [hincoming, effect_awake, effect_awake]
    exact awake_congr h.heap
  refine ⟨compute c t.found queue pt, interStep_eq_next.2 ⟨pt, queue, hpop', rfl⟩, ?_, ?_, ?_⟩
  · rw [queue_compute, queue_compute, hafter, hawake, h.after pt]
  · intro n
    rw [factAfter_compute, factAfter_compute, hafter, h.after n]
  · intro slot
    rw [heap_compute, heap_compute, hincoming, effect_heap, effect_heap, get_storeAll,
      get_storeAll, h.heap slot]

/-- **A run that comes back to what it was never halts.** -/
theorem inter_eq_none_of_cycle {m n : Nat} (hs : stateAfter c m = some s)
    (ht : stateAfter c (m + (n + 1)) = some t) (hst : SameView s t) (fuel : Nat) :
    inter c fuel = none := by
  have hrefl (u : InterState) : SameView u u := ⟨rfl, fun _ => rfl, fun _ => rfl⟩
  exact Step.run_eq_none_of_cycle hrefl SameView.trans SameView.step hs ht hst fuel

/-! ### Comparing states by their listings -/

end Constants

/-- A number for each value. -/
def Value.code : Value → Nat
  | undefined => 0
  | nac => 1
  | const n => n.toBitVec.toNat + 2

theorem Value.code_injective : Function.Injective code := by
  intro x y h
  cases x <;> cases y <;> simp only [code] at h <;> first | rfl | omega | skip
  rename_i m n
  have hbits : m.toBitVec = n.toBitVec := BitVec.eq_of_toNat_eq (by omega)
  rw [Int32.toBitVec.inj hbits]

/-- The bindings of a fact, with numbers for the values. -/
def Fact.code (f : Fact) : List (Nat × Nat) := f.bindings.entries.map fun e => (e.1, e.2.code)

theorem map_injective_of_code {κ α β : Type} {code : α → β} (h : Function.Injective code) :
    Function.Injective (List.map fun e : κ × α => (e.1, code e.2)) := by
  refine List.map_injective_iff.2 fun e d hed => ?_
  obtain ⟨hkey, hcode⟩ := Prod.mk.inj hed
  exact Prod.ext hkey (h hcode)

theorem Fact.code_injective : Function.Injective Fact.code := by
  intro f g h
  have hentries : f.bindings.entries = g.bindings.entries :=
    map_injective_of_code Value.code_injective h
  obtain ⟨⟨es, _⟩, _⟩ := f
  obtain ⟨⟨ds, _⟩, _⟩ := g
  obtain rfl : es = ds := hentries
  rfl

/-- The entries of a table, with a code for what the keys have. -/
def Table.listing {κ α β : Type} [DecidableEq κ] [Keyed κ] (code : α → β) (t : Table κ α) :
    List (κ × β) := t.entries.map fun e => (e.1, code e.2)

/-- Tables with the same listing have the same view. -/
theorem Table.get?_eq_of_listing {κ α β : Type} [DecidableEq κ] [Keyed κ] {code : α → β}
    (hcode : Function.Injective code) {t u : Table κ α} (h : t.listing code = u.listing code)
    (k : κ) : t.get? k = u.get? k := by
  have hentries : t.entries = u.entries := map_injective_of_code hcode h
  refine Option.ext fun v => ?_
  rw [← mem_entries, ← mem_entries, hentries]

namespace Constants

/-- The queues and the listings of two states agree. -/
def SameListing (s t : InterState) : Prop :=
  s.queue.toList = t.queue.toList ∧
    s.found.after.listing Fact.code = t.found.after.listing Fact.code ∧
    s.found.heap.slots.listing Value.code = t.found.heap.slots.listing Value.code

instance (s t : InterState) : Decidable (SameListing s t) :=
  inferInstanceAs (Decidable (_ ∧ _ ∧ _))

theorem SameListing.sameView (h : SameListing s t) : SameView s t := by
  obtain ⟨hqueue, hafter, hheap⟩ := h
  refine ⟨?_, fun pt => ?_, fun slot => ?_⟩
  · cases hs : s.queue
    cases ht : t.queue
    rw [hs, ht] at hqueue
    cases hqueue
    rfl
  · rw [Inter.factAfter, Inter.factAfter, Table.getD, Table.getD,
      Table.get?_eq_of_listing Fact.code_injective hafter]
  · rw [HeapStore.get, HeapStore.get, Table.getD, Table.getD,
      Table.get?_eq_of_listing Value.code_injective hheap]

/-! ### Two waves in a loop -/

/-- A method with an integer parameter that it divides by a variable, which is undefined on one way to
the division and zero on the other. After the division comes a loop of five jumps. -/
def wavesDocument : Json.Value :=
  let int (name : String) : Json.Value := .obj [("name", .str name), ("type", .str "int")]
  let jump (label target : String) : Json.Value :=
    .obj [("label", .str label), ("op", .str "goto"), ("target", .str target)]
  let main : Json.Value := .obj [("name", .str "main"), ("static", .bool true),
    ("params", .arr [int "p"]), ("vars", .arr [int "y", int "d"]), ("body", .arr [
      .obj [("op", .str "if"), ("operator", .str "<"), ("x", .str "p"), ("y", .str "p"),
        ("target", .str "zero")],
      .obj [("label", .str "divide"), ("op", .str "binary"), ("operator", .str "/"),
        ("lhs", .str "y"), ("x", .str "p"), ("y", .str "d")],
      .obj [("op", .str "goto"), ("target", .str "1")],
      jump "5" "1", jump "4" "5", jump "3" "4", jump "2" "3", jump "1" "2",
      .obj [("label", .str "zero"), ("op", .str "const"), ("lhs", .str "d"),
        ("value", .num (.int 0))],
      .obj [("op", .str "goto"), ("target", .str "divide")],
      .obj [("op", .str "return")]])]
  .obj [("classes", .arr [.obj [("name", .str "Waves"), ("methods", .arr [main])]]),
    ("entry", .str "Waves.main")]

/-- **Constant propagation can run forever.** After 37 steps it is where it was after 27. -/
theorem wavesDocument_diverges : ∃ p ans, Document.ofJson wavesDocument = .ok p ∧
    PointsTo.solve p .insensitive 100 .empty .initial = some ans ∧ ans.failure = none ∧
    ∀ fuel, inter (settingOf p ans.state.found) fuel = none := by
  have hp : Document.ofJson wavesDocument = .ok (.described wavesDocument) :=
    ofJson_eq_described (by decide +kernel)
  have hrun : (PointsTo.solve (.described wavesDocument) .insensitive 100 .empty .initial).map
      (fun ans => (ans.failure,
        (stateAfter (settingOf (.described wavesDocument) ans.state.found) 27).any fun s =>
          (stateAfter (settingOf (.described wavesDocument) ans.state.found) (27 + 10)).any fun t =>
            decide (SameListing s t))) = some (none, true) := by
    decide +kernel
  obtain ⟨ans, hans, hresult⟩ := Option.map_eq_some_iff.1 hrun
  obtain ⟨hok, hcycle⟩ := Prod.mk.inj hresult
  obtain ⟨s, hs, hcycle⟩ := (Option.any_eq_true _ _).1 hcycle
  obtain ⟨t, ht, hcycle⟩ := (Option.any_eq_true _ _).1 hcycle
  have hview : SameView s t := (of_decide_eq_true hcycle).sameView
  exact ⟨_, ans, hp, hans, hok, inter_eq_none_of_cycle hs ht hview⟩

end Constants

end HeapFlow
