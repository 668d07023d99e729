import HeapFlow.Proofs.Constants.Observed
/-!
# HeapFlow.Proofs.Constants.HeapWrites

**What is read from the heap is determined by what was written to it**
(`HeapStore.reads_determined_by_writes`). A read gives the meet of the values that were written to the
slots it sees, so neither the order of the writes nor writing twice makes a difference. A write tells of
a change exactly if it changed its slot, and one that tells of none left every read as it was.
-/

namespace HeapFlow

/-- The array of which a slot holds an element. -/
def Slot.array? : Slot → Option Obj
  | .element array _ => some array
  | _ => none

namespace HeapStore

variable {h : HeapStore} {writes : List (Slot × Value)} {slot : Slot} {v : Value}

/-- The heap after some writes, the first of the list made first. -/
def writeAll (h : HeapStore) (writes : List (Slot × Value)) : HeapStore :=
  writes.foldl (fun h w => (h.meet w.1 w.2).2) h

/-- The values that are written to the slots that pass a test, in the order of the writes. -/
def valuesAt (writes : List (Slot × Value)) (test : Slot → Prop) [DecidablePred test] : List Value :=
  (writes.filter fun w => test w.1).map Prod.snd

theorem writeAll_cons (h : HeapStore) (w : Slot × Value) (writes : List (Slot × Value)) :
    h.writeAll (w :: writes) = (h.meet w.1 w.2).2.writeAll writes := rfl

/-! ### Reading after writing -/

/-- One write is below what the slot was below before, if the value written to it is. -/
theorem get_meet_le_iff {s : Slot} {w : Value} :
    (h.meet s w).2.get slot ≤ v ↔ h.get slot ≤ v ∧ (s = slot → w ≤ v) := by
  rw [get_meet]
  split
  · rename_i heq
    rw [Value.meet_eq_sup, sup_le_iff]
    exact and_congr_right fun _ => ⟨fun hle _ => hle, fun hle => hle heq⟩
  · rename_i hne
    exact (and_iff_left fun heq => absurd heq hne).symm

/-- A slot is below what it was below before the writes and the values written to it are. -/
theorem get_writeAll_le_iff :
    (h.writeAll writes).get slot ≤ v ↔ h.get slot ≤ v ∧ ∀ w ∈ writes, w.1 = slot → w.2 ≤ v := by
  induction writes generalizing h with
  | nil => exact (and_iff_left fun _ hw => absurd hw List.not_mem_nil).symm
  | cons w writes ih =>
    rw [writeAll_cons, ih, get_meet_le_iff, List.forall_mem_cons, and_assoc]

/-- The same for what is observed, where the writes that count are those to slots that are seen. -/
theorem observe_writeAll_le_iff : (h.writeAll writes).observe slot ≤ v ↔
    h.observe slot ≤ v ∧ ∀ w ∈ writes, w.1 ∈ seen slot → w.2 ≤ v := by
  simp only [observe_le_iff, get_writeAll_le_iff]
  constructor
  · intro hall
    exact ⟨fun s hs => (hall s hs).1, fun w hw hseen => (hall w.1 hseen).2 w hw rfl⟩
  · rintro ⟨hbefore, hwrites⟩ s hs
    exact ⟨hbefore s hs, fun w hw heq => hwrites w hw (heq ▸ hs)⟩

/-- After writes to an empty heap a read gives the meet of what was written where it looks. -/
theorem observe_writeAll_empty (slot : Slot) {test : Slot → Prop} [DecidablePred test]
    (htest : ∀ s, test s ↔ s ∈ seen slot) :
    (empty.writeAll writes).observe slot = Value.meetAll (valuesAt writes test) := by
  refine eq_of_forall_ge_iff fun v => ?_
  rw [observe_writeAll_le_iff, Value.meetAll_le_iff, observe_empty]
  refine (and_iff_right bot_le).trans ?_
  simp only [valuesAt, List.forall_mem_map, List.mem_filter, decide_eq_true_eq, htest, and_imp]

/-! ### What a write tells -/

/-- A write tells of a change exactly if its slot has another value than before. -/
theorem meet_fst_iff_get_ne : (h.meet slot v).1 = true ↔ (h.meet slot v).2.get slot ≠ h.get slot := by
  rw [meet_fst, get_meet, if_pos rfl, Value.meet_eq_sup, Ne, sup_eq_left]

/-- A write that tells of no change leaves the heap as it was. -/
theorem meet_snd_of_unchanged (hfalse : (h.meet slot v).1 = false) : (h.meet slot v).2 = h := by
  have hle : v ≤ h.get slot := by
    by_contra hnot
    exact Bool.noConfusion (hfalse.symm.trans ((meet_fst h slot v).2 hnot))
  rw [meet_of_le hle]

/-- **Reads are determined by the set of writes.** Of a heap that starts empty, a field and a static
field give the meet of the values written to them. An array gives at a constant the meet of what was
written to it at this constant and at an unknown index, and at an unknown index the meet of everything
written to it. So two lists of the same writes, in whatever order and however often each, leave heaps
of which every read gives the same. A write tells of a change exactly if its slot has another value than
before; if it tells of none, every slot and every read is as it was. -/
theorem reads_determined_by_writes :
    (∀ writes base f, (empty.writeAll writes).get (.field base f) =
      Value.meetAll (valuesAt writes (· = .field base f))) ∧
    (∀ writes f, (empty.writeAll writes).get (.static f) =
      Value.meetAll (valuesAt writes (· = .static f))) ∧
    (∀ writes array n, (empty.writeAll writes).readArray array (.const n) = Value.meetAll
      (valuesAt writes fun s => s = .element array (.const n) ∨ s = .element array .nac)) ∧
    (∀ writes array, (empty.writeAll writes).readArray array .nac =
      Value.meetAll (valuesAt writes fun s => s.array? = some array)) ∧
    (∀ writes writes' : List (Slot × Value), (∀ w, w ∈ writes ↔ w ∈ writes') →
      ∀ slot, (empty.writeAll writes).observe slot = (empty.writeAll writes').observe slot) ∧
    ∀ (h : HeapStore) slot v,
      ((h.meet slot v).1 = true ↔ (h.meet slot v).2.get slot ≠ h.get slot) ∧
      ((h.meet slot v).1 = false → ∀ s,
        (h.meet slot v).2.get s = h.get s ∧ (h.meet slot v).2.observe s = h.observe s) := by
  refine ⟨fun writes base f => ?_, fun writes f => ?_, fun writes array n => ?_,
    fun writes array => ?_, fun writes writes' hsame slot => ?_,
    fun h slot v => ⟨meet_fst_iff_get_ne, fun hfalse s => ?_⟩⟩
  · exact observe_writeAll_empty (.field base f) fun _ => Iff.rfl
  · exact observe_writeAll_empty (.static f) fun _ => Iff.rfl
  · exact observe_writeAll_empty (.element array (.const n)) fun _ => Iff.rfl
  · refine observe_writeAll_empty (.element array .nac) fun s => ?_
    cases s with
    | element o index => simp [Slot.array?, seen, elementSlots]
    | _ => simp [Slot.array?, seen, elementSlots]
  · refine eq_of_forall_ge_iff fun v => ?_
    simp only [observe_writeAll_le_iff, hsame]
  · rw [meet_snd_of_unchanged hfalse]
    exact ⟨rfl, rfl⟩

/-- An array that is written at a constant and at an unknown index. Writing there twice or the other
way round makes no difference, the index that was not written shows what was written at the unknown
one, and a value that is there already changes nothing. -/
theorem reads_of_array_writes :
    let array : Obj := .alloc ⟨⟨⟨0, "Main"⟩, 0⟩, 1⟩ (.array .int)
    let first : Slot × Value := (.element array (.const 0), .const 4)
    let unknown : Slot × Value := (.element array .nac, .const 9)
    let h := empty.writeAll [first, unknown, first]
    (∀ slot, h.observe slot = (empty.writeAll [unknown, first]).observe slot) ∧
      h.readArray array (.const 0) = .nac ∧ h.readArray array (.const 1) = .const 9 ∧
      ∀ s, (h.meet unknown.1 unknown.2).2.observe s = h.observe s := by
  intro array first unknown h
  obtain ⟨-, -, hconst, -, hsame, htold⟩ := reads_determined_by_writes
  refine ⟨hsame _ _ fun w => ?_, ?_, ?_, fun s => ((htold h _ _).2 ?_ s).2⟩
  · simp only [List.mem_cons, List.not_mem_nil, or_false]
    tauto
  · rw [hconst]
    decide +kernel
  · rw [hconst]
    decide +kernel
  · decide +kernel

end HeapStore

end HeapFlow
