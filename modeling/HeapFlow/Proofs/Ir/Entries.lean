import HeapFlow.Proofs.Ir.Loaded
import HeapFlow.Session
/-!
# HeapFlow.Proofs.Ir.Entries

**The entry methods of a program under analysis.** A session is opened on a loaded program, with the
entry methods that its settings name or else those of the description. Names are looked up among the
methods of the program, so every entry is a reference that the method itself carries.
-/

namespace HeapFlow

namespace Program

/-- A program under analysis: that of a session opened on a program that was read. -/
def Opened (p : Program) : Prop :=
  ∃ v q options s, Document.ofJson v = .ok q ∧ Session.openOn q options = .ok s ∧ s.program = p

/-- A method that is found by its qualified name is in the class that the name begins with. -/
theorem exists_of_lookupMethod? {p : Program} {name : String} {m : Method}
    (h : p.lookupMethod? name = some m) : ∃ className member c,
      splitQualified? name = some (className, member) ∧ p.classNamed? className = some c ∧
        m ∈ c.methods := by
  obtain ⟨⟨className, member⟩, hsplit, h⟩ := Option.bind_eq_some_iff.1 h
  obtain ⟨c, hc, h⟩ := Option.bind_eq_some_iff.1 h
  refine ⟨className, member, c, hsplit, hc, ?_⟩
  split at h
  · rename_i m' hm
    cases h
    exact (Class.of_method? hm).1
  · split at h
    · rename_i m' hm
      cases h
      have hmem : m ∈ c.methods.filter (·.name == member) := by
        rw [hm]
        exact List.mem_singleton_self m
      exact (List.mem_filter.1 hmem).1
    · cases h

/-- Each of some methods is named by the reference that it carries. -/
def InPlace (p : Program) (ids : List MethodId) : Prop :=
  ∀ id ∈ ids, ∃ m, p.method? id = some m ∧ m.id = id

variable {p : Program}

theorem WellFormed.method?_of_lookupMethod? (hp : p.WellFormed) {name : String} {m : Method}
    (h : p.lookupMethod? name = some m) : p.method? m.id = some m := by
  obtain ⟨_, _, c, -, hc, hm⟩ := exists_of_lookupMethod? h
  exact hp.method?_of_mem (of_classNamed? hc).1 hm

/-- Methods that are looked up by their names are in their places. -/
theorem WellFormed.inPlace_of_mapM (hp : p.WellFormed) {ε : Type} {f : String → Except ε MethodId}
    (hf : ∀ name id, f name = .ok id → ∃ m, p.lookupMethod? name = some m ∧ m.id = id)
    {names : List String} {ids : List MethodId} (h : names.mapM f = .ok ids) : p.InPlace ids := by
  intro id hid
  obtain ⟨name, -, hname⟩ := exists_of_mapM_eq_ok h hid
  obtain ⟨m, hm, rfl⟩ := hf name id hname
  exact ⟨m, hp.method?_of_lookupMethod? hm, rfl⟩

end Program

namespace Document

variable {p : Program} {root : Json.Object}

/-- There are entries, and each of them is a method with a body. -/
theorem of_readEntries (hp : p.WellFormed) {entries : List MethodId}
    (h : readEntries p root = .ok entries) :
    entries ≠ [] ∧ ∀ id ∈ entries, ∃ m, p.method? id = some m ∧ m.id = id ∧ m.hasBody = true := by
  unfold readEntries at h
  split at h
  · cases h
  · rename_i hnames
    refine ⟨?_, fun id hid => ?_⟩
    · rintro rfl
      cases hlist : entryNames root with
      | nil => exact hnames hlist
      | cons name names =>
        rw [hlist, List.mapM_cons] at h
        simp only [bind_eq_ok, pure_eq_ok] at h
        obtain ⟨first, -, rest, -, hcons⟩ := h
        cases hcons
    · obtain ⟨name, -, hentry⟩ := exists_of_mapM_eq_ok h hid
      unfold readEntry at hentry
      split at hentry
      · cases hentry
      · rename_i m hm
        split at hentry
        · rename_i hbody
          cases hentry
          exact ⟨m, hp.method?_of_lookupMethod? hm, rfl, hbody⟩
        · cases hentry

theorem inPlace_of_readEntries (hp : p.WellFormed) {entries : List MethodId}
    (h : readEntries p root = .ok entries) : p.InPlace entries := by
  intro id hid
  obtain ⟨m, hm, heq, -⟩ := (of_readEntries hp h).2 id hid
  exact ⟨m, hm, heq⟩

/-- The entry methods are looked up in the program that they are entries of. -/
theorem exists_of_readProgram (h : readProgram root = .ok p) :
    ∃ q, readEntries q root = .ok p.entries ∧ p.classes = q.classes := by
  unfold readProgram at h
  split at h
  · cases h
  simp only [bind_eq_ok, pure_eq_ok, Prod.exists] at h
  obtain ⟨-, -, -, -, -, -, -, -, -, -, q, -, entries, hentries, rfl⟩ := h
  exact ⟨q, hentries, rfl⟩

theorem inPlace_of_ofJson {v : Json.Value} (h : ofJson v = .ok p) : p.InPlace p.entries := by
  have hwell : p.WellFormed := Program.Loaded.wellFormed ⟨v, p, h, rfl⟩
  unfold ofJson at h
  split at h
  · obtain ⟨q, hentries, hclasses⟩ := exists_of_readProgram h
    obtain ⟨classes, entries⟩ := p
    obtain ⟨classes', entries'⟩ := q
    obtain rfl : classes = classes' := hclasses
    -- methods are looked up in the classes only
    exact inPlace_of_readEntries (p := ⟨classes, entries'⟩) hwell hentries
  · cases h

end Document

namespace Program

variable {p : Program}

theorem Opened.loaded (h : p.Opened) : p.Loaded := by
  obtain ⟨v, q, options, s, hq, hopen, rfl⟩ := h
  simp only [Session.openOn, bind_eq_ok] at hopen
  obtain ⟨entries, -, hopen⟩ := hopen
  split at hopen
  · cases hopen
  · cases hopen
    exact ⟨v, q, hq, rfl⟩

/-- **The entry methods of a program under analysis are in their places.** -/
theorem Opened.inPlace (h : p.Opened) : p.InPlace p.entries := by
  obtain ⟨v, q, options, s, hq, hopen, rfl⟩ := h
  have hwell : q.WellFormed := Loaded.wellFormed ⟨v, q, hq, rfl⟩
  simp only [Session.openOn, bind_eq_ok] at hopen
  obtain ⟨entries, hentries, hopen⟩ := hopen
  split at hopen
  · cases hopen
  · cases hopen
    unfold Session.entriesFor at hentries
    split at hentries
    · cases hentries
      exact Document.inPlace_of_ofJson hq
    · refine hwell.inPlace_of_mapM (fun name id hname => ?_) hentries
      split at hname
      · rename_i m hm
        cases hname
        exact ⟨m, hm, rfl⟩
      · cases hname

/-- A description with entry methods of its own can be analysed. -/
theorem opened_described {v : Json.Value} (h : (Document.ofJson v).toOption.isSome = true)
    (hentries : (described v).entries.isEmpty = false) : (described v).Opened := by
  let s : Session := ⟨described v, .ofPolicy .insensitive, .empty, .initial, [], none, none, none⟩
  refine ⟨v, described v, .ofPolicy .insensitive, s, ofJson_eq_described h, ?_, rfl⟩
  have hnotEmpty : ¬ (described v).entries.isEmpty = true := by simp [hentries]
  exact if_neg hnotEmpty

end Program

end HeapFlow
