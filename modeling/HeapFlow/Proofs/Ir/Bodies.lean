import HeapFlow.Proofs.Ir.Jumps
import HeapFlow.Proofs.Ir.Statements
/-!
# HeapFlow.Proofs.Ir.Bodies

**What reading a body gives** (`Document.read_of_readBody`). The statements of a method are those of
the lines of its description, in order and with their jumps resolved. Each of them is legal for the
class that its own line names, calls name classes of the program, and every jump leads to a statement
of the body: the last one whose line carries the label.
-/

namespace HeapFlow

namespace Document

open Json (Object)

/-- The class that a line of a body names. -/
def lineClass? (p : Program) (lines : List Json.Value) (i : Nat) : Option ClassRef :=
  (lines[i]?.bind Json.Value.object?).bind (namedClass? p)

/-- The label that a line of a body carries. -/
def lineLabel? (line : Json.Value) : Option String := line.object?.bind (·.string? "label")

/-- A method as it is declared: nothing of its body was read. -/
structure Blank (m : Method) : Prop where
  stmts : m.stmts = []
  cfg : m.cfg = none

/-- A method whose body was read from the lines of a description, in the program `p`. -/
structure Read (p : Program) (lines : List Json.Value) (declared m : Method) : Prop where
  header : m.id = declared.id ∧ m.subsignature = declared.subsignature
  legal : ∀ (i : Nat) (s : Stmt), m.stmts[i]? = some s → s.Legal p m.vars (lineClass? p lines i)
  jumps : ∀ s ∈ m.stmts, ∀ j ∈ s.jumps, ∃ t, j.target = some t ∧ t < m.stmts.length
  targets : ∀ s ∈ m.stmts, ∀ j ∈ s.jumps, ∀ t,
    j.target = some t ↔ LastAt (lines.map lineLabel?) (some j.label) t
  cfg : m.cfg = if m.hasBody then some (.ofBody m.stmts) else none
  body : m.hasBody = false → m.stmts = []
  named : ∀ s ∈ m.stmts, s.NamesClass p

/-- A draft of a method whose statements are legal for the lines that they stand at, and whose labels
stand at the last lines that carry them. -/
structure Drafted (p : Program) (lines : List Json.Value) (declared : Method) (d : Draft) : Prop where
  header : d.method.id = declared.id ∧ d.method.subsignature = declared.subsignature
  hasBody : d.method.hasBody = declared.hasBody
  cfg : d.method.cfg = none
  labels : d.LabelsInRange
  listed : d.Listed
  place : ∀ l i, d.place? l = some i ↔ LastAt (lines.map lineLabel?) (some l) i
  legal : ∀ (i : Nat) (s : Stmt), d.method.stmts[i]? = some s →
    s.Legal p d.method.vars (lineClass? p lines i)
  named : ∀ s ∈ d.method.stmts, s.NamesClass p

variable {p : Program} {lines : List Json.Value} {m : Method} {d d' : Draft}

/-! ### Line after line -/

theorem drafted_ofMethod (hm : Blank m) : Drafted p [] m (.ofMethod m) where
  header := ⟨rfl, rfl⟩
  hasBody := rfl
  cfg := hm.cfg
  labels l i hi := by cases (Table.get?_empty l).symm.trans hi
  listed := Draft.listed_ofMethod hm.stmts
  place l i := by
    have hnowhere : (Draft.ofMethod m).place? l = none := Table.get?_empty l
    simp [hnowhere, not_lastAt_nil]
  legal i s (hs : m.stmts[i]? = some s) := by
    rw [hm.stmts] at hs
    cases hs
  named s (hs : s ∈ m.stmts) := by
    rw [hm.stmts] at hs
    cases hs

theorem Drafted.readVar {v : Json.Value} (hd : Drafted p lines m d) (h : readVar p d v = .ok d') :
    Drafted p lines m d' ∧ d'.method.stmts = d.method.stmts := by
  obtain ⟨name, ty, rfl⟩ := readVar_cases h
  refine ⟨⟨hd.header, hd.hasBody, hd.cfg, hd.labels, hd.listed, hd.place, fun i s hs => ?_, hd.named⟩, rfl⟩
  exact (hd.legal i s hs).mono fun v hv => List.mem_append_left _ hv

/-- A label on a line stands at the statement that comes next. -/
theorem place?_withLabel {l : String} (d : Draft) (o : Object) : (withLabel d o).place? l =
    if o.string? "label" = some l then some d.method.body.length else d.place? l := by
  by_cases hl : o.string? "label" = some l
  · simp [Draft.place?, withLabel, hl]
  · have hnot : l ∉ (o.string? "label").toList := fun hmem => hl (Option.mem_toList.1 hmem)
    simp [Draft.place?, withLabel, hl, hnot]

theorem Drafted.emit {s : Stmt} (hd : Drafted p lines m d)
    (hs : s.Legal p d.method.vars (lineClass? p lines d.method.stmts.length))
    (hnamed : s.NamesClass p) : Drafted p lines m (d.emit s) := by
  refine ⟨hd.header, hd.hasBody, hd.cfg, hd.labels.emit s, hd.listed.emit s, fun l i => ?_, fun i t ht => ?_,
    fun t ht => ?_⟩
  · rw [Draft.place?_emit]
    exact hd.place l i
  · rw [stmts_emit] at ht
    obtain ht | ⟨rfl, rfl⟩ := cases_getElem?_concat ht
    · exact hd.legal i t ht
    · exact hs
  · rw [stmts_emit] at ht
    obtain ht | ht := List.mem_append.1 ht
    · exact hd.named t ht
    · exact List.mem_singleton.1 ht ▸ hnamed

/-- A label on the line behind those of the statements stands at the next statement; nothing changes for
the others. -/
theorem Drafted.withLabel {v : Json.Value} {o : Object} (hd : Drafted p lines m d)
    (hlength : d.method.stmts.length = lines.length) (ho : v.object? = some o) :
    Drafted p (lines ++ [v]) m (withLabel d o) := by
  refine ⟨hd.header, hd.hasBody, hd.cfg, hd.labels, hd.listed, fun l i => ?_, fun i s hs => ?_,
    hd.named⟩
  · have hlabel : lineLabel? v = o.string? "label" := by rw [lineLabel?, ho, Option.bind_some]
    have hnext : d.method.body.length = lines.length := by rwa [Method.stmts, List.length_map] at hlength
    rw [List.map_append, List.map_singleton, lastAt_concat, List.length_map, hlabel, ← hnext,
      place?_withLabel]
    split
    · rw [Option.some_inj, eq_comm]
    · exact hd.place l i
  · have hlt : i < lines.length := hlength ▸ (List.getElem?_eq_some_iff.1 hs).1
    rw [lineClass?, List.getElem?_append_left hlt]
    exact hd.legal i s hs

theorem Drafted.readLine {v : Json.Value} {index : Nat} (hd : Drafted p lines m d)
    (hlength : d.method.stmts.length = lines.length) (h : readLine p d v index = .ok d') :
    Drafted p (lines ++ [v]) m d' ∧ d'.method.stmts.length = (lines ++ [v]).length := by
  obtain ⟨o, s, line, ho, hs, rfl⟩ := readLine_cases h
  obtain ⟨header, hasBody, cfg, labels, listed, place, legal, named⟩ := hd.withLabel hlength ho
  have hnext : Drafted p (lines ++ [v]) m ((Document.withLabel d o).atLine line) :=
    ⟨header, hasBody, cfg, labels, listed, place, legal, named⟩
  refine ⟨hnext.emit ?_ (namesClass_of_readStmt hs), ?_⟩
  · have hline : lineClass? p (lines ++ [v]) d.method.stmts.length = namedClass? p o := by
      simp [lineClass?, hlength, ho]
    exact hline ▸ legal_of_readStmt hs
  · rw [stmts_emit, List.length_append, List.length_append]
    exact congrArg (· + 1) hlength

theorem Drafted.readLines {vs : List Json.Value} {index : Nat} (hd : Drafted p lines m d)
    (hlength : d.method.stmts.length = lines.length) (h : readLines p d index vs = .ok d') :
    Drafted p (lines ++ vs) m d' := by
  induction vs generalizing d lines index with
  | nil =>
    rw [Document.readLines] at h
    cases h
    rwa [List.append_nil]
  | cons v vs ih =>
    rw [Document.readLines, bind_eq_ok] at h
    obtain ⟨next, hline, hrest⟩ := h
    obtain ⟨hnext, hlength⟩ := hd.readLine hlength hline
    rw [List.append_cons]
    exact ih hnext hlength hrest

/-! ### Completing the body -/

theorem Drafted.closeLabels (hd : Drafted p lines m d) : Drafted p lines m d.closeLabels :=
  Draft.closeLabels_of_emit hd (hd.emit Stmt.legal_nop nofun)

theorem Drafted.finish (hd : Drafted p lines m d) (hbody : m.hasBody = true) {done : Draft}
    (h : d.finish = (done, none)) : Read p lines m done.method := by
  have hclosed := hd.closeLabels
  have hhas : d.closeLabels.resolveJumps.1.method.hasBody = true := hclosed.hasBody.trans hbody
  obtain ⟨l, -, hfinish⟩ | ⟨hnone, hfinish⟩ :=
    d.finish_cases_of_unfinished (hd.hasBody.trans hbody) hd.cfg
  · cases hfinish.symm.trans h
  · cases hfinish.symm.trans h
    refine ⟨hclosed.header, fun i s hs => ?_, fun s hs j hj => ?_, fun s hs j hj t => ?_,
      (if_pos hhas).symm, fun hnot => ?_, fun s hs => ?_⟩
    · obtain ⟨t, ht, hsame⟩ := Draft.exists_of_getElem?_resolveJumps hs
      exact Stmt.legal_unresolved.1 (hsame ▸ Stmt.legal_unresolved.2 (hclosed.legal i t ht))
    · exact Draft.lt_of_resolveJumps hclosed.labels hclosed.listed hnone hs hj
    · rw [(Draft.target_of_resolveJumps hclosed.listed hnone hs hj).1, Draft.get?_labels_closeLabels]
      exact hd.place j.label t
    · cases hhas.symm.trans hnot
    · obtain ⟨t, ht, hsame⟩ := Draft.exists_of_mem_resolveJumps hs
      exact Stmt.namesClass_unresolved.1 (hsame ▸ Stmt.namesClass_unresolved.2 (hclosed.named t ht))

/-! ### The whole body -/

/-- **Reading a body.** -/
theorem read_of_readBody {m' : Method} {decl : Object} (hm : Blank m)
    (h : readBody p m decl = .ok m') : Read p (decl.elements "body") m m' := by
  obtain ⟨d, hvars, hcases⟩ := readBody_cases h
  obtain ⟨hd, hnone⟩ : Drafted p [] m d ∧ d.method.stmts = [] := by
    refine foldlM_invariant (fun d => Drafted p [] m d ∧ d.method.stmts = []) ?_
      ⟨drafted_ofMethod hm, hm.stmts⟩ hvars
    intro d v d' hd h
    obtain ⟨hd', hsame⟩ := hd.1.readVar h
    exact ⟨hd', hsame.trans hd.2⟩
  obtain ⟨hbody, read, done, hread, hfinish, rfl⟩ | ⟨hbody, rfl⟩ := hcases
  · have hlines : Drafted p (decl.elements "body") m read :=
      hd.readLines (congrArg List.length hnone) hread
    exact hlines.finish hbody hfinish
  · have hnot : d.method.hasBody = false := hd.hasBody.trans hbody
    have hnowhere {s : Stmt} : s ∉ d.method.stmts := by
      rw [hnone]
      exact List.not_mem_nil
    refine ⟨hd.header, fun i s hs => ?_, fun s hs => absurd hs hnowhere,
      fun s hs => absurd hs hnowhere, ?_, fun _ => hnone, hd.named⟩
    · exact absurd (List.mem_of_getElem? hs) hnowhere
    · rw [hd.cfg, hnot]
      rfl

/-- The graph of a body that was read is closed. -/
theorem Read.hasClosedGraph {declared : Method} (h : Read p lines declared m) :
    m.HasClosedGraph := by
  intro g hg
  rw [h.cfg] at hg
  split at hg
  · obtain rfl := Option.some.inj hg
    refine Cfg.closed_ofBody fun s hs j hj t ht => ?_
    obtain ⟨t', ht', hlt⟩ := h.jumps s hs j hj
    obtain rfl := Option.some.inj (ht'.symm.trans ht)
    exact hlt
  · cases hg

end Document

/-- **The graphs of loaded programs are closed.** -/
theorem Program.Loaded.closed {p : Program} (h : p.Loaded) {id : MethodId} {m : Method}
    (hm : p.method? id = some m) {g : Cfg} (hg : m.cfg = some g) : g.Closed := by
  have hdeclare : Method.HoldsDeclared Document.Blank := fun _ _ _ _ _ _ => ⟨rfl, rfl⟩
  have hplaced : p.Placed Method.HasClosedGraph :=
    h.placed hdeclare (fun _ _ _ _ hm h => (Document.read_of_readBody hm h).hasClosedGraph)
      fun m hm => Method.Unread.hasClosedGraph hm.cfg
  exact (hplaced.of_method? hm).2.2 g hg

end HeapFlow
