import HeapFlow.Proofs.Ir.Bodies
import Mathlib.Data.List.Induction
/-!
# HeapFlow.Proofs.Ir.Labels

**What a label denotes.** A label may be attached again and again, before or after the jumps to it, and
several labels may stand at one statement. What counts is where it was attached last: it denotes the
statement that was emitted next. Labels that still wait when the body is finished denote one `nop` that
is appended for them. This is kept by every action on a draft, so it holds however a body was built, and
finishing the body resolves each jump to the statement that its label denotes.
-/

namespace HeapFlow

namespace Draft

/-! ### Building a body -/

/-- What a draft is asked to do. -/
inductive Action
  | label (name : String)
  | line (number : Int32)
  | var (name : String) (ty : Ty)
  | stmt (s : Stmt)
deriving DecidableEq

def Action.perform (d : Draft) : Action → Draft
  | label name => d.label name
  | line number => d.atLine number
  | var name ty => d.addVar name ty
  | stmt s => d.emit s

/-- The draft after some actions, the first of the list performed first. -/
def performAll (d : Draft) (actions : List Action) : Draft := actions.foldl Action.perform d

/-- The statements that some actions append. -/
def emitted (actions : List Action) : List Stmt :=
  actions.filterMap fun
    | .stmt s => some s
    | _ => none

/-- A label denotes the statement that is emitted next after it was attached for the last time. -/
def Denotes (actions : List Action) (l : String) (i : Nat) : Prop :=
  ∃ before after, actions = before ++ .label l :: after ∧ .label l ∉ after ∧
    i = (emitted before).length

/-- The body that the actions amount to: what they append, and a `nop` if a label denotes its end. -/
def Completes (actions : List Action) (body : List Stmt) : Prop :=
  (∃ l, Denotes actions l (emitted actions).length) ∧ body = emitted actions ++ [.nop] ∨
    (¬ ∃ l, Denotes actions l (emitted actions).length) ∧ body = emitted actions

variable {actions : List Action} {l : String} {i : Nat}

theorem emitted_concat (actions : List Action) (a : Action) :
    emitted (actions ++ [a]) = emitted actions ++ emitted [a] := List.filterMap_append

theorem emitted_concat_of_silent {a : Action} (ha : emitted [a] = []) :
    emitted (actions ++ [a]) = emitted actions := by
  rw [emitted_concat, ha, List.append_nil]

/-- One more action: it attaches the label anew, or the label denotes what it did. -/
theorem denotes_concat {a : Action} : Denotes (actions ++ [a]) l i ↔
    if a = .label l then i = (emitted actions).length else Denotes actions l i := by
  constructor
  · rintro ⟨before, after, hsplit, hlast, rfl⟩
    obtain rfl | ⟨rest, b, rfl⟩ := List.eq_nil_or_concat after
    · obtain ⟨rfl, ha⟩ := List.append_inj' hsplit rfl
      rw [if_pos (List.singleton_inj.1 ha)]
    · rw [List.concat_eq_append, ← List.cons_append, ← List.append_assoc] at hsplit
      obtain ⟨rfl, ha⟩ := List.append_inj' hsplit rfl
      obtain rfl := List.singleton_inj.1 ha
      rw [List.concat_eq_append, List.mem_append, not_or] at hlast
      rw [if_neg fun h => hlast.2 (List.mem_singleton.2 h.symm)]
      exact ⟨before, rest, rfl, hlast.1, rfl⟩
  · split
    · rename_i ha
      rintro rfl
      exact ⟨actions, [], by rw [ha], List.not_mem_nil, rfl⟩
    · rename_i ha
      rintro ⟨before, after, rfl, hlast, rfl⟩
      refine ⟨before, after ++ [a], by simp, ?_, rfl⟩
      simp [hlast, Ne.symm ha]

/-- A label denotes something exactly if it was attached. -/
theorem exists_denotes_iff : (∃ i, Denotes actions l i) ↔ .label l ∈ actions := by
  induction actions using List.reverseRecOn with
  | nil => simp [Denotes]
  | append_singleton actions a ih =>
    simp only [denotes_concat, List.mem_append, List.mem_singleton]
    split
    · rename_i ha
      simp [ha]
    · rename_i ha
      rw [ih]
      simp [Ne.symm ha]

/-! ### After some actions -/

/-- A draft of a declared method after some actions. -/
structure Performed (m : Method) (actions : List Action) (d : Draft) : Prop where
  stmts : d.method.stmts = emitted actions
  place : ∀ l i, d.place? l = some i ↔ Denotes actions l i
  labels : d.LabelsInRange
  listed : d.Listed
  cfg : d.method.cfg = none
  hasBody : d.method.hasBody = m.hasBody

variable {m : Method} {d : Draft}

theorem performed_nil (hm : Document.Blank m) : Performed m [] (.ofMethod m) where
  stmts := hm.stmts
  place l i := by simp [place?, ofMethod, Denotes, EmptyCollection.emptyCollection]
  labels l i hi := by cases (Table.get?_empty l).symm.trans hi
  listed := listed_ofMethod hm.stmts
  cfg := hm.cfg
  hasBody := rfl

theorem Performed.length_body (h : Performed m actions d) :
    d.method.body.length = (emitted actions).length := by
  rw [← h.stmts, Method.stmts, List.length_map]

theorem Performed.perform (h : Performed m actions d) (a : Action) :
    Performed m (actions ++ [a]) (a.perform d) := by
  cases a with
  | label name =>
    refine ⟨h.stmts.trans (emitted_concat_of_silent rfl).symm, fun l i => ?_, h.labels, h.listed,
      h.cfg, h.hasBody⟩
    rw [Action.perform, place?_label, denotes_concat, h.length_body]
    by_cases hname : name = l
    · simp [hname, eq_comm]
    · simpa [hname] using h.place l i
  | stmt s =>
    refine ⟨?_, fun l i => ?_, h.labels.emit s, h.listed.emit s, h.cfg, h.hasBody⟩
    · rw [Action.perform, Document.stmts_emit, h.stmts, emitted_concat]
      rfl
    · rw [Action.perform, place?_emit, denotes_concat, if_neg nofun]
      exact h.place l i
  | line | var =>
    refine ⟨h.stmts.trans (emitted_concat_of_silent rfl).symm, fun l i => ?_, h.labels, h.listed,
      h.cfg, h.hasBody⟩
    rw [denotes_concat, if_neg nofun]
    exact h.place l i

/-- **However a body is built, its labels stand where they were attached last.** -/
theorem performed_performAll (hm : Document.Blank m) (actions : List Action) :
    Performed m actions ((ofMethod m).performAll actions) := by
  induction actions using List.reverseRecOn with
  | nil => exact performed_nil hm
  | append_singleton actions a ih =>
    rw [performAll, List.foldl_append]
    exact ih.perform a

/-- The graph of a body that was built by some actions is closed. -/
theorem hasClosedGraph_performAll (hm : Document.Blank m) (actions : List Action) :
    ((ofMethod m).performAll actions).finish.1.method.HasClosedGraph :=
  have h := performed_performAll hm actions
  hasClosedGraph_finish h.cfg h.labels h.listed

/-- A label denotes the end of the body exactly if some label waits. -/
theorem Performed.exists_denotes_end_iff (h : Performed m actions d) :
    (∃ l, Denotes actions l (emitted actions).length) ↔ d.waiting ≠ [] := by
  simp only [← h.place, ← h.length_body]
  constructor
  · rintro ⟨l, hl⟩ hnone
    rw [place?, hnone, if_neg List.not_mem_nil] at hl
    exact Nat.lt_irrefl _ (h.labels l _ hl)
  · intro hwaiting
    obtain ⟨l, hl⟩ := List.exists_mem_of_ne_nil _ hwaiting
    exact ⟨l, if_pos hl⟩

/-! ### Finishing -/

/-- The waiting labels get a statement of their own. -/
theorem Performed.completes (h : Performed m actions d) :
    Completes actions d.closeLabels.method.stmts := by
  obtain ⟨heq, hnone⟩ | ⟨heq, hsome⟩ := d.closeLabels_cases <;> rw [heq]
  · refine .inr ⟨?_, h.stmts⟩
    rw [h.exists_denotes_end_iff]
    exact not_not.2 hnone
  · refine .inl ⟨h.exists_denotes_end_iff.2 hsome, ?_⟩
    rw [Document.stmts_emit, h.stmts]

end Draft

end HeapFlow
