import HeapFlow.Ir.Draft
/-!
# HeapFlow.Proofs.Ir.Patches

**Patching the list of pending jumps resolves the jumps of the body** (`Draft.stmts_resolveJumps`). A
patch is found by the statement and by a number that tells which of its jumps is meant. As long as the list
holds the jumps of the body, each once and in order (`Draft.Listed`), every patch meets the jump that it
was noted down for: the patches of a statement resolve its jumps one after the other and touch no other
statement.
-/

namespace HeapFlow

/-! ### The jumps of a statement -/

namespace Stmt

/-- The jumps in the order in which they are resolved: the cases of a switch, then its default. -/
def jumps : Stmt → List Jump
  | ifGoto _ _ _ jump => [jump]
  | switch _ cases default => cases.map Prod.snd ++ [default]
  | goto jump => [jump]
  | _ => []

/-- Changes the jumps. -/
def mapJumps (f : Jump → Jump) : Stmt → Stmt
  | ifGoto op x y jump => ifGoto op x y (f jump)
  | switch v cases default => switch v (cases.map fun c => (c.1, f c.2)) (f default)
  | goto jump => goto (f jump)
  | s => s

/-- The statement as it is before its jumps are resolved. -/
def unresolved (s : Stmt) : Stmt := s.mapJumps fun j => { j with target := none }

theorem jumps_mapJumps (f : Jump → Jump) (s : Stmt) : (s.mapJumps f).jumps = s.jumps.map f := by
  cases s <;> simp [mapJumps, jumps, Function.comp_def]

/-- The target of a jump does not show in the unresolved statement. -/
theorem unresolved_setTarget (caseIndex : Int) (target : Nat) (s : Stmt) :
    (s.setTarget caseIndex target).unresolved = s.unresolved := by
  cases s with
  | switch v cases default =>
    rw [setTarget]
    split
    · rfl
    · have hcases : ((cases.modify caseIndex.toNat fun c => (c.1, c.2.to target)).map fun c =>
          (c.1, ({ c.2 with target := none } : Jump))) =
            cases.map fun c => (c.1, ({ c.2 with target := none } : Jump)) := by
        refine List.ext_getElem? fun i => ?_
        rw [List.getElem?_map, List.getElem?_map, List.getElem?_modify]
        cases cases[i]? with
        | none => rfl
        | some c =>
          simp only [Option.map_eq_map, Option.map_some]
          split <;> rfl
      simp only [unresolved, mapJumps]
      rw [hcases]
  | _ => rfl

/-- The pending jumps of a statement name the labels of its jumps. -/
theorem label_pendingJumps (i : Nat) (s : Stmt) :
    (s.pendingJumps i).map PendingJump.label = s.jumps.map Jump.label := by
  cases s with
  | switch v cases default =>
    have hcases : (cases.zipIdx.map fun x => x.1.2.label) = cases.map fun c => c.2.label :=
      calc (cases.zipIdx.map fun x => x.1.2.label)
        _ = (cases.zipIdx.map Prod.fst).map fun c => c.2.label := by rw [List.map_map]; rfl
        _ = cases.map fun c => c.2.label := by rw [List.zipIdx_map_fst]
    simpa [pendingJumps, jumps, Function.comp_def] using hcases
  | _ => rfl

end Stmt

namespace Draft

variable {labels : Table String Nat}

/-! ### The patches of one statement -/

/-- A jump with the target that its label denotes. -/
def resolve (labels : Table String Nat) (j : Jump) : Jump := { j with target := labels.get? j.label }

/-- Resolves the jumps of a statement that stands in a body. -/
def resolveLocated (labels : Table String Nat) (l : Located) : Located :=
  { l with stmt := l.stmt.mapJumps (resolve labels) }

theorem patch_append (js more : List PendingJump) (body : List Located) :
    patch labels (js ++ more) body =
      match patch labels js body with
      | (body, none) => patch labels more body
      | (body, some l) => (body, some l) := by
  induction js generalizing body with
  | nil => rfl
  | cons j js ih =>
    rw [List.cons_append, patch, patch]
    split
    · rfl
    · exact ih _

/-- If the first patches succeed, the others follow. -/
theorem patch_append_of_eq {js more : List PendingJump} {body next : List Located}
    (h : patch labels js body = (next, none)) :
    patch labels (js ++ more) body = patch labels more next := by
  rw [patch_append, h]

theorem modify_middle {α : Type} (f : α → α) (before after : List α) (x : α) :
    (before ++ x :: after).modify before.length f = before ++ f x :: after := by
  induction before with
  | nil => rfl
  | cons y before ih => simp [List.modify_succ_cons, ih]

/-- One patch: its statement stands between others. -/
theorem patch_cons {js : List PendingJump} {before after : List Located} {l : Located} {j : PendingJump}
    {target : Nat} (hsource : j.source = before.length) (hlabel : labels.get? j.label = some target) :
    patch labels (j :: js) (before ++ l :: after) =
      patch labels js
        (before ++ { l with stmt := l.stmt.setTarget j.caseIndex target } :: after) := by
  rw [patch, hlabel, hsource]
  exact congrArg (patch labels js) (modify_middle ..)

/-- The patches of the cases of a switch resolve them one after the other. -/
theorem patch_cases {v : Var} {default : Jump} {line : Int32} {before after : List Located}
    (cases : List (Int32 × Jump)) (done : List (Int32 × Jump))
    (hlabels : ∀ c ∈ cases, ∃ t, labels.get? c.2.label = some t) :
    patch labels ((cases.zipIdx done.length).map fun (c, k) => ⟨before.length, k, c.2.label⟩)
        (before ++ ⟨.switch v (done ++ cases) default, line⟩ :: after) =
      (before ++ ⟨.switch v (done ++ cases.map fun c => (c.1, resolve labels c.2)) default, line⟩ ::
        after, none) := by
  induction cases generalizing done with
  | nil => rfl
  | cons c cases ih =>
    obtain ⟨⟨t, ht⟩, hrest⟩ := List.forall_mem_cons.1 hlabels
    have hcase : (Stmt.switch v (done ++ c :: cases) default).setTarget (done.length : Int) t =
        .switch v ((done ++ [(c.1, resolve labels c.2)]) ++ cases) default := by
      rw [Stmt.setTarget, if_neg (by omega), Int.toNat_natCast, modify_middle, resolve, ht,
        List.append_assoc]
      rfl
    rw [List.zipIdx_cons, List.map_cons, patch_cons rfl ht, hcase]
    have hlength : (done ++ [(c.1, resolve labels c.2)]).length = done.length + 1 := by simp
    rw [← hlength, ih _ hrest]
    simp

/-- **The patches of a statement resolve its jumps.** -/
theorem patch_stmt {before after : List Located} {l : Located}
    (hlabels : ∀ j ∈ l.stmt.jumps, ∃ t, labels.get? j.label = some t) :
    patch labels (l.stmt.pendingJumps before.length) (before ++ l :: after) =
      (before ++ resolveLocated labels l :: after, none) := by
  obtain ⟨s, line⟩ := l
  have hjump {j : Jump} {t : Nat} (ht : labels.get? j.label = some t) : j.to t = resolve labels j := by
    rw [Jump.to, resolve, ht]
  cases s with
  | ifGoto op x y jump =>
    obtain ⟨t, ht⟩ := hlabels jump (List.mem_singleton_self jump)
    rw [Stmt.pendingJumps, patch_cons rfl ht, Stmt.setTarget, hjump ht]
    rfl
  | goto jump =>
    obtain ⟨t, ht⟩ := hlabels jump (List.mem_singleton_self jump)
    rw [Stmt.pendingJumps, patch_cons rfl ht, Stmt.setTarget, hjump ht]
    rfl
  | switch v cases default =>
    obtain ⟨t, ht⟩ := hlabels default (List.mem_append_right _ (List.mem_singleton_self default))
    have hcases : patch labels (cases.zipIdx.map fun (c, k) => ⟨before.length, k, c.2.label⟩)
        (before ++ ⟨.switch v cases default, line⟩ :: after) =
          (before ++ ⟨.switch v (cases.map fun c => (c.1, resolve labels c.2)) default, line⟩ :: after,
            none) :=
      patch_cases cases [] fun c hc => hlabels c.2 (List.mem_append_left _ (List.mem_map_of_mem hc))
    rw [Stmt.pendingJumps, patch_append_of_eq hcases, patch_cons rfl ht, Stmt.setTarget, if_pos rfl,
      hjump ht]
    rfl
  | _ => rfl

/-! ### The patches of a body -/

/-- The jumps of statements that are numbered from `start` on. -/
def pendingFrom (start : Nat) (body : List Located) : List PendingJump :=
  (body.zipIdx start).flatMap fun (l, i) => l.stmt.pendingJumps i

theorem pendingFrom_cons (start : Nat) (l : Located) (rest : List Located) :
    pendingFrom start (l :: rest) = l.stmt.pendingJumps start ++ pendingFrom (start + 1) rest := rfl

theorem label_mem_pendingFrom {start : Nat} {body : List Located} {name : String} :
    (∃ j ∈ pendingFrom start body, j.label = name) ↔
      ∃ s ∈ body.map Located.stmt, ∃ j ∈ s.jumps, j.label = name := by
  induction body generalizing start with
  | nil => simp [pendingFrom]
  | cons l rest ih =>
    have hfirst : (∃ j ∈ l.stmt.pendingJumps start, j.label = name) ↔
        ∃ j ∈ l.stmt.jumps, j.label = name := by
      rw [← List.mem_map, ← List.mem_map, Stmt.label_pendingJumps]
    simp only [pendingFrom_cons, List.mem_append, or_and_right, exists_or, hfirst, ih, List.map_cons,
      List.mem_cons, exists_eq_left]

/-- The patches of a body resolve its jumps, if their labels are defined. -/
theorem patch_body {before rest : List Located}
    (hlabels : ∀ l ∈ rest, ∀ j ∈ l.stmt.jumps, ∃ t, labels.get? j.label = some t) :
    patch labels (pendingFrom before.length rest) (before ++ rest) =
      (before ++ rest.map (resolveLocated labels), none) := by
  induction rest generalizing before with
  | nil => rfl
  | cons l rest ih =>
    obtain ⟨hl, hrest⟩ := List.forall_mem_cons.1 hlabels
    have hfirst : patch labels (l.stmt.pendingJumps before.length) (before ++ l :: rest) =
        (before ++ [resolveLocated labels l] ++ rest, none) :=
      (patch_stmt hl).trans (by rw [List.append_assoc]; rfl)
    have hnext := @ih (before ++ [resolveLocated labels l]) hrest
    rw [List.length_append, List.length_singleton] at hnext
    rw [pendingFrom_cons, patch_append_of_eq hfirst, hnext, List.append_assoc]
    rfl

/-- Patching ends with the first label that is undefined. -/
theorem patch_snd (js : List PendingJump) (body : List Located) :
    (patch labels js body).2 =
      (js.find? fun j => (labels.get? j.label).isNone).map PendingJump.label := by
  induction js generalizing body with
  | nil => rfl
  | cons j js ih =>
    rw [patch, List.find?_cons]
    cases hlabel : labels.get? j.label with
    | none => rfl
    | some t => exact ih _

/-- Patching changes the targets of jumps only. -/
theorem unresolved_patch (js : List PendingJump) (body : List Located) :
    (patch labels js body).1.map (fun l => l.stmt.unresolved) =
      body.map fun l => l.stmt.unresolved := by
  induction js generalizing body with
  | nil => rfl
  | cons j js ih =>
    rw [patch]
    split
    · rfl
    · rename_i target _
      rw [ih]
      refine List.ext_getElem? fun i => ?_
      rw [List.getElem?_map, List.getElem?_map, List.getElem?_modify]
      cases body[i]? with
      | none => rfl
      | some l =>
        simp only [Option.map_eq_map, Option.map_some]
        split
        · rw [Stmt.unresolved_setTarget]
        · rfl

/-! ### Closing the labels of a draft -/

variable {d : Draft}

theorem closeLabels_cases (d : Draft) :
    d.closeLabels = d ∧ d.waiting = [] ∨ d.closeLabels = d.emit .nop ∧ d.waiting ≠ [] := by
  unfold closeLabels
  split
  · rename_i hnone
    exact .inl ⟨rfl, List.isEmpty_iff.1 hnone⟩
  · rename_i hsome
    exact .inr ⟨rfl, fun hnone => hsome (List.isEmpty_iff.2 hnone)⟩

/-- Closing the labels keeps what a `nop` at the end keeps. -/
theorem closeLabels_of_emit {P : Draft → Prop} (h : P d) (hemit : P (d.emit .nop)) :
    P d.closeLabels := by
  obtain ⟨heq, -⟩ | ⟨heq, -⟩ := d.closeLabels_cases <;> rw [heq]
  · exact h
  · exact hemit

/-! ### Resolving the jumps of a draft -/

/-- The jumps that wait are those of the body, in order. -/
def Listed (d : Draft) : Prop := d.jumps = pendingFrom 0 d.method.body

theorem listed_ofMethod {m : Method} (hm : m.stmts = []) : (ofMethod m).Listed := by
  have hbody : m.body = [] := List.map_eq_nil_iff.1 hm
  rw [Listed, ofMethod, hbody]
  rfl

/-- **A statement that is appended puts its jumps on the list.** -/
theorem Listed.emit (h : d.Listed) (s : Stmt) : (d.emit s).Listed := by
  have hjumps : (d.emit s).jumps = d.jumps ++ s.pendingJumps d.method.body.length := rfl
  have hbody : (d.emit s).method.body = d.method.body ++ [⟨s, d.line⟩] := rfl
  rw [Listed, hjumps, hbody, h, pendingFrom, pendingFrom, List.zipIdx_append, List.flatMap_append,
    Nat.zero_add]
  simp

theorem Listed.closeLabels (h : d.Listed) : d.closeLabels.Listed :=
  closeLabels_of_emit h (h.emit .nop)

/-- No label is undefined exactly if every jump finds its label. -/
theorem resolveJumps_snd_eq_none_iff (h : d.Listed) : d.resolveJumps.2 = none ↔
    ∀ s ∈ d.method.stmts, ∀ j ∈ s.jumps, ∃ i, d.labels.get? j.label = some i := by
  have hmissing : d.resolveJumps.2 = none ↔
      ∀ j ∈ d.jumps, ∃ i, d.labels.get? j.label = some i := by
    show (patch d.labels d.jumps d.method.body).2 = none ↔ _
    simp [patch_snd, Option.ne_none_iff_exists']
  have hlabels (name : String) : (∃ j ∈ pendingFrom 0 d.method.body, j.label = name) ↔
      ∃ s ∈ d.method.stmts, ∃ j ∈ s.jumps, j.label = name := label_mem_pendingFrom
  rw [hmissing, h]
  constructor
  · intro hall s hs j hj
    obtain ⟨pending, hpending, heq⟩ := (hlabels j.label).2 ⟨s, hs, j, hj, rfl⟩
    exact heq ▸ hall pending hpending
  · intro hall pending hpending
    obtain ⟨s, hs, j, hj, heq⟩ := (hlabels pending.label).1 ⟨pending, hpending, rfl⟩
    exact heq ▸ hall s hs j hj

/-- **If no label is undefined, every jump is resolved.** -/
theorem stmts_resolveJumps (h : d.Listed) (hnone : d.resolveJumps.2 = none) :
    d.resolveJumps.1.method.stmts = d.method.stmts.map (Stmt.mapJumps (resolve d.labels)) := by
  have hdefined := (resolveJumps_snd_eq_none_iff h).1 hnone
  have hpatched : patch d.labels d.jumps d.method.body =
      (d.method.body.map (resolveLocated d.labels), none) := by
    rw [h]
    exact @patch_body _ [] _ fun l hl => hdefined l.stmt (List.mem_map_of_mem hl)
  calc d.resolveJumps.1.method.stmts
    _ = (patch d.labels d.jumps d.method.body).1.map Located.stmt := rfl
    _ = (d.method.body.map (resolveLocated d.labels)).map Located.stmt := by rw [hpatched]
    _ = d.method.stmts.map (Stmt.mapJumps (resolve d.labels)) := by
      rw [Method.stmts, List.map_map, List.map_map]
      rfl

/-- Resolving changes the targets of jumps only, whether or not it succeeds. -/
theorem unresolved_resolveJumps (d : Draft) :
    d.resolveJumps.1.method.stmts.map Stmt.unresolved = d.method.stmts.map Stmt.unresolved := by
  rw [Method.stmts, Method.stmts, List.map_map, List.map_map]
  exact unresolved_patch d.jumps d.method.body

/-- A statement whose jumps were resolved is as it was but for their targets. -/
theorem exists_of_getElem?_resolveJumps {i : Nat} {s : Stmt}
    (hs : d.resolveJumps.1.method.stmts[i]? = some s) :
    ∃ t, d.method.stmts[i]? = some t ∧ t.unresolved = s.unresolved := by
  have hsame := congrArg (·[i]?) d.unresolved_resolveJumps
  simp only [List.getElem?_map, hs, Option.map_some] at hsame
  exact Option.map_eq_some_iff.1 hsame.symm

theorem exists_of_mem_resolveJumps {s : Stmt} (hs : s ∈ d.resolveJumps.1.method.stmts) :
    ∃ t ∈ d.method.stmts, t.unresolved = s.unresolved := by
  obtain ⟨i, hi⟩ := List.mem_iff_getElem?.1 hs
  obtain ⟨t, ht, hsame⟩ := exists_of_getElem?_resolveJumps hi
  exact ⟨t, List.mem_of_getElem? ht, hsame⟩

theorem length_resolveJumps (d : Draft) :
    d.resolveJumps.1.method.stmts.length = d.method.stmts.length := by
  have hlength := congrArg List.length d.unresolved_resolveJumps
  rwa [List.length_map, List.length_map] at hlength

/-! ### Finishing a draft -/

/-- Finishing leaves the draft as it is, gives an undefined label, or builds the graph of a body whose
labels are all defined. -/
theorem finish_cases (d : Draft) :
    d.finish = (d, none) ∧ (d.method.hasBody = true → d.method.cfg.isSome = true) ∨
      (∃ l, d.closeLabels.resolveJumps.2 = some l ∧
        d.finish = (d.closeLabels.resolveJumps.1, some l)) ∨
      d.closeLabels.resolveJumps.2 = none ∧
        d.finish = (d.closeLabels.resolveJumps.1.buildGraph, none) := by
  unfold finish
  split
  · rename_i hdone
    refine .inl ⟨rfl, fun hbody => ?_⟩
    simpa [hbody] using hdone
  · split
    · rename_i hresolve
      rw [hresolve]
      exact .inr (.inl ⟨_, rfl, rfl⟩)
    · rename_i hresolve
      rw [hresolve]
      exact .inr (.inr ⟨rfl, rfl⟩)

/-- The same for a body that is not finished yet. -/
theorem finish_cases_of_unfinished (hbody : d.method.hasBody = true) (hcfg : d.method.cfg = none) :
    (∃ l, d.closeLabels.resolveJumps.2 = some l ∧
        d.finish = (d.closeLabels.resolveJumps.1, some l)) ∨
      d.closeLabels.resolveJumps.2 = none ∧
        d.finish = (d.closeLabels.resolveJumps.1.buildGraph, none) := by
  obtain ⟨-, hdone⟩ | hcases := d.finish_cases
  · have hsome := hdone hbody
    rw [hcfg] at hsome
    cases hsome
  · exact hcases

end Draft

end HeapFlow
