import HeapFlow.Proofs.Ir.Statements
/-!
# HeapFlow.Proofs.Ir.Scoped

**The variables of loaded methods can be told apart by their indexes.** Each variable of a method
stands where its index says, and statements define declared variables only. So what is known of a
variable by its index is known of this variable and no other. A method that was read has a graph
unless it has no statements.
-/

namespace HeapFlow

namespace Method

/-- Every variable stands where its index says. The parameters are among the variables, the receiver
of an instance method is the first of them and no integer, and statements define variables of the
method. -/
structure Scoped (m : Method) : Prop where
  index : ∀ (i : Nat) (v : Var), m.vars[i]? = some v → v.index = i
  params : m.params.Sublist m.vars
  receiver : m.isStatic = false → ∃ v, m.vars.head? = some v ∧ v.ty.holdsInt = false
  defined : ∀ s ∈ m.stmts, ∀ v, s.defined? = some v → v ∈ m.vars

variable {m : Method}

/-- Variables with the same index are the same variable. -/
theorem Scoped.eq_of_index (h : m.Scoped) {v w : Var} (hv : v ∈ m.vars) (hw : w ∈ m.vars)
    (hindex : v.index = w.index) : v = w := by
  obtain ⟨i, hi⟩ := List.mem_iff_getElem?.1 hv
  obtain ⟨j, hj⟩ := List.mem_iff_getElem?.1 hw
  rw [h.index i v hi, h.index j w hj] at hindex
  subst hindex
  exact Option.some.inj (hi.symm.trans hj)

/-- Different parameters have different indexes. -/
theorem Scoped.params_distinct (h : m.Scoped) :
    m.params.Pairwise fun v w => v.index ≠ w.index := by
  refine List.Pairwise.sublist h.params (List.pairwise_iff_getElem.2 fun i j hi hj hlt => ?_)
  rw [h.index i _ (List.getElem?_eq_getElem hi), h.index j _ (List.getElem?_eq_getElem hj)]
  exact Nat.ne_of_lt hlt

theorem Scoped.holdsInt_receiver (h : m.Scoped) {v : Var} (hv : m.receiver? = some v) :
    v.ty.holdsInt = false := by
  unfold receiver? at hv
  split at hv
  · cases hv
  · rename_i hstatic
    obtain ⟨w, hw, hint⟩ := h.receiver (Bool.not_eq_true _ ▸ hstatic)
    obtain rfl := Option.some.inj (hw.symm.trans hv)
    exact hint

theorem mem_vars_of_receiver? {v : Var} (h : m.receiver? = some v) : v ∈ m.vars := by
  unfold receiver? at h
  split at h
  · cases h
  · exact List.mem_of_head? h

/-- A method is scoped as it is declared. -/
theorem scoped_declare : HoldsDeclared Scoped := by
  intro id name params returnType isStatic isAbstract
  have hparam (n i : Nat) (v : Var) (h : (params.zipIdx.map fun x =>
      (⟨n + x.2, x.1.1, x.1.2⟩ : Var))[i]? = some v) : v.index = n + i := by
    simp only [List.getElem?_map, List.getElem?_zipIdx, Option.map_map, Option.map_eq_some_iff] at h
    obtain ⟨x, -, rfl⟩ := h
    simp
  refine ⟨?_, List.sublist_append_right _ _, ?_, fun s hs => by cases hs⟩
  · intro i v hv
    cases isStatic with
    | true => simpa using hparam 0 i v hv
    | false =>
      -- the receiver is the first variable
      cases i with
      | zero =>
        cases hv
        rfl
      | succ i => exact (hparam 1 i v hv).trans (Nat.add_comm 1 i)
  · intro hstatic
    cases isStatic with
    | true => cases hstatic
    | false => exact ⟨_, rfl, rfl⟩

theorem Scoped.addVar (h : m.Scoped) (name : String) (ty : Ty) : (m.addVar name ty).Scoped := by
  refine ⟨?_, h.params.trans (List.sublist_append_left _ _), ?_, ?_⟩
  · intro i v hv
    obtain hv | ⟨rfl, rfl⟩ := cases_getElem?_concat hv
    · exact h.index i v hv
    · rfl
  · intro hstatic
    obtain ⟨v, hv, hint⟩ := h.receiver hstatic
    refine ⟨v, ?_, hint⟩
    show (m.vars ++ _).head? = some v
    rw [List.head?_append, hv]
    rfl
  · intro s hs v hv
    exact List.mem_append_left _ (h.defined s hs v hv)

/-- Another body whose statements define variables of the method. -/
theorem Scoped.withBody (h : m.Scoped) {m' : Method} (hvars : m'.vars = m.vars)
    (hparams : m'.params = m.params) (hstatic : m'.isStatic = m.isStatic)
    (hdefined : ∀ s ∈ m'.stmts, ∀ v, s.defined? = some v → v ∈ m.vars) : m'.Scoped := by
  refine ⟨?_, ?_, ?_, ?_⟩
  · rw [hvars]
    exact h.index
  · rw [hvars, hparams]
    exact h.params
  · rw [hvars, hstatic]
    exact h.receiver
  · rw [hvars]
    exact hdefined

end Method

namespace Document

open Json (Object)

/-! ### Bodies -/

variable {p : Program} {m : Method} {d d' : Draft}

/-- A draft of a method: its variables are in their places, and it has a body if the method has one. -/
structure DraftOf (m : Method) (d : Draft) : Prop where
  vars : d.method.Scoped
  hasBody : d.method.hasBody = m.hasBody

theorem draftOf_readVar {v : Json.Value} (hd : DraftOf m d) (h : readVar p d v = .ok d') :
    DraftOf m d' ∧ d'.method.body = d.method.body := by
  obtain ⟨name, ty, rfl⟩ := readVar_cases h
  exact ⟨⟨hd.vars.addVar name ty, hd.hasBody⟩, rfl⟩

theorem DraftOf.emit (hd : DraftOf m d) {s : Stmt}
    (hs : ∀ v, s.defined? = some v → v ∈ d.method.vars) : DraftOf m (d.emit s) := by
  refine ⟨hd.vars.withBody rfl rfl rfl fun t ht v hv => ?_, hd.hasBody⟩
  rw [stmts_emit] at ht
  obtain ht | ht := List.mem_append.1 ht
  · exact hd.vars.defined t ht v hv
  · obtain rfl := List.mem_singleton.1 ht
    exact hs v hv

theorem draftOf_readLine {v : Json.Value} {index : Nat} (hd : DraftOf m d)
    (h : readLine p d v index = .ok d') : DraftOf m d' := by
  obtain ⟨o, s, line, -, hs, rfl⟩ := readLine_cases h
  refine DraftOf.emit (d := (withLabel d o).atLine line) ⟨hd.vars, hd.hasBody⟩ fun v hv => ?_
  exact (legal_of_readStmt hs).vars v (List.mem_append_left _ (Option.mem_toList.2 hv))

/-- The targets of jumps are no part of what a statement defines. -/
theorem defined?_unresolved (s : Stmt) : s.unresolved.defined? = s.defined? := by
  cases s <;> rfl

theorem DraftOf.resolve (hd : DraftOf m d) : DraftOf m d.closeLabels.resolveJumps.1 := by
  have hclosed : DraftOf m d.closeLabels :=
    Draft.closeLabels_of_emit hd (hd.emit fun v hv => by cases hv)
  refine ⟨hclosed.vars.withBody rfl rfl rfl fun s hs v hv => ?_, hclosed.hasBody⟩
  obtain ⟨t, ht, hsame⟩ := Draft.exists_of_mem_resolveJumps hs
  have hdefined : t.defined? = s.defined? := by
    rw [← defined?_unresolved t, hsame, defined?_unresolved]
  exact hclosed.vars.defined t ht v (hdefined.trans hv)

/-- Finishing keeps the variables, and the method gets its graph if it has a body. -/
theorem DraftOf.finish (hd : DraftOf m d) (hbody : m.hasBody = true) {done : Draft}
    (h : d.finish = (done, none)) :
    done.method.Scoped ∧ done.method.cfg.isSome = true ∧ done.method.hasBody = true := by
  have hresolved := hd.resolve
  obtain ⟨hfinish, hdone⟩ | ⟨l, -, hfinish⟩ | ⟨-, hfinish⟩ := d.finish_cases
  · cases hfinish.symm.trans h
    have hhas : d.method.hasBody = true := hd.hasBody.trans hbody
    exact ⟨hd.vars, hdone hhas, hhas⟩
  · cases hfinish.symm.trans h
  · cases hfinish.symm.trans h
    exact ⟨hresolved.vars.withBody rfl rfl rfl hresolved.vars.defined, rfl,
      hresolved.hasBody.trans hbody⟩

/-- A method as it is declared: without statements. -/
structure Bare (m : Method) : Prop where
  vars : m.Scoped
  body : m.body = []

/-- A method that was read: an abstract method and one without a graph have no statements. -/
structure Complete (m : Method) : Prop where
  vars : m.Scoped
  cfg : m.cfg = none → m.stmts = []
  body : m.hasBody = false → m.stmts = []

theorem Bare.complete {m : Method} (h : Bare m) : Complete m := by
  have hnone : m.stmts = [] := by simp [Method.stmts, h.body]
  exact ⟨h.vars, fun _ => hnone, fun _ => hnone⟩

/-- **Reading a body completes a method.** -/
theorem complete_readBody : ReadingGives Bare Complete := by
  intro p m decl m' hm h
  obtain ⟨d, hvars, hcases⟩ := readBody_cases h
  have hd : DraftOf m d ∧ d.method.body = [] := by
    refine foldlM_invariant (fun d => DraftOf m d ∧ d.method.body = []) ?_
      ⟨⟨hm.vars, rfl⟩, hm.body⟩ hvars
    intro d v d' hd h
    obtain ⟨hdraft, hbody⟩ := draftOf_readVar hd.1 h
    exact ⟨hdraft, hbody.trans hd.2⟩
  obtain ⟨hbody, read, done, hread, hfinish, rfl⟩ | ⟨-, rfl⟩ := hcases
  · have hlines : DraftOf m read :=
      readLines_invariant (DraftOf m) (fun _ _ _ _ => draftOf_readLine) hd.1 hread
    obtain ⟨hdone, hcfg, hhas⟩ := hlines.finish hbody hfinish
    refine ⟨hdone, fun hnone => ?_, fun hnot => ?_⟩
    · rw [hnone] at hcfg
      cases hcfg
    · rw [hhas] at hnot
      cases hnot
  · exact Bare.complete ⟨hd.1.vars, hd.2⟩

end Document

/-- **Methods of loaded programs are complete.** -/
theorem Program.Loaded.complete {p : Program} (h : p.Loaded) {id : MethodId} {m : Method}
    (hm : p.method? id = some m) : Document.Complete m := by
  have hdeclare : Method.HoldsDeclared Document.Bare := fun _ _ _ _ _ _ =>
    ⟨Method.scoped_declare .., rfl⟩
  have hplaced : p.Placed Document.Complete :=
    h.placed hdeclare Document.complete_readBody fun _ => Document.Bare.complete
  exact (hplaced.of_method? hm).2.2

end HeapFlow
