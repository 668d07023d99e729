import HeapFlow.Proofs.Constants.Flow
import HeapFlow.Proofs.Constants.Intra
import HeapFlow.Proofs.Constants.LeastSolution
/-!
# HeapFlow.Proofs.Constants.Refinement

**Facts across calls refine the facts of each method on its own.** Where nothing divides, the facts that
interprocedural constant propagation computes are below those of the method on its own at every point of
a run: callers know more of the parameters than nothing, and what calls and loads give is more than
nothing too. In the other direction, no constant that is found within a method is lost: whenever a run
within the method gives a variable a constant, that constant was brought along an edge that the
interprocedural graph has as well. So the two agree on every constant of the method on its own.
-/

namespace HeapFlow

open Dataflow

/-! ### Refinement -/

namespace Fact

variable {f g h : Fact}

/-- Where one fact is constant, the other admits the constant. -/
def Keeps (f h : Fact) : Prop := ∀ i k, f.get i = .const k → .const k ≤ h.get i

/-- One fact refines another: it is below it, and equal wherever that one is constant. -/
structure Refines (h f : Fact) : Prop where
  le : h ≤ f
  const : ∀ i k, f.get i = .const k → h.get i = .const k

theorem Keeps.trans_le (hfg : f.Keeps g) (hgh : g ≤ h) : f.Keeps h :=
  fun i k hk => (hfg i k hk).trans (hgh i)

theorem Keeps.refines (hkeeps : f.Keeps h) (hle : h ≤ f) : h.Refines f := by
  refine ⟨hle, fun i k hk => le_antisymm ?_ (hkeeps i k hk)⟩
  rw [← hk]
  exact hle i

/-- A constant in the least fact above some facts is in one of them. -/
theorem exists_const_of_isLUB {facts : Set Fact} (hf : IsLUB facts f) {i : Nat} {k : Int32}
    (hk : f.get i = .const k) : ∃ g ∈ facts, g.get i = .const k := by
  by_contra hno
  -- else the facts are below one that does not know the variable
  have hbelow : f ≤ f.remove i := by
    refine hf.2 fun g hg j => ?_
    have hle := hf.1 hg j
    rw [get_remove]
    split
    · rename_i heq
      subst heq
      rw [hk] at hle
      obtain hundefined | hconst := Value.le_const_iff.1 hle
      · exact hundefined.le
      · exact absurd ⟨g, hg, hconst⟩ hno
    · exact hle
  have hle := hbelow i
  rw [hk, get_remove, if_pos rfl, Value.le_undefined_iff] at hle
  cases hle

end Fact

/-- Only constants give a constant. -/
theorem BinOp.exists_of_evaluate_eq_const {op : BinOp} {x y : Value} {k : Int32}
    (h : op.evaluate x y = .const k) : ∃ a b, x = .const a ∧ y = .const b := by
  unfold evaluate at h
  split at h
  · cases h
  · cases x <;> cases y <;> first | exact ⟨_, _, rfl, rfl⟩ | cases h

/-- An expression keeps the constants that the variables keep. -/
theorem Expr.const_le_evaluate {e : Expr} {f h : Fact} (hkeeps : f.Keeps h) {k : Int32}
    (hk : e.evaluate f = .const k) : .const k ≤ e.evaluate h := by
  cases e with
  | var v => exact hkeeps v.index k hk
  | int n => exact hk.ge
  | binary op x y =>
    obtain ⟨a, b, hx, hy⟩ := BinOp.exists_of_evaluate_eq_const hk
    have hxle : f.get x.index ≤ h.get x.index := hx ▸ hkeeps x.index a hx
    have hyle : f.get y.index ≤ h.get y.index := hy ▸ hkeeps y.index b hy
    rw [← hk]
    refine BinOp.evaluate_mono hxle hyle fun hretracts => ?_
    rw [hx] at hretracts
    cases hretracts.2.1
  | null | cast | load | new => cases hk

/-- A fact that refines another one evaluates operations to the same constants. -/
theorem Fact.Refines.evaluate_binary {f h : Fact} (hrefines : h.Refines f) {op : BinOp} {x y : Var}
    {k : Int32} (hk : (Expr.binary op x y).evaluate f = .const k) :
    (Expr.binary op x y).evaluate h = .const k := by
  obtain ⟨a, b, hx, hy⟩ := BinOp.exists_of_evaluate_eq_const hk
  rw [Expr.evaluate, hx, hy] at hk
  rw [Expr.evaluate, hrefines.const _ a hx, hrefines.const _ b hy, hk]

namespace Constants

variable {c : Setting} {m : Method} {g : Cfg} {n : Node} {f h : Fact}

/-! ### One node -/

theorem nodeTransfer_of_stmtAt? (hm : c.program.method? m.id = some m) {s : Stmt}
    (hs : stmtAt? c ⟨m.id, n⟩ = some s) (f : Fact) : nodeTransfer m n f = s.transfer f := by
  obtain ⟨i, m', hn, hm', hstmt⟩ := stmtAt?_eq_some.1 hs
  obtain rfl : m = m' := Option.some.inj (hm.symm.trans hm')
  obtain rfl : n = .stmt i := hn
  exact nodeTransfer_stmt hstmt f

theorem nodeTransfer_of_no_stmt (hm : c.program.method? m.id = some m)
    (hs : stmtAt? c ⟨m.id, n⟩ = none) (f : Fact) : nodeTransfer m n f = f := by
  obtain ⟨i, s, rfl, hstmt⟩ | hkeeps := nodeTransfer_cases m n
  · rw [stmtAt?_eq_some.2 ⟨i, m, rfl, hm, hstmt⟩] at hs
    cases hs
  · exact hkeeps f

/-- After a call, nothing is known of its result. -/
theorem get_nodeTransfer_intResult (hm : c.program.method? m.id = some m) {w : Var}
    (hw : intResult? c ⟨m.id, n⟩ = some w) (f : Fact) : (nodeTransfer m n f).get w.index = .nac := by
  obtain ⟨result, call, hs⟩ : ∃ result call, stmtAt? c ⟨m.id, n⟩ = some (.invoke result call) := by
    unfold intResult? at hw
    split at hw
    · rename_i result call hs
      exact ⟨_, _, hs⟩
    · cases hw
  obtain ⟨rfl, hint⟩ := (intResult?_eq_some hs).1 hw
  have htransfer : (Stmt.invoke (some w) call).transfer f = f.update w.index .nac := if_pos hint
  rw [nodeTransfer_of_stmtAt? hm hs, htransfer, Fact.get_update, if_pos rfl]

/-- **What a point makes of a fact, and what the node makes of it in the method on its own.** The method
on its own forgets what calls and loads give, where the point may know something. Both compute every
other integer variable in the same way. -/
theorem node_cases (hm : c.program.method? m.id = some m) (n : Node) :
    (∃ i, ∀ heap f, nodeTransfer m n f = f.update i .nac ∧
      ∀ j, i ≠ j → (effect c ⟨m.id, n⟩ heap f).after.get j = f.get j) ∨
    (∃ (i : Nat) (e : Expr), ∀ heap f, nodeTransfer m n f = f.update i (e.evaluate f) ∧
      (effect c ⟨m.id, n⟩ heap f).after = f.update i (e.evaluate f)) ∨
    ∀ heap f, nodeTransfer m n f = f ∧ (effect c ⟨m.id, n⟩ heap f).after = f := by
  cases hs : stmtAt? c ⟨m.id, n⟩ with
  | none =>
    exact .inr (.inr fun heap f =>
      ⟨nodeTransfer_of_no_stmt hm hs f, after_of_keeps (by simp [hs]) heap f⟩)
  | some s =>
    have hnode := nodeTransfer_of_stmtAt? hm hs
    cases s with
    | assign lhs e =>
      have hafter := after_of_assign hs
      by_cases hint : lhs.ty.holdsInt = true
      · have htransfer (f : Fact) :
            (Stmt.assign lhs e).transfer f = f.update lhs.index (e.evaluate f) := if_pos hint
        simp only [hint, if_true] at hafter
        cases e with
        | load place =>
          refine .inl ⟨lhs.index, fun heap f => ⟨(hnode f).trans (htransfer f), fun j hne => ?_⟩⟩
          rw [hafter, Fact.get_update, if_neg hne]
        | _ =>
          exact .inr (.inl ⟨lhs.index, _, fun heap f =>
            ⟨(hnode f).trans (htransfer f), hafter heap f⟩⟩)
      · simp only [hint] at hafter
        exact .inr (.inr fun heap f => ⟨(hnode f).trans (if_neg hint), hafter heap f⟩)
    | invoke result call =>
      have hafter (heap : HeapStore) (f : Fact) : (effect c ⟨m.id, n⟩ heap f).after = f :=
        after_of_keeps (by simp [hs]) heap f
      obtain ⟨_, _, heq, -⟩ | ⟨r, _, -, -, htransfer⟩ | htransfer :=
        (Stmt.invoke result call).transfer_cases
      · cases heq
      · exact .inl ⟨r.index, fun heap f =>
          ⟨(hnode f).trans (htransfer f), fun j _ => by rw [hafter]⟩⟩
      · exact .inr (.inr fun heap f => ⟨(hnode f).trans (htransfer f), hafter heap f⟩)
    | _ => exact .inr (.inr fun heap f => ⟨hnode f, after_of_keeps (by simp [hs]) heap f⟩)

/-- **A point makes no more of a fact than the node of its method.** -/
theorem after_le_nodeTransfer (hm : c.program.method? m.id = some m) (n : Node) (heap : HeapStore)
    (f : Fact) : (effect c ⟨m.id, n⟩ heap f).after ≤ nodeTransfer m n f := by
  obtain ⟨i, hforgets⟩ | ⟨i, e, hsame⟩ | hkeeps := node_cases hm n
  · obtain ⟨hnode, hafter⟩ := hforgets heap f
    intro j
    rw [hnode, Fact.get_update]
    split
    · exact Value.le_nac _
    · rename_i hne
      exact (hafter j hne).le
  · obtain ⟨hnode, hafter⟩ := hsame heap f
    rw [hnode, hafter]
  · obtain ⟨hnode, hafter⟩ := hkeeps heap f
    rw [hnode, hafter]

/-- **A point keeps the constants that the node of its method finds.** -/
theorem keeps_after (hm : c.program.method? m.id = some m) (n : Node) (hfh : f.Keeps h)
    (heap : HeapStore) : (nodeTransfer m n f).Keeps (effect c ⟨m.id, n⟩ heap h).after := by
  obtain ⟨i, hforgets⟩ | ⟨i, e, hsame⟩ | hkeeps := node_cases hm n
  · intro j k hk
    rw [(hforgets heap f).1, Fact.get_update] at hk
    split at hk
    · cases hk
    · rename_i hne
      rw [(hforgets heap h).2 j hne]
      exact hfh j k hk
  · intro j k hk
    rw [(hsame heap f).1, Fact.get_update] at hk
    rw [(hsame heap h).2, Fact.get_update]
    split
    · rename_i heq
      rw [if_pos heq] at hk
      exact Expr.const_le_evaluate hfh hk
    · rename_i hne
      rw [if_neg hne] at hk
      exact hfh j k hk
  · rw [(hkeeps heap f).1, (hkeeps heap h).2]
    exact hfh

/-! ### The edges inside a method -/

/-- Past a call, a fact in which nothing is known of the result admits what was admitted before. -/
theorem pastCall_le {pt : Point} (hfh : f ≤ h)
    (hresult : ∀ w, intResult? c pt = some w → h.get w.index = .nac) : pastCall c pt f ≤ h := by
  unfold pastCall
  split
  · rename_i w hw
    exact Fact.update_le hfh ((Value.le_nac _).trans_eq (hresult w hw).symm)
  · exact hfh

/-- What comes back from a callee is the result of the call only. -/
theorem outOfCallee_le {site : Site}
    (hresult : ∀ w, intResult? c site.point = some w → h.get w.index = .nac) (callee : MethodId)
    (f : Fact) : outOfCallee c site callee f ≤ h := by
  unfold outOfCallee
  split
  · rename_i w m hw _
    exact Fact.update_le bot_le ((Value.le_nac _).trans_eq (hresult w hw).symm)
  · exact bot_le

/-- Updates with values that a fact admits stay below it. -/
theorem foldl_update_le {α : Type} (index : α → Nat) (value : α → Value) (select : α → Bool)
    {xs : List α} (hxs : ∀ x ∈ xs, select x = true → value x ≤ h.get (index x)) (hfh : f ≤ h) :
    xs.foldl (fun out x => if select x then out.update (index x) (value x) else out) f ≤ h := by
  induction xs generalizing f with
  | nil => exact hfh
  | cons x xs ih =>
    obtain ⟨hx, hxs⟩ := List.forall_mem_cons.1 hxs
    rw [List.foldl_cons]
    refine ih hxs ?_
    split
    · rename_i hselect
      exact Fact.update_le hfh (hx hselect)
    · exact hfh

/-- Callers know no less of the parameters than nothing. -/
theorem intoCallee_le_entryFact (hm : c.program.method? m.id = some m) (hscoped : m.Scoped)
    (pt : Point) (f : Fact) : intoCallee c pt m.id f ≤ entryFact m := by
  unfold intoCallee
  split
  · rename_i result call m' _ hm'
    obtain rfl : m = m' := Option.some.inj (hm.symm.trans hm')
    split
    · refine foldl_update_le (fun x : Var × Var => x.2.index) (fun x => f.get x.1.index)
        (fun x => x.2.ty.holdsInt) (fun x hx hint => ?_) bot_le
      rw [get_entryFact hscoped (List.of_mem_zip hx).2 hint]
      exact Value.le_nac _
    · exact bot_le
  · exact bot_le

/-- An edge inside a method passes the fact on; past a call it does so but for the result. -/
theorem along_inside (call : Bool) (source target : Point) (f : Fact) :
    along c ⟨if call then .callToReturn else .normal, source, target⟩ f =
      if call then pastCall c source f else f := by
  cases call <;> rfl

/-- What a node passes on admits what the edges inside the method bring. -/
theorem along_inside_le (hm : c.program.method? m.id = some m) (target : Point)
    (hfh : f ≤ nodeTransfer m n h) :
    along c ⟨if Icfg.isCall m n then .callToReturn else .normal, ⟨m.id, n⟩, target⟩ f ≤
      nodeTransfer m n h := by
  rw [along_inside]
  split
  · exact pastCall_le hfh fun w hw => get_nodeTransfer_intResult hm hw h
  · exact hfh

/-- The edges inside the method keep the constants that a node finds. -/
theorem keeps_along_inside (hm : c.program.method? m.id = some m) (target : Point)
    (hkeeps : (nodeTransfer m n f).Keeps h) :
    (nodeTransfer m n f).Keeps
      (along c ⟨if Icfg.isCall m n then .callToReturn else .normal, ⟨m.id, n⟩, target⟩ h) := by
  rw [along_inside]
  split
  · intro i k hk
    -- the result of a call is no constant
    rw [get_pastCall_of_ne fun w hw heq => ?_]
    · exact hkeeps i k hk
    · rw [← heq, get_nodeTransfer_intResult hm hw] at hk
      cases hk
  · exact hkeeps

/-! ### Facts across calls are below -/

/-- The facts of a result are at the points of a method no greater than some facts before its nodes and
what its nodes make of them. -/
def Within (m : Method) (facts : Node → Fact) (r : Inter) : Prop :=
  ∀ n, r.factBefore ⟨m.id, n⟩ ≤ facts n ∧ r.factAfter ⟨m.id, n⟩ ≤ nodeTransfer m n (facts n)

variable {p : Program} {graph : MethodGraph} {objects : VarObjects} {r : Inter} {facts : Node → Fact}

/-- A statement of a program without divisions takes nothing back. -/
theorem not_nodeRetracts (hno : p.NeverDivides) {id : MethodId} (hm : p.method? id = some m)
    (n : Node) (f f' : Fact) : ¬ NodeRetracts m n f f' := by
  rintro ⟨i, s, -, hs, lhs, op, x, y, heq, -, hdivides, -⟩
  have hmem : s ∈ m.stmts := List.mem_of_getElem? ((m.stmt?_eq i).symm.trans hs)
  have hnot : s.divides = false := hno m (Program.mem_methods_of_method? hm) s hmem
  subst heq
  cases hdivides.symm.trans hnot

theorem eq_of_hasBody (hp : p.WellFormed) (hm : p.method? m.id = some m) (hg : m.cfg = some g)
    {m' : Method} {g' : Cfg} (hbody : Icfg.HasBody p graph m' g') (hid : m'.id = m.id) :
    m' = m ∧ g' = g := by
  obtain ⟨id, -, hm'⟩ := hbody.reachable
  have hmethod := (hp id m' hm').1
  rw [hid] at hmethod
  obtain rfl : m = m' := Option.some.inj (hm.symm.trans hmethod)
  exact ⟨rfl, Option.some.inj (hbody.cfg.symm.trans hg)⟩

section Below

variable (hp : p.Loaded) (hm : p.method? m.id = some m) (hg : m.cfg = some g)
  (hadmits : AdmitsFlow m g facts)

include hp hm hg hadmits

/-- What flows into a point of a method is admitted, whatever the other methods do. -/
theorem Within.incomingFact_le (h : Within m facts r) (n : Node) :
    incomingFact ⟨p, Icfg.build p graph, objects⟩ r ⟨m.id, n⟩ ≤ facts n := by
  let c : Setting := ⟨p, Icfg.build p graph, objects⟩
  have hmc : c.program.method? m.id = some m := hm
  have hscoped : m.Scoped := (hp.complete hm).vars
  refine incomingFact_le_iff.2 ⟨fun f hf => ?_, fun e he htarget => ?_⟩
  · obtain ⟨m', hm', hentry, rfl⟩ := exists_of_mem_boundary hf
    obtain rfl : m = m' := Option.some.inj (hm.symm.trans hm')
    obtain rfl : n = .entry := hentry
    exact hadmits.entry
  · cases Icfg.mem_edges.1 he with
    | @inside m' g' n' d hbody hn hd =>
      obtain ⟨hid, rfl⟩ := Point.mk.inj htarget
      obtain ⟨rfl, rfl⟩ := eq_of_hasBody hp.wellFormed hm hg hbody hid
      obtain ⟨hmem, rfl⟩ := Cfg.mem_outEdges.1 hd
      exact (along_inside_le hmc _ (h d.source).2).trans (hadmits.edge d hmem)
    | call =>
      obtain ⟨rfl, rfl⟩ := Point.mk.inj htarget
      exact (intoCallee_le_entryFact hmc hscoped _ _).trans hadmits.entry
    | @ret m' g' i callee next hbody hn hcall hcallee hcfg hnext =>
      obtain ⟨hid, rfl⟩ := Point.mk.inj htarget
      obtain ⟨rfl, rfl⟩ := eq_of_hasBody hp.wellFormed hm hg hbody hid
      obtain ⟨d, hmem, hsource, rfl⟩ := Cfg.mem_succs.1 hnext
      have hedge := hadmits.edge d hmem
      rw [hsource] at hedge
      -- the method on its own knows nothing of the result that comes back
      exact (outOfCallee_le (fun w hw => get_nodeTransfer_intResult hmc hw _) _ _).trans hedge

/-- **Computing a point stays within what the methods admit on their own.** -/
theorem Within.compute (hno : p.NeverDivides) (h : Within m facts r) (queue : Worklist Point)
    (pt : Point) :
    Within m facts (compute ⟨p, Icfg.build p graph, objects⟩ r queue pt).found := by
  intro n
  rw [factBefore_compute, factAfter_compute]
  by_cases hpt : pt = ⟨m.id, n⟩
  · subst hpt
    rw [if_pos rfl, if_pos rfl]
    have hincoming : incomingFact ⟨p, Icfg.build p graph, objects⟩ r ⟨m.id, n⟩ ≤ facts n :=
      h.incomingFact_le hp hm hg hadmits n
    refine ⟨hincoming, (after_le_nodeTransfer hm n r.heap _).trans ?_⟩
    exact nodeTransfer_mono hincoming (not_nodeRetracts hno hm n _ _)
  · rw [if_neg hpt, if_neg hpt]
    exact h n

theorem within_of_inter (hno : p.NeverDivides) {limit : Nat}
    (hr : inter ⟨p, Icfg.build p graph, objects⟩ limit = some r) : Within m facts r := by
  have hstart : Within m facts (interInit ⟨p, Icfg.build p graph, objects⟩).found := by
    intro n
    rw [factBefore_interInit, factAfter_interInit]
    exact ⟨bot_le, bot_le⟩
  have hend : ∃ s, Within m facts s.found ∧
      interStep ⟨p, Icfg.build p graph, objects⟩ s = .halt r := by
    refine Step.run_invariant (fun s s' hs hstep => ?_) hstart hr
    obtain ⟨pt, queue, -, rfl⟩ := interStep_eq_next.1 hstep
    exact hs.compute hp hm hg hadmits hno queue pt
  obtain ⟨s, hwithin, hhalt⟩ := hend
  obtain ⟨-, rfl⟩ := interStep_eq_halt.1 hhalt
  exact hwithin

end Below

/-! ### Constants of a method are kept -/

/-- Nothing is constant at the entry of a method on its own. -/
theorem entryFact_keeps (m : Method) (h : Fact) : (entryFact m).Keeps h := by
  have hunknown (vars : List Var) (f : Fact) (hf : f.Keeps h) :
      (vars.foldl (fun f v => f.update v.index .nac) f).Keeps h := by
    induction vars generalizing f with
    | nil => exact hf
    | cons v vars ih =>
      refine ih _ fun i k hk => ?_
      rw [Fact.get_update] at hk
      split at hk
      · cases hk
      · exact hf i k hk
  exact hunknown _ _ fun i k hk => by cases hk

theorem keeps_of_mem_seeds (hf : (intraProblem m).seeds.get? n = some f) (h : Fact) : f.Keeps h := by
  rw [seeds_intraProblem] at hf
  split at hf
  · cases hf
    exact entryFact_keeps m h
  · cases hf

/-- The constants of a state of a run within the method are kept. -/
structure Kept (m : Method) (g : Cfg) (r : Inter) (s : State Fact) : Prop where
  sound : Sound g (intraProblem m) s
  keeps : ∀ n, (s.get (intraProblem m) n).Keeps (r.factBefore ⟨m.id, n⟩)

theorem kept_init (m : Method) (g : Cfg) (r : Inter) : Kept m g r (init g (intraProblem m)) := by
  refine ⟨sound_init g _, fun n => ?_⟩
  rw [get_init, Problem.first, Table.getD]
  cases hf : (intraProblem m).seeds.get? n with
  | none => exact fun i k hk => by cases hk
  | some f => exact keeps_of_mem_seeds hf _

section Kept

variable (hm : p.method? m.id = some m) (hbody : Icfg.HasBody p graph m g) (hclosed : g.Closed)
  (hsettled : ∀ pt ∈ (Icfg.build p graph).nodes, Settled ⟨p, Icfg.build p graph, objects⟩ r pt)

include hm hbody hclosed hsettled

/-- **An edge inside a method keeps the constants that its source finds.** -/
theorem keeps_along_edge {e : Cfg.Edge} (he : e ∈ g.edges)
    (hkeeps : f.Keeps (r.factBefore ⟨m.id, e.source⟩)) :
    (nodeTransfer m e.source f).Keeps (r.factBefore ⟨m.id, e.target⟩) := by
  obtain ⟨hsource, htarget⟩ := hclosed e he
  have hedge := Icfg.mem_edges.2 (.inside hbody hsource (Cfg.mem_outEdges.2 ⟨he, rfl⟩))
  have hafter := (hsettled _ (Icfg.mem_nodes.2 ⟨m, g, _, hbody, hsource, rfl⟩)).after
  have hle := (hsettled _ (Icfg.mem_nodes.2 ⟨m, g, _, hbody, htarget, rfl⟩)).along_le hedge rfl
  have hfound := keeps_after (c := ⟨p, Icfg.build p graph, objects⟩) hm e.source hkeeps r.heap
  rw [← hafter] at hfound
  exact (keeps_along_inside hm _ hfound).trans_le hle

/-- **A step within the method finds only constants that are kept.** -/
theorem Kept.step {s s' : State Fact} (h : Kept m g r s)
    (hstep : Dataflow.step g (intraProblem m) s = .next s') : Kept m g r s' := by
  refine ⟨h.sound.step hstep, fun n => ?_⟩
  obtain ⟨source, target, queue, hqueue, rfl⟩ := step_eq_next.1 hstep
  rw [get_follow]
  split
  · rename_i heq
    subst heq
    have hsource := h.sound.queue (source, target) (hqueue ▸ List.mem_cons_self)
    intro i k hk
    -- the constant arrives along an edge
    obtain ⟨f, hf, hconst⟩ := Fact.exists_const_of_isLUB
      ((joins_intraProblem m).incoming_isLUB hsource) hk
    obtain hseed | ⟨n, hn, rfl⟩ := hf
    · exact keeps_of_mem_seeds hseed _ i k hconst
    · rw [sources_forward rfl] at hn
      obtain ⟨e, he, rfl, rfl⟩ := Cfg.mem_preds.1 hn
      exact keeps_along_edge hm hbody hclosed hsettled he (h.keeps e.source) i k hconst
  · exact h.keeps n

theorem keeps_of_intra {fuel : Nat} {a : Solution Fact} (ha : intra fuel m g = some a) (n : Node) :
    (a.before n).Keeps (r.factBefore ⟨m.id, n⟩) := by
  obtain ⟨s, hrun, rfl⟩ := Option.map_eq_some_iff.1 ha
  obtain ⟨s', hkept, hhalt⟩ := Step.run_invariant
    (fun _ _ hs => hs.step hm hbody hclosed hsettled) (kept_init m g r) hrun
  obtain ⟨-, rfl⟩ := step_eq_halt.1 hhalt
  exact hkept.keeps n

end Kept

/-! ### Refinement of each method -/

/-- **Where nothing divides, the facts across calls refine those of each method on its own,** whatever
the call graph and the heap objects are. -/
theorem refines_of_inter (hp : p.Loaded) (hno : p.NeverDivides) (hm : p.method? m.id = some m)
    (hbody : Icfg.HasBody p graph m g) {limit : Nat}
    (hr : inter ⟨p, Icfg.build p graph, objects⟩ limit = some r) {fuel : Nat} {a : Solution Fact}
    (ha : intra fuel m g = some a) (hn : n ∈ g.nodes) :
    (r.factBefore ⟨m.id, n⟩).Refines (a.before n) ∧ (r.factAfter ⟨m.id, n⟩).Refines (a.after n) := by
  have hclosed : g.Closed := hp.closed hm hbody.cfg
  have hsettled := settled_of_inter (loadsHaveEdges_build hp.wellFormed graph objects) hr
  obtain ⟨hbefore, hafter⟩ :=
    within_of_inter hp hm hbody.cfg (admitsFlow_of_intra hclosed ha) hno hr n
  have hkeeps := keeps_of_intra hm hbody hclosed hsettled ha n
  refine ⟨hkeeps.refines hbefore, ?_⟩
  rw [after_of_intra hclosed ha hn]
  refine Fact.Keeps.refines ?_ hafter
  rw [(hsettled _ (Icfg.mem_nodes.2 ⟨m, g, n, hbody, hn, rfl⟩)).after]
  exact keeps_after (c := ⟨p, Icfg.build p graph, objects⟩) hm n hkeeps r.heap

/-- Without divisions, constant propagation within a method terminates. -/
theorem exists_intra (hno : p.NeverDivides) {id : MethodId} (hm : p.method? id = some m) (g : Cfg) :
    ∃ fuel a, intra fuel m g = some a := by
  obtain ⟨size, hspans⟩ := exists_spans_intraProblem m
  refine exists_solve_of_not_falls (joins_intraProblem m) hspans fun k s _ hfalls => ?_
  obtain ⟨source, target, queue, -, hretracts⟩ := stepRetracts_of_falls hfalls
  exact not_nodeRetracts hno hm _ _ _ hretracts

end Constants

end HeapFlow
