import HeapFlow.Proofs.DeadCode
import HeapFlow.Session
import Mathlib
/-!
# HeapFlow.Proofs.Session

**What the results that a session keeps have to do with each other.** The points-to analysis leaves the
other results as they are. The control-flow graph of a session was built over some call graph of its
program, and the constant facts were found over that graph. This holds from the opening on, whichever
analyses are run and whether they succeed or fail. So the constant facts of a session refine those of
each method on its own, and they show at least as much dead code.
-/

namespace HeapFlow

open Std.Do

set_option mvcgen.warning false

namespace Session

variable {p : Program} {s t : Session}

/-- Two sessions on one program keep the same graph and the same constant facts. -/
structure SameResults (s t : Session) : Prop where
  program : t.program = s.program
  icfg : t.icfg? = s.icfg?
  constants : t.constants? = s.constants?

/-- What a session keeps agrees: the graph is that of its program over a call graph, and the constant
facts were found over the graph. The program is the one that the session was opened on, up to its entry
methods. -/
structure Coherent (p : Program) (s : Session) : Prop where
  program : s.program = { p with entries := s.program.entries }
  icfg : ∀ g, s.icfg? = some g → ∃ graph, g = Icfg.build s.program graph
  constants : ∀ r, s.constants? = some r → ∃ g objects limit, s.icfg? = some g ∧
    Constants.inter ⟨s.program, g, objects⟩ limit = some r

theorem Coherent.congr (h : Coherent p s) (hsame : SameResults s t) : Coherent p t := by
  obtain ⟨hprogram, hicfg, hconstants⟩ := hsame
  refine ⟨?_, ?_, ?_⟩
  · rw [hprogram]
    exact h.program
  · rw [hicfg, hprogram]
    exact h.icfg
  · rw [hicfg, hconstants, hprogram]
    exact h.constants

/-- A session that was just opened keeps nothing. -/
theorem coherent_of_openOn {options : Options} (h : openOn p options = .ok s) : Coherent p s := by
  simp only [openOn, bind_eq_ok] at h
  obtain ⟨entries, -, h⟩ := h
  split at h
  · cases h
  · cases h
    exact ⟨rfl, fun _ hg => (by cases hg), fun _ hr => (by cases hr)⟩

/-- Keeping a graph that was built keeps a session coherent that had none. -/
theorem Coherent.setIcfg (h : Coherent p s) (hnone : s.icfg? = none) (graph : MethodGraph) :
    Coherent p { s with icfg? := some (Icfg.build s.program graph) } := by
  refine ⟨h.program, fun g hg => ⟨graph, (Option.some.inj hg).symm⟩, fun r hr => ?_⟩
  obtain ⟨g, -, -, hg, -⟩ := h.constants r hr
  rw [hnone] at hg
  cases hg

/-- Keeping the constant facts over the graph keeps a session coherent. -/
theorem Coherent.setConstants (h : Coherent p s) {g : Icfg} (hg : s.icfg? = some g)
    {objects : VarObjects} {limit : Nat} {r : Constants.Inter}
    (hr : Constants.inter ⟨s.program, g, objects⟩ limit = some r) :
    Coherent p { s with constants? := some r } := by
  refine ⟨h.program, h.icfg, fun r' hr' => ?_⟩
  obtain rfl := Option.some.inj hr'
  exact ⟨g, objects, limit, hg, hr⟩

end Session

namespace Analysis

open Session

variable {p : Program} {α β : Type}

/-! ### What the analyses do to a session -/

/-- The points-to analysis leaves the other results as they are. -/
@[spec] theorem pointsTo_spec (u : Session) :
    ⦃fun s => ⌜s = u⌝⦄ pointsTo
    ⦃post⟨fun _ s => ⌜SameResults u s⌝, fun _ s => ⌜SameResults u s⌝⟩⦄ := by
  mvcgen [pointsTo, runPointsTo, report, finished] <;> subst_vars <;> exact ⟨rfl, rfl, rfl⟩

/-- A session keeps the graph that it gives. -/
@[spec] theorem icfg_spec (p : Program) :
    ⦃fun s => ⌜Coherent p s⌝⦄ icfg
    ⦃post⟨fun g s => ⌜Coherent p s ∧ s.icfg? = some g⌝, fun _ s => ⌜Coherent p s⌝⟩⦄ := by
  mvcgen [icfg, program]
  · rename_i s h hnone pts t hsame graph u
    have hcoherent : Coherent p t := h.congr hsame
    exact ⟨hcoherent.setIcfg (hsame.icfg.trans hnone) _, rfl⟩
  · rename_i s h _ _ t
    exact fun hsame => h.congr hsame

/-- A session keeps the constant facts that it gives. -/
@[spec] theorem constants_spec (p : Program) :
    ⦃fun s => ⌜Coherent p s⌝⦄ constants
    ⦃post⟨fun r s => ⌜Coherent p s ∧ s.constants? = some r⌝, fun _ s => ⌜Coherent p s⌝⟩⦄ := by
  mvcgen [constants, constantsOver, program, finished, report]
  · rename_i s h _ g t ht pts u hsame r hr _ _
    have hcoherent : Coherent p u := ht.1.congr hsame
    have hkept := hcoherent.setConstants (hsame.icfg.trans ht.2) hr
    exact ⟨hkept.congr ⟨rfl, rfl, rfl⟩, rfl⟩
  · rename_i ht _ _ hsame _
    exact ht.1.congr hsame
  · rename_i ht _ _
    exact fun hsame => ht.1.congr hsame

/-! ### Runs -/

/-- What a triple says of a run. -/
theorem run_of_triple {a : Analysis α} {P : Session → Prop} {Q : α → Session → Prop}
    {E : Session → Prop} (h : ⦃fun s => ⌜P s⌝⦄ a ⦃post⟨fun x s => ⌜Q x s⌝, fun _ s => ⌜E s⌝⟩⦄)
    {s : Session} (hs : P s) :
    match a.run s with
    | .ok x t => Q x t
    | .error _ t => E t :=
  EStateM.of_wp_run_eq rfl
    (fun result : EStateM.Result Failure Session α => match result with
      | .ok x t => Q x t
      | .error _ t => E t) fun _ => h s hs

/-- The session that a computation leaves behind, whether it has a result or fails. -/
def left (a : Analysis α) (s : Session) : Session :=
  match a.run s with
  | .ok _ t | .error _ t => t

theorem left_of_triple {a : Analysis α} {P R : Session → Prop} {Q : α → Session → Prop}
    {E : Session → Prop} (h : ⦃fun s => ⌜P s⌝⦄ a ⦃post⟨fun x s => ⌜Q x s⌝, fun _ s => ⌜E s⌝⟩⦄)
    (hok : ∀ x t, Q x t → R t) (herror : ∀ t, E t → R t) {s : Session} (hs : P s) :
    R (a.left s) := by
  have hrun := run_of_triple h hs
  unfold left
  cases hresult : a.run s with
  | ok x t =>
    rw [hresult] at hrun
    exact hok x t hrun
  | error e t =>
    rw [hresult] at hrun
    exact herror t hrun

theorem run_bind_eq_ok {a : Analysis α} {f : α → Analysis β} {s u : Session} {y : β} :
    (a >>= f).run s = .ok y u ↔ ∃ x t, a.run s = .ok x t ∧ (f x).run t = .ok y u := by
  show EStateM.bind a f s = _ ↔ ∃ x t, a s = _ ∧ f x t = _
  unfold EStateM.bind
  cases a s <;> simp

/-- A computation has a result in a session. -/
def Gives (a : Analysis α) (s : Session) (x : α) : Prop := ∃ t, a.run s = .ok x t

instance [DecidableEq α] (a : Analysis α) (s : Session) (x : α) : Decidable (a.Gives s x) :=
  match h : a.run s with
  | .ok y t => decidable_of_iff (y = x) (by simp [Gives, h])
  | .error e t => isFalse (by simp [Gives, h])

theorem run_finished_eq_ok {x : Option α} {s t : Session} {y : α} :
    (finished x).run s = .ok y t ↔ x = some y ∧ t = s := by
  cases x with
  | none => exact ⟨nofun, nofun⟩
  | some x =>
    show EStateM.Result.ok x s = .ok y t ↔ _
    simp [eq_comm]

/-! ### Dead code -/

variable {m : Method} {g : Cfg} {s t : Session} {dead : List Nat}

/-- The dead statements of a method are those under its facts and its live variables. -/
theorem run_deadUnder_eq_ok (hg : m.cfg = some g) {facts : Node → Fact} :
    (deadUnder m facts).run s = .ok dead t ↔
      ∃ live, Liveness.solve allowedSteps m g = some live ∧
        dead = DeadCode.detect m g facts live.after ∧ t = s := by
  simp only [deadUnder, hg, liveVariables, run_bind_eq_ok, run_finished_eq_ok]
  constructor
  · rintro ⟨live, u, ⟨hlive, rfl⟩, hdead⟩
    cases hdead
    exact ⟨live, hlive, rfl, rfl⟩
  · rintro ⟨live, hlive, rfl, rfl⟩
    exact ⟨live, _, ⟨hlive, rfl⟩, rfl⟩

/-- Dead code by the facts of the method on its own. -/
theorem gives_intraDeadCode (hg : m.cfg = some g) : (intraDeadCode m).Gives s dead ↔
    ∃ facts live, Constants.intra allowedSteps m g = some facts ∧
      Liveness.solve allowedSteps m g = some live ∧
      dead = DeadCode.detect m g facts.before live.after := by
  simp only [Gives, intraDeadCode, intraConstants, hg, run_bind_eq_ok, run_finished_eq_ok,
    run_deadUnder_eq_ok hg]
  constructor
  · rintro ⟨t, facts, u, ⟨hfacts, -⟩, live, hlive, hdead, -⟩
    exact ⟨facts, live, hfacts, hlive, hdead⟩
  · rintro ⟨facts, live, hfacts, hlive, hdead⟩
    exact ⟨s, facts, s, ⟨hfacts, rfl⟩, live, hlive, hdead, rfl⟩

/-- Dead code by the constant facts of the session. -/
theorem gives_deadCode (hg : m.cfg = some g) : (deadCode m).Gives s dead ↔
    ∃ r live, constants.Gives s r ∧ Liveness.solve allowedSteps m g = some live ∧
      dead = DeadCode.detect m g (fun n => r.factBefore ⟨m.id, n⟩) live.after := by
  simp only [Gives, deadCode, run_bind_eq_ok, run_deadUnder_eq_ok hg]
  constructor
  · rintro ⟨t, r, u, hr, live, hlive, hdead, -⟩
    exact ⟨r, live, ⟨u, hr⟩, hlive, hdead⟩
  · rintro ⟨r, live, ⟨t, hr⟩, hlive, hdead⟩
    exact ⟨t, r, t, hr, live, hlive, hdead, rfl⟩

end Analysis

namespace Session

variable {p : Program} {s : Session}

/-! ### Sessions on a program -/

/-- The sessions on a program: one that was just opened, and what the whole-program analyses make of it
in any order, whether they succeed or fail. -/
inductive Reachable (p : Program) : Session → Prop
  | opened {options : Options} {s : Session} (h : openOn p options = .ok s) : Reachable p s
  | pointsTo {s : Session} (h : Reachable p s) : Reachable p (Analysis.pointsTo.left s)
  | icfg {s : Session} (h : Reachable p s) : Reachable p (Analysis.icfg.left s)
  | constants {s : Session} (h : Reachable p s) : Reachable p (Analysis.constants.left s)

/-- **In every session the kept results agree.** -/
theorem Reachable.coherent (h : Reachable p s) : Coherent p s := by
  induction h with
  | opened h => exact coherent_of_openOn h
  | pointsTo _ ih =>
    exact Analysis.left_of_triple (Analysis.pointsTo_spec _) (fun _ _ => ih.congr)
      (fun _ => ih.congr) rfl
  | icfg _ ih =>
    exact Analysis.left_of_triple (Analysis.icfg_spec p) (fun _ _ h => h.1) (fun _ => id) ih
  | constants _ ih =>
    exact Analysis.left_of_triple (Analysis.constants_spec p) (fun _ _ h => h.1) (fun _ => id) ih

/-- Where a session has constant facts, they are those of its program over its graph. -/
theorem Coherent.exists_of_constants (h : Coherent p s) {t : Session} {r : Constants.Inter}
    (hr : Analysis.constants.run s = .ok r t) : ∃ graph objects limit entries,
      t.icfg? = some (Icfg.build { p with entries } graph) ∧
      Constants.inter ⟨{ p with entries }, Icfg.build { p with entries } graph, objects⟩ limit =
        some r := by
  have hrun := Analysis.run_of_triple (Analysis.constants_spec p) h
  rw [hr] at hrun
  obtain ⟨hcoherent, hkept⟩ := hrun
  obtain ⟨g, objects, limit, hg, hinter⟩ := hcoherent.constants r hkept
  obtain ⟨graph, rfl⟩ := hcoherent.icfg g hg
  rw [hcoherent.program] at hg hinter
  exact ⟨graph, objects, limit, t.program.entries, hg, hinter⟩

end Session

open Constants

/-- **Across calls, constant propagation refines that of each method on its own.** In every session on a
program without divisions, constant propagation within a method of the graph terminates, and the
interprocedural facts are below those of the method and equal to them wherever they are constant. So the
session reports every statement as dead that the facts of the method on its own show to be dead. -/
theorem constants_refine_intra {p : Program} (hp : p.Loaded) (hno : p.NeverDivides) {s s' : Session}
    (hs : s.Reachable p) {r : Inter} (hr : Analysis.constants.run s = .ok r s') :
    ∃ icfg, s'.icfg? = some icfg ∧ ∀ id ∈ icfg.methods, ∃ m g,
      p.method? id = some m ∧ m.cfg = some g ∧
      (∃ fuel a, intra fuel m g = some a) ∧
      (∀ fuel a, intra fuel m g = some a → ∀ n ∈ g.nodes,
        (r.factBefore ⟨m.id, n⟩).Refines (a.before n) ∧
        (r.factAfter ⟨m.id, n⟩).Refines (a.after n)) ∧
      ∀ dead, (Analysis.intraDeadCode m).Gives s dead →
        ∃ dead', (Analysis.deadCode m).Gives s dead' ∧ dead ⊆ dead' := by
  obtain ⟨graph, objects, limit, entries, hicfg, hinter⟩ := hs.coherent.exists_of_constants hr
  refine ⟨_, hicfg, fun id hid => ?_⟩
  have hloaded : ({ p with entries } : Program).Loaded := hp.withEntries entries
  obtain ⟨m, g, hm, hbody⟩ := Icfg.exists_hasBody_of_mem_methods hid
  have hplace := (hloaded.wellFormed id m hm).1
  have hrefines {fuel : Nat} {a : Dataflow.Solution Fact} (ha : intra fuel m g = some a) {n : Node}
      (hn : n ∈ g.nodes) := refines_of_inter hloaded hno hplace hbody hinter ha hn
  refine ⟨m, g, hm, hbody.cfg, exists_intra hno hm g, fun _ _ ha _ hn => hrefines ha hn, ?_⟩
  intro dead hdead
  obtain ⟨a, live, ha, hlive, rfl⟩ := (Analysis.gives_intraDeadCode hbody.cfg).1 hdead
  refine ⟨_, (Analysis.gives_deadCode hbody.cfg).2 ⟨r, live, ⟨s', hr⟩, hlive, rfl⟩, ?_⟩
  exact DeadCode.detect_subset (hloaded.closed hm hbody.cfg)
    (fun n hn => (hrefines ha hn).1) live.after

/-- A method that is called with the number one only and then skips a statement that it would execute for
other numbers. Another statement is skipped whatever the method is called with. -/
def callsDocument : Json.Value :=
  let int (name : String) : Json.Value := .obj [("name", .str name), ("type", .str "int")]
  let const (lhs : String) : Json.Value :=
    .obj [("op", .str "const"), ("lhs", .str lhs), ("value", .num (.int 1))]
  let add (lhs : String) : Json.Value := .obj [("op", .str "binary"), ("operator", .str "+"),
    ("lhs", .str lhs), ("x", .str "p"), ("y", .str "x")]
  let skip (x target : String) : List (String × Json.Value) :=
    [("op", .str "if"), ("operator", .str "=="), ("x", .str x), ("y", .str "x"),
      ("target", .str target)]
  let main : Json.Value := .obj [("name", .str "main"), ("static", .bool true),
    ("vars", .arr [int "one", int "r"]), ("body", .arr [
      const "one",
      .obj [("op", .str "invoke"), ("lhs", .str "r"), ("kind", .str "static"),
        ("class", .str "Calls"), ("method", .str "int pick(int)"), ("args", .arr [.str "one"])],
      .obj [("op", .str "return")]])]
  let pick : Json.Value := .obj [("name", .str "pick"), ("static", .bool true),
    ("return", .str "int"), ("params", .arr [int "p"]), ("vars", .arr [int "x", int "y"]),
    ("body", .arr [
      const "x",
      .obj (skip "x" "test"),
      add "y",
      .obj (("label", .str "test") :: skip "p" "done"),
      add "x",
      .obj [("label", .str "done"), ("op", .str "return"), ("var", .str "x")]])]
  .obj [("classes", .arr [.obj [("name", .str "Calls"), ("methods", .arr [main, pick])]]),
    ("entry", .str "Calls.main")]

/-- The method on its own shows the first of the two statements to be dead, its session both. -/
theorem callsDocument_refines : ∃ s r s' m g,
    Session.openOn (.described callsDocument) (.ofPolicy .insensitive) = .ok s ∧
      Analysis.constants.run s = .ok r s' ∧
      (Program.described callsDocument).method? ⟨⟨0, "Calls"⟩, 1⟩ = some m ∧ m.cfg = some g ∧
      (∀ fuel a, intra fuel m g = some a → ∀ n ∈ g.nodes,
        (r.factBefore ⟨m.id, n⟩).Refines (a.before n) ∧
        (r.factAfter ⟨m.id, n⟩).Refines (a.after n)) ∧
      (Analysis.intraDeadCode m).Gives s [2] ∧ (Analysis.deadCode m).Gives s [2, 4] ∧
      ∃ dead, (Analysis.deadCode m).Gives s dead ∧ [2] ⊆ dead := by
  have hrun : (Session.openOn (.described callsDocument) (.ofPolicy .insensitive)).toOption.any
      (fun s => ((Program.described callsDocument).method? ⟨⟨0, "Calls"⟩, 1⟩).any fun m =>
        (Analysis.constants.left s).icfg?.any fun icfg => decide (
          ⟨⟨0, "Calls"⟩, 1⟩ ∈ icfg.methods ∧ (Analysis.intraDeadCode m).Gives s [2] ∧
          (Analysis.deadCode m).Gives s [2, 4])) = true := by
    decide +kernel
  obtain ⟨s, hs, hrun⟩ := (Option.any_eq_true _ _).1 hrun
  obtain ⟨m, hm, hrun⟩ := (Option.any_eq_true _ _).1 hrun
  obtain ⟨icfg, hicfg, hrun⟩ := (Option.any_eq_true _ _).1 hrun
  obtain ⟨hid, hintra, hinter⟩ := of_decide_eq_true hrun
  have hopen : Session.openOn (.described callsDocument) (.ofPolicy .insensitive) = .ok s := by
    cases hresult : Session.openOn (.described callsDocument) (.ofPolicy .insensitive) with
    | error e => simp [hresult, Except.toOption] at hs
    | ok s' =>
      rw [hresult] at hs
      exact congrArg Except.ok (Option.some.inj hs)
  obtain ⟨t, hdead⟩ := hinter
  obtain ⟨r, s', hr, -⟩ := Analysis.run_bind_eq_ok.1 hdead
  have hloaded : (Program.described callsDocument).Loaded := loaded_described (by decide +kernel)
  obtain ⟨icfg', hicfg', hmethods⟩ := constants_refine_intra hloaded (by decide +kernel)
    (.opened hopen) hr
  have hleft : Analysis.constants.left s = s' := by simp [Analysis.left, hr]
  rw [hleft, hicfg'] at hicfg
  cases hicfg
  obtain ⟨m', g, hm', hg, -, hrefines, hsubset⟩ := hmethods _ hid
  rw [hm] at hm'
  cases hm'
  exact ⟨s, r, s', m, g, hopen, hr, hm, hg, hrefines, hintra, ⟨t, hdead⟩, hsubset [2] hintra⟩

end HeapFlow
