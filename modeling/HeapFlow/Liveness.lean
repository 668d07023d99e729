import HeapFlow.Data.IndexMap
import HeapFlow.Dataflow.Solve
import HeapFlow.Ir.Method
/-!
# HeapFlow.Liveness

**Live variables.** A variable is live at a point if some path from there reads it before it is
defined again. Sets of variables are kept by index, in increasing order.
-/

namespace HeapFlow

/-- A set of variables of a method, by index. -/
abbrev VarSet := IndexMap Unit

namespace VarSet

def insert (s : VarSet) (v : Var) : VarSet := IndexMap.set s v.index ()

def remove (s : VarSet) (v : Var) : VarSet := IndexMap.erase s v.index

def contains (s : VarSet) (v : Var) : Bool := (IndexMap.get? s v.index).isSome

def union (s t : VarSet) : VarSet := (IndexMap.keys t).foldl (fun s i => IndexMap.set s i ()) s

/-- Indexes of variables. -/
def Mem (s : VarSet) (i : Nat) : Prop := (IndexMap.get? s i).isSome = true

theorem ext_mem {s t : VarSet} (h : ∀ i, s.Mem i ↔ t.Mem i) : s = t :=
  IndexMap.ext_get? fun i => Option.ext fun () => by
    have hi := h i
    simp only [Mem, Option.isSome_iff_exists] at hi
    exact ⟨fun hs => (hi.1 ⟨(), hs⟩).elim fun _ ht => ht, fun ht => (hi.2 ⟨(), ht⟩).elim fun _ hs => hs⟩

@[simp] theorem mem_empty (i : Nat) : ¬ Mem ∅ i := Bool.false_ne_true

@[simp] theorem mem_union {s t : VarSet} {i : Nat} : (s.union t).Mem i ↔ s.Mem i ∨ t.Mem i := by
  have hfold (is : List Nat) : Mem (is.foldl (fun s i => IndexMap.set s i ()) s) i ↔
      s.Mem i ∨ i ∈ is := by
    induction is generalizing s with
    | nil => simp
    | cons j is ih =>
      rw [List.foldl_cons, ih, Mem, IndexMap.get?_set]
      by_cases hj : j = i
      · simp [hj]
      · simp [hj, Ne.symm hj, Mem]
  rw [union, hfold, IndexMap.mem_keys]
  rfl

end VarSet

namespace Liveness

/-- What is live before a statement, given what is live after it. -/
def stmtTransfer (s : Stmt) (live : VarSet) : VarSet :=
  let live := match s.defined? with
    | some v => VarSet.remove live v
    | none => live
  s.uses.foldl VarSet.insert live

/-- What is live before a node. -/
def nodeTransfer (m : Method) (n : Node) (live : VarSet) : VarSet :=
  match n with
  | .stmt i =>
    match m.stmt? i with
    | some s => stmtTransfer s live
    | none => live
  | .entry | .exit => live

/-- Live variables as a data-flow problem. -/
def problem (m : Method) : Dataflow.Problem VarSet where
  direction := .backward
  top := ∅
  merge := VarSet.union
  transfer := nodeTransfer m
  seeds := Table.set ∅ .exit ∅

/-- The live variables of a method over its graph, found in at most `fuel` steps. -/
def solve (fuel : Nat) (m : Method) (g : Cfg) : Option (Dataflow.Solution VarSet) :=
  Dataflow.solve g (problem m) fuel

end Liveness

end HeapFlow
