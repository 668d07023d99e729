import HeapFlow.Data.Index
/-!
# HeapFlow.Data.Adjacency

**Edges that are filed at both ends.** Besides the list of all edges there are two maps: one from each
source to the edges that leave it, one from each target to the edges that enter it. `add` appends an edge
to the list and to its two rows, and nothing else writes them.

Control-flow graphs and call graphs are all filed like this. What the rows hold is no part of their type:
it holds of what is built by `add` (`Filed.add`, `filed_ofEdges`).
-/

namespace HeapFlow

/-- Edges `ε` from `α` to `β`, with those that leave each source and those that enter each target. -/
structure Adjacency (ε α β : Type) where
  /-- All edges, the newest first. -/
  newest : List ε
  leaving : Index α (List ε)
  entering : Index β (List ε)

namespace Adjacency

/-! ### Rows -/

section Rows

variable {ε κ : Type} [DecidableEq κ] [Keyed κ]

/-- Appends an edge to the row of a key. -/
def file (rows : Index κ (List ε)) (k : κ) (e : ε) : Index κ (List ε) :=
  rows.set k ((rows.get? k).getD [] ++ [e])

/-- Each key that edges have is written in front of the row of these edges, in their order; other keys
have no row. -/
def FiledBy (key : ε → κ) (es : List ε) (rows : Index κ (List ε)) : Prop :=
  ∀ k, rows.get? k =
    if ∃ e ∈ es, key e = k then some (es.filter fun e => key e = k) else none

variable {key : ε → κ} {es : List ε} {rows : Index κ (List ε)} {k : κ}

theorem filedBy_empty (key : ε → κ) : FiledBy key [] .empty := by
  intro k
  rw [Index.get?_empty, if_neg (by simp)]

theorem FiledBy.row_eq (h : FiledBy key es rows) (k : κ) :
    (rows.get? k).getD [] = es.filter fun e => key e = k := by
  rw [h k]
  split
  · rfl
  · rename_i hnone
    exact (List.filter_eq_nil_iff.2 fun e he heq => hnone ⟨e, he, of_decide_eq_true heq⟩).symm

theorem FiledBy.isSome_iff (h : FiledBy key es rows) :
    (rows.get? k).isSome = true ↔ ∃ e ∈ es, key e = k := by
  rw [h k]
  split
  · rename_i hsome
    exact iff_of_true rfl hsome
  · rename_i hnone
    exact iff_of_false Bool.false_ne_true hnone

/-- Filing an edge under its key. -/
theorem FiledBy.file (h : FiledBy key es rows) (e : ε) :
    FiledBy key (es ++ [e]) (file rows (key e) e) := by
  intro k
  rw [Adjacency.file, Index.get?_set]
  by_cases hk : key e = k
  · subst hk
    rw [if_pos rfl, h.row_eq, if_pos ⟨e, by simp, rfl⟩, List.filter_append]
    simp
  · have hsame : (∃ d ∈ es ++ [e], key d = k) ↔ ∃ d ∈ es, key d = k := by
      simp [or_and_right, exists_or, hk]
    have hrow : ((es ++ [e]).filter fun d => key d = k) = es.filter fun d => key d = k := by
      simp [hk]
    simp only [if_neg hk, h k, hsame, hrow]

end Rows

/-! ### Edges -/

variable {ε α β : Type} [DecidableEq α] [Keyed α] [DecidableEq β] [Keyed β]

def empty : Adjacency ε α β := ⟨[], .empty, .empty⟩

/-- All edges, the oldest first. -/
def edges (x : Adjacency ε α β) : List ε := x.newest.reverse

/-- Adds an edge. -/
def add (source : ε → α) (target : ε → β) (x : Adjacency ε α β) (e : ε) : Adjacency ε α β :=
  ⟨e :: x.newest, file x.leaving (source e) e, file x.entering (target e) e⟩

/-- Adds edges one after the other. -/
def ofEdges (source : ε → α) (target : ε → β) (es : List ε) : Adjacency ε α β :=
  es.foldl (add source target) empty

/-- The edges that leave a source. -/
def edgesFrom (x : Adjacency ε α β) (a : α) : List ε := (x.leaving.get? a).getD []

/-- The edges that enter a target. -/
def edgesInto (x : Adjacency ε α β) (b : β) : List ε := (x.entering.get? b).getD []

/-- Whether a node has a row, as a target or as a source. -/
def hasRow (x : Adjacency ε α α) (a : α) : Bool :=
  (x.entering.get? a).isSome || (x.leaving.get? a).isSome

/-! ### What is filed -/

/-- Each edge is filed under its source and under its target. -/
structure Filed (source : ε → α) (target : ε → β) (x : Adjacency ε α β) : Prop where
  leaving : FiledBy source x.edges x.leaving
  entering : FiledBy target x.edges x.entering

variable {source : ε → α} {target : ε → β} {x : Adjacency ε α β}

@[simp] theorem edges_add (x : Adjacency ε α β) (e : ε) :
    (x.add source target e).edges = x.edges ++ [e] :=
  List.reverse_cons

theorem edges_foldl_add (x : Adjacency ε α β) (es : List ε) :
    (es.foldl (add source target) x).edges = x.edges ++ es := by
  induction es generalizing x with
  | nil => simp
  | cons e es ih => rw [List.foldl_cons, ih, edges_add, List.append_assoc, List.singleton_append]

@[simp] theorem edges_ofEdges (source : ε → α) (target : ε → β) (es : List ε) :
    (ofEdges source target es).edges = es :=
  edges_foldl_add empty es

theorem filed_empty (source : ε → α) (target : ε → β) :
    (empty : Adjacency ε α β).Filed source target :=
  ⟨filedBy_empty source, filedBy_empty target⟩

/-- **Adding an edge files it at both ends.** -/
theorem Filed.add (h : x.Filed source target) (e : ε) : (x.add source target e).Filed source target where
  leaving := by
    rw [edges_add]
    exact h.leaving.file e
  entering := by
    rw [edges_add]
    exact h.entering.file e

theorem Filed.foldl_add (h : x.Filed source target) (es : List ε) :
    (es.foldl (Adjacency.add source target) x).Filed source target := by
  induction es generalizing x with
  | nil => exact h
  | cons e es ih => exact ih (h.add e)

/-- **Edges that are added one after the other are all filed.** -/
theorem filed_ofEdges (source : ε → α) (target : ε → β) (es : List ε) :
    (ofEdges source target es).Filed source target :=
  (filed_empty source target).foldl_add es

theorem Filed.edgesFrom_eq (h : x.Filed source target) (a : α) :
    x.edgesFrom a = x.edges.filter fun e => source e = a :=
  h.leaving.row_eq a

theorem Filed.edgesInto_eq (h : x.Filed source target) (b : β) :
    x.edgesInto b = x.edges.filter fun e => target e = b :=
  h.entering.row_eq b

theorem Filed.hasRow_iff {x : Adjacency ε α α} {source target : ε → α} (h : x.Filed source target)
    {a : α} : x.hasRow a = true ↔ ∃ e ∈ x.edges, source e = a ∨ target e = a := by
  rw [hasRow, Bool.or_eq_true, h.entering.isSome_iff, h.leaving.isSome_iff, or_comm]
  simp only [and_or_left, exists_or]

end Adjacency

end HeapFlow
