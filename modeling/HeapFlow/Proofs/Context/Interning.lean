import HeapFlow.Context.Interned
import Mathlib.Data.Finset.Card
/-!
# HeapFlow.Proofs.Context.Interning

**Contexts of a table are equal exactly if their elements are** (`Contexts.interning_exact`). On a table
with the empty context every call amounts to asking for the context of some sequence (`append_eq_get`,
`truncate_eq_get`), and a table that is asked keeps the contexts that it has handed out where they are.
So whatever calls are made, no sequence has two contexts, and no context changes its elements. A table that
compares profiles finds the same contexts (`get_eq_find?`), as a profile says what the elements are.
-/

namespace HeapFlow

/-- A sequence is the last `limit` elements of another one, or all of it if it has no more. -/
structure Context.IsLast (limit : Nat) (c last : Context) : Prop where
  suffix : last <:+ c
  length : last.length = min limit c.length

theorem Context.isLast_truncate (c : Context) (limit : Nat) : IsLast limit c (c.truncate limit) :=
  ⟨List.drop_suffix _ c, by rw [length_truncate, Nat.min_comm]⟩

/-! ### Profiles -/

namespace Context

theorem addressWords_injective {a b : UInt64} (h : addressWords a = addressWords b) : a = b := by
  obtain ⟨hlow, hrest⟩ := List.cons.inj h
  have hlow : a.toNat % 2 ^ 32 = b.toNat % 2 ^ 32 := congrArg UInt32.toNat hlow
  have hhigh : a.toNat >>> 32 % 2 ^ 32 = b.toNat >>> 32 % 2 ^ 32 :=
    congrArg UInt32.toNat (List.cons.inj hrest).1
  have ha : a.toNat < 2 ^ 64 := a.toNat_lt
  have hb : b.toNat < 2 ^ 64 := b.toNat_lt
  rw [Nat.shiftRight_eq_div_pow, Nat.shiftRight_eq_div_pow] at hhigh
  exact UInt64.toNat.inj (by omega)

/-- **A profile says what the elements are**, if they have different addresses. -/
theorem profile_injective {address : ContextElement → UInt64} {c d : Context}
    (haddress : ∀ e ∈ c, ∀ e' ∈ d, address e = address e' → e = e')
    (h : c.profile address = d.profile address) : c = d := by
  have hwords : (c.flatMap fun e => addressWords (address e)) =
      d.flatMap fun e => addressWords (address e) := (List.cons.inj h).2
  clear h
  induction c generalizing d with
  | nil =>
    cases d with
    | nil => rfl
    | cons e' d => cases hwords
  | cons e c ih =>
    cases d with
    | nil => cases hwords
    | cons e' d =>
      obtain ⟨hfirst, hrest⟩ := List.append_inj hwords rfl
      have heq : e = e' := haddress e List.mem_cons_self e' List.mem_cons_self
        (addressWords_injective hfirst)
      have htail : c = d := ih (fun x hx y hy =>
        haddress x (List.mem_cons_of_mem _ hx) y (List.mem_cons_of_mem _ hy)) hrest
      rw [heq, htail]

end Context

namespace Contexts

variable {t t' : Contexts} {c d : ContextRef} {es : Context}

theorem findIdx?_congr {α : Type} {p q : α → Bool} {xs : List α} (h : ∀ x ∈ xs, p x = q x) :
    xs.findIdx? p = xs.findIdx? q := by
  induction xs with
  | nil => rfl
  | cons x xs ih =>
    obtain ⟨hx, hrest⟩ := List.forall_mem_cons.1 h
    rw [List.findIdx?_cons, List.findIdx?_cons, hx, ih hrest]

/-- **Comparing profiles is comparing sequences**, if the elements of the contexts have different
addresses. -/
theorem get_eq_find? {address : ContextElement → UInt64}
    (haddress : ∀ c ∈ t, ∀ e ∈ c, ∀ e' ∈ es, address e = address e' → e = e') :
    t.get es = match t.find? address es with
      | some place => (⟨place⟩, t)
      | none => (⟨t.size⟩, t.insert es) := by
  have hsame : ∀ c ∈ t.toList, (c.profile address == es.profile address) = (c == es) := by
    intro c hc
    rw [Bool.eq_iff_iff, beq_iff_eq, beq_iff_eq]
    exact ⟨Context.profile_injective (haddress c hc), congrArg _⟩
  have hfind : t.find? address es = t.toList.idxOf? es := findIdx?_congr hsame
  rw [hfind]
  exact rfl

/-! ### Asking a table -/

theorem Holds.elements_eq (h : t.Holds c es) : t.elements c = es := congrArg (Option.getD · []) h

theorem Holds.holds_elements (h : t.Holds c es) : t.Holds c (t.elements c) := h.elements_eq.symm ▸ h

/-- **Contexts with the same elements are the same.** -/
theorem Holds.unique (hc : t.Holds c es) (hd : t.Holds d es) : c = d := by
  have hlt : c.place < t.toList.length := (List.getElem?_eq_some_iff.1 hc).1
  have hplace : c.place = d.place := (List.getElem?_inj hlt t.nodup).1 (hc.trans hd.symm)
  cases c
  cases d
  exact congrArg ContextRef.mk hplace

/-- A context that is there is found again, and nothing is added. -/
theorem Holds.get_eq (h : t.Holds c es) : t.get es = (c, t) := by
  have hmem : es ∈ t := List.mem_of_getElem? h
  have htable : (t.get es).2 = t := by
    rw [snd_get, OrderedSet.insert, if_pos hmem]
  have hfound := t.holds_get es
  rw [htable] at hfound
  exact Prod.ext (hfound.unique h) htable

theorem elements_get (t : Contexts) (es : Context) : (t.get es).2.elements (t.get es).1 = es :=
  (t.holds_get es).elements_eq

/-- A table keeps the contexts of another one, each at its place. -/
def Keeps (t t' : Contexts) : Prop := t.toList <+: t'.toList

theorem Keeps.refl (t : Contexts) : t.Keeps t := List.prefix_rfl

theorem Keeps.trans {t'' : Contexts} (h : t.Keeps t') (h' : t'.Keeps t'') : t.Keeps t'' :=
  List.IsPrefix.trans h h'

/-- **A context keeps its elements.** -/
theorem Keeps.holds (h : t.Keeps t') (hc : t.Holds c es) : t'.Holds c es := by
  obtain ⟨hlt, heq⟩ := List.getElem?_eq_some_iff.1 hc
  rw [Holds, List.prefix_iff_getElem?.1 h c.place hlt, heq]

/-- A table that is asked for a context keeps those that it has. -/
theorem keeps_get (t : Contexts) (es : Context) : t.Keeps (t.get es).2 := by
  rw [Keeps, snd_get, OrderedSet.toList_insert]
  split
  · exact List.prefix_rfl
  · exact List.prefix_append ..

/-! ### Every call asks for a sequence -/

/-- A limit of zero need not be treated apart. -/
theorem append_eq_get (hempty : t.Holds .empty []) (hc : t.Holds c es) (e : ContextElement)
    (limit : Nat) : t.append c e limit = t.get (es.append e limit) := by
  unfold append
  split
  · rename_i hzero
    have hnil : es.append e limit = [] := by
      rw [hzero, Context.append, Context.truncate, Nat.sub_zero, List.drop_length]
    rw [hnil, hempty.get_eq]
  · rw [hc.elements_eq]

/-- A context that is short enough need not be treated apart. -/
theorem truncate_eq_get (hc : t.Holds c es) (limit : Nat) :
    t.truncate c limit = t.get (es.truncate limit) := by
  unfold truncate
  rw [hc.elements_eq]
  split
  · rename_i hshort
    rw [Context.truncate, Nat.sub_eq_zero_of_le hshort, List.drop_zero, hc.get_eq]
  · rfl

/-- **Cutting commutes with extending.** An extended context that is cut is the context that is
extended after it was cut. -/
theorem truncate_append_comm (hempty : t.Holds .empty []) (hc : t.Holds c es) (e : ContextElement)
    {k m : Nat} (hkm : k ≤ m) :
    let long := t.append c e m
    let cut := long.2.truncate long.1 k
    let short := cut.2.truncate c k
    (short.2.append short.1 e k).1 = cut.1 := by
  intro long cut short
  have hlong : long = t.get (es.append e m) := append_eq_get hempty hc e m
  have hcut : cut = long.2.get (es.append e k) := by
    have hheld : long.2.Holds long.1 (es.append e m) := hlong ▸ t.holds_get _
    rw [← Context.truncate_append hkm]
    exact truncate_eq_get hheld k
  have hkeeps : t.Keeps cut.2 := by
    rw [hcut, hlong]
    exact (t.keeps_get _).trans (keeps_get _ _)
  have hshort : short = cut.2.get (es.truncate k) := truncate_eq_get (hkeeps.holds hc) k
  have hkept : cut.2.Keeps short.2 := hshort ▸ cut.2.keeps_get _
  -- both ways end with asking for the same sequence, which the table has by then
  have hlast : short.2.append short.1 e k = short.2.get (es.append e k) := by
    have hheld : short.2.Holds short.1 (es.truncate k) := hshort ▸ cut.2.holds_get _
    rw [append_eq_get (hkept.holds (hkeeps.holds hempty)) hheld,
      Context.append_truncate (Nat.le_succ k)]
  have hthere : short.2.Holds cut.1 (es.append e k) := hkept.holds (hcut ▸ long.2.holds_get _)
  rw [hlast, hthere.get_eq]

/-! ### Any sequence of calls -/

theorem holds_initial : initial.Holds .empty [] := by
  have hlist : initial.toList = [[]] :=
    OrderedSet.toList_insertAll (List.nodup_singleton _) (by simp)
  rw [Holds, hlist]
  rfl

/-- A call to a table. It names contexts by the numbers of the answers that gave them, where zero is
the empty context. -/
inductive Call
  | get (es : Context)
  | append (parent : Nat) (e : ContextElement) (limit : Nat)
  | truncate (c : Nat) (limit : Nat)

/-- A table with the contexts that it has handed out. -/
structure History where
  table : Contexts
  /-- The empty context and the answers to the calls, in order. -/
  answers : List ContextRef

namespace History

/-- A table on which no call was made. -/
def start : History := ⟨.initial, [.empty]⟩

/-- The answer with a number; the empty context if there is none. -/
def answer (h : History) (n : Nat) : ContextRef := h.answers.getD n .empty

/-- What the table does at a call. -/
def respond (h : History) : Call → ContextRef × Contexts
  | .get es => h.table.get es
  | .append parent e limit => h.table.append (h.answer parent) e limit
  | .truncate c limit => h.table.truncate (h.answer c) limit

/-- The history after one more call. -/
def extend (h : History) (call : Call) : History :=
  ⟨(h.respond call).2, h.answers ++ [(h.respond call).1]⟩

/-- The history of some calls on a new table, the first one made first. -/
def of (calls : List Call) : History := calls.foldl extend start

/-- The sequences of the contexts that were handed out. -/
def sequences (h : History) : List Context := h.answers.map h.table.elements

/-- The sequence that a call asks for. -/
def asked (h : History) : Call → Context
  | .get es => es
  | .append parent e limit => (h.table.elements (h.answer parent)).append e limit
  | .truncate c limit => (h.table.elements (h.answer c)).truncate limit

/-- What holds of every history. -/
structure Sound (h : History) : Prop where
  empty : h.table.Holds .empty []
  held : ∀ c ∈ h.answers, h.table.Holds c (h.table.elements c)
  /-- The table has what was asked for, in this order, and nothing else. -/
  table_eq : h.table = initial.insertAll h.sequences

variable {h : History} {call : Call}

theorem sound_start : Sound start := by
  refine ⟨holds_initial, fun c hc => ?_, ?_⟩
  · obtain rfl := List.mem_singleton.1 hc
    exact holds_initial.holds_elements
  · have hnil : [] ∈ initial := OrderedSet.mem_ofList.2 (List.mem_singleton_self _)
    have hsequences : start.sequences = [[]] := congrArg (· :: []) holds_initial.elements_eq
    rw [hsequences, OrderedSet.insertAll, List.foldl_cons, List.foldl_nil, OrderedSet.insert,
      if_pos hnil]
    rfl

theorem Sound.answer (hs : Sound h) (n : Nat) :
    h.table.Holds (h.answer n) (h.table.elements (h.answer n)) := by
  rw [History.answer, List.getD_eq_getElem?_getD]
  cases hn : h.answers[n]? with
  | none => exact hs.empty.holds_elements
  | some c => exact hs.held c (List.mem_of_getElem? hn)

/-- **Every call asks for the context of a sequence.** -/
theorem Sound.respond_eq (hs : Sound h) (call : Call) :
    h.respond call = h.table.get (h.asked call) := by
  cases call with
  | get es => rfl
  | append parent e limit => exact append_eq_get hs.empty (hs.answer parent) e limit
  | truncate c limit => exact truncate_eq_get (hs.answer c) limit

theorem Sound.keeps_extend (hs : Sound h) (call : Call) : h.table.Keeps (h.extend call).table := by
  rw [extend, hs.respond_eq]
  exact keeps_get _ _

theorem Sound.holds_respond (hs : Sound h) (call : Call) :
    (h.extend call).table.Holds (h.respond call).1 (h.asked call) := by
  rw [extend, hs.respond_eq]
  exact holds_get _ _

theorem Sound.sequences_extend (hs : Sound h) (call : Call) :
    (h.extend call).sequences = h.sequences ++ [h.asked call] := by
  have hold : h.answers.map (h.extend call).table.elements = h.sequences :=
    List.map_congr_left fun c hc => ((hs.keeps_extend call).holds (hs.held c hc)).elements_eq
  rw [sequences, extend, List.map_append, List.map_singleton]
  exact congrArg₂ (· ++ [·]) hold (hs.holds_respond call).elements_eq

/-- One more call keeps a history sound. -/
theorem Sound.extend (hs : Sound h) (call : Call) : Sound (h.extend call) := by
  have hkeeps := hs.keeps_extend call
  refine ⟨hkeeps.holds hs.empty, fun c hc => ?_, ?_⟩
  · obtain hold | hnew := List.mem_append.1 hc
    · exact (hkeeps.holds (hs.held c hold)).holds_elements
    · obtain rfl := List.mem_singleton.1 hnew
      exact (hs.holds_respond call).holds_elements
  · have htable : (h.extend call).table = h.table.insert (h.asked call) := by
      rw [History.extend, hs.respond_eq, snd_get]
    rw [htable, hs.sequences_extend, OrderedSet.insertAll, List.foldl_append]
    exact congrArg (OrderedSet.insert · (h.asked call)) hs.table_eq

/-- More calls keep a history sound, and the contexts that it has as they are. -/
theorem Sound.foldl_extend (hs : Sound h) (calls : List Call) :
    Sound (calls.foldl History.extend h) ∧ h.table.Keeps (calls.foldl History.extend h).table := by
  induction calls generalizing h with
  | nil => exact ⟨hs, .refl _⟩
  | cons call calls ih =>
    obtain ⟨hsound, hkeeps⟩ := ih (hs.extend call)
    exact ⟨hsound, (hs.keeps_extend call).trans hkeeps⟩

theorem sound_of (calls : List Call) : Sound (of calls) := (sound_start.foldl_extend calls).1

theorem Sound.mem_table_iff (hs : Sound h) : es ∈ h.table ↔ es = [] ∨ es ∈ h.sequences := by
  rw [hs.table_eq, OrderedSet.mem_insertAll, initial, OrderedSet.mem_ofList, List.mem_singleton]

/-- There is a context for each sequence that was asked for, next to the empty one. -/
theorem Sound.size_eq (hs : Sound h) : h.table.size = 1 + (h.sequences.toFinset.erase []).card := by
  have helements : h.table.toList.toFinset = insert [] (h.sequences.toFinset.erase []) := by
    ext es
    rw [List.mem_toFinset, ← OrderedSet.mem_iff, hs.mem_table_iff, Finset.mem_insert,
      Finset.mem_erase, List.mem_toFinset]
    tauto
  rw [OrderedSet.size, ← List.toFinset_card_of_nodup h.table.nodup, helements,
    Finset.card_insert_of_notMem (Finset.notMem_erase _ _), Nat.add_comm]

/-- Contexts that were handed out are told apart by their elements. -/
theorem Sound.eq_iff (hs : Sound h) (hc : c ∈ h.answers) (hd : d ∈ h.answers) :
    c = d ↔ h.table.elements c = h.table.elements d := by
  constructor
  · exact congrArg h.table.elements
  · intro heq
    exact (hs.held c hc).unique (heq ▸ hs.held d hd)

end History

/-- **Contexts of a table are equal exactly if their elements are.** After any calls on a new table:
contexts that were handed out are the same exactly if they have the same elements, which no further call
changes; the table has the empty context and one for each other sequence that was handed out. Asking for
some elements gives a context with these elements; extending a context gives the last elements of it and
the new one, and cutting it gives its last elements, as many as the limit allows. An extended context
that is cut is the very context that is extended after it was cut. -/
theorem interning_exact (calls : List Call) :
    let h := History.of calls
    let t := h.table
    (∀ c ∈ h.answers, ∀ d ∈ h.answers, c = d ↔ t.elements c = t.elements d) ∧
    (∀ more, ∀ c ∈ h.answers, (History.of (calls ++ more)).table.elements c = t.elements c) ∧
    t.size = 1 + (h.sequences.toFinset.erase []).card ∧
    (∀ es, (t.get es).2.elements (t.get es).1 = es) ∧
    (∀ p ∈ h.answers, ∀ e k, Context.IsLast k (t.elements p ++ [e])
      ((t.append p e k).2.elements (t.append p e k).1)) ∧
    (∀ c ∈ h.answers, ∀ k, Context.IsLast k (t.elements c)
      ((t.truncate c k).2.elements (t.truncate c k).1)) ∧
    ∀ p ∈ h.answers, ∀ e k m, k ≤ m →
      let long := t.append p e m
      let cut := long.2.truncate long.1 k
      let short := cut.2.truncate p k
      (short.2.append short.1 e k).1 = cut.1 := by
  intro h t
  have hs : h.Sound := History.sound_of calls
  refine ⟨fun c hc d hd => hs.eq_iff hc hd, fun more c hc => ?_, hs.size_eq, t.elements_get,
    fun p hp e k => ?_, fun c hc k => ?_, fun p hp e k m hkm => ?_⟩
  · have hkeeps : t.Keeps (History.of (calls ++ more)).table := by
      rw [History.of, List.foldl_append]
      exact (hs.foldl_extend more).2
    exact (hkeeps.holds (hs.held c hc)).elements_eq
  · rw [append_eq_get hs.empty (hs.held p hp), elements_get]
    exact Context.isLast_truncate _ k
  · rw [truncate_eq_get (hs.held c hc), elements_get]
    exact Context.isLast_truncate _ k
  · exact truncate_append_comm hs.empty (hs.held p hp) e hkm

/-- The context of one class is met by cutting a context of two and by extending the empty one, and
then there are three contexts next to the empty one. -/
theorem interning_sharedSuffix :
    let node : ContextElement := .cls ⟨0, "Node"⟩
    let list : ContextElement := .cls ⟨1, "List"⟩
    let h := History.of
      [.get [node, list], .append 1 node 2, .truncate 1 1, .append 0 list 1, .append 1 node 0]
    h.answer 3 ∈ h.answers ∧ h.answer 4 ∈ h.answers ∧ h.answer 3 = h.answer 4 ∧
      h.answer 1 ∈ h.answers ∧ h.answer 1 ≠ h.answer 2 ∧ h.table.size = 4 ∧
      let long := h.table.append (h.answer 1) node 2
      let cut := long.2.truncate long.1 1
      let short := cut.2.truncate (h.answer 1) 1
      (short.2.append short.1 node 1).1 = cut.1 := by
  intro node list h
  obtain ⟨hsame, -, hsize, -, -, -, hcomm⟩ := interning_exact
    [.get [node, list], .append 1 node 2, .truncate 1 1, .append 0 list 1, .append 1 node 0]
  have hmem : ∀ n < 6, h.answer n ∈ h.answers := by decide +kernel
  refine ⟨hmem 3 (by decide), hmem 4 (by decide), ?_, hmem 1 (by decide), ?_, ?_,
    hcomm _ (hmem 1 (by decide)) node 1 2 (by decide)⟩
  · exact (hsame _ (hmem 3 (by decide)) _ (hmem 4 (by decide))).2 (by decide +kernel)
  · rw [Ne, hsame _ (hmem 1 (by decide)) _ (hmem 2 (by decide))]
    decide +kernel
  · rw [hsize]
    decide +kernel

end Contexts

end HeapFlow
