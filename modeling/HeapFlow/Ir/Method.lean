import HeapFlow.Ir.Cfg
/-!
# HeapFlow.Ir.Method

**Methods.** A method owns its variables and its body. The receiver of an instance method is its
first variable; the parameters follow.

The operations that emit statements note down which statements dereference a variable, and which variables
are returned (`Records.enter`). The same is read off a body that is there (`fieldStores` and so on,
`returnVars`); the two agree in every method that was built by these operations (`Method.Recorded`).
-/

namespace HeapFlow

/-- A reference to the method at a place among the methods of a class. -/
structure MethodId where
  owner : ClassRef
  index : Nat
deriving DecidableEq, Repr, Inhabited

instance : Keyed MethodId := ⟨fun m => Keyed.mix (Keyed.key m.owner) m.index⟩

/-- A variable of a method of the program. -/
structure Local where
  method : MethodId
  var : Var
deriving DecidableEq, Repr

instance : Keyed Local := ⟨fun v => Keyed.mix (Keyed.key v.method) (Keyed.key v.var)⟩

/-- A statement of a method of the program: a call site or an allocation site. -/
structure Site where
  method : MethodId
  index : Nat
deriving DecidableEq, Repr

instance : Keyed Site := ⟨fun s => Keyed.mix (Keyed.key s.method) s.index⟩

/-- A node of the control-flow graph of a method of the program. -/
structure Point where
  method : MethodId
  node : Node
deriving DecidableEq, Repr

instance : Keyed Point := ⟨fun pt => Keyed.mix (Keyed.key pt.method) (Keyed.key pt.node)⟩

/-- The point of a statement. -/
def Site.point (s : Site) : Point := ⟨s.method, .stmt s.index⟩

/-- A statement with the source line it comes from. -/
structure Located where
  stmt : Stmt
  line : Int32
deriving DecidableEq, Repr

/-! ### What operations note down -/

/-- How a statement uses the variable that it dereferences. -/
inductive Usage
  | storeField
  | loadField
  | storeArray
  | loadArray
  | invoke
deriving DecidableEq, Repr

instance : Keyed Usage where
  key
    | .storeField => 0
    | .loadField => 1
    | .storeArray => 2
    | .loadArray => 3
    | .invoke => 4

/-- The statements that use each variable, and the variables that are returned. -/
structure Records where
  uses : Index (Var × Usage) (List Nat)
  returned : OrderedSet Var

namespace Records

def empty : Records := ⟨.empty, ∅⟩

/-- The statements noted down for a variable, in the order in which they were emitted. -/
def usesOf (r : Records) (v : Var) (u : Usage) : List Nat := (r.uses.get? (v, u)).getD []

/-- Notes down that a statement uses a variable. -/
def use (r : Records) (v : Var) (u : Usage) (i : Nat) : Records :=
  { r with uses := r.uses.set (v, u) (r.usesOf v u ++ [i]) }

/-- What the operation that emits a statement notes down, where `i` is the index of the statement. -/
def enter (r : Records) (i : Nat) : Stmt → Records
  | .assign _ (.load (.field base _)) => r.use base .loadField i
  | .store (.field base _) _ => r.use base .storeField i
  | .assign _ (.load (.element array _)) => r.use array .loadArray i
  | .store (.element array _) _ => r.use array .storeArray i
  | .invoke _ call =>
    match call.receiver with
    | some base => r.use base .invoke i
    | none => r
  | .ret (some v) => { r with returned := r.returned.insert v }
  | _ => r

end Records

/-- A method. Only methods that are not abstract have a body, and the control-flow graph is there
once the body is complete. -/
structure Method where
  id : MethodId
  name : String
  returnType : Ty
  isStatic : Bool
  isAbstract : Bool
  params : List Var
  vars : List Var
  body : List Located
  records : Records
  cfg : Option Cfg

namespace Method

/-! ### Signatures -/

/-- A name with its result and parameter types, as in `int inc(int)`. -/
def subsignatureOf (name : String) (params : List Ty) (returnType : Ty) : String :=
  returnType.name ++ " " ++ name ++ "(" ++ Text.joined "," (params.map Ty.name) ++ ")"

/-- What identifies a method within its class. -/
def subsignature (m : Method) : String :=
  subsignatureOf m.name (m.params.map Var.ty) m.returnType

/-- What identifies a method within the program, as in `<Calc: int inc(int)>`. -/
def signature (m : Method) : String := "<" ++ m.id.owner.name ++ ": " ++ m.subsignature ++ ">"

def isConstructor (m : Method) : Bool := m.name == "<init>"

def hasBody (m : Method) : Bool := !m.isAbstract

/-! ### Declaration -/

/-- A method as it is declared, without statements. An instance method has its receiver as first
variable. -/
def declare (id : MethodId) (name : String) (params : List (String × Ty)) (returnType : Ty)
    (isStatic isAbstract : Bool) : Method :=
  let receiver : List Var := if isStatic then [] else [⟨0, "this", .cls id.owner⟩]
  let params := params.zipIdx.map fun ((name, ty), i) => ⟨receiver.length + i, name, ty⟩
  { id, name, returnType, isStatic, isAbstract, params, vars := receiver ++ params, body := [],
    records := .empty, cfg := none }

/-! ### Variables -/

/-- The variable of an instance method that holds its receiver. -/
def receiver? (m : Method) : Option Var := if m.isStatic then none else m.vars.head?

/-- The last variable declared with a name. -/
def var? (m : Method) (name : String) : Option Var := (m.vars.filter (·.name == name)).getLast?

/-- Appends a variable. -/
def addVar (m : Method) (name : String) (ty : Ty) : Method :=
  { m with vars := m.vars ++ [⟨m.vars.length, name, ty⟩] }

/-! ### Statements -/

/-- The statements of the body. -/
def stmts (m : Method) : List Stmt := m.body.map Located.stmt

/-- The statement at an index. -/
def stmt? (m : Method) (i : Nat) : Option Stmt := m.body[i]?.map Located.stmt

/-- What a test finds in the statements, with their indexes. -/
def select {α : Type} (m : Method) (f : Stmt → Option α) : List (Nat × α) :=
  m.stmts.zipIdx.filterMap fun (s, i) => (f s).map (i, ·)

theorem stmt?_eq (m : Method) (i : Nat) : m.stmt? i = m.stmts[i]? := List.getElem?_map.symm

/-- What a test finds is found at its statement. -/
theorem mem_select {α : Type} {m : Method} {f : Stmt → Option α} {i : Nat} {x : α} :
    (i, x) ∈ m.select f ↔ ∃ s, m.stmt? i = some s ∧ f s = some x := by
  simp only [select, List.mem_filterMap, Prod.exists, List.mem_zipIdx_iff_getElem?, stmt?_eq,
    Option.map_eq_some_iff, Prod.mk.injEq]
  constructor
  · rintro ⟨s, j, hs, y, hy, rfl, rfl⟩
    exact ⟨s, hs, hy⟩
  · rintro ⟨s, hs, hx⟩
    exact ⟨s, i, hs, x, hx, rfl, rfl⟩

/-- The statements noted down for a variable. -/
def usesOf (m : Method) (v : Var) (u : Usage) : List Nat := m.records.usesOf v u

/-- The calls of the body. -/
def calls (m : Method) : List (Nat × Call) := m.select Stmt.call?

/-- The variables that the body returns, each once. -/
def returnVars (m : Method) : OrderedSet Var :=
  OrderedSet.ofList (m.stmts.filterMap fun
    | .ret value => value
    | _ => none)

theorem mem_returnVars {m : Method} {v : Var} :
    v ∈ m.returnVars ↔ ∃ i, m.stmt? i = some (.ret (some v)) := by
  rw [returnVars, OrderedSet.mem_ofList, List.mem_filterMap]
  constructor
  · rintro ⟨s, hs, hv⟩
    obtain ⟨i, hi⟩ := List.mem_iff_getElem?.1 hs
    cases s with
    | ret value => exact ⟨i, (m.stmt?_eq i).trans (hi.trans (congrArg (some ∘ Stmt.ret) hv))⟩
    | _ => cases hv
  · rintro ⟨i, hi⟩
    exact ⟨.ret (some v), List.mem_iff_getElem?.2 ⟨i, (m.stmt?_eq i).symm.trans hi⟩, rfl⟩

/-! ### Statements that dereference a variable -/

/-- The stores into a field of the object that `v` refers to: the field and the stored variable. -/
def fieldStores (m : Method) (v : Var) : List (Nat × Field × Var) :=
  m.select fun
    | .store (.field base f) source => if base = v then some (f, source) else none
    | _ => none

theorem mem_fieldStores {m : Method} {v source : Var} {f : Field} {i : Nat} :
    (i, f, source) ∈ m.fieldStores v ↔ m.stmt? i = some (.store (.field v f) source) := by
  refine mem_select.trans ⟨?_, fun h => ⟨_, h, if_pos rfl⟩⟩
  rintro ⟨s, hs, hf⟩
  split at hf
  · split at hf
    · rename_i h
      subst h
      cases hf
      exact hs
    · cases hf
  · cases hf

/-- The loads from a field of the object that `v` refers to: the field and the variable defined. -/
def fieldLoads (m : Method) (v : Var) : List (Nat × Field × Var) :=
  m.select fun
    | .assign lhs (.load (.field base f)) => if base = v then some (f, lhs) else none
    | _ => none

theorem mem_fieldLoads {m : Method} {v lhs : Var} {f : Field} {i : Nat} :
    (i, f, lhs) ∈ m.fieldLoads v ↔ m.stmt? i = some (.assign lhs (.load (.field v f))) := by
  refine mem_select.trans ⟨?_, fun h => ⟨_, h, if_pos rfl⟩⟩
  rintro ⟨s, hs, hf⟩
  split at hf
  · split at hf
    · rename_i h
      subst h
      cases hf
      exact hs
    · cases hf
  · cases hf

/-- The stores into the array that `v` refers to: the stored variable. -/
def arrayStores (m : Method) (v : Var) : List (Nat × Var) :=
  m.select fun
    | .store (.element array _) source => if array = v then some source else none
    | _ => none

theorem mem_arrayStores {m : Method} {v source : Var} {i : Nat} :
    (i, source) ∈ m.arrayStores v ↔
      ∃ index, m.stmt? i = some (.store (.element v index) source) := by
  refine mem_select.trans ⟨?_, fun ⟨_, h⟩ => ⟨_, h, if_pos rfl⟩⟩
  rintro ⟨s, hs, hf⟩
  split at hf
  · split at hf
    · rename_i index _ h
      subst h
      cases hf
      exact ⟨index, hs⟩
    · cases hf
  · cases hf

/-- The loads from the array that `v` refers to: the variable defined. -/
def arrayLoads (m : Method) (v : Var) : List (Nat × Var) :=
  m.select fun
    | .assign lhs (.load (.element array _)) => if array = v then some lhs else none
    | _ => none

theorem mem_arrayLoads {m : Method} {v lhs : Var} {i : Nat} :
    (i, lhs) ∈ m.arrayLoads v ↔
      ∃ index, m.stmt? i = some (.assign lhs (.load (.element v index))) := by
  refine mem_select.trans ⟨?_, fun ⟨_, h⟩ => ⟨_, h, if_pos rfl⟩⟩
  rintro ⟨s, hs, hf⟩
  split at hf
  · split at hf
    · rename_i index h
      subst h
      cases hf
      exact ⟨index, hs⟩
    · cases hf
  · cases hf

/-- The calls whose receiver is `v`. -/
def receiverCalls (m : Method) (v : Var) : List (Nat × Call) :=
  m.select fun
    | .invoke _ call => if call.receiver = some v then some call else none
    | _ => none

theorem mem_receiverCalls {m : Method} {v : Var} {call : Call} {i : Nat} :
    (i, call) ∈ m.receiverCalls v ↔
      ∃ result, m.stmt? i = some (.invoke result call) ∧ call.receiver = some v := by
  refine mem_select.trans ⟨?_, fun ⟨_, h, hv⟩ => ⟨_, h, if_pos hv⟩⟩
  rintro ⟨s, hs, hf⟩
  split at hf
  · split at hf
    · rename_i h
      cases hf
      exact ⟨_, hs, h⟩
    · cases hf
  · cases hf

/-! ### Printing -/

/-- The declaration, with the statements of the body. -/
def lines (m : Method) : List String :=
  if m.hasBody then
    (m.signature ++ " \x7b") ::
      (m.stmts.zipIdx.map fun (s, i) => "  " ++ toString i ++ ": " ++ s.text) ++ ["\x7d"]
  else [m.signature ++ ";"]

end Method

end HeapFlow
