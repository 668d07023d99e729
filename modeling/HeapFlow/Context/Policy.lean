import HeapFlow.Context.Basic
/-!
# HeapFlow.Context.Policy

**Context policies.** A policy says under which context a callee is analysed and under which heap
context an object is created:

* insensitive: the empty context everywhere;
* by call site: the most recent call sites;
* by object: the receiver object behind its own heap context;
* by type: like by object, with the class that declares the allocating method in place of the
  object.

Heap contexts are the context of the allocating method, cut to the heap depth.
-/

namespace HeapFlow

/-- What the contexts of a sensitive policy are made of. -/
inductive Sensitivity
  | callSite
  | object
  | type
deriving DecidableEq, Repr

namespace Sensitivity

def name : Sensitivity → String
  | callSite => "call"
  | object => "obj"
  | type => "type"

/-- The sensitivity with a name; call-site sensitivity has two. -/
def ofName? : String → Option Sensitivity
  | "call" => some callSite
  | "cfa" => some callSite
  | "obj" => some object
  | "type" => some type
  | _ => none

end Sensitivity

/-- A context policy. -/
inductive Policy
  | insensitive
  | limited (sensitivity : Sensitivity) (limit heapLimit : Nat)
deriving DecidableEq, Repr

instance : Inhabited Policy := ⟨.insensitive⟩

/-- Why a text denotes no policy. -/
inductive PolicyError
  | invalid (text : String)
  | unknownKind (kind text : String)
deriving DecidableEq, Repr

def PolicyError.message : PolicyError → String
  | invalid text =>
    "invalid context policy '" ++ text ++ "', expected ci, <k>-call, <k>-obj or <k>-type"
  | unknownKind kind text => "unknown context kind '" ++ kind ++ "' in '" ++ text ++ "'"

namespace Policy

/-- The greatest number of elements of a calling context. -/
def limit : Policy → Nat
  | insensitive => 0
  | limited _ k _ => k

/-- The greatest number of elements of a heap context. -/
def heapLimit : Policy → Nat
  | insensitive => 0
  | limited _ _ h => h

/-- The policy with another heap depth. -/
def withHeapLimit (h : Nat) : Policy → Policy
  | insensitive => insensitive
  | limited s k _ => limited s k h

/-! ### Names of policies -/

/-- The policy of a limit: none at all for zero, otherwise heap contexts are one element shorter
than calling contexts. -/
def ofLimit (s : Sensitivity) (k : Nat) : Policy :=
  if k = 0 then insensitive else limited s k (k - 1)

/-- A decimal numeral of 32 bits. -/
def limit? (cs : List Char) : Option Nat :=
  (Text.decimal? cs).filter (· < 4294967296)

/-- The policy that a text denotes: `ci`, `insensitive`, or a limit, a dash and a kind. -/
def parse (text : String) : Except PolicyError Policy :=
  if text = "ci" ∨ text = "insensitive" then .ok insensitive
  else
    let cs := text.toList
    let kind := String.ofList ((cs.dropWhile (· != '-')).drop 1)
    match limit? (cs.takeWhile (· != '-')), kind with
    | none, _ => .error (.invalid text)
    | some _, "" => .error (.invalid text)
    | some k, kind =>
      match Sensitivity.ofName? kind with
      | some s => .ok (ofLimit s k)
      | none => .error (.unknownKind kind text)

def text : Policy → String
  | insensitive => "ci"
  | limited s k _ => toString k ++ "-" ++ s.name

/-! ### Selecting contexts -/

/-- The context of a static callee, where `caller` is the context of the call. -/
def staticContext (policy : Policy) (caller : Context) (site : Site) : Context :=
  match policy with
  | insensitive => []
  | limited .callSite k _ => caller.append (.site site) k
  | limited _ _ _ => caller

/-- The context of a callee that runs on a receiver object. -/
def receiverContext (policy : Policy) (caller : Context) (site : Site) (receiver : CObj) :
    Context :=
  match policy with
  | insensitive => []
  | limited .callSite k _ => caller.append (.site site) k
  | limited .object k _ => receiver.ctx.append (.obj receiver.val) k
  | limited .type k _ => receiver.ctx.append (.cls receiver.val.container.owner) k

/-- The heap context of an object that is created under a calling context. -/
def heapContext (policy : Policy) (ctx : Context) : Context :=
  match policy with
  | insensitive => []
  | limited _ _ h => ctx.truncate h

end Policy

end HeapFlow
