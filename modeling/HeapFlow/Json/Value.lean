import HeapFlow.Json.Number
/-!
# HeapFlow.Json.Value

**JSON documents.** The accessors give nothing for an absent key and nothing for a key whose value
has another type, so that a wrongly typed key reads as an absent one. `Object.get?` alone sees
every value, `null` included. Of a repeated key the last occurrence counts.
-/

namespace HeapFlow

namespace Json

/-- A JSON value. The members of an object are kept as written. -/
inductive Value
  | null
  | bool (b : Bool)
  | num (n : Number)
  | str (s : String)
  | arr (elements : List Value)
  | obj (members : List (String × Value))

instance : Inhabited Value := ⟨.null⟩

/-- The members of an object, in the order in which they are written. -/
abbrev Object := List (String × Value)

namespace Value

def isNull : Value → Bool
  | .null => true
  | _ => false

def bool? : Value → Option Bool
  | .bool b => some b
  | _ => none

/-- The value as a 64-bit integer. -/
def int64? : Value → Option Int
  | .num n => n.toInt64?
  | _ => none

def string? : Value → Option String
  | .str s => some s
  | _ => none

def array? : Value → Option (List Value)
  | .arr vs => some vs
  | _ => none

def object? : Value → Option Object
  | .obj ms => some ms
  | _ => none

end Value

namespace Object

/-- The last member of that name. -/
def get? (o : Object) (key : String) : Option Value :=
  (o.filter (·.1 == key)).getLast?.map Prod.snd

def has (o : Object) (key : String) : Bool := (o.get? key).isSome

def bool? (o : Object) (key : String) : Option Bool := o.get? key >>= Value.bool?

def int64? (o : Object) (key : String) : Option Int := o.get? key >>= Value.int64?

def string? (o : Object) (key : String) : Option String := o.get? key >>= Value.string?

def array? (o : Object) (key : String) : Option (List Value) := o.get? key >>= Value.array?

def object? (o : Object) (key : String) : Option Object := o.get? key >>= Value.object?

/-- A boolean that is false unless it is given as true. -/
def flag (o : Object) (key : String) : Bool := (o.bool? key).getD false

/-- The elements of an array that may be left out. -/
def elements (o : Object) (key : String) : List Value := (o.array? key).getD []

end Object

end Json

end HeapFlow
