import HeapFlow.Constants.Value
import HeapFlow.Data.Table
import HeapFlow.Heap
import HeapFlow.PointsTo.Basic
/-!
# HeapFlow.Constants.HeapStore

**The abstract values of heap slots.** A slot is a field of an object, a static field, or the
elements of an array at an abstract index. A slot only ever rises. A read of an array at a constant
sees what was stored there and what was stored at an unknown index; a read at an unknown index sees
every slot.
-/

namespace HeapFlow

/-- A slot of the abstract heap. -/
inductive Slot
  | field (base : Obj) (f : Field)
  | static (f : Field)
  | element (array : Obj) (index : Value)
deriving DecidableEq, Repr

instance : Keyed Slot where
  key
    | .field base f => Keyed.mix (Keyed.key base) (Keyed.key f)
    | .static f => Keyed.key f
    | .element array index => Keyed.mix (Keyed.key array) (Keyed.key index)

/-- The values that were stored in slots. -/
structure HeapStore where
  slots : Table Slot Value

namespace HeapStore

def empty : HeapStore := ⟨∅⟩

instance : Inhabited HeapStore := ⟨empty⟩

/-- The value of a slot. -/
def get (h : HeapStore) (slot : Slot) : Value := h.slots.getD slot .undefined

/-- The value that a read of an array at an index sees. -/
def readArray (h : HeapStore) (array : Obj) (index : Value) : Value :=
  match index with
  | .undefined => .undefined
  | .const _ => (h.get (.element array index)).meet (h.get (.element array .nac))
  | .nac =>
    Value.meetAll <| (h.slots.entries.filter fun e =>
      match e.1 with
      | .element o _ => decide (o = array)
      | _ => false).map Prod.snd

/-- Stores a value in a slot on top of what is there, and tells whether that changed the slot. -/
def meet (h : HeapStore) (slot : Slot) (v : Value) : Bool × HeapStore :=
  let old := h.get slot
  let new := old.meet v
  if new = old then (false, h) else (true, ⟨h.slots.set slot new⟩)

end HeapStore

/-- A slot as it is written in a listing. -/
def Program.slotText (p : Program) : Slot → String
  | .field base f => p.objText base ++ "." ++ f.name
  | .static f => f.signature
  | .element array index => p.objText array ++ "[" ++ index.text ++ "]"

/-- The slots with their values, in increasing order of the texts. -/
def Program.heapLines (p : Program) (h : HeapStore) : List String :=
  sorted (h.slots.entries.map fun e => p.slotText e.1 ++ " = " ++ e.2.text)

end HeapFlow
