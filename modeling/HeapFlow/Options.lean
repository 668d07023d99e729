import HeapFlow.Event
/-!
# HeapFlow.Options

**Command-line arguments and the settings of an analysis.** An argument is a flag `-name` or
`--name`, perhaps with `=value`, or else the name of the input file. A flag that is given twice has
its last value; entry methods add up.
-/

namespace HeapFlow

/-- The arguments of a command line, as far as they are understood. -/
structure Flags where
  contextSensitivity : String
  heapDepth : Int
  entries : List String
  deadCode : Bool
  printPointsTo : Bool
  printCallGraph : Bool
  printConstants : Bool
  quiet : Bool
  level : Level
  input : Option String

namespace Flags

/-- What holds without arguments. -/
def initial : Flags where
  contextSensitivity := "ci"
  heapDepth := -1
  entries := []
  deadCode := false
  printPointsTo := true
  printCallGraph := true
  printConstants := true
  quiet := false
  level := .warn
  input := none

/-! ### Values -/

/-- A truth value; an empty one is true. -/
def bool? : String → Option Bool
  | "" | "true" | "TRUE" | "True" | "1" => some true
  | "false" | "FALSE" | "False" | "0" => some false
  | _ => none

/-- A numeral whose base is told by how it starts. -/
def numeral? : List Char → Option Nat
  | '0' :: 'x' :: cs | '0' :: 'X' :: cs => Text.numeral? 16 cs
  | '0' :: 'b' :: cs | '0' :: 'B' :: cs => Text.numeral? 2 cs
  | '0' :: 'o' :: cs => Text.numeral? 8 cs
  | '0' :: c :: cs => if c.isDigit then Text.numeral? 8 (c :: cs) else none
  | cs => Text.decimal? cs

/-- An integer with an optional minus. -/
def int? : List Char → Option Int
  | '-' :: cs => (numeral? cs).map fun n => -(n : Int)
  | cs => (numeral? cs).map fun n => (n : Int)

/-! ### Arguments -/

/-- The name and the value of a flag; an argument that starts with no dash is none. -/
def split? (arg : String) : Option (String × String) :=
  let named (cs : List Char) : String × String :=
    (String.ofList (cs.takeWhile (· != '=')), String.ofList ((cs.dropWhile (· != '=')).drop 1))
  match arg.toList with
  | '-' :: '-' :: cs => some (named cs)
  | '-' :: cs => some (named cs)
  | _ => none

/-- What an argument adds. Flags that are not known and values that are not understood change
nothing. -/
def add (f : Flags) (arg : String) : Flags :=
  match split? arg with
  | none => { f with input := some arg }
  | some ("pta-cs", v) => { f with contextSensitivity := v }
  | some ("pta-heap-k", v) => { f with heapDepth := (int? v.toList).getD f.heapDepth }
  | some ("entry", v) => { f with entries := f.entries ++ [v] }
  | some ("dead-code", v) => { f with deadCode := (bool? v).getD f.deadCode }
  | some ("print-pts", v) => { f with printPointsTo := (bool? v).getD f.printPointsTo }
  | some ("print-callgraph", v) => { f with printCallGraph := (bool? v).getD f.printCallGraph }
  | some ("print-constants", v) => { f with printConstants := (bool? v).getD f.printConstants }
  | some ("quiet", v) => { f with quiet := (bool? v).getD f.quiet }
  | some ("log-level", v) => { f with level := (Level.ofName? v).getD f.level }
  | some _ => f

/-- The flags of a list of arguments. -/
def ofArgs (args : List String) : Flags := args.foldl add initial

/-- The level from which events are shown. -/
def shownLevel (f : Flags) : Level := if f.quiet then .off else f.level

end Flags

/-- The settings of an analysis. -/
structure Options where
  policy : Policy
  /-- The names of the entry methods; without any, those of the program are taken. -/
  entries : List String
  /-- Whether dead code is reported. -/
  deadCode : Bool

/-- Why flags give no settings. -/
inductive OptionsError
  | policy (e : PolicyError)
  /-- The heap depth is greater than the limit of the policy. -/
  | heapDepth (depth : Int) (limit : Nat) (text : String)
deriving DecidableEq, Repr

def OptionsError.message : OptionsError → String
  | policy e => e.message
  | heapDepth depth limit text =>
    "heap context depth " ++ toString depth ++ " exceeds the context depth " ++ toString limit ++
      " of '" ++ Text.upToNul text ++ "'"

namespace Options

/-- The settings for a policy alone. -/
def ofPolicy (policy : Policy) : Options := ⟨policy, [], false⟩

/-- A policy with the heap depth that was asked for; a negative depth asks for none. -/
def withDepth (text : String) (policy : Policy) (depth : Int) : Except OptionsError Policy :=
  if depth < 0 then .ok policy
  else if (policy.limit : Int) < depth then .error (.heapDepth depth policy.limit text)
  else .ok (policy.withHeapLimit depth.toNat)

/-- The settings that flags ask for. -/
def ofFlags (f : Flags) : Except OptionsError Options :=
  match Policy.parse f.contextSensitivity with
  | .error e => .error (.policy e)
  | .ok policy => do
    let policy ← withDepth f.contextSensitivity policy f.heapDepth
    return ⟨policy, f.entries, f.deadCode⟩

end Options

end HeapFlow
