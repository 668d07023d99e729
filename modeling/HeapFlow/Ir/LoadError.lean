import HeapFlow.Ir.Draft
/-!
# HeapFlow.Ir.LoadError

**Why a program description is refused.** A fault inside a declaration is reported with the spot of
the description at which it was found.
-/

namespace HeapFlow

/-- A spot of a program description. -/
inductive Spot
  /-- A class declaration whose name is not yet known. -/
  | classHeader
  | cls (name : String)
  | member (owner name : String)
  | method (signature : String)
  | stmt (signature : String) (index : Nat)
deriving DecidableEq, Repr

def Spot.text : Spot → String
  | classHeader => "class"
  | cls name => "class " ++ name
  | member owner name => "class " ++ owner ++ "." ++ name
  | method signature => signature
  | stmt signature index => signature ++ " statement " ++ toString index

/-- What is wrong at a spot. -/
inductive Fault
  | missingString (key : String)
  | unknownType (name : String)
  | unknownClass (name : String)
  | unknownVariable (name : String)
  | notInt32 (what : String)
  | superIsInterface
  | badInterface
  | fieldNotObject
  | methodNotObject
  | parameterNotObject
  | methodTwice
  | variableNotObject
  | variableTwice (name : String)
  | abstractWithBody
  | missingBody
  | notObject
  | unknownStatement (op : String)
  | cannotInstantiate (cls : String)
  | constWithoutValue
  | notComparison (operator : String)
  | unknownOperator (operator : String)
  | baseNotClass (base : String)
  | noField (cls field : String)
  | wrongStaticness (field : String)
  | notArray (base : String)
  | unknownInvokeKind (kind : String)
  | unexpectedReceiver (kind : String)
  | badArgument (subsignature : String)
  | malformedCase
deriving DecidableEq, Repr

def Fault.text : Fault → String
  | missingString key => "missing string '" ++ key ++ "'"
  | unknownType name => "unknown type '" ++ name ++ "'"
  | unknownClass name => "unknown class '" ++ name ++ "'"
  | unknownVariable name => "unknown variable '" ++ name ++ "'"
  | notInt32 what => what ++ " is not a 32-bit integer"
  | superIsInterface => "superclass is an interface"
  | badInterface => "bad interface reference"
  | fieldNotObject => "field is not an object"
  | methodNotObject => "method is not an object"
  | parameterNotObject => "parameter is not an object"
  | methodTwice => "method declared twice"
  | variableNotObject => "variable is not an object"
  | variableTwice name => "variable '" ++ name ++ "' declared twice"
  | abstractWithBody => "abstract method has a body"
  | missingBody => "missing body"
  | notObject => "not an object"
  | unknownStatement op => "unknown statement '" ++ op ++ "'"
  | cannotInstantiate cls => "cannot instantiate '" ++ cls ++ "'"
  | constWithoutValue => "const without value"
  | notComparison operator => "'" ++ operator ++ "' is not a comparison"
  | unknownOperator operator => "unknown operator '" ++ operator ++ "'"
  | baseNotClass base => "base '" ++ base ++ "' is not of class type"
  | noField cls field => "class '" ++ cls ++ "' has no field '" ++ field ++ "'"
  | wrongStaticness field => "field '" ++ field ++ "' accessed with the wrong staticness"
  | notArray base => "'" ++ base ++ "' is not an array"
  | unknownInvokeKind kind => "unknown invoke kind '" ++ kind ++ "'"
  | unexpectedReceiver kind => kind ++ " invocation cannot have a receiver"
  | badArgument subsignature => "bad argument in call to " ++ subsignature
  | malformedCase => "malformed switch case"

/-- Why a program description is refused. -/
inductive LoadError
  /-- The text is no JSON document. -/
  | notJson
  /-- The document is no object. -/
  | notProgram
  | missingClasses
  | classNotObject
  | classTwice (name : String)
  | fault (spot : Spot) (fault : Fault)
  | undefinedLabel (e : UndefinedLabel)
  | noEntry
  | unknownEntry (name : String)
  | entryWithoutBody (name : String)
deriving DecidableEq, Repr

def LoadError.message : LoadError → String
  | notJson => "invalid JSON"
  | notProgram => "program description is not a JSON object"
  | missingClasses => "missing 'classes' array"
  | classNotObject => "class declaration is not an object"
  | classTwice name => "class '" ++ name ++ "' declared twice"
  | fault spot f => spot.text ++ ": " ++ f.text
  | undefinedLabel e => e.message
  | noEntry => "program has no entry method"
  | unknownEntry name => "unknown entry method '" ++ name ++ "'"
  | entryWithoutBody name => "entry method '" ++ name ++ "' has no body"

end HeapFlow
