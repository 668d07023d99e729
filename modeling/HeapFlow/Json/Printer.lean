import HeapFlow.Json.Value
/-!
# HeapFlow.Json.Printer

**Writing a JSON document with one element per line.** Each level is indented by two blanks, an
empty array is `[]` and an empty object two braces. In a string only quotes, backslashes and control
characters are escaped.
-/

namespace HeapFlow

namespace Json

namespace Printer

/-- A hexadecimal digit, in lower case. -/
def hexDigit (n : Nat) : Char := Nat.digitChar n

/-- A character within quotes. -/
def escape (c : Char) : List Char :=
  if c == '"' then ['\\', '"']
  else if c == '\\' then ['\\', '\\']
  else if c == '\t' then ['\\', 't']
  else if c == '\n' then ['\\', 'n']
  else if c == '\r' then ['\\', 'r']
  else if c.toNat < 0x20 then
    ['\\', 'u', '0', '0', hexDigit (c.toNat / 16), hexDigit (c.toNat % 16)]
  else [c]

/-- A string in quotes. -/
def quoted (s : String) : String :=
  "\"" ++ String.ofList (s.toList.flatMap escape) ++ "\""

/-- The start of a line at a level. -/
def indent (level : Nat) : String := String.ofList (List.replicate (2 * level) ' ')

/-- Lines between an opening and a closing bracket, with commas between them. -/
def block (opening closing : String) (level : Nat) : List String → String
  | [] => opening ++ closing
  | lines =>
    let inner := indent (level + 1)
    opening ++ "\n" ++ ",\n".intercalate (lines.map (inner ++ ·)) ++ "\n" ++ indent level ++ closing

def bool (b : Bool) : String := if b then "true" else "false"

/-- An array of strings at a level. -/
def strings (level : Nat) (ss : List String) : String :=
  block "[" "]" level (ss.map quoted)

/-- An object at a level, from the names of its members and their printed values. -/
def object (level : Nat) (members : List (String × String)) : String :=
  block "\x7b" "\x7d" level (members.map fun (k, v) => quoted k ++ ": " ++ v)

end Printer

end Json

end HeapFlow
