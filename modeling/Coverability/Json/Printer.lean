import Coverability.Json.Basic

/-!
# Writing JSON values

`compact` writes a value without blanks, and `pretty` with one item or member on a line, indented by
two blanks for each level. In a string only the quote, the backslash and the control characters below
the blank are escaped.
-/

namespace Coverability.Json

def hexChar (n : Nat) : Char :=
  if n < 10 then Char.ofNat ('0'.toNat + n) else Char.ofNat ('a'.toNat + (n - 10))

def escaped (c : Char) : List Char :=
  if c = '"' then ['\\', '"']
  else if c = '\\' then ['\\', '\\']
  else if c = '\x08' then ['\\', 'b']
  else if c = '\t' then ['\\', 't']
  else if c = '\n' then ['\\', 'n']
  else if c = '\x0c' then ['\\', 'f']
  else if c = '\r' then ['\\', 'r']
  else if c < ' ' then ['\\', 'u', '0', '0', hexChar (c.toNat / 16), hexChar (c.toNat % 16)]
  else [c]

/-- A string literal. One that stands for no text is written as a surrogate without its partner. -/
def literal : Option String → List Char
  | some text => '"' :: text.toList.flatMap escaped ++ ['"']
  | none => ['"', '\\', 'u', 'd', '8', '0', '0', '"']

def separated (separator : List Char) : List (List Char) → List Char
  | [] => []
  | [part] => part
  | part :: parts => part ++ separator ++ separated separator parts

mutual

/-- The value without blanks. -/
def compactChars : Json → List Char
  | .null => ['n', 'u', 'l', 'l']
  | .bool true => ['t', 'r', 'u', 'e']
  | .bool false => ['f', 'a', 'l', 's', 'e']
  | .number n => Nat.toDigits 10 n
  | .otherNumber text => text.toList
  | .string text => literal text
  | .array items => '[' :: separated [','] (compactItems items) ++ [']']
  | .object members => '\x7b' :: separated [','] (compactMembers members) ++ ['\x7d']

def compactItems : List Json → List (List Char)
  | [] => []
  | item :: items => compactChars item :: compactItems items

def compactMembers : List (Option String × Json) → List (List Char)
  | [] => []
  | (key, value) :: members => (literal key ++ ':' :: compactChars value) :: compactMembers members

end

def newLine (level : Nat) : List Char :=
  '\n' :: List.replicate (2 * level) ' '

/-- The parts between two brackets, each on a line of its own above `level`. -/
def block (level : Nat) (opening closing : Char) (parts : List (List Char)) : List Char :=
  if parts.isEmpty then [opening, closing]
  else
    opening :: newLine (level + 1) ++ separated (',' :: newLine (level + 1)) parts ++
      newLine level ++ [closing]

mutual

/-- The value on several lines, the first of which is begun at `level`. -/
def prettyChars (level : Nat) : Json → List Char
  | .array items => block level '[' ']' (prettyItems (level + 1) items)
  | .object members => block level '\x7b' '\x7d' (prettyMembers (level + 1) members)
  | .null => ['n', 'u', 'l', 'l']
  | .bool true => ['t', 'r', 'u', 'e']
  | .bool false => ['f', 'a', 'l', 's', 'e']
  | .number n => Nat.toDigits 10 n
  | .otherNumber text => text.toList
  | .string text => literal text

def prettyItems (level : Nat) : List Json → List (List Char)
  | [] => []
  | item :: items => prettyChars level item :: prettyItems level items

def prettyMembers (level : Nat) : List (Option String × Json) → List (List Char)
  | [] => []
  | (key, value) :: members =>
    (literal key ++ ':' :: ' ' :: prettyChars level value) :: prettyMembers level members

end

def compact (value : Json) : String :=
  String.ofList (compactChars value)

/-- The text of the value with one item or member on a line. -/
def pretty (value : Json) : String :=
  String.ofList (prettyChars 0 value)

end Coverability.Json
