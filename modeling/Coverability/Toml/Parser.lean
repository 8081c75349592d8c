import Coverability.Toml.Reader
import Coverability.Toml.Scalar

/-!
# Reading documents

`parse?` reads a text as a document of TOML 1.1. Arrays and inline tables may go over several lines and
end with a comma, and only the dotted keys in them have to stay on one line.
-/

namespace Coverability.Toml

open Reader

/-- Whether the character may stand in a value without quotes or brackets. A quote may, unless it is
the first character. -/
def isScalarChar (c : Char) : Bool :=
  !(isBlank c || c == '\n' || c == '\r' || c == '#' || c == ',' || c == '=' || c == '[' ||
    c == ']' || c == '\x7b' || c == '\x7d')

/-- Takes the next word of a value without quotes or brackets, with the blanks in front of it, unless a
quote comes first. -/
def nextWord : Reader (Option (List Char)) := do
  match (← get).dropWhile isBlank with
  | c :: _ =>
    if isScalarChar c && c != '"' && c != '\'' then
      let blanks ← takeWhile isBlank
      return some (blanks ++ (← takeWhile isScalarChar))
    else return none
  | [] => return none

/-- Takes a value without quotes or brackets. Blanks do not end it while words follow, so that a date takes
its time along. -/
def scalar : Reader Value := do
  let first ← takeWhile isScalarChar
  let others ← collect nextWord
  ofOption (scalar? (first ++ others.flatten))

/-- Takes a value that holds no other values. -/
def flatValue : Reader Value := do
  if ← accept "\"\"\"" then return .string (← blockString '"' false)
  else if ← accept "'''" then return .string (← blockString '\'' true)
  else if ← accept "\"" then return .string (← lineString '"' false)
  else if ← accept "'" then return .string (← lineString '\'' true)
  else scalar

/-- Takes an item and the comma after it, or nothing at the closing bracket. Only the last item may do
without its comma. -/
def listed {α : Type} (closing : Char) (item : Reader α) : Reader (Option α) := do
  skipFiller
  if (← get).head? = some closing then return none
  else
    let a ← item
    skipFiller
    if (← get).head? ≠ some closing then expect ","
    return some a

/-- Takes items between brackets, after the opening one. -/
def bracketed {α : Type} (closing : Char) (item : Reader α) : Reader (List α) := do
  let items ← collect (listed closing item)
  skipFiller
  expect closing.toString
  return items

/-- Takes a key and its value. What may stand on either side of the equals sign is skipped by `skip`. -/
def assignment (skip : Reader Unit) (value : Reader Value) : Reader (Path × Value) := do
  let path ← path
  skip
  expect "="
  skip
  return (path, ← value)

/-- Takes a value with at most `depth` brackets open at once. -/
def value : Nat → Reader Value
  | 0 => flatValue
  | depth + 1 => do
    if ← accept "[" then return .array false (← bracketed ']' (value depth))
    else if ← accept "\x7b" then
      let assignments ← bracketed '\x7d' (assignment skipFiller (value depth))
      return .table (← ofOption (Table.ofAssignments? assignments))
    else flatValue

/-- Takes a header up to its closing brackets. -/
def header (closing : String) : Reader Path := do
  let path ← path
  expect closing
  return path

def statement : Reader Statement := do
  if ← accept "[[" then return .item (← header "]]")
  else if ← accept "[" then return .table (← header "]")
  else
    let (path, value) ← assignment skipBlanks (value depthLimit)
    return .assign path value

/-- Takes the next statement and its line end, or nothing at the end of the text. -/
def nextStatement : Reader (Option Statement) := do
  skipFiller
  if (← get).isEmpty then return none
  else
    let s ← statement
    lineEnd
    return some s

/-- Reads a document. A byte order mark may stand in front of it. -/
def parse? (text : String) : Option (Table Value) := do
  let cs := match text.toList with
    | '\ufeff' :: cs => cs
    | cs => cs
  let (statements, _) ← (collect nextStatement).run cs
  Document.ofStatements? statements

end Coverability.Toml
