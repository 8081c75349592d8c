import Coverability.Text.Digits
import Coverability.Toml.Document

/-!
# Reading keys and strings

A reader takes characters from the start of a text, or fails.
-/

namespace Coverability.Toml

/-- Takes characters from the start of a text. -/
abbrev Reader := StateT (List Char) Option

namespace Reader

variable {α : Type}

/-- Takes the text if it comes next. -/
def accept (text : String) : Reader Bool := do
  let rest ← get
  if text.toList.isPrefixOf rest then
    set (rest.drop text.length)
    return true
  else return false

/-- Takes the text, which has to come next. -/
def expect (text : String) : Reader Unit := do
  if !(← accept text) then failure

def takeWhile (p : Char → Bool) : Reader (List Char) := do
  let rest ← get
  set (rest.dropWhile p)
  return rest.takeWhile p

def takeExactly (n : Nat) : Reader (List Char) := do
  let rest ← get
  if rest.length < n then failure
  set (rest.drop n)
  return rest.take n

def ofOption : Option α → Reader α
  | none => failure
  | some a => return a

def collectUpTo (step : Reader (Option α)) : Nat → Reader (List α)
  | 0 => failure
  | n + 1 => do
    match ← step with
    | none => return []
    | some a => return a :: (← collectUpTo step n)

/-- Repeats a step until it gives nothing. A step that gives something takes at least one character, so
the length of the text bounds their number. -/
def collect (step : Reader (Option α)) : Reader (List α) := do
  collectUpTo step ((← get).length + 1)

end Reader

open Reader

/-- Whether the character is a blank between two parts of a line. -/
def isBlank (c : Char) : Bool :=
  c == ' ' || c == '\t'

/-- Whether the character may stand in a comment or between quotes. -/
def isTextChar (c : Char) : Bool :=
  c == '\t' || (' ' ≤ c && c != '\x7f')

def afterLineEnd? : List Char → Option (List Char)
  | '\n' :: rest => some rest
  | '\r' :: '\n' :: rest => some rest
  | _ => none

def dropSpace : List Char → List Char
  | '\r' :: '\n' :: rest => dropSpace rest
  | c :: rest => if isBlank c || c == '\n' then dropSpace rest else c :: rest
  | [] => []

/-- The text after blanks, line ends and comments. -/
def dropFiller : List Char → List Char
  | '\r' :: '\n' :: rest => dropFiller rest
  | '#' :: rest => dropFiller (rest.dropWhile isTextChar)
  | c :: rest => if isBlank c || c == '\n' then dropFiller rest else c :: rest
  | [] => []
termination_by cs => cs.length
decreasing_by
  all_goals
    have := fun l : List Char => (List.dropWhile_suffix isTextChar (l := l)).length_le
    grind

def skipBlanks : Reader Unit :=
  modify (·.dropWhile isBlank)

def skipFiller : Reader Unit :=
  modify dropFiller

/-- Takes the rest of a line: blanks, a comment and the line end, unless the text is over. -/
def lineEnd : Reader Unit := do
  skipBlanks
  if ← accept "#" then modify (·.dropWhile isTextChar)
  match afterLineEnd? (← get) with
  | some rest => set rest
  | none => if !(← get).isEmpty then failure

/-- A character by its number in hexadecimal digits. -/
def numbered (digits : Nat) : Reader Char := do
  let n ← ofOption (Text.hexValue? (← takeExactly digits))
  if n.isValidChar then return Char.ofNat n else failure

/-- Takes the rest of an escape, after its backslash. -/
def escape : Reader Char := do
  match ← takeExactly 1 with
  | ['b'] => return '\x08'
  | ['t'] => return '\t'
  | ['n'] => return '\n'
  | ['f'] => return '\x0c'
  | ['r'] => return '\r'
  | ['e'] => return '\x1b'
  | ['"'] => return '"'
  | ['\\'] => return '\\'
  | ['x'] => numbered 2
  | ['u'] => numbered 4
  | ['U'] => numbered 8
  | _ => failure

/-- Takes a part of a string on one line, or the quote that closes it. In a literal string a backslash
is a character like others. -/
def linePart (quote : Char) (isLiteral : Bool) : Reader (Option Char) := do
  match ← takeExactly 1 with
  | [c] =>
    if c = quote then return none
    else if c = '\\' ∧ ¬isLiteral then return some (← escape)
    else if isTextChar c then return some c
    else failure
  | _ => failure

/-- Takes a part of a string of several lines, or nothing at three quotes. A backslash at the end of a
line hides the space up to the next character. -/
def blockPart (quote : Char) (isLiteral : Bool) : Reader (Option (List Char)) := do
  let rest ← get
  if [quote, quote, quote].isPrefixOf rest then return none
  else
    match afterLineEnd? rest with
    | some rest =>
      set rest
      return some ['\n']
    | none =>
      match ← takeExactly 1 with
      | ['\\'] =>
        if isLiteral then return some ['\\']
        else
          match afterLineEnd? ((← get).dropWhile isBlank) with
          | some rest =>
            set (dropSpace rest)
            return some []
          | none => return some [← escape]
      | [c] => if isTextChar c then return some [c] else failure
      | _ => failure

/-- Takes a string on one line, after its opening quote. -/
def lineString (quote : Char) (isLiteral : Bool) : Reader String := do
  return String.ofList (← collect (linePart quote isLiteral))

/-- Takes a string of several lines, after its three opening quotes. A line end at its start is left
out, and of the quotes at its end the last three close it. -/
def blockString (quote : Char) (isLiteral : Bool) : Reader String := do
  modify fun rest => (afterLineEnd? rest).getD rest
  let parts ← collect (blockPart quote isLiteral)
  let quotes := ((← get).takeWhile (· == quote)).take 5
  modify (·.drop quotes.length)
  return String.ofList (parts.flatten ++ quotes.drop 3)

/-- Whether the character may stand in a key without quotes. -/
def isBareChar (c : Char) : Bool :=
  c.isAlphanum || c == '_' || c == '-'

def name : Reader String := do
  if ← accept "\"" then lineString '"' false
  else if ← accept "'" then lineString '\'' true
  else
    match ← takeWhile isBareChar with
    | [] => failure
    | cs => return String.ofList cs

/-- How many names a dotted key may have, and how many brackets may be open at once. -/
def depthLimit : Nat :=
  80

/-- Takes the next name of a dotted key, if there is a dot. -/
def nextName : Reader (Option String) := do
  skipBlanks
  if ← accept "." then
    skipBlanks
    return some (← name)
  else return none

def path : Reader Path := do
  skipBlanks
  let first ← name
  let names := first :: (← collect nextName)
  if depthLimit < names.length then failure
  return { parents := names.dropLast, key := names.getLast?.getD first }

end Coverability.Toml
