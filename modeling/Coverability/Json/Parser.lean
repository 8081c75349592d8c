import Coverability.Json.Basic
import Coverability.Json.Token

/-!
# Reading JSON values

A text is cut into tokens, and the tokens are put together to one value. Every call below takes a
number of steps that is larger than twice the number of tokens, so it never runs out.
-/

namespace Coverability.Json

mutual

def value? : Nat → List Token → Option (Json × List Token)
  | _, .null :: rest => some (.null, rest)
  | _, .bool b :: rest => some (.bool b, rest)
  | _, .number n :: rest => some (.number n, rest)
  | _, .otherNumber text :: rest => some (.otherNumber text, rest)
  | _, .string text :: rest => some (.string text, rest)
  | _, .openBracket :: .closeBracket :: rest => some (.array [], rest)
  | steps + 1, .openBracket :: rest => (items? steps rest).map fun (items, left) =>
    (.array items, left)
  | _, .openBrace :: .closeBrace :: rest => some (.object [], rest)
  | steps + 1, .openBrace :: rest => (members? steps rest).map fun (members, left) =>
    (.object members, left)
  | _, _ => none

/-- Reads at least one item, and the bracket that closes their array. -/
def items? : Nat → List Token → Option (List Json × List Token)
  | 0, _ => none
  | steps + 1, tokens =>
    match value? steps tokens with
    | some (item, .closeBracket :: rest) => some ([item], rest)
    | some (item, .comma :: rest) => (items? steps rest).map fun (items, left) =>
      (item :: items, left)
    | _ => none

/-- Reads at least one member, and the brace that closes their object. -/
def members? : Nat → List Token → Option (List (Option String × Json) × List Token)
  | steps + 1, .string key :: .colon :: tokens =>
    match value? steps tokens with
    | some (value, .closeBrace :: rest) => some ([(key, value)], rest)
    | some (value, .comma :: rest) => (members? steps rest).map fun (members, left) =>
      ((key, value) :: members, left)
    | _ => none
  | _, _ => none

end

/-- Reads a text that is one value, with blanks around it. -/
def parse? (text : String) : Option Json := do
  let tokens ← Token.scan? text.toList
  match ← value? (2 * tokens.length + 1) tokens with
  | (value, []) => some value
  | _ => none

end Coverability.Json
