/-!
# JSON values

A JSON text as it stands: the members of an object keep their order and may repeat a key. Numbers that
are written as plain natural numbers are told from all others, and a string literal may hold a
surrogate without its partner, so that it stands for no text.
-/

namespace Coverability

inductive Json where
  | null
  | bool (b : Bool)
  | number (n : Nat)
  /-- A number with a sign, a fraction or an exponent, as it is written. -/
  | otherNumber (text : String)
  /-- A string, `none` if its literal stands for no text. -/
  | string (text : Option String)
  | array (items : List Json)
  | object (members : List (Option String × Json))
deriving Repr

namespace Json

def text (s : String) : Json :=
  .string (some s)

def record (members : List (String × Json)) : Json :=
  .object (members.map fun (key, value) => (some key, value))

end Json

end Coverability
