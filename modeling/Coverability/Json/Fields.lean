import Coverability.Json.Basic

/-!
# Reading records and variants

A record is written as an object of its fields, in any order, or as a list of its fields in order. A
variant is written as its name, or as an object whose only key is its name. `Option` says whether a
value has the form that is asked for.
-/

namespace Coverability.Json

def valuesOf (name : String) (members : List (Option String × Json)) : List Json :=
  members.filterMap fun (key, value) => if key = some name then some value else none

/-- The value of a field of an object. The field may be missing, but not be repeated. -/
def member? (members : List (Option String × Json)) (name : String) : Option (Option Json) :=
  match valuesOf name members with
  | [] => some none
  | [value] => some (some value)
  | _ => none

/-- The values of the named fields. An object may have other members and leave out fields. A list has
to hold all fields but the last `defaulted` ones. -/
def fields? (names : List String) (defaulted : Nat) : Json → Option (List (Option Json))
  | .object members =>
    if members.all fun (key, _) => key.isSome then names.mapM (member? members) else none
  | .array items =>
    if names.length ≤ items.length + defaulted ∧ items.length ≤ names.length then
      some (items.map some ++ List.replicate (names.length - items.length) none)
    else none
  | _ => none

def required? {α : Type} (decode : Json → Option α) (field : Option Json) : Option α :=
  field.bind decode

/-- A field that may be missing, or `null` instead of a value. -/
def optional? {α : Type} (decode : Json → Option α) : Option Json → Option (Option α)
  | none => some none
  | some .null => some none
  | some value => (decode value).map some

/-- The name of a variant, and its content if it is written as an object. -/
def variant? : Json → Option (String × Option Json)
  | .string (some name) => some (name, none)
  | .object [(some name, content)] => some (name, some content)
  | _ => none

def isUnit : Option Json → Bool
  | none => true
  | some .null => true
  | _ => false

def nat? (bound : Nat) : Json → Option Nat
  | .number n => if n < bound then some n else none
  | _ => none

/-- A number of 32 bits, as it stands for an index. -/
def index? : Json → Option Nat :=
  nat? UInt32.size

def count? : Json → Option Nat :=
  nat? UInt64.size

def word? (value : Json) : Option UInt32 :=
  (index? value).map UInt32.ofNat

def bool? : Json → Option Bool
  | .bool b => some b
  | _ => none

def text? : Json → Option String
  | .string text => text
  | _ => none

def list? {α : Type} (decode : Json → Option α) : Json → Option (List α)
  | .array items => items.mapM decode
  | _ => none

def orNull {α : Type} (encode : α → Json) : Option α → Json
  | none => .null
  | some a => encode a

def ofList {α : Type} (encode : α → Json) (items : List α) : Json :=
  .array (items.map encode)

end Coverability.Json
