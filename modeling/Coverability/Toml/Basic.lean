/-!
# TOML values

A document is a table. Every table knows how it came to be, because that decides whether later lines
may add to it.
-/

namespace Coverability.Toml

/-- How a table came to be. -/
inductive TableKind where
  /-- It is the document, or has a header of its own. -/
  | headed
  /-- A longer header passes through it. -/
  | implied
  /-- A dotted key passes through it, and no header of its own may follow. -/
  | dotted
  /-- It stands between braces. -/
  | inlined
deriving DecidableEq, Repr

/-- A table, whose keys keep the order in which they were first set. -/
structure Table (α : Type) where
  kind : TableKind
  entries : List (String × α)
deriving Repr

inductive Decimal where
  /-- The number `mantissa * 10 ^ exponent`, or its negative. -/
  | finite (negative : Bool) (mantissa : Nat) (exponent : Int)
  | infinity (negative : Bool)
  | notANumber
deriving DecidableEq, Repr

inductive Value where
  | string (text : String)
  /-- A whole number, `none` if its literal lacks digits or has characters that are no digits. -/
  | integer (n : Option Int)
  | decimal (x : Decimal)
  | boolean (b : Bool)
  /-- A date, a time or both. No setting is one, so only the form is checked. -/
  | moment
  /-- A list, `ofTables` if its items have headers of their own. -/
  | array (ofTables : Bool) (items : List Value)
  | table (t : Table Value)
deriving Repr

namespace Table

variable {α : Type}

def empty (kind : TableKind) : Table α where
  kind := kind
  entries := []

def get? (t : Table α) (key : String) : Option α :=
  t.entries.lookup key

def putEntry (key : String) (a : α) : List (String × α) → List (String × α)
  | [] => [(key, a)]
  | (other, b) :: rest =>
    if key == other then (key, a) :: rest else (other, b) :: putEntry key a rest

def put (t : Table α) (key : String) (a : α) : Table α :=
  { t with entries := putEntry key a t.entries }

theorem lookup_putEntry_self (key : String) (a : α) (entries : List (String × α)) :
    (putEntry key a entries).lookup key = some a := by
  induction entries with
  | nil => simp [putEntry]
  | cons entry rest ih =>
    obtain ⟨other, b⟩ := entry
    by_cases h : key = other
    · simp [putEntry, h]
    · simp [putEntry, List.lookup_cons, beq_false_of_ne h, ih]

theorem lookup_putEntry_of_ne {key other : String} (h : other ≠ key) (a : α)
    (entries : List (String × α)) :
    (putEntry key a entries).lookup other = entries.lookup other := by
  induction entries with
  | nil => simp [putEntry, List.lookup_cons, beq_false_of_ne h]
  | cons entry rest ih =>
    obtain ⟨k, b⟩ := entry
    by_cases hk : key = k
    · subst hk
      simp [putEntry, List.lookup_cons, beq_false_of_ne h]
    · simp [putEntry, hk, List.lookup_cons, ih]

@[simp]
theorem get?_put_self (t : Table α) (key : String) (a : α) : (t.put key a).get? key = some a :=
  lookup_putEntry_self key a t.entries

theorem get?_put_of_ne {key other : String} (h : other ≠ key) (t : Table α) (a : α) :
    (t.put key a).get? other = t.get? other :=
  lookup_putEntry_of_ne h a t.entries

end Table

end Coverability.Toml
