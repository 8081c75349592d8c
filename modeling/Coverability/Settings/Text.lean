import Coverability.Json.Trees
import Coverability.Settings
import Coverability.Toml.Parser

/-!
# Reading settings

Settings are written as a TOML document, and settings of the logger as a table in it or as a document
of their own. Keys that are not known are left out, if their values are within bounds.
-/

namespace Coverability

namespace Toml

/-- Whether the number is below the bound `2 ^ 1024 - 2 ^ 970`, from which on it rounds to infinity as a
float of 64 bits. The first test spares a large power. -/
def isBelowFloatBound (mantissa : Nat) (exponent : Int) : Bool :=
  let digits := (toString mantissa).length
  let bound := Nat.pow 2 1024 - Nat.pow 2 970
  if mantissa = 0 ∨ exponent + digits ≤ 308 then true
  else if 310 < exponent + digits then false
  else mantissa * Nat.pow 10 exponent.toNat < bound * Nat.pow 10 (-exponent).toNat

mutual

/-- Whether all numbers in a value are within bounds: integers of 128 bits, and floats of 64 bits. -/
def Value.isBounded : Value → Bool
  | .integer n => n.any fun n => -2 ^ 127 ≤ n && n < 2 ^ 128
  | .decimal (.finite _ mantissa exponent) => isBelowFloatBound mantissa exponent
  | .array _ items => areBounded items
  | .table ⟨_, entries⟩ => haveBoundedValues entries
  | _ => true

def areBounded : List Value → Bool
  | [] => true
  | item :: items => item.isBounded && areBounded items

def haveBoundedValues : List (String × Value) → Bool
  | [] => true
  | (_, value) :: entries => value.isBounded && haveBoundedValues entries

end

namespace Value

/-- The values of the named fields of a table, or of a list of them in order. A table may leave out
fields and have other entries, and a list may end early or go on, in which case the rest is not read.
A date has no field. -/
def fields? (names : List String) : Value → Option (List (Option Value))
  | .table t =>
    if t.entries.all fun (key, value) => key ∈ names || value.isBounded then
      some (names.map t.get?)
    else none
  | .array _ items => some (names.mapIdx fun i _ => items[i]?)
  | .moment => some (names.map fun _ => none)
  | _ => none

def nat? (bound : Nat) : Value → Option Nat
  | .integer (some n) => if 0 ≤ n ∧ n < bound then some n.toNat else none
  | _ => none

def bool? : Value → Option Bool
  | .boolean b => some b
  | _ => none

def isEmpty : Value → Bool
  | .table t => t.entries.isEmpty
  | .array _ items => items.isEmpty
  | _ => false

/-- A name, written as a string or as the only key of a table, with an empty value. -/
def name? : Value → Option String
  | .string name => some name
  | .table ⟨_, [(name, content)]⟩ => if content.isEmpty then some name else none
  | _ => none

def optional? {α : Type} (decode : Value → Option α) : Option Value → Option (Option α)
  | none => some none
  | some value => (decode value).map some

end Value

end Toml

open Toml (Value)

/-- Reads a span of time, which is a table of its two parts and nothing else, or a list of them. -/
def Duration.ofToml? (value : Value) : Option Duration := do
  if let .table t := value then
    if t.entries.any fun (key, _) => key ∉ ["secs", "nanos"] then none
  match ← value.fields? ["secs", "nanos"] with
  | [some secs, some nanos] => ofParts? (← secs.nat? UInt64.size) (← nanos.nat? UInt32.size)
  | _ => none

/-- Reads settings of the logger, each of which may be left out. -/
def PartialLoggerSettings.ofToml? (value : Value) : Option PartialLoggerSettings := do
  match ← value.fields? ["enabled", "log_file", "log_level"] with
  | [enabled, logFile, level] =>
    return {
      enabled := ← Value.optional? Value.bool? enabled
      logFile := ← Value.optional? Value.bool? logFile
      level := ← Value.optional? (fun value => value.name?.bind LogLevel.ofName?) level }
  | _ => none

/-- Reads settings, each of which may be left out. -/
def PartialSettings.ofToml? (value : Value) : Option PartialSettings := do
  match ← value.fields? ["pruning", "max_nodes", "timeout", "logger"] with
  | [pruning, maxNodes, timeout, logger] =>
    return {
      pruning := ← Value.optional? (fun value => value.name?.bind Pruning.ofName?) pruning
      maxNodes := ← Value.optional? (Value.nat? UInt64.size) maxNodes
      timeout := ← Value.optional? Duration.ofToml? timeout
      logger := ← Value.optional? PartialLoggerSettings.ofToml? logger }
  | _ => none

def Settings.ofText? (text : String) : Option Settings := do
  let document ← Toml.parse? text
  return ofPartial (← PartialSettings.ofToml? (.table document))

def LoggerSettings.ofText? (text : String) : Option LoggerSettings := do
  let document ← Toml.parse? text
  return ofPartial (← PartialLoggerSettings.ofToml? (.table document))

end Coverability
