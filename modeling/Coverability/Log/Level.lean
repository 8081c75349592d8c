/-!
# Log levels

The severity of an event. A logger with some level also takes everything more severe.
-/

namespace Coverability

inductive LogLevel where
  | trace
  | debug
  | info
  | warn
  | error
deriving DecidableEq, Repr

namespace LogLevel

def all : List LogLevel :=
  [trace, debug, info, warn, error]

def severity : LogLevel → Nat
  | trace => 0
  | debug => 1
  | info => 2
  | warn => 3
  | error => 4

def name : LogLevel → String
  | trace => "Trace"
  | debug => "Debug"
  | info => "Info"
  | warn => "Warn"
  | error => "Error"

def label : LogLevel → String
  | trace => "TRACE"
  | debug => "DEBUG"
  | info => "INFO"
  | warn => "WARN"
  | error => "ERROR"

/-- The spellings by which a level is chosen. -/
def spellings : LogLevel → List String
  | trace => ["trace", "trc"]
  | debug => ["debug", "dbg"]
  | info => ["info", "inf"]
  | warn => ["warn", "warning", "war"]
  | error => ["error", "err"]

/-- The level with this spelling, in capital or small letters. No letter outside ASCII has a small
form that occurs in a spelling. -/
def ofSpelling? (text : String) : Option LogLevel :=
  all.find? fun level => text.toLower ∈ level.spellings

def invalidMessage (text : String) : String :=
  s!"Invalid log level: {text}"

end LogLevel

end Coverability
