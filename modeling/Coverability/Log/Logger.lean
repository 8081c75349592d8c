import Coverability.Log.Event
import Coverability.Settings

/-!
# The logger

A logger is installed once for a whole program. While it is disabled nothing happens. Otherwise it
takes the events of its level and the more severe ones, and writes one line for each to a new file or
to the standard error stream.
-/

namespace Coverability

/-- A moment, by which a log file is named. -/
structure Timestamp where
  year : Nat
  month : Nat
  day : Nat
  hour : Nat
  minute : Nat
  second : Nat
deriving DecidableEq, Repr

/-- The decimal digits of `n`, filled up with zeros to `width`. -/
def padded (width n : Nat) : String :=
  let digits := toString n
  String.ofList (List.replicate (width - digits.length) '0') ++ digits

def logFileName (t : Timestamp) : String :=
  s!"coverability_run_{padded 4 t.year}-{padded 2 t.month}-{padded 2 t.day}_" ++
    s!"{padded 2 t.hour}-{padded 2 t.minute}-{padded 2 t.second}.txt"

def alreadyInstalledMessage : String :=
  "Failed to install tracing subscriber: a global default trace dispatcher has already been set"

/-- What a logger has written: the log files, and the number of lines of each level in the files and
on the standard error stream. -/
structure LogOutput where
  files : List String := []
  fileLines : List (LogLevel × Nat) := []
  errorLines : List (LogLevel × Nat) := []
deriving DecidableEq, Repr

def lineCounts (events : List Event) : List (LogLevel × Nat) :=
  LogLevel.all.filterMap fun level =>
    match events.countP (·.level = level) with
    | 0 => none
    | lines => some (level, lines)

namespace LoggerSettings

/-- The files that installing the logger creates, also when another logger is installed already. -/
def filesAt (logger : LoggerSettings) (now : Timestamp) : List String :=
  if logger.enabled ∧ logger.logFile then [logFileName now] else []

/-- Whether installing the logger fails when another one is installed already. -/
def clashes (logger : LoggerSettings) : Bool :=
  logger.enabled

/-- What the logger has written after these events. -/
def output (logger : LoggerSettings) (now : Timestamp) (events : List Event) : LogOutput :=
  let lines := lineCounts (captured logger.level events)
  if ¬logger.enabled then {}
  else if logger.logFile then { files := logger.filesAt now, fileLines := lines }
  else { errorLines := lines }

end LoggerSettings

end Coverability
