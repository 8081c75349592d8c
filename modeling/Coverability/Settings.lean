import Coverability.Log.Level
import Coverability.Search.Run

/-!
# Settings

The settings of a search and of its logger. A file of settings may leave out any of them, also of the
logger alone, and `ofPartial` fills in the rest with the defaults.
-/

namespace Coverability

structure LoggerSettings where
  enabled : Bool := false
  /-- Whether the log goes to a file. -/
  logFile : Bool := false
  level : LogLevel := .warn
deriving DecidableEq, Repr

structure Settings where
  pruning : Pruning := .ancestorOnly
  /-- How many nodes a tree may have. -/
  maxNodes : Option Nat := none
  timeout : Option Duration := none
  logger : LoggerSettings := {}
deriving DecidableEq, Repr

/-- Settings of the logger, each of which may be left out. -/
structure PartialLoggerSettings where
  enabled : Option Bool := none
  logFile : Option Bool := none
  level : Option LogLevel := none
deriving DecidableEq, Repr

/-- Settings, each of which may be left out. -/
structure PartialSettings where
  pruning : Option Pruning := none
  maxNodes : Option Nat := none
  timeout : Option Duration := none
  logger : Option PartialLoggerSettings := none
deriving DecidableEq, Repr

/-- Fills in the defaults. -/
def LoggerSettings.ofPartial (given : PartialLoggerSettings) : LoggerSettings :=
  let default : LoggerSettings := {}
  { enabled := given.enabled.getD default.enabled
    logFile := given.logFile.getD default.logFile
    level := given.level.getD default.level }

namespace Settings

/-- Fills in the defaults. -/
def ofPartial (given : PartialSettings) : Settings :=
  let default : Settings := {}
  { pruning := given.pruning.getD default.pruning
    maxNodes := given.maxNodes.or default.maxNodes
    timeout := given.timeout.or default.timeout
    logger := (given.logger.map LoggerSettings.ofPartial).getD default.logger }

/-- The search on a net with these settings. -/
def search (settings : Settings) (net : Net) : Search where
  net := net
  pruning := settings.pruning
  maxNodes := settings.maxNodes
  timeout := settings.timeout

end Settings

end Coverability
