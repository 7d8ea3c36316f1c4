import LiveSvg.Failure
/-!
The log: what happened that its reader should know, by weight.
-/

namespace LiveSvg

inductive Log.Level where
  | debug | info | warning | error
  deriving DecidableEq

structure Log.Entry where
  level : Log.Level
  text : String
  deriving DecidableEq

/-- Entries in the order in which they were made. -/
abbrev Log := List Log.Entry

namespace Log

def Level.name : Level → String
  | .debug => "DEBUG"
  | .info => "INFO"
  | .warning => "WARNING"
  | .error => "ERROR"

def Entry.line (e : Entry) : String := e.level.name ++ " " ++ e.text

def warning (text : String) : Entry := ⟨.warning, text⟩

def debug (text : String) : Entry := ⟨.debug, text⟩

def info (text : String) : Entry := ⟨.info, text⟩

def error (text : String) : Entry := ⟨.error, text⟩

end Log

/-- A computation that may fail and adds to the log, whether it fails or not. -/
abbrev Logging := ExceptT Failure (StateM Log)

/-- Runs a computation; what it logged stays when it fails. -/
def Logging.start (x : Logging α) : Log × Except Failure α :=
  let (r, log) := x.run.run []
  (log, r)

end LiveSvg
