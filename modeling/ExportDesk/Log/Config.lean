import ExportDesk.Log.Level
import ExportDesk.Settings.Basic

/-!
# What an export's log takes
-/

namespace ExportDesk

structure LogConfig where
  /-- the lowest level taken -/
  level : LogLevel := .info
  /-- keep the tool's output out of the log -/
  compact : Bool := true
  /-- how many lines of the tool's output are kept for showing after a failure -/
  errorTail : Nat := 20
  /-- put the time of day in front of each line -/
  timestamps : Bool := true
deriving DecidableEq, Repr, Inhabited

namespace LogConfig

/-- The configuration that the settings ask for; one line at least is kept. -/
def ofSettings (s : LoggingSettings) : LogConfig :=
  { compact := s.compact, errorTail := max s.errorTail.toNat 1 }

/-- A message as a line of the log. -/
def line (c : LogConfig) (timeOfDay message : String) : String :=
  if c.timestamps then "[" ++ timeOfDay ++ "] " ++ message else message

end LogConfig

end ExportDesk
