import ExportDesk.Format
import ExportDesk.Locations
import ExportDesk.Number.Field

/-!
# Settings

Four sections: where files go, which tool runs, what an export starts from, and what is logged.
Every field has a value of its own for when nothing was set.
-/

namespace ExportDesk

open Text

structure PathSettings where
  outputFolder : String
  logsFolder : String
  lastInputPath : String := ""
deriving DecidableEq, Repr, Inhabited

/-- The program used when the tool setting is blank. -/
def defaultProgram : String := "auto-editor"

/-- How the cutting tool is started. -/
structure ToolSettings where
  program : String := defaultProgram
  /-- arguments between the program and the input, for running it through an interpreter -/
  leadingArgs : List String := []
deriving DecidableEq, Repr, Inhabited

/-- The program to start. -/
def ToolSettings.effectiveProgram (t : ToolSettings) : String :=
  if isBlank t.program then defaultProgram else trim t.program

/-- What an export starts from. -/
structure ExportSettings where
  /-- the format's name as set; any other than the known ones means the rendered video -/
  format : String := ExportFormat.premiere.name
  loudness : Binary64 := defaultLoudness
  margin : Binary64 := defaultMargin
deriving DecidableEq, Repr, Inhabited

def ExportSettings.exportFormat (e : ExportSettings) : ExportFormat := .ofName e.format

structure LoggingSettings where
  /-- keep the tool's output out of the log unless the export fails -/
  compact : Bool := true
  /-- how many lines of output are kept for showing after a failure -/
  errorTail : UInt32 := 20
  showOptionsPretty : Bool := false
  showOptionsJson : Bool := false
deriving DecidableEq, Repr, Inhabited

structure Settings where
  paths : PathSettings
  tool : ToolSettings := {}
  exporting : ExportSettings := {}
  logging : LoggingSettings := {}
deriving DecidableEq, Repr, Inhabited

namespace Settings

/-- The path settings of a fresh installation. -/
def freshPaths (env : Environment) : PathSettings :=
  { outputFolder := env.outputFolder.display, logsFolder := env.logsFolder.display }

/-- The settings of a fresh installation. -/
def fresh (env : Environment) : Settings := { paths := freshPaths env }

end Settings

/-- The sections of the settings file. -/
inductive SettingsSection where
  | paths
  | tool
  | exporting
  | logging
deriving DecidableEq, Repr, Inhabited

namespace SettingsSection

/-- Every section, in the order of the file. -/
def all : List SettingsSection := [.paths, .tool, .exporting, .logging]

theorem mem_all (s : SettingsSection) : s ∈ all := by cases s <;> decide

/-- The section's table in the file. -/
def tableName : SettingsSection → String
  | paths => "paths"
  | tool => "tool"
  | exporting => "export"
  | logging => "logging"

theorem tableName_injective {s t : SettingsSection} (h : s.tableName = t.tableName) : s = t := by
  cases s <;> cases t <;> first | rfl | (exact absurd h (by decide))

/-- The comment over the section's table. -/
def comment : SettingsSection → String
  | paths => "Output and log directories"
  | tool => "External tool (auto-editor) launch settings"
  | exporting => "Default export settings"
  | logging => "Logging configuration"

end SettingsSection

end ExportDesk
