import ExportDesk.CommandLine.Usage
import ExportDesk.Host
import ExportDesk.Settings.Store

/-!
# Lists

What can be exported to, and what is set.
-/

namespace ExportDesk

/-- A row of the table of formats. -/
def formatRow (name label extension : String) : String :=
  Usage.padTo 14 name ++ " " ++ Usage.padTo 20 label ++ " " ++ extension

/-- The table of formats. -/
def formatTable : List String :=
  formatRow "NAME" "LABEL" "EXTENSION" ::
    ExportFormat.all.map fun f => formatRow f.name f.label f.extension

def printFormats : OnHost Unit := formatTable.forM (OnHost.printLine .stdout)

/-- Prints where the settings are kept and what they are. -/
def printSettings (store : SettingsStore) : OnHost Unit := do
  OnHost.printLine .stdout ("Config: " ++ store.path.display)
  OnHost.printLine .stdout ""
  OnHost.print .stdout (SettingsText.write store.settings)

end ExportDesk
