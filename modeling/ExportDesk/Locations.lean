import ExportDesk.Files.Path
import ExportDesk.Text.Blank
import ExportDesk.Text.Fold

/-!
# Where things are kept

The per-user folders that stand in for blank settings, and the file types the chooser offers.
-/

namespace ExportDesk

open Text

/-- The variables that the program goes by. -/
structure Environment where
  home : Option Bytes := none
  configHome : Option Bytes := none
  dataHome : Option Bytes := none
  /-- the home folder on record for the account, if it has one, for when the variable is missing or
  empty -/
  accountHome : Option Bytes := some (encode "/root")
  /-- the program's own log is switched off, whatever level is asked for -/
  silenced : Bool := false
deriving DecidableEq, Repr, Inhabited

namespace Environment

/-- A folder that is named at all. -/
def named? (folder : Option Bytes) : Option Path :=
  (folder.filter fun bytes => !bytes.isEmpty).map Path.mk

/-- The user's home folder. -/
def homeFolder? (env : Environment) : Option Path :=
  (named? env.home).or (named? env.accountHome)

/-- A folder named by a variable; only an absolute one counts. -/
def absolute? (value : Option Bytes) : Option Path :=
  (value.map Path.mk).filter Path.isAbsolute

/-- The folder for settings. -/
def configFolder? (env : Environment) : Option Path :=
  (absolute? env.configHome).or (env.homeFolder?.map (·.join (.ofText ".config")))

/-- The folder for data. -/
def dataFolder? (env : Environment) : Option Path :=
  (absolute? env.dataHome).or (env.homeFolder?.map (·.join (.ofText ".local/share")))

/-- The program's name, which is also that of its folder below the per-user ones. -/
def programName : String := "auto-editor-gui"

/-- The settings file used when none is named. -/
def settingsFile (env : Environment) : Path :=
  match env.configFolder? with
  | some folder => (folder.join (.ofText programName)).join (.ofText "settings.toml")
  | none => .ofText "settings.toml"

/-- The folder for exports when none is set. -/
def outputFolder (env : Environment) : Path :=
  match env.dataFolder? with
  | some folder => folder.join (.ofText "Auto Editor Output")
  | none => .ofText "Auto Editor Output"

/-- The folder for logs when none is set. -/
def logsFolder (env : Environment) : Path :=
  match env.dataFolder? with
  | some folder => (folder.join (.ofText programName)).join (.ofText "logs")
  | none => .ofText ".logs"

/-- The output folder a setting means: a blank one stands for the per-user folder. -/
def outputFolderFor (env : Environment) (configured : String) : Path :=
  if isBlank configured then env.outputFolder else .ofText configured

end Environment

/-- The extensions of media files. -/
def mediaExtensions : List String :=
  ["mp4", "mkv", "mov", "avi", "webm", "m4v", "ts", "m2ts", "mts", "wav", "mp3", "m4a", "flac"]

/-- Does the file have one of the extensions that the chooser offers? -/
def isMediaFile (p : Path) : Bool :=
  match p.extension.bind decode? with
  | some e => mediaExtensions.any fun known => sameFolded known e
  | none => false

end ExportDesk
