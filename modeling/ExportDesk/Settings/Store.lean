import ExportDesk.Host
import ExportDesk.Settings.Toml

/-!
# The settings file

A store holds the settings in memory and knows their file. Reading never changes the file unless
it is incomplete; writing replaces it in one move, so that a failure at any step leaves the old
content. A section can be written alone: the rest of the file then stays as it is on disk,
whatever is in memory.
-/

namespace ExportDesk

open Text Toml

/-- Why the settings could not be read or written. -/
inductive SettingsError where
  /-- the system refused to read or write the file -/
  | inaccessible (cause : IoError)
  /-- the text is not TOML, or a field has the wrong type -/
  | malformed
  /-- the text is not TOML that can be edited -/
  | notEditable
  | notFound (file : Path)
deriving DecidableEq, Repr

/-- The text shown for the failure. What is wrong with a malformed text is not told. -/
def SettingsError.message : SettingsError → String
  | .inaccessible cause => "Failed to read config file: " ++ cause.message
  | .malformed => "Failed to parse config: ..."
  | .notEditable => "Failed to parse config for editing: ..."
  | .notFound file => "Config file not found: " ++ file.display

structure SettingsStore where
  path : Path
  settings : Settings
deriving DecidableEq, Repr, Inhabited

namespace SettingsStore

/-- A store for a file that has not been read. -/
def ofPath (env : Environment) (path : Path) : SettingsStore :=
  { path, settings := Settings.fresh env }

/-- The folder for exports, as set. -/
def outputFolder (store : SettingsStore) : Path := .ofText store.settings.paths.outputFolder

/-- The folder for logs, as set. -/
def logsFolder (store : SettingsStore) : Path := .ofText store.settings.paths.logsFolder

/-! ## What the file says -/

/-- The text of the settings file. -/
def readFile (store : SettingsStore) (fs : FileSystem) : Except SettingsError String :=
  (fs.readText store.path).mapError .inaccessible

/-- The settings a text writes, and whether the text lacks something or has too much. -/
def examine (env : Environment) (text : String) : Except SettingsError (Settings × Bool) :=
  match Document.readForEditing text with
  | none => .error .notEditable
  | some doc =>
    match SettingsText.read env text with
    | none => .error .malformed
    | some s => .ok (s, !SettingsText.isComplete s doc)

/-- The text with one section's table replaced by the given settings. -/
def revise (text : String) (s : Settings) (part : SettingsSection) :
    Except SettingsError String :=
  match (if text.isEmpty then some {} else Document.readForEditing text) with
  | none => .error .notEditable
  | some doc =>
    match SettingsText.bodyDocument s part with
    | none => .error .notEditable
    | some body => .ok (doc.setTable part.tableName body.entries).print

/-! ## Operations

Each returns the outcome together with the store as it is afterwards. -/

/-- Reads the file, which must exist. -/
def load (store : SettingsStore) : OnHost (Except SettingsError Unit × SettingsStore) := do
  let host ← get
  if !host.files.exists? store.path then return (.error (.notFound store.path), store)
  match store.readFile host.files with
  | .error e => return (.error e, store)
  | .ok text =>
    match SettingsText.read host.environment text with
    | none => return (.error .malformed, store)
    | some s => return (.ok (), { store with settings := s })

/-- Writes a text to the file. -/
def writeFile (store : SettingsStore) (text : String) : OnHost (Except SettingsError Unit) := do
  return (← OnHost.disk (Disk.replaceFile store.path (encode text))).mapError .inaccessible

/-- Writes all settings to the file. -/
def save (store : SettingsStore) : OnHost (Except SettingsError Unit) :=
  store.writeFile (SettingsText.write store.settings)

/-- Reads the file, or writes one with the defaults if there is none. A file that lacks fields or
holds unknown tables is written anew. -/
def loadOrCreate (store : SettingsStore) : OnHost (Except SettingsError Unit × SettingsStore) := do
  let host ← get
  if host.files.exists? store.path then
    match store.readFile host.files with
    | .error e => return (.error e, store)
    | .ok text =>
      match examine host.environment text with
      | .error e => return (.error e, store)
      | .ok (s, incomplete) =>
        let store := { store with settings := s }
        if incomplete then
          OnHost.note .debug .settings ("Rewriting config " ++ store.path.display)
          return (← store.save, store)
        else return (.ok (), store)
  else
    let store := { store with settings := Settings.fresh host.environment }
    match ← store.save with
    | .error e => return (.error e, store)
    | .ok () =>
      OnHost.note .info .settings ("Created default config at " ++ store.path.display)
      return (.ok (), store)

/-- Writes one section to the file and leaves the rest of it as it is. -/
def updateSection (store : SettingsStore) (part : SettingsSection) :
    OnHost (Except SettingsError Unit) := do
  let fs := (← get).files
  match (if fs.exists? store.path then store.readFile fs else .ok "") with
  | .error e => return .error e
  | .ok text =>
    match revise text store.settings part with
    | .error e => return .error e
    | .ok new => store.writeFile new

/-- Makes a folder unless something is there already. -/
def ensureFolder (folder : Path) : OnHost (Except SettingsError Unit) := do
  if (← get).files.exists? folder then return .ok ()
  else return (← OnHost.disk (Disk.makeDirectoryAll folder)).mapError .inaccessible

/-- Makes the folders for exports and for logs. -/
def ensureFolders (store : SettingsStore) : OnHost (Except SettingsError Unit) := do
  match ← ensureFolder store.outputFolder with
  | .error e => return .error e
  | .ok () => ensureFolder store.logsFolder

end SettingsStore

end ExportDesk
