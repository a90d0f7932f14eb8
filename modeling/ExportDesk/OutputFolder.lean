import ExportDesk.Host
import ExportDesk.Settings.Basic

/-!
# The folder for exports

The configured folder is made when it is needed. Exports and previews go by
`Environment.outputFolderFor`.
-/

namespace ExportDesk

/-- Why an output folder cannot be used. -/
structure OutputFolderError where
  path : Path
  cause : IoError
deriving DecidableEq, Repr

def OutputFolderError.message (e : OutputFolderError) : String :=
  "Failed to prepare output directory " ++ e.path.display ++ ": " ++ e.cause.message

namespace OutputFolder

/-- The folder that a setting means, made unless something is there already. -/
def resolve (configured : String) : OnHost (Except IoError Path) := do
  let host ← get
  let folder := host.environment.outputFolderFor configured
  if host.files.exists? folder then return .ok folder
  match ← OnHost.disk (Disk.makeDirectoryAll folder) with
  | .error e => return .error e
  | .ok () =>
    OnHost.note .info .locations ("Directory created at: " ++ folder.display)
    return .ok folder

/-- `resolve` with a failure that names the folder. -/
def prepare (configured : String) : OnHost (Except OutputFolderError Path) := do
  let folder := (← get).environment.outputFolderFor configured
  return (← resolve configured).mapError fun cause => ⟨folder, cause⟩

end OutputFolder

end ExportDesk
