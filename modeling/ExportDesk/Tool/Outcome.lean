import ExportDesk.Alert
import ExportDesk.Files.Path
import ExportDesk.Files.Error
import ExportDesk.Host

/-!
# How a run of the tool ends

The exit code alone decides between success and failure; what the tool printed is shown and never
judged. A run may also end before the tool has started.
-/

namespace ExportDesk

/-- A line that the tool printed. -/
structure OutputLine where
  stream : OutputStream
  text : String
deriving DecidableEq, Repr, Inhabited

/-- Why no run came to its end. -/
inductive RunError where
  /-- the folder for the result cannot be made; nothing was started -/
  | outputDirectory (path : Path) (cause : IoError)
  /-- the system did not start the program -/
  | launch (program : String) (cause : IoError)
  /-- the program's end could not be learned -/
  | wait (program : String) (cause : IoError)
  /-- the program started without pipes for its output -/
  | missingPipe (program : String)
  /-- the program is not the configured one -/
  | toolNotAllowed (program allowed : String)
deriving DecidableEq, Repr

namespace RunError

def message : RunError → String
  | .outputDirectory path cause =>
    "Failed to create output directory " ++ path.display ++ ": " ++ cause.message
  | .launch program cause => "Failed to launch " ++ program ++ ": " ++ cause.message
  | .wait program cause =>
    "Lost track of " ++ program ++ " while waiting for it to exit: " ++ cause.message
  | .missingPipe program => program ++ " started without capturable output"
  | .toolNotAllowed program allowed =>
    "Refusing to run " ++ program ++ ": only " ++ allowed ++ " may be launched"

/-- Is the program simply not there? -/
def isNotFound : RunError → Bool
  | .launch _ cause => cause.kind == .notFound
  | _ => false

end RunError

/-- The end of a run. -/
inductive Outcome where
  /-- exit code zero, with the last lines of standard output -/
  | success (stdout : String)
  /-- another exit code, with the last lines that may say why -/
  | failure (code : Int) (diagnostic : String)
  | notRun (cause : RunError)
deriving DecidableEq, Repr

namespace Outcome

/-- The outcome of a run that ended with an exit code. The error output explains a failure; if it
is blank, the standard output has to. -/
def ofExit (code : Int) (stdout stderr : String) : Outcome :=
  if code = 0 then .success stdout
  else .failure code (if Text.isBlank stderr then stdout else stderr)

/-- The exit code, if there was a run. -/
def exitCode? : Outcome → Option Int
  | .success _ => some 0
  | .failure code _ => some code
  | .notRun _ => none

def isSuccess : Outcome → Bool
  | .success _ => true
  | _ => false

def display : Outcome → String
  | .success _ => "exited successfully"
  | .failure code _ => "exited with code " ++ toString code
  | .notRun cause => "did not run: " ++ cause.message

/-- The name of an operation that has none. -/
def defaultOperation : String := "Export"

/-- What the user is told about the outcome of an operation. -/
def alert (o : Outcome) (operation : String := defaultOperation) : Alert :=
  match o with
  | .success _ => ⟨.success, operation ++ " completed successfully"⟩
  | .failure code diagnostic =>
    ⟨.error,
      if Text.isBlank diagnostic then
        operation ++ " failed: tool exited with code " ++ toString code
      else Text.trim diagnostic⟩
  | .notRun cause => ⟨.error, cause.message⟩

end Outcome

end ExportDesk
