/-!
# What the operating system answers

Failures of file operations and of starting programs. One from the system carries its number, and
the text is the system's text for it.
-/

namespace ExportDesk

/-- The failures that callers tell apart. -/
inductive IoErrorKind where
  | notFound
  | permissionDenied
  | alreadyExists
  | brokenPipe
  | invalidInput
  | invalidData
  | other
deriving DecidableEq, Repr

/-- Why a file operation failed. -/
inductive IoError where
  /-- the system's error number -/
  | system (number : Int)
  /-- a failure found before the system was asked, or in what it delivered -/
  | described (kind : IoErrorKind) (text : String)
deriving DecidableEq, Repr

namespace IoError

def noSuchEntry : IoError := .system 2
def badExecutable : IoError := .system 8
def noChildProcess : IoError := .system 10
def permissionDenied : IoError := .system 13
def entryExists : IoError := .system 17
def notADirectory : IoError := .system 20
def isADirectory : IoError := .system 21
def nameTooLong : IoError := .system 36
def directoryNotEmpty : IoError := .system 39
def tooManyLinks : IoError := .system 40

/-- A path with a zero byte never reaches the system. -/
def zeroInPath : IoError := .described .invalidInput "file name contained an unexpected NUL byte"

/-- An argument with a zero byte never reaches the system. -/
def zeroInArgument : IoError := .described .invalidInput "nul byte found in provided data"

/-- A file that was to be read as text holds bytes that are none. -/
def notText : IoError := .described .invalidData "stream did not contain valid UTF-8"

/-- The system's texts, from number 1 on. -/
def systemTexts : List String :=
  ["Operation not permitted", "No such file or directory", "No such process",
   "Interrupted system call", "Input/output error", "No such device or address",
   "Argument list too long", "Exec format error", "Bad file descriptor", "No child processes",
   "Resource temporarily unavailable", "Cannot allocate memory", "Permission denied",
   "Bad address", "Block device required", "Device or resource busy", "File exists",
   "Invalid cross-device link", "No such device", "Not a directory", "Is a directory",
   "Invalid argument", "Too many open files in system", "Too many open files",
   "Inappropriate ioctl for device", "Text file busy", "File too large",
   "No space left on device", "Illegal seek", "Read-only file system", "Too many links",
   "Broken pipe", "Numerical argument out of domain", "Numerical result out of range",
   "Resource deadlock avoided", "File name too long", "No locks available",
   "Function not implemented", "Directory not empty", "Too many levels of symbolic links"]

/-- The system's text for an error number. -/
def systemText (number : Int) : String :=
  match (if 1 ≤ number then systemTexts[number.toNat - 1]? else none) with
  | some text => text
  | none => "Unknown error " ++ toString number

/-- The text shown for the failure. -/
def message : IoError → String
  | .system n => systemText n ++ " (os error " ++ toString n ++ ")"
  | .described _ text => text

/-- What kind of failure it is. -/
def kind : IoError → IoErrorKind
  | .system n =>
    if n = 2 then .notFound
    else if n = 13 ∨ n = 1 then .permissionDenied
    else if n = 17 then .alreadyExists
    else if n = 32 then .brokenPipe
    else if n = 22 then .invalidInput
    else .other
  | .described k _ => k

end IoError

end ExportDesk
