import ExportDesk.Shell.Interpreter

/-!
# Starting programs

A host of its own: the programs that can be started are shell scripts and the utilities. A name
without a slash is one of a program; with one it is the path of a file, whose first line says what
runs it.
-/

namespace ExportDesk.Shell

open Text

/-- How many steps a program may take. -/
def allowance : Nat := 200000

/-- What the system starts for a path: a program's name, and the arguments it gets before those of
the caller. -/
def resolvePath (fs : FileSystem) : Nat → String → Except IoError (String × String × List String)
  | 0, _ => .error (.system 40)
  | fuel + 1, path =>
    match programAt? path with
    | some name => .ok (name, path, [])
    | none =>
      match fs.status (.ofText path) with
      | .error e => .error e
      | .ok (_, .file content true) =>
        match interpreterLine content with
        | none => .error .badExecutable
        | some (program, given) => do
          let (name, self, before) ← resolvePath fs fuel program
          return (name, self, before ++ given ++ [path])
      | .ok _ => .error .permissionDenied

/-- What the system starts for a name or path. -/
def resolve (fs : FileSystem) (program : String) :
    Except IoError (String × String × List String) :=
  if program.toList.contains '/' then resolvePath fs 5 program
  else if program == "." || program == ".." then .error .permissionDenied
  else if FileSystem.maxName < (encode program).length then .error .nameTooLong
  else if isProgram program then .ok (program, program, [])
  else .error .noSuchEntry

/-- Starts a program with arguments. -/
def launch : Launcher := fun environment program arguments fs =>
  if (program :: arguments).any fun a => a.toList.contains (Char.ofNat 0) then
    (.error .zeroInArgument, fs)
  else
    match resolve fs program with
    | .error e => (.error e, fs)
    | .ok (name, self, before) =>
      let bindings := (environment.home.map fun h => ("HOME", decodeLossy h)).toList
      let start : Machine := { files := fs, name := self, bindings }
      let (result, m) := ((runProgram allowance name self (before ++ arguments)).run start :
        Except Stop Unit × Machine)
      let code : Option Int :=
        match result with
        | .ok () => some m.status
        | .error (.exit n) => some n
        | .error .killed => none
        | .error _ => some 2
      (.ok { writes := m.writes.toList, ending := .ended code }, { m.files with current := fs.current })

end ExportDesk.Shell
