import ExportDesk.Program.Run
import ExportDesk.Shell.Launch
import Std.Time.Format

/-!
# The command

Takes up the folders that the program works in, lets it run on them, puts what it changed back, and
shows what it printed. Tools are run by the built-in shell.
-/

namespace ExportDesk.Outside

open Text

/-- How deep folders are taken up. -/
def depth : Nat := 12

/-- A path as the system is given it. -/
def pathText (l : Location) : String := "/" ++ decodeLossy (FileSystem.pathOf l)

/-- The file system with a folder and what is below it. -/
def takeUp : Nat → Location → FileSystem → IO FileSystem
  | 0, _, fs => return fs
  | fuel + 1, l, fs => do
    let folder ← IO.FS.realPath (pathText l)
    let mut fs := fs.put l .directory
    for e in ← folder.readDir do
      let below := l ++ [encode e.fileName]
      if ← e.path.isDir then
        fs ← takeUp fuel below fs
      else if ← e.path.pathExists then
        let content ← try IO.FS.readBinFile e.path catch _ => pure ByteArray.empty
        fs := fs.put below (.file content.toList true)
    return fs

/-- `takeUp` for a folder that may be missing, with the folders above it. -/
def takeUpFolder (l : Location) (fs : FileSystem) : IO FileSystem := do
  try
    let fs ← takeUp depth l fs
    let above := (List.range l.length).tail.map (l.take ·)
    return above.foldl (fun fs m => fs.put m .directory) fs
  catch _ => return fs

/-- A variable as the program goes by it. -/
def variableOf (name : String) : IO (Option Bytes) := do
  return (← IO.getEnv name).map encode

/-- The time as the logs write it. -/
def clockNow : IO Clock := do
  let now ← Std.Time.PlainDateTime.now
  return {
    timeOfDay := now.format "HH:mm:ss"
    date := now.format "yyyy-MM-dd"
    timestamp := now.format "yyyy-MM-dd" ++ "T" ++ now.format "HH:mm:ss.SSSSSS" }

/-- The host that the program finds. -/
def hostNow : IO Host := do
  let environment : Environment :=
    { home := ← variableOf "HOME"
      configHome := ← variableOf "XDG_CONFIG_HOME"
      dataHome := ← variableOf "XDG_DATA_HOME" }
  let current := (Path.ofText (toString (← IO.currentDir))).segments
  let folders := [some environment.logsFolder, some environment.outputFolder,
    environment.settingsFile.parent].filterMap fun p => p.map Path.segments
  let files ← (current :: folders).foldlM (fun fs l => takeUpFolder l fs)
    { entries := [], current }
  return { files, environment, launcher := Shell.launch, clock := ← clockNow }

/-- Puts the changes from one state of the files to another back. -/
def putBack (before after : FileSystem) : IO Unit := do
  for (l, _) in before.entries do
    if after.node? l == none then
      let path ← IO.FS.realPath (pathText l)
      if !(← path.pathExists) then continue
      if ← path.isDir then IO.FS.removeDirAll path else IO.FS.removeFile path
  for (l, n) in after.entries do
    if before.node? l != some n then
      match n with
      | .directory => IO.FS.createDirAll (pathText l)
      | .file content _ =>
        IO.FS.createDirAll (pathText l.dropLast)
        IO.FS.writeBinFile (pathText l) ⟨content.toArray⟩

/-- Shows what was written to the terminal. -/
def showTexts (texts : List (OutputStream × String)) : IO Unit := do
  for (s, text) in texts do
    match s with
    | .stdout => IO.print text
    | .stderr => IO.eprint text

end ExportDesk.Outside

open ExportDesk in
/-- Runs the program. -/
def main (arguments : List String) : IO UInt32 := do
  let before ← Outside.hostNow
  let (verdict, after) := (runProgram arguments).run before
  Outside.putBack before.files after.files
  Outside.showTexts (ProgramLog.onTerminal after.clock.timestamp none after.record.toList)
  return UInt32.ofNat verdict.code
