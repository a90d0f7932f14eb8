import ExportDesk.Files.Tree

/-!
# Work on the file system in several steps

A `Disk` action runs its steps in order and stops at the first that fails; what the steps before
it changed stays. The steps of `replaceFile`, which writes a file so that a reader sees the old
content or the new one and never a part, are given as a list, because what holds between two of
them matters as much as the result.
-/

namespace ExportDesk

open Text

/-- Steps on the file system; a failure keeps the changes made so far. -/
abbrev Disk (α : Type) := ExceptT IoError (StateM FileSystem) α

namespace Disk

/-- One change as a step. -/
def step (f : FileSystem → Except IoError FileSystem) : Disk Unit := do
  match f (← get) with
  | .ok fs => set fs
  | .error e => throw e

/-- Makes the first of the paths a directory; the others are its ancestors, innermost first, and
are made too where they are missing. A directory that is there already will do. -/
def makeDirectories : List Path → Disk Unit
  | [] => throw (.described .other "failed to create whole tree")
  | p :: up => do
    if p.isEmpty then return ()
    match (← get).makeDirectory p with
    | .ok fs => set fs
    | .error e =>
      if e.kind = .notFound then
        makeDirectories up
        match (← get).makeDirectory p with
        | .ok fs => set fs
        | .error e => if (← get).isDirectory p then return () else throw e
      else if (← get).isDirectory p then return ()
      else throw e

/-- Makes a directory together with its missing ancestors. -/
def makeDirectoryAll (p : Path) : Disk Unit := makeDirectories p.ancestors

end Disk

/-! ## Replacing a file -/

/-- The steps of replacing a file's content. -/
inductive ReplaceStep where
  | makeParent
  | createTemporary
  | fillTemporary
  | syncTemporary
  | renameOver
deriving DecidableEq, Repr

namespace ReplaceStep

/-- All steps in order. -/
def all : List ReplaceStep :=
  [.makeParent, .createTemporary, .fillTemporary, .syncTemporary, .renameOver]

/-- Where the new content is written first: beside the file, under another extension. -/
def temporary (target : Path) : Path := target.withExtension (encode "toml.tmp")

/-- What a step does. -/
def perform (target : Path) (content : Bytes) : ReplaceStep → Disk Unit
  | .makeParent =>
    match target.parent with
    | some folder => Disk.makeDirectoryAll folder
    | none => return ()
  | .createTemporary => Disk.step (·.create (temporary target))
  | .fillTemporary => Disk.step (·.append (temporary target) content)
  | .syncTemporary => Disk.step (·.sync (temporary target))
  | .renameOver => Disk.step (·.rename (temporary target) target)

/-- Performs steps in order up to the first failure. -/
def performAll (target : Path) (content : Bytes) : List ReplaceStep → Disk Unit
  | [] => return ()
  | s :: rest => do
    s.perform target content
    performAll target content rest

end ReplaceStep

/-- Replaces a file's content in one move: the new content is written beside it and then renamed
over it. -/
def Disk.replaceFile (target : Path) (content : Bytes) : Disk Unit :=
  ReplaceStep.performAll target content ReplaceStep.all

end ExportDesk
