import ExportDesk.Files.Links
import ExportDesk.Files.Error

/-!
# The file system

Directories and regular files by their absolute location, links from names to other locations, and
the operations the program uses on them. Every operation first asks `refuses`, so what a full disk,
missing rights or a lost mount would do is part of the model: a statement for all file systems holds
whichever operation fails. Reading and writing go through links; making, moving and removing a name
concerns the name itself.
-/

namespace ExportDesk

open Text

/-- What stands at a location. -/
inductive Node where
  | directory
  | file (content : Bytes) (executable : Bool)
deriving DecidableEq, Repr

/-- A request that may be refused. -/
inductive Access where
  | read (p : Path)
  | makeDirectory (p : Path)
  | create (p : Path)
  | fill (p : Path)
  | sync (p : Path)
  | rename (source target : Path)
  | remove (p : Path)
deriving DecidableEq, Repr

/-- All entries, the folder that relative paths start from, the requests that fail for reasons
outside the tree, and the links. -/
structure FileSystem where
  entries : List (Location × Node)
  current : Location := []
  refuses : Access → Option IoError := fun _ => none
  links : Links := {}

namespace FileSystem

/-- The entry at a location itself; the root is always a directory. -/
def entryAt? (fs : FileSystem) (l : Location) : Option Node :=
  if l.isEmpty then some .directory else fs.entries.lookup l

/-- The location that another one leads to. -/
def real (fs : FileSystem) (l : Location) : Location := fs.links.resolve l

/-- What a location leads to. -/
def node? (fs : FileSystem) (l : Location) : Option Node := fs.entryAt? (fs.real l)

/-- Is the name at a location a link? -/
def isLink (fs : FileSystem) (l : Location) : Bool := (fs.links.names.lookup l).isSome

/-- The file system with another entry where a location leads. -/
def put (fs : FileSystem) (l : Location) (n : Node) : FileSystem :=
  { fs with entries := (fs.real l, n) :: fs.entries.filter (fun e => e.1 != fs.real l) }

/-- The file system without the name at a location. -/
def erase (fs : FileSystem) (l : Location) : FileSystem :=
  { fs with
    entries := fs.entries.filter (fun e => e.1 != l)
    links := { fs.links with names := fs.links.names.filter (fun e => e.1 != l) } }

/-- Where a path leads: to a directory that exists, or to a name inside one. `slash` tells that
separators follow the name, so that only a directory is meant. -/
inductive Place where
  | directory (l : Location)
  | entry (folder : Location) (name : Bytes) (slash : Bool)
deriving DecidableEq, Repr

/-- The longest name and the longest path the system takes. -/
def maxName : Nat := 255
def maxPath : Nat := 4095

/-- Follows the names of a path from an existing directory. -/
def follow (fs : FileSystem) (slash : Bool) : Location → List Bytes → Except IoError Place
  | l, [] => .ok (.directory l)
  | l, s :: rest =>
    if s == [Path.dot] then follow fs slash l rest
    else if s == [Path.dot, Path.dot] then follow fs slash (fs.real l).dropLast rest
    else if maxName < s.length then .error .nameTooLong
    else if rest.isEmpty then .ok (.entry l s slash)
    else
      match fs.node? (l ++ [s]) with
      | some .directory => follow fs slash (l ++ [s]) rest
      | some (.file _ _) => .error .notADirectory
      | none => .error .noSuchEntry

/-- Where a path leads. -/
def locate (fs : FileSystem) (p : Path) : Except IoError Place :=
  if p.bytes.contains 0 then .error .zeroInPath
  else if p.isEmpty then .error .noSuchEntry
  else if maxPath < p.bytes.length then .error .nameTooLong
  else
    fs.follow (p.bytes.getLast? == some Path.separator)
      (if p.isAbsolute then [] else fs.current) p.segments

/-- The location of a place, whether or not anything stands there. -/
def Place.location : Place → Location
  | .directory l => l
  | .entry folder name _ => folder ++ [name]

/-- Is only a directory meant, by the separators that follow a name? -/
def Place.slash : Place → Bool
  | .directory _ => false
  | .entry _ _ slash => slash

/-- The name that a path ends with, itself: its location, and what it is. A link is not followed and
counts as a file. -/
def itself (fs : FileSystem) : Place → Location × Option Node
  | .directory l => (fs.real l, fs.node? l)
  | .entry folder name slash =>
    let own := fs.real folder ++ [name]
    if !slash && fs.isLink own then (own, some (.file [] false))
    else (fs.real (folder ++ [name]), fs.node? (folder ++ [name]))

/-- What a path leads to. -/
def status (fs : FileSystem) (p : Path) : Except IoError (Location × Node) := do
  match ← fs.locate p with
  | .directory l => return (l, .directory)
  | .entry folder name slash =>
    match fs.node? (folder ++ [name]) with
    | none => .error .noSuchEntry
    | some (.file c x) =>
      if slash then .error .notADirectory else return (folder ++ [name], .file c x)
    | some .directory => return (folder ++ [name], .directory)

/-- Does the path lead to anything? -/
def exists? (fs : FileSystem) (p : Path) : Bool := (fs.status p).isOk

/-- Does the path lead to a directory? -/
def isDirectory (fs : FileSystem) (p : Path) : Bool :=
  match fs.status p with
  | .ok (_, .directory) => true
  | _ => false

/-- The bytes of the regular file a path leads to, if it leads to one. -/
def fileAt? (fs : FileSystem) (p : Path) : Option Bytes :=
  match fs.status p with
  | .ok (_, .file c _) => some c
  | _ => none

/-- The bytes of a file. -/
def read (fs : FileSystem) (p : Path) : Except IoError Bytes :=
  match fs.refuses (.read p) with
  | some e => .error e
  | none => do
    match ← fs.status p with
    | (_, .file c _) => return c
    | (_, .directory) => .error .isADirectory

/-- The text of a file. -/
def readText (fs : FileSystem) (p : Path) : Except IoError String := do
  match decode? (← fs.read p) with
  | some s => return s
  | none => .error .notText

/-! ## Changes

Each of these either succeeds or leaves everything as it was. -/

/-- Goes on unless the request is refused from outside. -/
def permit (fs : FileSystem) (a : Access) : Except IoError Unit :=
  match fs.refuses a with
  | some e => .error e
  | none => .ok ()

/-- Makes a directory inside an existing one. -/
def makeDirectory (fs : FileSystem) (p : Path) : Except IoError FileSystem := do
  fs.permit (.makeDirectory p)
  match ← fs.locate p with
  | .directory _ => .error .entryExists
  | .entry folder name _ =>
    match fs.node? (folder ++ [name]) with
    | some _ => .error .entryExists
    | none =>
      if fs.isLink (fs.real folder ++ [name]) then .error .entryExists
      else return fs.put (folder ++ [name]) .directory

/-- Opens a file for writing from the start: an existing one is emptied, a missing one is made. A
link that leads to no file may have it made too, if it leads into a folder. -/
def create (fs : FileSystem) (p : Path) : Except IoError FileSystem := do
  fs.permit (.create p)
  match ← fs.locate p with
  | .directory _ => .error .isADirectory
  | .entry folder name slash =>
    match fs.node? (folder ++ [name]) with
    | some .directory => .error .isADirectory
    | some (.file _ x) =>
      if slash then .error .notADirectory else return fs.put (folder ++ [name]) (.file [] x)
    | none =>
      if slash then .error .isADirectory
      else if fs.isLink (fs.real (folder ++ [name])) then .error .tooManyLinks
      else if fs.entryAt? (fs.real (folder ++ [name])).dropLast ≠ some .directory then
        .error .noSuchEntry
      else return fs.put (folder ++ [name]) (.file [] false)

/-- Opens a file for writing at its end: an existing one stays as it is, a missing one is made. -/
def openAtEnd (fs : FileSystem) (p : Path) : Except IoError FileSystem :=
  if (fs.fileAt? p).isSome then do
    fs.permit (.fill p)
    return fs
  else fs.create p

/-- Appends bytes to an existing file. -/
def append (fs : FileSystem) (p : Path) (content : Bytes) : Except IoError FileSystem := do
  fs.permit (.fill p)
  match ← fs.status p with
  | (l, .file c x) => return fs.put l (.file (c ++ content) x)
  | (_, .directory) => .error .isADirectory

/-- Waits until a file's content is on the disk. -/
def sync (fs : FileSystem) (p : Path) : Except IoError FileSystem := do
  fs.permit (.sync p)
  return fs

/-- Every name at or below a location, moved to another one. -/
def moved {α : Type} (source target : Location) (es : List (Location × α)) :
    List (Location × α) :=
  let inside := es.filter fun e => source.isPrefixOf e.1
  let outside := es.filter fun e => !source.isPrefixOf e.1 && e.1 != target
  inside.map (fun e => (target ++ e.1.drop source.length, e.2)) ++ outside

/-- Moves a name with all that is below it to another location, in place of what is there. -/
def move (fs : FileSystem) (source target : Location) : FileSystem :=
  { fs with
    entries := moved source target fs.entries
    links := { fs.links with names := moved source target fs.links.names } }

/-- Are both locations names of one file that has several names? -/
def areNames (fs : FileSystem) (l m : Location) : Bool :=
  match fs.links.names.lookup l, fs.links.names.lookup m with
  | some (.hard f), some (.hard g) => f == g
  | _, _ => false

/-- Gives a name another path. A file takes the place of a file there, but none of a path that
means a directory. -/
def rename (fs : FileSystem) (source target : Path) : Except IoError FileSystem := do
  fs.permit (.rename source target)
  let old ← fs.locate source
  let (s, some n) := fs.itself old | .error .noSuchEntry
  if n ≠ .directory ∧ old.slash then .error .notADirectory
  let new ← fs.locate target
  let (t, there) := fs.itself new
  if n ≠ .directory ∧ new.slash then .error .notADirectory
  match n, there with
  | .file _ _, some .directory => .error .isADirectory
  | .directory, some (.file _ _) => .error .notADirectory
  | .directory, some .directory =>
    if fs.entries.any (fun e => t.isPrefixOf e.1 && e.1 != t) then .error .directoryNotEmpty
    else return fs.move s t
  | .file _ _, _ => if s == t || fs.areNames s t then return fs else return fs.move s t
  | .directory, none => return fs.move s t

/-- Removes a file, or one of its names. -/
def removeFile (fs : FileSystem) (p : Path) : Except IoError FileSystem := do
  fs.permit (.remove p)
  let place ← fs.locate p
  match fs.itself place with
  | (_, none) => .error .noSuchEntry
  | (l, some (.file _ _)) => if place.slash then .error .notADirectory else return fs.erase l
  | (_, some .directory) => .error .isADirectory

/-- Removes whatever stands at a path, with all that is below it. -/
def removeAll (fs : FileSystem) (p : Path) : Except IoError FileSystem := do
  fs.permit (.remove p)
  let place ← fs.locate p
  let (l, some n) := fs.itself place | .error .noSuchEntry
  if n ≠ .directory ∧ place.slash then .error .notADirectory
  return { fs with
    entries := fs.entries.filter fun e => !l.isPrefixOf e.1
    links := { fs.links with names := fs.links.names.filter fun e => !l.isPrefixOf e.1 } }

/-! ## Listing -/

/-- The names of a location joined by separators. -/
def pathOf : Location → Bytes
  | [] => []
  | [s] => s
  | s :: rest => s ++ Path.separator :: pathOf rest

/-- Everything below the current folder by relative path, in the order of the paths' bytes. -/
def listing (fs : FileSystem) : List (Path × Node) :=
  let below := fs.entries.filterMap fun e =>
    if fs.current.isPrefixOf e.1 && e.1 != fs.current then
      some ((⟨pathOf (e.1.drop fs.current.length)⟩ : Path), e.2)
    else none
  below.mergeSort fun a b => !(b.1.bytes < a.1.bytes)

end FileSystem

end ExportDesk
