import ExportDesk.Text.Utf8

/-!
# Paths

A path is the byte string the operating system is given; any byte but the separator may stand in a
name. Taking a path apart goes by its components: empty ones and every `.` but a leading one count
for nothing, so `a//b/.` has the file name `b` and the parent `a`.
-/

namespace ExportDesk

open Text

/-- A path as the operating system is given it. -/
structure Path where
  bytes : Bytes
deriving DecidableEq, Repr, Inhabited

namespace Path

/-- The byte `/`. -/
def separator : UInt8 := 0x2F

/-- The byte `.`. -/
def dot : UInt8 := 0x2E

/-- The path a text names. -/
def ofText (s : String) : Path := ⟨encode s⟩

/-- The path for people to read; bytes that are no text show as `U+FFFD`. -/
def display (p : Path) : String := decodeLossy p.bytes

def isEmpty (p : Path) : Bool := p.bytes.isEmpty

def isAbsolute (p : Path) : Bool := p.bytes.head? == some separator

/-- A byte string cut at every separator. -/
def splitAtSeparators : Bytes → List Bytes
  | [] => [[]]
  | b :: bs =>
    if b == separator then [] :: splitAtSeparators bs
    else
      match splitAtSeparators bs with
      | [] => [[b]]
      | s :: ss => (b :: s) :: ss

/-- The names along a path, without empty ones. -/
def segments (p : Path) : List Bytes := (splitAtSeparators p.bytes).filter (!·.isEmpty)

/-- One step of a path. -/
inductive Component where
  | root
  | here
  | up
  | named (name : Bytes)
deriving DecidableEq, Repr

/-- The steps of a path. A `.` is a step only at the start of a relative path. -/
def components (p : Path) : List Component :=
  let steps := p.segments.filterMap fun s =>
    if s == [dot] then none else if s == [dot, dot] then some .up else some (.named s)
  if p.isAbsolute then .root :: steps
  else if (p.segments.head? == some [dot]) then .here :: steps
  else steps

/-- Drops separators and `.` steps from the end of a reversed path; `/` and `.` alone stay. -/
def stripEndReversed : Bytes → Bytes
  | [] => []
  | b :: bs =>
    if b == separator then (if bs.isEmpty then [b] else stripEndReversed bs)
    else if b == dot && bs.head? == some separator then stripEndReversed bs
    else b :: bs

/-- The path's bytes up to the end of its last component. -/
def body (p : Path) : Bytes := (stripEndReversed p.bytes.reverse).reverse

/-- The bytes after the last separator of the body. -/
def lastSegment (p : Path) : Bytes := (p.body.reverse.takeWhile (· != separator)).reverse

/-- The last component, if it is a name. -/
def fileName (p : Path) : Option Bytes :=
  let s := p.lastSegment
  if s.isEmpty || s == [dot] || s == [dot, dot] then none else some s

/-- The path without its last component; the root and the empty path have none. -/
def parent (p : Path) : Option Path :=
  let b := p.body
  if b.isEmpty || b == [separator] then none
  else
    let before := b.take (b.length - p.lastSegment.length)
    some ⟨(stripEndReversed before.reverse).reverse⟩

/-- A name cut at its last dot, unless that dot is its first byte. -/
def splitExtension (name : Bytes) : Bytes × Option Bytes :=
  let after := (name.reverse.takeWhile (· != dot)).reverse
  let before := name.take (name.length - after.length - 1)
  if after.length == name.length || before.isEmpty then (name, none) else (before, some after)

/-- The file name without its extension. -/
def fileStem (p : Path) : Option Bytes := p.fileName.map fun n => (splitExtension n).1

/-- What follows the last dot of the file name. -/
def extension (p : Path) : Option Bytes := p.fileName.bind fun n => (splitExtension n).2

/-- The path with the extension of its file name replaced, or added. A path without a file name
stays as it is. -/
def withExtension (p : Path) (ext : Bytes) : Path :=
  match p.fileName with
  | none => p
  | some name =>
    let stem := (splitExtension name).1
    ⟨p.body.take (p.body.length - name.length) ++ stem ++ dot :: ext⟩

/-- The path of `child` as seen from the folder `p`; an absolute `child` stands for itself. -/
def join (p child : Path) : Path :=
  if child.isAbsolute then child
  else if p.isEmpty || p.bytes.getLast? == some separator then ⟨p.bytes ++ child.bytes⟩
  else ⟨p.bytes ++ separator :: child.bytes⟩

/-- The path, its parent, that one's parent and so on, at most `fuel` of them. -/
def upwards : Nat → Path → List Path
  | 0, _ => []
  | fuel + 1, p => p :: (match p.parent with | none => [] | some q => upwards fuel q)

/-- The path and all its ancestors, the innermost first. -/
def ancestors (p : Path) : List Path := upwards (p.bytes.length + 1) p

end Path

end ExportDesk
