import ExportDesk.Files.Path

/-!
# Links

A name can stand for something else. A symbolic link leads to whatever is at another location, and a
file with several names is kept at a location that no path names, where each of its names leads.
-/

namespace ExportDesk

open Text

/-- The names from the root down to an entry; the root itself is `[]`. -/
abbrev Location := List Bytes

/-- What a name stands for that has no entry of its own. -/
inductive Link where
  /-- a symbolic link to a location, whether or not anything is there -/
  | symbolic (goal : Location)
  /-- one of the names of a file that has several -/
  | hard (file : Location)
deriving DecidableEq, Repr

/-- All links, by the locations of their names, and how deep symbolic links may be nested. -/
structure Links where
  names : List (Location × Link) := []
  maxDepth : Nat := 40
deriving DecidableEq, Repr

namespace Links

/-- Where a name leads whose folder has no links on the way to it. A link that is nested too deep
leads no further. -/
def hop (names : List (Location × Link)) : Nat → Location → Location
  | 0, l => l
  | depth + 1, l =>
    match names.lookup l with
    | none => l
    | some (.hard file) => file
    | some (.symbolic goal) => goal.foldl (fun m s => hop names depth (m ++ [s])) []

/-- Where the names of a location lead, one after another. -/
def resolve (links : Links) (l : Location) : Location :=
  l.foldl (fun m s => hop links.names links.maxDepth (m ++ [s])) []

end Links

end ExportDesk
