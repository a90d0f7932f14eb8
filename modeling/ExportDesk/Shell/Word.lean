/-!
# Words of a shell script

A word is a list of parts that are put together when the word is used. A quoted part stays as it
is; what an unquoted part stands for may be cut into several fields. Scripts inside a word are kept
as text and read when they are run.
-/

namespace ExportDesk.Shell

/-- What `$` can ask for. -/
inductive Parameter where
  | variable (name : String)
  /-- an argument by its number; number zero is the script's name -/
  | argument (n : Nat)
  /-- every argument, each for itself -/
  | arguments
  /-- every argument in one text -/
  | argumentsJoined
  | argumentCount
  /-- the status of the last command -/
  | status
  /-- the number of the process -/
  | process
deriving DecidableEq, Repr

/-- What is made of a parameter's value. `orEmpty` tells that an empty value counts as unset. -/
inductive Change where
  | keep
  | length
  | otherwise (orEmpty : Bool) (source : List Char)
  | whenSet (orEmpty : Bool) (source : List Char)
  | assign (orEmpty : Bool) (source : List Char)
  | dropEnd (longest : Bool) (pattern : List Char)
  | dropStart (longest : Bool) (pattern : List Char)
deriving DecidableEq, Repr

/-- A part of a word. -/
inductive Part where
  | text (s : List Char) (quoted : Bool)
  | parameter (p : Parameter) (change : Change) (quoted : Bool)
  | arithmetic (source : List Char) (quoted : Bool)
  | output (source : List Char) (quoted : Bool)
deriving DecidableEq, Repr

abbrev Word := List Part

/-- Joins neighbouring texts that are quoted alike. -/
def Word.merge : Word → Word
  | .text s q :: rest =>
    match Word.merge rest with
    | .text t r :: tail =>
      if q == r then .text (s ++ t) q :: tail else .text s q :: .text t r :: tail
    | w => .text s q :: w
  | p :: rest => p :: Word.merge rest
  | [] => []

/-- The word as a plain unquoted text, if it is one: only then can it be a reserved word. -/
def Word.bare? : Word → Option String
  | [.text s false] => some (String.ofList s)
  | _ => none

end ExportDesk.Shell
