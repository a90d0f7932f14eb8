import ExportDesk.Files.Path

/-!
# The output file

The result of an export lies in the output folder under the input's name with the extension of the
format. Both kinds of slash end a folder in the input, so a path from another system gives the same
name; the folder's own kind of slash joins it to the name.
-/

namespace ExportDesk.OutputPath

open Text

/-- Does the character end the name of a folder? -/
def isSlash (c : Char) : Bool := c == '/' || c == '\\'

/-- The text after the last slash. -/
def baseName (cs : List Char) : List Char := (cs.reverse.takeWhile (!isSlash ·)).reverse

/-- A name without its extension. A dot that opens the name starts none. -/
def stem (name : List Char) : List Char :=
  let after := name.reverse.takeWhile (· != '.')
  let before := name.take (name.length - after.length - 1)
  if after.length == name.length || before.isEmpty then name else before

/-- The name for an input that has none. -/
def fallbackStem : List Char := "output".toList

/-- The name of the output file. -/
def fileName (input : List Char) (extension : List Char) : List Char :=
  let s := stem (baseName input)
  (if s.isEmpty then fallbackStem else s) ++ extension

/-- The slash a folder's path uses; `/` if it uses both or none. -/
def slashFor (dir : List Char) : Char :=
  if dir.contains '\\' && !dir.contains '/' then '\\' else '/'

/-- The path without slashes at its end. -/
def trimSlashes (dir : List Char) : List Char := (dir.reverse.dropWhile isSlash).reverse

/-- The output file as text. -/
def chars (input dir extension : List Char) : List Char :=
  let name := fileName input extension
  if dir.isEmpty then name else trimSlashes dir ++ slashFor dir :: name

end ExportDesk.OutputPath

namespace ExportDesk

/-- The output file of an input in a folder. -/
def outputPath (input dir : Path) (extension : String) : Path :=
  .ofText <| String.ofList <|
    OutputPath.chars input.display.toList dir.display.toList extension.toList

end ExportDesk
