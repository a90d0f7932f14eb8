import ExportDesk.Text.Blank

/-!
# The name of a log file

Characters that a file name cannot hold everywhere are replaced, so that the log always lies right
in its folder. Doing so twice changes nothing more.
-/

namespace ExportDesk.LogFile

open Text

/-- The characters that are replaced. -/
def unsafeChars : List Char := ['/', '\\', ':', '*', '?', '"', '<', '>', '|']

/-- What a character is replaced by, or the character itself. -/
def safeChar (c : Char) : Char := if unsafeChars.contains c then '_' else c

/-- The name used when nothing visible is left. -/
def fallbackName : String := "export"

/-- A name that can be used for a file. -/
def safeName (name : String) : String :=
  let cleaned := String.ofList (name.toList.map safeChar)
  if isBlank cleaned then fallbackName else cleaned

theorem safeChar_safeChar (c : Char) : safeChar (safeChar c) = safeChar c := by
  unfold safeChar
  split
  · decide
  · rename_i h; simp_all

theorem safeName_safeName (name : String) : safeName (safeName name) = safeName name := by
  by_cases h : isBlank (String.ofList (name.toList.map safeChar)) = true
  · have : safeName name = fallbackName := by simp [safeName, h]
    rw [this]
    decide
  · have : safeName name = String.ofList (name.toList.map safeChar) := by simp [safeName, h]
    rw [this, safeName]
    simp [Function.comp_def, safeChar_safeChar, h]

/-- The log file of a name in a folder. -/
def fileName (name : String) : String := safeName name ++ ".log"

end ExportDesk.LogFile
