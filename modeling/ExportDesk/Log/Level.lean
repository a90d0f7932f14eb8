import ExportDesk.Text.Blank
import ExportDesk.Text.Fold

/-!
# Log levels

How much a message matters, from the finest detail to failures. A log set to a level takes the
messages of that level and above.
-/

namespace ExportDesk

inductive LogLevel where
  | trace
  | debug
  | info
  | warn
  | error
deriving DecidableEq, Repr, Inhabited

namespace LogLevel

def all : List LogLevel := [.trace, .debug, .info, .warn, .error]

/-- The level's place in the order. -/
def rank : LogLevel → Nat
  | trace => 0
  | debug => 1
  | info => 2
  | warn => 3
  | error => 4

instance : LE LogLevel := ⟨fun a b => a.rank ≤ b.rank⟩

instance (a b : LogLevel) : Decidable (a ≤ b) := inferInstanceAs (Decidable (a.rank ≤ b.rank))

/-- The level's name. -/
def name : LogLevel → String
  | trace => "trace"
  | debug => "debug"
  | info => "info"
  | warn => "warn"
  | error => "error"

/-- The level with exactly this name. -/
def ofExactName? (name : String) : Option LogLevel := all.find? fun l => l.name == name

/-- The level a user means: blanks around the name and its case do not matter. -/
def ofName? (name : String) : Option LogLevel :=
  let wanted := Text.foldCase (Text.trim name)
  if wanted == "warning" then some .warn else ofExactName? wanted

/-- The level as it opens a line: in capitals, right-aligned in five columns. -/
def tag : LogLevel → String
  | trace => "TRACE"
  | debug => "DEBUG"
  | info => " INFO"
  | warn => " WARN"
  | error => "ERROR"

end LogLevel

end ExportDesk
