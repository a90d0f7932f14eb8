/-!
# Marks

What stands around a message in an export's log to tell its kind at a glance.
-/

namespace ExportDesk

inductive Mark where
  | command
  | phase
  | success
  | warning
  | error
  | plain
deriving DecidableEq, Repr, Inhabited

namespace Mark

/-- The message with its mark. -/
def format (m : Mark) (message : String) : String :=
  match m with
  | command => "$ " ++ message
  | phase => "=== " ++ message ++ " ==="
  | success => "[SUCCESS] " ++ message
  | warning => "[WARNING] " ++ message
  | error => "[ERROR] " ++ message
  | plain => message

end Mark

end ExportDesk
