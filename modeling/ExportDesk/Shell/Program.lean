import ExportDesk.Shell.Filter
import ExportDesk.Shell.Utility

/-!
# The programs there are
-/

namespace ExportDesk.Shell.Utility

/-- The utilities that exist as programs of their own. -/
def programs : List (String × Utility) :=
  [("true", fun _ => return 0), ("false", fun _ => return 1), ("sleep", fun _ => return 0),
   ("cat", cat), ("mkdir", mkdir), ("touch", touch), ("rm", rm), ("rmdir", rmdir), ("cp", cp),
   ("mv", mv), ("chmod", chmod), ("ls", ls), ("seq", seq), ("basename", basename),
   ("dirname", dirname), ("echo", plainEcho), ("printf", printf), ("test", test), ("[", bracket), ("head", head),
   ("tail", tail), ("wc", wc), ("tr", tr), ("tee", tee)]

/-- The utilities that a script has itself and that come before programs of the same name. -/
def builtins : List (String × Utility) :=
  [(":", fun _ => return 0), ("true", fun _ => return 0), ("false", fun _ => return 1),
   ("echo", echo), ("printf", printf), ("test", test), ("[", bracket),
   ("wait", fun _ => return 0), ("trap", fun _ => return 0), ("umask", fun _ => return 0)]

end ExportDesk.Shell.Utility
