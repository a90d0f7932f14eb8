/-!
# Alerts

The one message a user sees about an export: that it runs, that it went well, or what went wrong.
-/

namespace ExportDesk

inductive AlertKind where
  | inProgress
  | success
  | error
deriving DecidableEq, Repr, Inhabited

namespace AlertKind

def all : List AlertKind := [.inProgress, .success, .error]

/-- The kind's name. -/
def name : AlertKind → String
  | inProgress => "in-progress"
  | success => "success"
  | error => "error"

def ofName? (name : String) : Option AlertKind := all.find? fun k => k.name == name

/-- The heading over an alert of this kind. -/
def title : AlertKind → String
  | inProgress => "Processing..."
  | success => "Success!"
  | error => "Error!"

end AlertKind

structure Alert where
  kind : AlertKind
  message : String
deriving DecidableEq, Repr, Inhabited

namespace Alert

def isError (a : Alert) : Bool := a.kind == .error

/-- The alert on one line. -/
def display (a : Alert) : String := a.kind.title ++ " " ++ a.message

end Alert

end ExportDesk
