import ExportDesk.Options
import ExportDesk.Tool.Outcome

/-!
# Export sessions

A session shows at most one alert and runs at most one export at a time. A request to start while
one runs is refused and changes nothing; a request without input is refused with an alert.
-/

namespace ExportDesk

structure Session where
  alert : Option Alert := none
  inFlight : Bool := false
  /-- what the alerts call the export -/
  operation : String := Outcome.defaultOperation
deriving DecidableEq, Repr, Inhabited

namespace Session

/-- What the user calls the input: its file name, or the whole path if it has none. -/
def inputName (input : Path) : String :=
  match input.fileName with
  | some name => Text.decodeLossy name
  | none => input.display

/-- Starts an export; `none` means it was not refused. -/
def request (s : Session) (o : ExportOptions) : Option Refusal × Session :=
  if s.inFlight then (some .exportInFlight, s)
  else
    match o.refusal? with
    | some r => (some r, { s with alert := some ⟨.error, r.message⟩ })
    | none =>
      let message := "Exporting " ++ inputName o.input ++ " as " ++ o.format.label ++ "..."
      (none, { s with inFlight := true, alert := some ⟨.inProgress, message⟩ })

/-- Ends the export with what came of it. -/
def finish (s : Session) (o : Outcome) : Alert × Session :=
  let a := o.alert s.operation
  (a, { s with inFlight := false, alert := some a })

/-- Ends the export before the tool has run. -/
def abort (s : Session) (message : String) : Alert × Session :=
  (⟨.error, message⟩, { s with inFlight := false, alert := some ⟨.error, message⟩ })

/-- Shows another alert. -/
def replaceAlert (s : Session) (a : Alert) : Session := { s with alert := some a }

/-- Hides the alert. -/
def dismiss (s : Session) : Session := { s with alert := none }

/-- Starts an export and notes why it was refused, if it was. -/
def start (s : Session) (o : ExportOptions) : OnHost (Option Refusal × Session) := do
  match s.request o with
  | (some .exportInFlight, s) =>
    OnHost.note .warn .session "Export requested while another is running"
    return (some .exportInFlight, s)
  | (some r, s) =>
    OnHost.note .warn .session ("Export refused: " ++ r.message)
    return (some r, s)
  | (none, s) => return (none, s)

end Session

end ExportDesk
