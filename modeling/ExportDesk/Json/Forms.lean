import ExportDesk.Alert
import ExportDesk.Host
import ExportDesk.Json.Shape
import ExportDesk.Settings.Basic

/-!
# The JSON forms of the program's values

For each kind of value that is exchanged as JSON, the shape it has to have.
-/

namespace ExportDesk

/-- A required field. -/
def required (name : String) (s : Shape) : String × Shape × Option Json := (name, s, none)

/-- A field that may be left out. -/
def optional (name : String) (s : Shape) (fallback : Json) : String × Shape × Option Json :=
  (name, s, some fallback)

def ExportFormat.shape : Shape := .oneOf (ExportFormat.all.map ExportFormat.name)

def AlertKind.shape : Shape := .oneOf (AlertKind.all.map AlertKind.name)

def OutputStream.shape : Shape := .oneOf (OutputStream.all.map OutputStream.name)

def LogLevel.shape : Shape := .oneOf (LogLevel.all.map LogLevel.name)

def Alert.shape : Shape := .record [required "kind" AlertKind.shape, required "message" .text]

def ExportOptions.shape : Shape :=
  .record
    [required "input_path" .text, required "export_format" ExportFormat.shape,
     required "loudness_db" .number, required "margin_seconds" .number,
     required "output_directory" .text]

namespace Settings

def pathsJson (p : PathSettings) : Json :=
  .record
    [("output_folder", .text p.outputFolder), ("logs_folder", .text p.logsFolder),
     ("last_input_path", .text p.lastInputPath)]

def toolJson (t : ToolSettings) : Json :=
  .record [("program", .text t.program), ("prefix_args", .list (t.leadingArgs.map .text))]

def exportingJson (e : ExportSettings) : Json :=
  .record
    [("format", .text e.format), ("loudness_db", .number e.loudness),
     ("margin_seconds", .number e.margin)]

def loggingJson (l : LoggingSettings) : Json :=
  .record
    [("compact", .truth l.compact), ("error_tail", .whole l.errorTail.toNat),
     ("show_options_pretty", .truth l.showOptionsPretty),
     ("show_options_json", .truth l.showOptionsJson)]

/-- The shape of a section, whose fields fall back to those of the given value. -/
def sectionShape (shapes : List Shape) : Json → Shape
  | .record fields =>
    .record ((fields.zip shapes).map fun (f, shape) => optional f.1 shape f.2)
  | _ => .record []

/-- The shape of settings: what is left out is as in a fresh installation. -/
def shape (env : Environment) : Shape :=
  let fresh := Settings.fresh env
  let part (name : String) (shapes : List Shape) (fallback : Json) :=
    optional name (sectionShape shapes fallback) fallback
  .record
    [part "paths" [.text, .text, .text] (pathsJson fresh.paths),
     part "tool" [.text, .texts] (toolJson fresh.tool),
     part "export" [.text, .number, .number] (exportingJson fresh.exporting),
     part "logging" [.truth, .count (power 2 32 - 1), .truth, .truth] (loggingJson fresh.logging)]

end Settings

/-- The stream that a JSON value names, as a string or as the only field of a record that holds
nothing. -/
def OutputStream.ofJson? : Json → Option OutputStream
  | .text s => ofName? s
  | .record [(s, .null)] => ofName? s
  | _ => none

end ExportDesk
