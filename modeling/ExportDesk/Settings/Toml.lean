import ExportDesk.Number.Layout
import ExportDesk.Settings.Basic
import ExportDesk.Text.Lines
import ExportDesk.Toml.Plain

/-!
# The settings file's text

Each section is one table with a line per field. Reading fills fields that are missing with their
defaults and passes over names it does not know; a field of the wrong type makes the whole text
unreadable. Writing sets out every field. Whether a text lacks something is found out by reading a
section as it would be written.
-/

namespace ExportDesk

open Toml

namespace SettingsText

/-! ## Reading -/

def text? : Datum → Option String
  | .text s => some s
  | _ => none

def truth? : Datum → Option Bool
  | .truth b => some b
  | _ => none

/-- A number; a whole one will do if it fits into 64 bits, with or without sign. -/
def number? : Datum → Option Binary64
  | .number x => some x
  | .whole n => if fitsSigned 64 n || fitsUnsigned 64 n then some (Binary64.ofInt n) else none
  | _ => none

/-- A whole number of 32 bits. -/
def count? : Datum → Option UInt32
  | .whole n => if fitsUnsigned 32 n then some (UInt32.ofNat n.toNat) else none
  | _ => none

def texts? : Datum → Option (List String)
  | .list ds => ds.mapM text?
  | _ => none

/-- Where the fields of a section come from: by name from a table, by place from an array. A date
has no fields, so each keeps its default. -/
inductive Fields where
  | named (fields : List (String × Datum))
  | placed (items : List Datum)
  | missing

def Fields.ofDatum? : Datum → Option Fields
  | .table fs => some (.named fs)
  | .list ds => some (.placed ds)
  | .moment _ => some .missing
  | _ => none

/-- What is set for a field. -/
def Fields.get? (fs : Fields) (place : Nat) (name : String) : Option Datum :=
  match fs with
  | .named fs => fs.lookup name
  | .placed ds => ds[place]?
  | .missing => none

/-- A field's value: its default where nothing is set. -/
def field {α : Type} (read : Datum → Option α) (fallback : α) : Option Datum → Option α
  | none => some fallback
  | some d => read d

def paths? (env : Environment) (fs : Fields) : Option PathSettings := do
  let fresh := Settings.freshPaths env
  return {
    outputFolder := ← field text? fresh.outputFolder (fs.get? 0 "output_folder")
    logsFolder := ← field text? fresh.logsFolder (fs.get? 1 "logs_folder")
    lastInputPath := ← field text? "" (fs.get? 2 "last_input_path") }

def tool? (fs : Fields) : Option ToolSettings := do
  return {
    program := ← field text? defaultProgram (fs.get? 0 "program")
    leadingArgs := ← field texts? [] (fs.get? 1 "prefix_args") }

def exporting? (fs : Fields) : Option ExportSettings := do
  return {
    format := ← field text? ExportFormat.premiere.name (fs.get? 0 "format")
    loudness := ← field number? defaultLoudness (fs.get? 1 "loudness_db")
    margin := ← field number? defaultMargin (fs.get? 2 "margin_seconds") }

def logging? (fs : Fields) : Option LoggingSettings := do
  return {
    compact := ← field truth? true (fs.get? 0 "compact")
    errorTail := ← field count? 20 (fs.get? 1 "error_tail")
    showOptionsPretty := ← field truth? false (fs.get? 2 "show_options_pretty")
    showOptionsJson := ← field truth? false (fs.get? 3 "show_options_json") }

/-- A section's value: its defaults where the table is missing. -/
def sectionOf {α : Type} (read : Fields → Option α) (fields : List (String × Datum))
    (s : SettingsSection) : Option α :=
  match fields.lookup s.tableName with
  | none => read .missing
  | some d => (Fields.ofDatum? d).bind read

/-- The settings that the fields of a document stand for. -/
def settings? (env : Environment) (fields : List (String × Datum)) : Option Settings := do
  return {
    paths := ← sectionOf (paths? env) fields .paths
    tool := ← sectionOf tool? fields .tool
    exporting := ← sectionOf exporting? fields .exporting
    logging := ← sectionOf logging? fields .logging }

mutual

/-- Are all whole numbers in the value within 128 bits, with or without sign? -/
def isReadable : Datum → Bool
  | .whole n => fitsSigned 128 n || fitsUnsigned 128 n
  | .list ds => allReadable ds
  | .table fs => fieldsReadable fs
  | _ => true

/-- `isReadable` for every value of a list. -/
def allReadable : List Datum → Bool
  | [] => true
  | d :: ds => isReadable d && allReadable ds

/-- `isReadable` for every value of a table. -/
def fieldsReadable : List (String × Datum) → Bool
  | [] => true
  | (_, d) :: fs => isReadable d && fieldsReadable fs

end

/-- The settings a text writes. -/
def read (env : Environment) (s : String) : Option Settings := do
  let fields ← Plain.read s
  if fieldsReadable fields then settings? env fields else none

/-! ## Writing -/

/-- A value as it is written behind a key. -/
def value (datum : Datum) (written : String) : Value := { datum, written, decor := ⟨" ", ""⟩ }

def textValue (s : String) : Value := value (.text s) (Quoted.write s)

def truthValue (b : Bool) : Value := value (.truth b) (if b then "true" else "false")

def countValue (n : UInt32) : Value := value (.whole n.toNat) (toString n.toNat)

/-- A number; the sign of what is no number is not kept. -/
def numberValue (x : Binary64) : Value :=
  let x := if x.isNaN then Binary64.nan else x
  value (.number x) (NumberLayout.settings.write x)

/-- A list of texts: from two on, each has a line of its own. -/
def textsValue (ss : List String) : Value :=
  value (.list (ss.map .text)) <|
    match ss with
    | [] => "[]"
    | [s] => "[" ++ Quoted.write s ++ "]"
    | ss => "[\n" ++ String.join (ss.map fun s => "    " ++ Quoted.write s ++ ",\n") ++ "]"

/-- The fields of a section in the order they are written. -/
def valuesOf (s : Settings) : SettingsSection → List (String × Value)
  | .paths =>
    [("output_folder", textValue s.paths.outputFolder),
     ("logs_folder", textValue s.paths.logsFolder),
     ("last_input_path", textValue s.paths.lastInputPath)]
  | .tool =>
    [("program", textValue s.tool.program), ("prefix_args", textsValue s.tool.leadingArgs)]
  | .exporting =>
    [("format", textValue s.exporting.format),
     ("loudness_db", numberValue s.exporting.loudness),
     ("margin_seconds", numberValue s.exporting.margin)]
  | .logging =>
    [("compact", truthValue s.logging.compact),
     ("error_tail", countValue s.logging.errorTail),
     ("show_options_pretty", truthValue s.logging.showOptionsPretty),
     ("show_options_json", truthValue s.logging.showOptionsJson)]

/-- A section as the entries of its table. -/
def entriesOf (s : Settings) (part : SettingsSection) : Entries :=
  (valuesOf s part).map fun f =>
    ({ Key.plain f.1 with line := some ⟨"", " "⟩ }, .value f.2)

/-- The text of a section, without a header. -/
def bodyText (s : Settings) (part : SettingsSection) : String :=
  String.join ((bodyOf [] (entriesOf s part)).map fun p => printPair p.1 p.2)

/-- The document that the text of a section writes. -/
def bodyDocument (s : Settings) (part : SettingsSection) : Option Document :=
  Document.readForEditing (bodyText s part)

/-- A section below its header, line by line. -/
def writeSection (s : Settings) (part : SettingsSection) : String :=
  String.join ((Text.lines (bodyText s part)).map (· ++ "\n"))

/-- The whole file, with a comment over each section. -/
def write (s : Settings) : String :=
  "# Auto Editor GUI Configuration\n" ++
  "# This file is auto-generated. Comments may be preserved on section updates.\n" ++
  String.join (SettingsSection.all.map fun part =>
    "\n# " ++ part.comment ++ "\n[" ++ part.tableName ++ "]\n" ++ writeSection s part)

/-! ## Completeness -/

/-- Does the document have a table for every section, with every name in it that the section is
written with, and nothing else at the top? -/
def isComplete (s : Settings) (d : Document) : Bool :=
  d.entries.all (fun e => SettingsSection.all.any fun part => part.tableName == e.1.name) &&
  SettingsSection.all.all fun part =>
    match d.table? part.tableName with
    | none => false
    | some es =>
      match bodyDocument s part with
      | none => false
      | some expected => expected.entries.all fun e => es.has e.1.name

end SettingsText

end ExportDesk
