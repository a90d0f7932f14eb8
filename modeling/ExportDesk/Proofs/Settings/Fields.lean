import ExportDesk.Proofs.Settings.Printing
import ExportDesk.Proofs.Text.Utf8
import ExportDesk.Proofs.Toml.Agreement

/-!
# What a settings file sets

`setBy` gives what a file's content sets for a field, and `KeepsSettings` says that another content
sets the same. Settings that were read hold every value that was set (`setIn_of_read`); a text that
is written anew sets what it is written from (`setBy_write`); writing the paths alone changes
nothing else (`setBy_revise`), if the document that this makes is printed as a text that reads back.
-/

namespace ExportDesk.SettingsText

open Text Toml

/-! ## Values in a file -/

/-- What the fields of a document set for a field of a section. -/
def setIn (fields : List (String × Datum)) (part : SettingsSection) (name : String) :
    Option Datum :=
  ((fields.lookup part.tableName).bind Fields.ofDatum?).bind fun fs =>
    fs.get? ((fieldNames part).idxOf name) name

/-- What a text sets for a field of a section; nothing if it is not TOML. -/
def setByText (text : String) (part : SettingsSection) (name : String) : Option Datum :=
  (Document.read text).bind fun d => setIn d.fields part name

/-- What the content of a file sets for a field of a section. A missing file sets nothing. -/
def setBy (content : Option Bytes) (part : SettingsSection) (name : String) : Option Datum :=
  (content.bind decode?).bind fun text => setByText text part name

/-- The settings are read from the values of the document. -/
theorem read_eq (env : Environment) (text : String) :
    read env text = (Document.read text).bind fun d =>
      if fieldsReadable d.fields then settings? env d.fields else none := by
  unfold read
  rw [Plain.read_eq]
  cases Document.read text <;> rfl

theorem document_of_read {env : Environment} {text : String} {s : Settings}
    (h : read env text = some s) :
    ∃ d, Document.read text = some d ∧ settings? env d.fields = some s := by
  rw [read_eq] at h
  obtain ⟨d, hd, hs⟩ := Option.bind_eq_some_iff.1 h
  split at hs
  · exact ⟨d, hd, hs⟩
  · cases hs

/-- The same value: written alike, or as a number that is the same. -/
def SameValue (d e : Datum) : Prop :=
  e = d ∨ ∃ x y, number? d = some x ∧ number? e = some y ∧
    Scalar.plainNumber x = Scalar.plainNumber y

theorem SameValue.refl (d : Datum) : SameValue d d := .inl rfl

theorem SameValue.trans {d e f : Datum} (h : SameValue d e) (h' : SameValue e f) :
    SameValue d f := by
  obtain rfl | ⟨x, y, hx, hy, hxy⟩ := h
  · exact h'
  obtain rfl | ⟨y', z, hy', hz, hyz⟩ := h'
  · exact .inr ⟨x, y, hx, hy, hxy⟩
  · obtain rfl := Option.some.inj (hy.symm.trans hy')
    exact .inr ⟨x, z, hx, hz, hxy.trans hyz⟩

theorem SameValue.eq_text {d : Datum} {s : String} (h : SameValue d (.text s)) : d = .text s := by
  obtain heq | ⟨x, y, -, hy, -⟩ := h
  · exact heq.symm
  · cases hy

/-- Every field but the last input that the one content sets has the same value in the other. -/
def KeepsSettings (before after : Option Bytes) : Prop :=
  ∀ part, ∀ name ∈ fieldNames part, (part, name) ≠ (.paths, "last_input_path") →
    ∀ d, setBy before part name = some d →
      ∃ e, setBy after part name = some e ∧ SameValue d e

theorem KeepsSettings.refl (content : Option Bytes) : KeepsSettings content content :=
  fun _ _ _ _ d hd => ⟨d, hd, .refl d⟩

/-! ## Settings that were read -/

theorem text?_eq_some {d : Datum} {s : String} (h : text? d = some s) : d = .text s := by
  cases d <;> simp_all [text?]

theorem truth?_eq_some {d : Datum} {b : Bool} (h : truth? d = some b) : d = .truth b := by
  cases d <;> simp_all [truth?]

theorem texts?_eq_some {d : Datum} {ss : List String} (h : texts? d = some ss) :
    d = .list (ss.map .text) := by
  cases d with
  | list ds =>
    have hmap : ds.mapM text? = some ss := h
    clear h
    induction ds generalizing ss with
    | nil =>
      obtain rfl := Option.some.inj hmap
      rfl
    | cons d ds ih =>
      rw [List.mapM_cons] at hmap
      obtain ⟨s, hs, hmap⟩ := Option.bind_eq_some_iff.1 hmap
      obtain ⟨rest, hrest, hss⟩ := Option.bind_eq_some_iff.1 hmap
      obtain rfl := Option.some.inj hss
      obtain rfl := text?_eq_some hs
      have ih := ih hrest
      rw [Datum.list.injEq] at ih
      rw [ih, List.map_cons]
  | _ => cases h

theorem count?_eq_some {d : Datum} {n : UInt32} (h : count? d = some n) : d = .whole n.toNat := by
  cases d with
  | whole k =>
    have hif : (if fitsUnsigned 32 k then some (UInt32.ofNat k.toNat) else none) = some n := h
    split at hif
    next hfits =>
      obtain rfl := Option.some.inj hif
      have hp : power 2 32 = 4294967296 := rfl
      unfold fitsUnsigned at hfits
      rw [hp, Bool.and_eq_true, decide_eq_true_eq, decide_eq_true_eq] at hfits
      rw [UInt32.toNat_ofNat', Nat.mod_eq_of_lt (by omega)]
      congr 1
      omega
    · cases hif
  | _ => cases h

theorem sameValue_number {d : Datum} {x : Binary64} (h : number? d = some x) :
    SameValue d (.number (Scalar.plainNumber x)) := by
  have hplain : Scalar.plainNumber (Scalar.plainNumber x) = Scalar.plainNumber x := by
    unfold Scalar.plainNumber
    split <;> rfl
  exact .inr ⟨x, _, h, rfl, hplain.symm⟩

/-- A section that was read comes from fields that hold what was set, and nothing else. -/
theorem sectionOf_eq_some {α : Type} {read : Fields → Option α} {fields : List (String × Datum)}
    {part : SettingsSection} {v : α} (h : sectionOf read fields part = some v) :
    ∃ fs, read fs = some v ∧ ∀ name,
      setIn fields part name = fs.get? ((fieldNames part).idxOf name) name := by
  unfold sectionOf at h
  cases hlookup : fields.lookup part.tableName with
  | none =>
    rw [hlookup] at h
    refine ⟨.missing, h, fun name => ?_⟩
    unfold setIn
    rw [hlookup]
    rfl
  | some datum =>
    rw [hlookup] at h
    obtain ⟨fs, hfs, hread⟩ := Option.bind_eq_some_iff.1 h
    refine ⟨fs, hread, fun name => ?_⟩
    unfold setIn
    rw [hlookup, Option.bind_some, hfs]
    rfl

/-- What settings say of a field, as it is written. -/
def datumOf (s : Settings) (part : SettingsSection) (name : String) : Option Datum :=
  (fieldsOf (entriesOf s part)).lookup name

theorem datumOf_eq (s : Settings) (part : SettingsSection) (name : String) :
    datumOf s part name = ((valuesOf s part).map fun f => (f.1, f.2.datum)).lookup name := by
  unfold datumOf
  rw [Layout.fieldsOf_entriesOf]

/-- A value is the one that was set, or the default where none was. -/
def Filled (set : Option Datum) (fallback e : Datum) : Prop :=
  match set with
  | some d => SameValue d e
  | none => e = fallback

theorem filled_field {α : Type} {read : Datum → Option α} {w : α → Datum}
    (hread : ∀ d v, read d = some v → SameValue d (w v)) {fallback v : α}
    {set : Option Datum} (h : field read fallback set = some v) :
    Filled set (w fallback) (w v) := by
  cases set with
  | none =>
    obtain rfl := Option.some.inj h
    rfl
  | some d => exact hread d v h

section

variable {set : Option Datum}

theorem filled_text {fallback s : String} (h : field text? fallback set = some s) :
    Filled set (.text fallback) (.text s) := by
  refine filled_field (w := .text) (fun d s hd => ?_) h
  obtain rfl := text?_eq_some hd
  exact .refl _

theorem filled_truth {fallback b : Bool} (h : field truth? fallback set = some b) :
    Filled set (.truth fallback) (.truth b) := by
  refine filled_field (w := .truth) (fun d b hd => ?_) h
  obtain rfl := truth?_eq_some hd
  exact .refl _

theorem filled_count {fallback n : UInt32} (h : field count? fallback set = some n) :
    Filled set (countValue fallback).datum (countValue n).datum := by
  refine filled_field (w := fun n => (countValue n).datum) (fun d n hd => ?_) h
  obtain rfl := count?_eq_some hd
  exact .refl _

theorem filled_texts {fallback ss : List String} (h : field texts? fallback set = some ss) :
    Filled set (textsValue fallback).datum (textsValue ss).datum := by
  refine filled_field (w := fun ss => (textsValue ss).datum) (fun d ss hd => ?_) h
  obtain rfl := texts?_eq_some hd
  exact .refl _

theorem filled_number {fallback x : Binary64} (h : field number? fallback set = some x) :
    Filled set (numberValue fallback).datum (numberValue x).datum :=
  filled_field (w := fun x => (numberValue x).datum) (fun _ _ => sameValue_number) h

end

/-- The settings say of a field what was set for it, or its default where nothing was. -/
def FilledAt (env : Environment) (s : Settings) (part : SettingsSection) (name : String)
    (set : Option Datum) : Prop :=
  ∃ f e, datumOf (Settings.fresh env) part name = some f ∧ datumOf s part name = some e ∧
    Filled set f e

section

variable {env : Environment} {s : Settings} {fs : Fields} {name : String}

theorem filled_paths {p : PathSettings} (h : paths? env fs = some p) (hs : s.paths = p)
    (hname : name ∈ fieldNames .paths) :
    FilledAt env s .paths name (fs.get? ((fieldNames .paths).idxOf name) name) := by
  obtain ⟨output, houtput, h⟩ := Option.bind_eq_some_iff.1 h
  obtain ⟨logs, hlogs, h⟩ := Option.bind_eq_some_iff.1 h
  obtain ⟨last, hlast, h⟩ := Option.bind_eq_some_iff.1 h
  obtain rfl := Option.some.inj h
  simp only [fieldNames, List.mem_cons, List.not_mem_nil, or_false] at hname
  unfold FilledAt
  rw [datumOf_eq, datumOf_eq, valuesOf, valuesOf, hs]
  rcases hname with rfl | rfl | rfl
  · exact ⟨_, _, rfl, rfl, filled_text houtput⟩
  · exact ⟨_, _, rfl, rfl, filled_text hlogs⟩
  · exact ⟨_, _, rfl, rfl, filled_text hlast⟩

theorem filled_tool {t : ToolSettings} (h : tool? fs = some t) (hs : s.tool = t)
    (hname : name ∈ fieldNames .tool) :
    FilledAt env s .tool name (fs.get? ((fieldNames .tool).idxOf name) name) := by
  obtain ⟨program, hprogram, h⟩ := Option.bind_eq_some_iff.1 h
  obtain ⟨leading, hleading, h⟩ := Option.bind_eq_some_iff.1 h
  obtain rfl := Option.some.inj h
  simp only [fieldNames, List.mem_cons, List.not_mem_nil, or_false] at hname
  unfold FilledAt
  rw [datumOf_eq, datumOf_eq, valuesOf, valuesOf, hs]
  rcases hname with rfl | rfl
  · exact ⟨_, _, rfl, rfl, filled_text hprogram⟩
  · exact ⟨_, _, rfl, rfl, filled_texts hleading⟩

theorem filled_exporting {x : ExportSettings} (h : exporting? fs = some x)
    (hs : s.exporting = x) (hname : name ∈ fieldNames .exporting) :
    FilledAt env s .exporting name (fs.get? ((fieldNames .exporting).idxOf name) name) := by
  obtain ⟨format, hformat, h⟩ := Option.bind_eq_some_iff.1 h
  obtain ⟨loudness, hloudness, h⟩ := Option.bind_eq_some_iff.1 h
  obtain ⟨margin, hmargin, h⟩ := Option.bind_eq_some_iff.1 h
  obtain rfl := Option.some.inj h
  simp only [fieldNames, List.mem_cons, List.not_mem_nil, or_false] at hname
  unfold FilledAt
  rw [datumOf_eq, datumOf_eq, valuesOf, valuesOf, hs]
  rcases hname with rfl | rfl | rfl
  · exact ⟨_, _, rfl, rfl, filled_text hformat⟩
  · exact ⟨_, _, rfl, rfl, filled_number hloudness⟩
  · exact ⟨_, _, rfl, rfl, filled_number hmargin⟩

theorem filled_logging {x : LoggingSettings} (h : logging? fs = some x) (hs : s.logging = x)
    (hname : name ∈ fieldNames .logging) :
    FilledAt env s .logging name (fs.get? ((fieldNames .logging).idxOf name) name) := by
  obtain ⟨compact, hcompact, h⟩ := Option.bind_eq_some_iff.1 h
  obtain ⟨tail, htail, h⟩ := Option.bind_eq_some_iff.1 h
  obtain ⟨pretty, hpretty, h⟩ := Option.bind_eq_some_iff.1 h
  obtain ⟨json, hjson, h⟩ := Option.bind_eq_some_iff.1 h
  obtain rfl := Option.some.inj h
  simp only [fieldNames, List.mem_cons, List.not_mem_nil, or_false] at hname
  unfold FilledAt
  rw [datumOf_eq, datumOf_eq, valuesOf, valuesOf, hs]
  rcases hname with rfl | rfl | rfl | rfl
  · exact ⟨_, _, rfl, rfl, filled_truth hcompact⟩
  · exact ⟨_, _, rfl, rfl, filled_count htail⟩
  · exact ⟨_, _, rfl, rfl, filled_truth hpretty⟩
  · exact ⟨_, _, rfl, rfl, filled_truth hjson⟩

end

/-- **Settings that were read hold every value that was set, and the default of every other
field.** -/
theorem filled_of_read {env : Environment} {fields : List (String × Datum)} {s : Settings}
    (h : settings? env fields = some s) {part : SettingsSection} {name : String}
    (hname : name ∈ fieldNames part) : FilledAt env s part name (setIn fields part name) := by
  obtain ⟨paths, hpaths, h⟩ := Option.bind_eq_some_iff.1 h
  obtain ⟨tool, htool, h⟩ := Option.bind_eq_some_iff.1 h
  obtain ⟨exporting, hexporting, h⟩ := Option.bind_eq_some_iff.1 h
  obtain ⟨logging, hlogging, h⟩ := Option.bind_eq_some_iff.1 h
  obtain rfl := Option.some.inj h
  cases part with
  | paths =>
    obtain ⟨fs, hread, hset⟩ := sectionOf_eq_some hpaths
    rw [hset]
    exact filled_paths hread rfl hname
  | tool =>
    obtain ⟨fs, hread, hset⟩ := sectionOf_eq_some htool
    rw [hset]
    exact filled_tool hread rfl hname
  | exporting =>
    obtain ⟨fs, hread, hset⟩ := sectionOf_eq_some hexporting
    rw [hset]
    exact filled_exporting hread rfl hname
  | logging =>
    obtain ⟨fs, hread, hset⟩ := sectionOf_eq_some hlogging
    rw [hset]
    exact filled_logging hread rfl hname

theorem setIn_of_read {env : Environment} {fields : List (String × Datum)} {s : Settings}
    (h : settings? env fields = some s) {part : SettingsSection} {name : String}
    (hname : name ∈ fieldNames part) {d : Datum} (hd : setIn fields part name = some d) :
    ∃ e, datumOf s part name = some e ∧ SameValue d e := by
  obtain ⟨f, e, -, he, hfilled⟩ := filled_of_read h hname
  rw [hd] at hfilled
  exact ⟨e, he, hfilled⟩

/-! ## Texts that were written -/

theorem setBy_encode (text : String) (part : SettingsSection) (name : String) :
    setBy (some (encode text)) part name = setByText text part name := by
  unfold setBy
  rw [Option.bind_some, decode?_encode, Option.bind_some]

theorem setIn_document (l : Layout) (part : SettingsSection) (name : String) :
    setIn l.document.fields part name = datumOf (l.source part) part name := by
  unfold setIn
  rw [Layout.lookup_fields_document]
  rfl

/-- A text that is written anew sets what it is written from. -/
theorem setBy_write (s : Settings) (part : SettingsSection) (name : String) :
    setBy (some (encode (write s))) part name = datumOf s part name := by
  rw [setBy_encode]
  unfold setByText
  rw [Layout.read_write, Option.bind_some, setIn_document]
  rfl

/-! ## Documents that are printed -/

/-- The document's text can be edited, and says what the document says. -/
def PrintsBack (d : Document) : Prop :=
  ∃ d', Document.readForEditing d.print = some d' ∧
    ∀ name, d'.fields.lookup name = d.fields.lookup name

theorem read_of_readForEditing {text : String} {d : Document}
    (h : Document.readForEditing text = some d) : Document.read text = some d := by
  unfold Document.readForEditing at h
  exact (Option.filter_eq_some_iff.1 h).1

theorem lookup_fieldsOf (es : Entries) (name : String) :
    (fieldsOf es).lookup name = (es.item? name).map Item.datum := by
  induction es with
  | nil => simp [fieldsOf]
  | cons e es ih =>
    obtain ⟨k, i⟩ := e
    rw [fieldsOf, List.lookup_cons, Entries.item?_cons, ih]
    by_cases hk : k.name = name
    · simp [hk]
    · have hne : (name == k.name) = false := by
        rw [beq_eq_false_iff_ne]
        exact fun h => hk h.symm
      simp [hk, hne]

theorem setIn_setTable (d : Document) (s : Settings) (part other : SettingsSection)
    (name : String) :
    setIn (d.setTable part.tableName (entriesOf s part)).fields other name =
      if other = part then datumOf s part name else setIn d.fields other name := by
  have hfields : (d.setTable part.tableName (entriesOf s part)).fields =
      fieldsOf (d.entries.set part.tableName (.table {} (entriesOf s part))) := rfl
  unfold setIn
  rw [hfields, lookup_fieldsOf]
  by_cases heq : other = part
  · subst heq
    rw [Entries.item?_set_self, if_pos rfl, Option.map_some, Item.datum]
    rfl
  · have hne : other.tableName ≠ part.tableName :=
      fun h => heq (SettingsSection.tableName_injective h)
    rw [Entries.item?_set_ne _ hne, if_neg heq, ← lookup_fieldsOf]
    rfl

/-- A text that is written anew may be changed: its document prints back. -/
theorem printsBack_fresh (s s' : Settings) (part : SettingsSection) :
    PrintsBack ((Layout.fresh s).document.setTable part.tableName (entriesOf s' part)) := by
  refine ⟨_, Layout.readForEditing_revised s s' part, fun name => ?_⟩
  rw [Layout.fields_revised]

theorem document_of_revise {text new : String} {s : Settings} {part : SettingsSection}
    (h : SettingsStore.revise text s part = .ok new) :
    ∃ d, Document.readForEditing text = some d ∧
      new = (d.setTable part.tableName (entriesOf s part)).print := by
  have hempty : (if text.isEmpty then some {} else Document.readForEditing text) =
      Document.readForEditing text := by
    split
    next hempty =>
      obtain rfl := String.isEmpty_iff.1 hempty
      rfl
    · rfl
  rw [SettingsStore.revise_eq, hempty] at h
  cases hread : Document.readForEditing text with
  | none =>
    rw [hread] at h
    cases h
  | some d =>
    rw [hread] at h
    cases h
    exact ⟨d, rfl, rfl⟩

/-- **Writing a section changes nothing else**, if the changed document prints back. -/
theorem setBy_revise {text new : String} {s : Settings} {part : SettingsSection}
    (h : SettingsStore.revise text s part = .ok new)
    (hback : ∀ d, Document.readForEditing text = some d →
      PrintsBack (d.setTable part.tableName (entriesOf s part)))
    (other : SettingsSection) (name : String) :
    setBy (some (encode new)) other name =
      if other = part then datumOf s part name else setByText text other name := by
  obtain ⟨d, hd, rfl⟩ := document_of_revise h
  obtain ⟨d', hd', hfields⟩ := hback d hd
  have hset : setIn d'.fields other name =
      setIn (d.setTable part.tableName (entriesOf s part)).fields other name := by
    unfold setIn
    rw [hfields]
  have htext : setByText text other name = setIn d.fields other name := by
    unfold setByText
    rw [read_of_readForEditing hd, Option.bind_some]
  rw [setBy_encode, htext, ← setIn_setTable, ← hset]
  unfold setByText
  rw [read_of_readForEditing hd', Option.bind_some]

end ExportDesk.SettingsText
