import ExportDesk.Proofs.Settings.Fields
import ExportDesk.Proofs.Settings.Store

/-!
# Settings that are written are read back

`load_written`: whatever the settings are, the file that is written from them is loaded as the same
settings and lacks nothing. Values that are no number count as one value.
-/

namespace ExportDesk

open Text Toml

/-! ## The same settings -/

/-- The same number, or both no number. -/
def Binary64.Same (x y : Binary64) : Prop := x = y ∨ x.isNaN = true ∧ y.isNaN = true

theorem Binary64.Same.refl (x : Binary64) : Same x x := .inl rfl

theorem Binary64.Same.symm {x y : Binary64} (h : Same x y) : Same y x := by
  obtain rfl | ⟨hx, hy⟩ := h
  · exact .refl x
  · exact .inr ⟨hy, hx⟩

/-- The same settings, where values that are no number count as one value. -/
structure Settings.Same (s t : Settings) : Prop where
  paths : s.paths = t.paths
  tool : s.tool = t.tool
  format : s.exporting.format = t.exporting.format
  loudness : s.exporting.loudness.Same t.exporting.loudness
  margin : s.exporting.margin.Same t.exporting.margin
  logging : s.logging = t.logging

namespace Settings.Same

theorem refl (s : Settings) : Same s s := ⟨rfl, rfl, rfl, .refl _, .refl _, rfl⟩

theorem symm {s t : Settings} (h : Same s t) : Same t s :=
  ⟨h.paths.symm, h.tool.symm, h.format.symm, h.loudness.symm, h.margin.symm, h.logging.symm⟩

end Settings.Same

/-- The settings with the sign of what is no number dropped, as they come out of a file. -/
def Settings.unsigned (s : Settings) : Settings :=
  { s with
    exporting := { s.exporting with
      loudness := Scalar.plainNumber s.exporting.loudness
      margin := Scalar.plainNumber s.exporting.margin } }

theorem Binary64.same_plainNumber (x : Binary64) : Same (Scalar.plainNumber x) x := by
  unfold Scalar.plainNumber
  split
  next hnan => exact .inr ⟨by decide +kernel, hnan⟩
  · exact .refl x

theorem Settings.same_unsigned (s : Settings) : Same s.unsigned s :=
  ⟨rfl, rfl, rfl, Binary64.same_plainNumber _, Binary64.same_plainNumber _, rfl⟩

namespace SettingsText

/-! ## Reading the sections -/

theorem texts?_texts (ss : List String) : texts? (.list (ss.map .text)) = some ss := by
  show (ss.map Datum.text).mapM text? = some ss
  induction ss with
  | nil => rfl
  | cons s ss ih =>
    rw [List.map_cons, List.mapM_cons, ih]
    rfl

theorem count?_whole (n : UInt32) : count? (.whole n.toNat) = some n := by
  have hfits : fitsUnsigned 32 (n.toNat : Int) = true := by
    have hlt : n.toNat < 4294967296 := n.toNat_lt
    have hp : power 2 32 = 4294967296 := rfl
    unfold fitsUnsigned
    rw [hp, Bool.and_eq_true, decide_eq_true_eq, decide_eq_true_eq]
    omega
  show (if fitsUnsigned 32 (n.toNat : Int) then some (UInt32.ofNat (n.toNat : Int).toNat)
    else none) = some n
  rw [if_pos hfits, Int.toNat_natCast, UInt32.ofNat_toNat]

section

variable (env : Environment) (s : Settings)

theorem paths?_written : paths? env (.named (fieldsOf (entriesOf s .paths))) = some s.paths := by
  rw [Layout.fieldsOf_entriesOf]
  rfl

theorem tool?_written : tool? (.named (fieldsOf (entriesOf s .tool))) = some s.tool := by
  have hargs : texts? (textsValue s.tool.leadingArgs).datum = some s.tool.leadingArgs :=
    texts?_texts s.tool.leadingArgs
  rw [Layout.fieldsOf_entriesOf]
  show (texts? (textsValue s.tool.leadingArgs).datum).bind _ = _
  rw [hargs]
  rfl

theorem exporting?_written : exporting? (.named (fieldsOf (entriesOf s .exporting))) =
    some s.unsigned.exporting := by
  rw [Layout.fieldsOf_entriesOf]
  rfl

theorem logging?_of_count {d : Datum} (hd : count? d = some s.logging.errorTail) :
    logging? (.named [("compact", (truthValue s.logging.compact).datum), ("error_tail", d),
      ("show_options_pretty", (truthValue s.logging.showOptionsPretty).datum),
      ("show_options_json", (truthValue s.logging.showOptionsJson).datum)]) = some s.logging := by
  show (count? d).bind _ = _
  rw [hd]
  rfl

theorem logging?_written : logging? (.named (fieldsOf (entriesOf s .logging))) =
    some s.logging := by
  have hcount : count? (countValue s.logging.errorTail).datum = some s.logging.errorTail :=
    count?_whole s.logging.errorTail
  rw [Layout.fieldsOf_entriesOf]
  exact logging?_of_count s hcount

theorem sectionOf_written {α : Type} (read : Fields → Option α) (part : SettingsSection) :
    sectionOf read (Layout.fresh s).document.fields part =
      read (.named (fieldsOf (entriesOf s part))) := by
  unfold sectionOf
  rw [Layout.lookup_fields_document]
  rfl

theorem settings?_written : settings? env (Layout.fresh s).document.fields = some s.unsigned := by
  unfold settings?
  simp only [sectionOf_written, paths?_written, tool?_written, exporting?_written,
    logging?_written]
  rfl

end

/-! ## Whole numbers -/

theorem fitsSigned_wide {n : Int} (h : fitsSigned 64 n = true) : fitsSigned 128 n = true := by
  have h63 : power 2 (64 - 1) = 9223372036854775808 := rfl
  have h127 : power 2 (128 - 1) = 170141183460469231731687303715884105728 := rfl
  unfold fitsSigned at *
  rw [h63, Bool.and_eq_true, decide_eq_true_eq, decide_eq_true_eq] at h
  rw [h127, Bool.and_eq_true, decide_eq_true_eq, decide_eq_true_eq]
  omega

mutual

theorem isReadable_of_isNarrow : ∀ d : Datum, d.isNarrow = true → isReadable d = true
  | .whole n, h => by
    rw [Datum.isNarrow] at h
    rw [isReadable, fitsSigned_wide h, Bool.true_or]
  | .list ds, h => by
    rw [Datum.isNarrow] at h
    rw [isReadable, allReadable_of_allNarrow ds h]
  | .table fs, h => by
    rw [Datum.isNarrow] at h
    rw [isReadable, fieldsReadable_of_fieldsNarrow fs h]
  | .text _, _ | .number _, _ | .truth _, _ | .moment _, _ => by simp [isReadable]

theorem allReadable_of_allNarrow : ∀ ds : List Datum, allNarrow ds = true → allReadable ds = true
  | [], _ => by rw [allReadable]
  | d :: ds, h => by
    rw [allNarrow, Bool.and_eq_true] at h
    rw [allReadable, isReadable_of_isNarrow d h.1, allReadable_of_allNarrow ds h.2]
    rfl

/-- What is narrow enough for editing is narrow enough for reading. -/
theorem fieldsReadable_of_fieldsNarrow :
    ∀ fs : List (String × Datum), fieldsNarrow fs = true → fieldsReadable fs = true
  | [], _ => by rw [fieldsReadable]
  | (_, d) :: fs, h => by
    rw [fieldsNarrow, Bool.and_eq_true] at h
    rw [fieldsReadable, isReadable_of_isNarrow d h.1, fieldsReadable_of_fieldsNarrow fs h.2]
    rfl

end

theorem read_written (env : Environment) (s : Settings) :
    SettingsText.read env (write s) = some s.unsigned := by
  have hreadable : fieldsReadable (Layout.fresh s).document.fields = true :=
    fieldsReadable_of_fieldsNarrow _ Layout.fieldsNarrow_document
  rw [SettingsText.read_eq, Layout.read_write, Option.bind_some, if_pos hreadable,
    settings?_written]

/-! ## Completeness -/

/-- Every section is a table with all of its fields in it, and nothing else is at the top. -/
structure IsComplete (d : Document) : Prop where
  known : ∀ e ∈ d.entries, ∃ part : SettingsSection, part.tableName = e.1.name
  full : ∀ part : SettingsSection, ∃ es, d.table? part.tableName = some es ∧
    ∀ name ∈ fieldNames part, es.has name = true

theorem has_entriesOf (s : Settings) {part : SettingsSection} {name : String}
    (h : name ∈ fieldNames part) : (entriesOf s part).has name = true := by
  rw [← names_valuesOf s part, List.mem_map] at h
  obtain ⟨f, hf, rfl⟩ := h
  exact List.any_eq_true.2 ⟨_, List.mem_map_of_mem hf, by simp [Key.plain]⟩

/-- The names that a section is written with are those of its fields. -/
theorem all_entriesOf (s : Settings) (part : SettingsSection) (p : String → Bool) :
    (entriesOf s part).all (fun e => p e.1.name) = (fieldNames part).all p := by
  rw [← names_valuesOf s part, List.all_map]
  unfold entriesOf
  rw [List.all_map]
  rfl

/-- **What counts as complete** does not depend on the values: each section is read again with the
names of all its fields. -/
theorem isComplete_iff (s : Settings) (d : Document) : isComplete s d = true ↔ IsComplete d := by
  unfold isComplete
  rw [Bool.and_eq_true, List.all_eq_true, List.all_eq_true]
  simp only [Layout.bodyDocument_eq, all_entriesOf s _ (Entries.has _)]
  constructor
  · rintro ⟨hknown, hfull⟩
    refine ⟨fun e he => ?_, fun part => ?_⟩
    · obtain ⟨part, -, hpart⟩ := List.any_eq_true.1 (hknown e he)
      exact ⟨part, by simpa using hpart⟩
    · have hpart := hfull part part.mem_all
      split at hpart
      · cases hpart
      next es hes => exact ⟨es, hes, List.all_eq_true.1 hpart⟩
  · rintro ⟨hknown, hfull⟩
    refine ⟨fun e he => ?_, fun part _ => ?_⟩
    · obtain ⟨part, hpart⟩ := hknown e he
      exact List.any_eq_true.2 ⟨part, part.mem_all, by simpa using hpart⟩
    · obtain ⟨es, hes, hnames⟩ := hfull part
      rw [hes]
      exact List.all_eq_true.2 hnames

theorem isComplete_written (s : Settings) : IsComplete (Layout.fresh s).document := by
  have hname (part : SettingsSection) :
      (Reader.lineKey [] part.tableName.toList []).name = part.tableName := String.ofList_toList
  rw [show (Layout.fresh s).document = ⟨Layout.tabled (Layout.fresh s).head fun _ => s, ""⟩ from rfl]
  refine ⟨fun e he => ?_, fun part => ⟨entriesOf s part, ?_, fun name => has_entriesOf s⟩⟩
  · obtain ⟨part, -, rfl⟩ := List.mem_map.1 he
    exact ⟨part, (hname part).symm⟩
  · cases part <;> rfl

end SettingsText

namespace SettingsStore

open SettingsText

/-- A file that is written anew is taken as it is. -/
theorem examine_written (env : Environment) (s : Settings) :
    examine env (write s) = .ok (s.unsigned, false) := by
  unfold examine
  rw [Layout.readForEditing_write, read_written]
  simp only
  rw [(isComplete_iff _ _).2 (isComplete_written s)]
  rfl

variable {store : SettingsStore} {h : Host}

theorem load_ok {text : String} {s : Settings} (hread : h.files.readText store.path = .ok text)
    (hs : SettingsText.read h.environment text = some s) :
    store.load.run h = ((.ok (), { store with settings := s }), h) := by
  unfold load readFile
  simp [FileSystem.exists?_of_readText hread, hread, Except.mapError, hs]
  rfl

/-- **Settings survive being written.** The text that is written from any settings can be read and
lacks nothing, and a store whose file holds it loads the same settings. -/
theorem load_written (store : SettingsStore) (h : Host) (s : Settings) :
    ∃ t : Settings, t.Same s ∧
      SettingsText.read h.environment (write s) = some t ∧
      examine h.environment (write s) = .ok (t, false) ∧
      (h.files.readText store.path = .ok (write s) →
        store.load.run h = ((.ok (), { store with settings := t }), h)) := by
  have hread := read_written h.environment s
  exact ⟨s.unsigned, s.same_unsigned, hread, examine_written h.environment s,
    fun hfile => load_ok hfile hread⟩

/-- Settings with texts that look like parts of the file, and a number that is none. -/
def troublesome : Settings where
  paths :=
    { outputFolder := "[tool]\r\nprogram = \"x\"\n"
      logsFolder := "C:\\logs\\"
      lastInputPath := "\u0000\u007f" }
  tool := { program := "'''\"\"\"", leadingArgs := ["# no comment\n", "", "\n[paths]"] }
  exporting :=
    { format := "]", loudness := Binary64.ofMagnitude true (Binary64.infinityMagnitude + 1) }

theorem load_written_troublesome :
    (Host.holding (write troublesome)).files.readText (.ofText "s.toml") =
        .ok (write troublesome) ∧
      ∃ t : Settings, t.Same troublesome ∧
        (SettingsStore.ofPath {} (.ofText "s.toml")).load.run (.holding (write troublesome)) =
          ((.ok (), { SettingsStore.ofPath {} (.ofText "s.toml") with settings := t }),
            .holding (write troublesome)) := by
  have hread := Host.readText_holding (write troublesome)
  obtain ⟨t, hsame, -, -, hload⟩ := load_written (SettingsStore.ofPath {} (.ofText "s.toml"))
    (.holding (write troublesome)) troublesome
  exact ⟨hread, t, hsame, hload hread⟩

end SettingsStore

end ExportDesk
