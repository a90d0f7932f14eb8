import ExportDesk.Proofs.Settings.Written

/-!
# What the start-up settles

`loadOrCreate_settles`: once the settings have been loaded or created, they hold what the file set
and the defaults of everything else, the file is complete and says what is in memory, and loading
or creating them once more changes nothing.
-/

namespace ExportDesk

open Text Toml

namespace SettingsText

variable {env : Environment} {s t : Settings} {part : SettingsSection} {name : String}

theorem datumOf_eq_some (s : Settings) (hname : name ∈ fieldNames part) :
    ∃ d, datumOf s part name = some d := by
  have hhas := has_entriesOf s hname
  unfold datumOf
  rw [lookup_fieldsOf]
  cases hitem : (entriesOf s part).item? name with
  | some i => exact ⟨i.datum, rfl⟩
  | none =>
    unfold Entries.item? at hitem
    rw [Option.map_eq_none_iff, List.find?_eq_none] at hitem
    obtain ⟨e, he, hename⟩ := List.any_eq_true.1 hhas
    exact absurd hename (hitem e he)

/-- Settings of a fresh installation are those that a missing file sets. -/
theorem filledAt_fresh (env : Environment) (hname : name ∈ fieldNames part) :
    FilledAt env (Settings.fresh env) part name none := by
  obtain ⟨d, hd⟩ := datumOf_eq_some (Settings.fresh env) hname
  exact ⟨d, d, hd, hd, rfl⟩

theorem filledAt_of_read {text : String} (h : read env text = some s)
    (hname : name ∈ fieldNames part) : FilledAt env s part name (setByText text part name) := by
  obtain ⟨d, hd, h⟩ := document_of_read h
  unfold setByText
  rw [hd, Option.bind_some]
  exact filled_of_read h hname

/-- A file's content, with its text and document, is complete and stands for the settings. -/
structure StandsFor (env : Environment) (c : Bytes) (text : String) (d : Document)
    (s : Settings) : Prop where
  decoded : decode? c = some text
  value : ∃ t : Settings, t.Same s ∧ read env text = some t
  editable : Document.readForEditing text = some d
  complete : IsComplete d

theorem standsFor_written (env : Environment) (s : Settings) :
    StandsFor env (encode (write s)) (write s) (Layout.fresh s).document s :=
  ⟨decode?_encode _, ⟨_, s.same_unsigned, read_written env s⟩,
    Layout.readForEditing_write s, isComplete_written s⟩

end SettingsText

namespace SettingsStore

open SettingsText

variable {store store' : SettingsStore} {h h' : Host} {text : String} {s : Settings}

theorem read_of_examine {env : Environment} {incomplete : Bool}
    (hex : examine env text = .ok (s, incomplete)) :
    SettingsText.read env text = some s ∧
      ∃ d, Document.readForEditing text = some d ∧ incomplete = !isComplete s d := by
  unfold examine at hex
  cases hd : Document.readForEditing text with
  | none =>
    rw [hd] at hex
    cases hex
  | some d =>
    rw [hd] at hex
    cases hs : SettingsText.read env text with
    | none =>
      rw [hs] at hex
      cases hex
    | some s' =>
      rw [hs] at hex
      cases hex
      exact ⟨rfl, d, rfl, rfl⟩

/-- What is taken from a file holds what it sets. -/
theorem Loads.filledAt {incomplete : Bool} (hl : Loads store h text s incomplete)
    {part : SettingsSection} {name : String} (hname : name ∈ fieldNames part) :
    FilledAt h.environment s part name (setBy (h.files.fileAt? store.path) part name) := by
  obtain ⟨c, hc, htext⟩ := FileSystem.fileAt?_of_readText hl.read
  rw [hc]
  unfold setBy
  rw [Option.bind_some, htext, Option.bind_some]
  exact filledAt_of_read (read_of_examine hl.examined).1 hname

/-- A file that lacks nothing stands for the settings that are taken from it. -/
theorem Loads.standsFor (hl : Loads store h text s false) :
    ∃ c d, h.files.fileAt? store.path = some c ∧ StandsFor h.environment c text d s := by
  obtain ⟨c, hc, htext⟩ := FileSystem.fileAt?_of_readText hl.read
  obtain ⟨hread, d, hd, hcomplete⟩ := read_of_examine hl.examined
  refine ⟨c, d, hc, htext, ⟨s, .refl s, hread⟩, hd, (isComplete_iff s d).1 ?_⟩
  simpa using hcomplete.symm

/-- The settings in memory are in the file, just as they are written. -/
structure Written (store : SettingsStore) (h h' : Host) : Prop where
  environment : h'.environment = h.environment
  file : h'.files.fileAt? store.path = some (encode (write store.settings))
  refuses : h'.files.refuses = h.files.refuses

theorem Written.noted {h'' : Host} (hw : Written store h h') (hworld : h'.SameWorld h'')
    (hfiles : h''.files = h'.files) : Written store h h'' :=
  ⟨hworld.environment.trans hw.environment, hfiles ▸ hw.file, hfiles ▸ hw.refuses⟩

/-- Settings that were saved are in the file. -/
theorem written_of_save (hsave : store.save.run h = (.ok (), h')) (hs : h.files.IsSound)
    (hr : ReplaceStep.IsReplaceable store.path h.files) : Written store h h' := by
  unfold save at hsave
  rw [run_writeFile] at hsave
  rcases hrun : (Disk.replaceFile store.path (encode (write store.settings))).run.run h.files with
    ⟨r, fs'⟩
  rw [hrun] at hsave
  obtain ⟨hok, rfl⟩ := Prod.mk.inj hsave
  obtain ⟨⟨e, rfl⟩, -⟩ | ⟨-, hnew, -, -, hrefuses, -⟩ :=
    Disk.replaceFile_renewed hs hr.apart hrun
  · cases hok
  · exact ⟨rfl, hr.file hnew, hrefuses⟩

/-- **What a successful start-up has done.** It found a complete file and left everything alone, or
it wrote the settings: those of a file that lacked something, or the defaults for a missing one. -/
theorem loadOrCreate_ok (hs : h.files.IsSound)
    (hr : ReplaceStep.IsReplaceable store.path h.files)
    (hrun : store.loadOrCreate.run h = ((.ok (), store'), h')) :
    (∃ text s, Loads store h text s false ∧ store' = { store with settings := s } ∧ h' = h) ∨
    (∃ text s, Loads store h text s true ∧ store' = { store with settings := s } ∧
      Written store' h h') ∨
    (h.files.exists? store.path = false ∧
      store' = { store with settings := Settings.fresh h.environment } ∧ Written store' h h') := by
  cases hexists : h.files.exists? store.path with
  | false =>
    rcases hsave : ({ store with settings := Settings.fresh h.environment } :
      SettingsStore).save.run h with ⟨r, h₁⟩
    obtain ⟨noted, hworld, hfiles, hcreated⟩ := loadOrCreate_absent hexists hsave
    rw [hcreated] at hrun
    cases hrun
    exact .inr (.inr ⟨rfl, rfl, (written_of_save hsave hs hr).noted hworld hfiles⟩)
  | true =>
    by_cases hloads : ∃ text s b, Loads store h text s b
    · obtain ⟨text, s, b, hl⟩ := hloads
      cases b with
      | false =>
        rw [loadOrCreate_complete hexists hl] at hrun
        cases hrun
        exact .inl ⟨text, s, hl, rfl, rfl⟩
      | true =>
        obtain ⟨noted, hworld, hfiles, hsaved⟩ := loadOrCreate_incomplete hexists hl
        rw [hsaved] at hrun
        obtain ⟨hres, rfl⟩ := Prod.mk.inj hrun
        obtain ⟨hok, rfl⟩ := Prod.mk.inj hres
        obtain ⟨henv, hfile, hrefuses⟩ := written_of_save (Prod.ext hok rfl)
          (hfiles ▸ hs) (hfiles ▸ hr)
        refine .inr (.inl ⟨text, s, hl, rfl, henv.trans hworld.environment, hfile, ?_⟩)
        rw [hrefuses, hfiles]
    · obtain ⟨e, he⟩ := loadOrCreate_untaken hexists fun text s b hl => hloads ⟨text, s, b, hl⟩
      rw [he] at hrun
      cases hrun

theorem Written.standsFor (hw : Written store h h') :
    ∃ c text d, h'.files.fileAt? store.path = some c ∧
      StandsFor h.environment c text d store.settings :=
  ⟨_, _, _, hw.file, standsFor_written h.environment store.settings⟩

/-- Once the settings are in the file, they are loaded from it and the file is left alone. -/
theorem Written.again (hw : Written store h h')
    (hreadable : h.files.refuses (.read store.path) = none) :
    ∃ t : Settings, t.Same store.settings ∧
      store.loadOrCreate.run h' = ((.ok (), { store with settings := t }), h') := by
  have hread := FileSystem.readText_of_file hw.file (by rw [hw.refuses, hreadable])
    (decode?_encode (write store.settings))
  exact ⟨_, store.settings.same_unsigned,
    loadOrCreate_complete (FileSystem.exists?_of_readText hread)
      ⟨hread, examine_written h'.environment store.settings⟩⟩

/-- **A successful start-up settles the settings.** In memory every field has the value that the
file set, or its default where the file set none; the file is complete and says what is in memory;
and a second start-up finds it so and changes nothing. What is written for a missing file must
not be unreadable for the second one, the temporary file must be a file of its own, and the name of
a missing file must not be a link to a folder. -/
theorem loadOrCreate_settles (hs : h.files.IsSound)
    (hr : ReplaceStep.IsReplaceable store.path h.files)
    (hrun : store.loadOrCreate.run h = ((.ok (), store'), h')) :
    store'.path = store.path ∧
    (∀ part, ∀ name ∈ fieldNames part, FilledAt h.environment store'.settings part name
      (setBy (h.files.fileAt? store.path) part name)) ∧
    (∃ c text d, h'.files.fileAt? store.path = some c ∧
      StandsFor h.environment c text d store'.settings) ∧
    ((h.files.exists? store.path = false → h.files.refuses (.read store.path) = none) →
      ∃ t : Settings, t.Same store'.settings ∧
        store'.loadOrCreate.run h' = ((.ok (), { store' with settings := t }), h')) := by
  obtain ⟨text, s, hl, rfl, rfl⟩ | ⟨text, s, hl, rfl, hw⟩ | ⟨habsent, rfl, hw⟩ :=
    loadOrCreate_ok hs hr hrun
  · obtain ⟨c, d, hc, hstands⟩ := hl.standsFor
    have hagain : Loads { store with settings := s } h' text s false := ⟨hl.read, hl.examined⟩
    exact ⟨rfl, fun part name => hl.filledAt, ⟨c, text, d, hc, hstands⟩, fun _ =>
      ⟨s, .refl s, loadOrCreate_complete (FileSystem.exists?_of_readText hl.read) hagain⟩⟩
  · refine ⟨rfl, fun part name => hl.filledAt, hw.standsFor, fun _ => hw.again ?_⟩
    exact FileSystem.refuses_of_readText hl.read
  · rw [FileSystem.fileAt?_of_absent habsent]
    exact ⟨rfl, fun part name => filledAt_fresh h.environment, hw.standsFor,
      fun hreadable => hw.again (hreadable habsent)⟩

/-- A settings file with one section that lacks two fields, and one that no section has. -/
def partialText : String :=
  "paths = \x7b logs_folder = \"kept\" \x7d\n\n[window]\nwidth = 3\n"

theorem loadOrCreate_settles_partial :
    ∃ store' h', (SettingsStore.ofPath {} (.ofText "s.toml")).loadOrCreate.run
        (.holding partialText) = ((.ok (), store'), h') ∧
      FilledAt {} store'.settings .paths "logs_folder" (some (.text "kept")) ∧
      (∃ c text d, h'.files.fileAt? (.ofText "s.toml") = some c ∧
        StandsFor {} c text d store'.settings) ∧
      ∃ t : Settings, t.Same store'.settings ∧
        store'.loadOrCreate.run h' = ((.ok (), { store' with settings := t }), h') := by
  let run := (SettingsStore.ofPath {} (.ofText "s.toml")).loadOrCreate.run (.holding partialText)
  have hok : run.1.1 = .ok () := by decide +kernel
  have hrun : run = ((.ok (), run.1.2), run.2) := Prod.ext (Prod.ext hok rfl) rfl
  obtain ⟨-, hfilled, hstands, hagain⟩ := loadOrCreate_settles
    (Host.isTree_holding _).toIsSound (ReplaceStep.isReplaceable_plain rfl) hrun
  refine ⟨run.1.2, run.2, hrun, ?_, hstands, hagain fun _ => rfl⟩
  have hset : setBy ((Host.holding partialText).files.fileAt? (.ofText "s.toml")) .paths
      "logs_folder" = some (.text "kept") := by
    have htext : (setBy ((Host.holding partialText).files.fileAt? (.ofText "s.toml")) .paths
        "logs_folder").bind text? = some "kept" := by decide +kernel
    obtain ⟨d, hd, hkept⟩ := Option.bind_eq_some_iff.1 htext
    rw [hd, text?_eq_some hkept]
  rw [← hset]
  exact hfilled .paths "logs_folder" (by decide)

end SettingsStore

end ExportDesk
