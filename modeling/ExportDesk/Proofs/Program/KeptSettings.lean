import ExportDesk.Proofs.Program.LastInput

/-!
# When a run keeps what the user had set

`keepsSettings_run_iff`: a run that exports keeps every value that the settings file set exactly if
it takes its settings from the file, does not write to it, or finds no folder in it but the default
one. Settings that could not be read are in memory as defaults, and these are written over the
user's folders when the input is remembered.
-/

namespace ExportDesk

open Text Toml SettingsText SettingsStore

namespace SettingsText

/-- Settings in which every value that the content sets is held. -/
def Holds (s : Settings) (content : Option Bytes) : Prop :=
  ∀ part, ∀ name ∈ fieldNames part, ∀ d, setBy content part name = some d →
    ∃ e, datumOf s part name = some e ∧ SameValue d e

/-- No folder is set but the one that is the default. -/
def HoldsFreshFolders (env : Environment) (content : Option Bytes) : Prop :=
  ∀ name ∈ fieldNames .paths, name ≠ "last_input_path" →
    ∀ d, setBy content .paths name = some d → datumOf (Settings.fresh env) .paths name = some d

/-- Settings that were taken from a text hold what it sets. -/
theorem holds_of_examine {env : Environment} {c : Bytes} {text : String} {s : Settings} {b : Bool}
    (hc : decode? c = some text) (h : examine env text = .ok (s, b)) : Holds s (some c) := by
  intro part name hname d hd
  unfold examine at h
  split at h
  · cases h
  split at h
  · cases h
  next s' hread =>
    cases h
    obtain ⟨doc, hdoc, hread⟩ := document_of_read hread
    unfold setBy at hd
    rw [Option.bind_some, hc, Option.bind_some] at hd
    unfold setByText at hd
    rw [hdoc, Option.bind_some] at hd
    exact setIn_of_read hread hname hd

/-- Every path is written as a text. -/
theorem datumOf_path (s : Settings) {name : String} (hname : name ∈ fieldNames .paths) :
    ∃ t, datumOf s .paths name = some (.text t) := by
  simp only [fieldNames, List.mem_cons, List.not_mem_nil, or_false] at hname
  rw [datumOf_eq]
  rcases hname with rfl | rfl | rfl
  · exact ⟨s.paths.outputFolder, rfl⟩
  · exact ⟨s.paths.logsFolder, rfl⟩
  · exact ⟨s.paths.lastInputPath, rfl⟩

/-- Remembering an input changes no other field. -/
theorem datumOf_withLastInput (store : SettingsStore) (input : Path) {part : SettingsSection}
    {name : String} (hne : (part, name) ≠ (.paths, "last_input_path"))
    (hname : name ∈ fieldNames part) :
    datumOf (store.withLastInput input).settings part name = datumOf store.settings part name := by
  rw [datumOf_eq, datumOf_eq]
  cases part with
  | paths =>
    simp only [fieldNames, List.mem_cons, List.not_mem_nil, or_false] at hname
    rcases hname with rfl | rfl | rfl
    · rfl
    · rfl
    · exact absurd rfl hne
  | tool => rfl
  | exporting => rfl
  | logging => rfl

end SettingsText

/-! ## Revised paths -/

section

variable {s : Settings} {c c' : Bytes}

/-- The documents that come from the content print back once their paths are those of the
settings. -/
def PathsPrintBack (s : Settings) (content : Option Bytes) : Prop :=
  ∀ text d, content.bind decode? = some text → Document.readForEditing text = some d →
    PrintsBack (d.setTable SettingsSection.paths.tableName (entriesOf s .paths))

theorem pathsPrintBack_write (s s' : Settings) :
    PathsPrintBack s' (some (encode (write s))) := by
  intro text d htext hd
  rw [Option.bind_some, decode?_encode] at htext
  obtain rfl := Option.some.inj htext
  rw [Layout.readForEditing_write] at hd
  obtain rfl := Option.some.inj hd
  exact printsBack_fresh s s' .paths

/-- Revised paths are those of the settings, and all else is as it was. -/
theorem setBy_pathsRevised (h : PathsRevised s c c') (hne : c' ≠ c)
    (hback : PathsPrintBack s (some c)) (part : SettingsSection) (name : String) :
    setBy (some c') part name =
      if part = .paths then datumOf s .paths name else setBy (some c) part name := by
  obtain rfl | ⟨text, new, htext, hrevise, rfl⟩ := h
  · exact absurd rfl hne
  · rw [setBy_revise hrevise (fun d hd => hback text d htext hd)]
    split
    · rfl
    · unfold setBy
      rw [Option.bind_some, htext, Option.bind_some]

/-- Paths from settings that hold what was set keep what was set. -/
theorem keepsSettings_pathsRevised {store : SettingsStore} {input : Path}
    (h : PathsRevised (store.withLastInput input).settings c c')
    (hback : PathsPrintBack (store.withLastInput input).settings (some c))
    (hholds : Holds store.settings (some c)) : KeepsSettings (some c) (some c') := by
  by_cases heq : c' = c
  · rw [heq]
    exact .refl _
  intro part name hname hlast d hd
  rw [setBy_pathsRevised h heq hback]
  by_cases hpart : part = .paths
  · subst hpart
    rw [if_pos rfl, datumOf_withLastInput store input hlast hname]
    exact hholds .paths name hname d hd
  · rw [if_neg hpart]
    exact ⟨d, hd, .refl d⟩

end

/-! ## Runs -/

namespace Request

variable {r : Request} {h : Host}

/-- A run that takes its settings from the file keeps what the file sets. -/
theorem keepsSettings_of_takes {c c₁ c' : Bytes} (hbegins : r.Begins h c c₁)
    (htakes : ∃ text s, r.Takes h text s) (hrevised : PathsRevised (r.rememberedOn h) c₁ c')
    (hback : PathsPrintBack (r.rememberedOn h) (some c)) :
    KeepsSettings (some c) (some c') := by
  cases hbegins with
  | byDefault huntaken _ =>
    obtain ⟨text, s, h⟩ := htakes
    exact absurd h (huntaken text s)
  | taken htakes hdecode hsettings =>
    obtain ⟨b, hloads⟩ := htakes
    refine keepsSettings_pathsRevised hrevised hback ?_
    rw [hsettings]
    exact holds_of_examine hdecode hloads.examined
  | anew htakes hdecode hsettings =>
    obtain ⟨b, hloads⟩ := htakes
    subst hsettings
    have hholds := holds_of_examine hdecode hloads.examined
    have hwritten : Holds (r.storeOn h).settings
        (some (encode (write (r.storeOn h).settings))) := by
      intro part name _ d hd
      rw [setBy_write] at hd
      exact ⟨d, hd, .refl d⟩
    have hkeeps := keepsSettings_pathsRevised hrevised (pathsPrintBack_write _ _) hwritten
    intro part name hname hlast d hd
    obtain ⟨e, he, hsame⟩ := hholds part name hname d hd
    rw [← setBy_write] at he
    obtain ⟨e', he', hsame'⟩ := hkeeps part name hname hlast e he
    exact ⟨e', he', hsame.trans hsame'⟩

/-- **When a run keeps what the user had set.** -/
theorem keepsSettings_run_iff (hverb : r.verb = .exporting) (ht : h.files.IsTree)
    (howns : r.OwnsFile h)
    (hback : PathsPrintBack (r.rememberedOn h) (h.files.fileAt? (r.fileOn h))) :
    KeepsSettings (h.files.fileAt? (r.fileOn h)) ((r.run.run h).2.files.fileAt? (r.fileOn h)) ↔
      (∃ text s, r.Takes h text s) ∨
        (r.run.run h).2.files.fileAt? (r.fileOn h) = h.files.fileAt? (r.fileOn h) ∨
        HoldsFreshFolders h.environment (h.files.fileAt? (r.fileOn h)) := by
  cases hc : h.files.fileAt? (r.fileOn h) with
  | none =>
    -- a missing file sets nothing
    constructor
    · intro _
      right
      right
      intro name _ _ d hd
      cases hd
    · intro _ part name _ _ d hd
      cases hd
  | some c =>
    rw [hc] at hback
    obtain ⟨c₁, c', hbegins, hrevised, hend⟩ := run_file hverb ht hc howns
    rw [hend]
    by_cases htakes : ∃ text s, r.Takes h text s
    · constructor
      · intro _
        exact .inl htakes
      · intro _
        exact keepsSettings_of_takes hbegins htakes hrevised hback
    by_cases heq : c' = c
    · subst heq
      constructor
      · intro _
        exact .inr (.inl rfl)
      · intro _
        exact .refl _
    -- the settings in memory are the defaults, and their paths have been written
    obtain ⟨hsettings, rfl⟩ : (r.storeOn h).settings = Settings.fresh h.environment ∧ c₁ = c := by
      cases hbegins with
      | byDefault _ hsettings => exact ⟨hsettings, rfl⟩
      | taken h _ _ => exact absurd ⟨_, _, h⟩ htakes
      | anew h _ _ => exact absurd ⟨_, _, h⟩ htakes
    have hset := setBy_pathsRevised hrevised heq hback
    have hfresh {name : String} (hname : name ∈ fieldNames .paths)
        (hlast : name ≠ "last_input_path") :
        setBy (some c') .paths name = datumOf (Settings.fresh h.environment) .paths name := by
      rw [hset, if_pos rfl, ← hsettings]
      apply datumOf_withLastInput _ _ ?_ hname
      intro h
      exact hlast (Prod.mk.inj h).2
    constructor
    · intro hkeeps
      right
      right
      intro name hname hlast d hd
      obtain ⟨e, he, hsame⟩ :=
        hkeeps .paths name hname (fun h => hlast (Prod.mk.inj h).2) d hd
      rw [hfresh hname hlast] at he
      obtain ⟨t, ht⟩ := datumOf_path (Settings.fresh h.environment) hname
      obtain rfl := Option.some.inj (he.symm.trans ht)
      rw [hsame.eq_text]
      exact ht
    · rintro (h | h | hfolders)
      · exact absurd h htakes
      · exact absurd (Option.some.inj h) heq
      intro part name hname hlast d hd
      by_cases hpart : part = .paths
      · subst hpart
        have hlast' : name ≠ "last_input_path" := fun h => hlast (by rw [h])
        exact ⟨d, (hfresh hname hlast').trans (hfolders name hname hlast' d hd), .refl d⟩
      · exact ⟨d, by rwa [hset, if_neg hpart], .refl d⟩

/-! ## Two runs -/

/-- `export in.mp4 --output out`, with `s.toml` for the settings. -/
def plainExport : Request where
  verb := .exporting
  config := some (.ofText "s.toml")
  exporting := { input := some (.ofText "in.mp4"), output := some (.ofText "out") }

/-- A host with nothing on its disk but the settings file `s.toml`, where every tool succeeds and
writes nothing. -/
def plainHost (text : String) : Host where
  files := { entries := [([encode "s.toml"], .file (encode text) false)] }
  environment := {}
  launcher := fun _ _ _ => pure (.ok { ending := .ended (some 0) })
  clock := { timeOfDay := "12:00:00", date := "2025-06-01", timestamp := "2025-06-01T12:00:00Z" }

theorem isTree_plainHost (text : String) : (plainHost text).files.IsTree := by
  refine FileSystem.isTree_of_entries rfl rfl fun e he => ?_
  obtain rfl := List.mem_singleton.1 he
  rfl

theorem fileAt?_plainHost (text : String) :
    (plainHost text).files.fileAt? (plainExport.fileOn (plainHost text)) =
      some (encode text) := by
  have hstatus : (plainHost text).files.status (plainExport.fileOn (plainHost text)) =
      .ok ([encode "s.toml"], .file (encode text) false) := rfl
  exact FileSystem.fileAt?_eq_some.2 ⟨_, _, hstatus⟩

/-- From a file that holds the defaults a run takes the default folder for its logs. -/
theorem logsFolder_storeOn (ht : h.files.IsTree)
    (hc : h.files.fileAt? (r.fileOn h) =
      some (encode (write (Settings.fresh h.environment)))) :
    (r.storeOn h).logsFolder = .ofText h.environment.logsFolder.display := by
  have hexamined {text : String} {s : Settings} {b : Bool}
      (hdecode : decode? (encode (write (Settings.fresh h.environment))) = some text)
      (hexamine : examine h.environment text = .ok (s, b)) :
      s.paths.logsFolder = h.environment.logsFolder.display := by
    have hset : setBy (some (encode (write (Settings.fresh h.environment)))) .paths
        "logs_folder" = some (.text h.environment.logsFolder.display) := by
      rw [setBy_write, datumOf_eq]
      rfl
    obtain ⟨e, he, hsame⟩ :=
      holds_of_examine hdecode hexamine .paths "logs_folder" (by decide) _ hset
    rw [datumOf_eq] at he
    obtain rfl := Option.some.inj he
    exact (Datum.text.inj hsame.eq_text).symm
  obtain ⟨-, c₁, hbegins, -⟩ := readSettings_file ht hc
  unfold SettingsStore.logsFolder
  congr 1
  cases hbegins with
  | byDefault _ hsettings =>
    rw [hsettings]
    rfl
  | taken htakes hdecode hsettings =>
    obtain ⟨b, hloads⟩ := htakes
    rw [hsettings]
    exact hexamined hdecode hloads.examined
  | anew htakes hdecode hsettings =>
    obtain ⟨b, hloads⟩ := htakes
    rw [hsettings]
    exact hexamined hdecode hloads.examined

theorem keepsSettings_plainExport :
    KeepsSettings
      ((plainHost (write (Settings.fresh {}))).files.fileAt?
        (plainExport.fileOn (plainHost (write (Settings.fresh {})))))
      ((plainExport.run.run (plainHost (write (Settings.fresh {})))).2.files.fileAt?
        (plainExport.fileOn (plainHost (write (Settings.fresh {}))))) := by
  have hfile := fileAt?_plainHost (write (Settings.fresh {}))
  have htree := isTree_plainHost (write (Settings.fresh {}))
  have hlogs := logsFolder_storeOn htree hfile
  have howns : plainExport.OwnsFile (plainHost (write (Settings.fresh {}))) := by
    refine ⟨fun _ _ _ fs => .refl _ fs, ?_, ?_⟩
    · rw [hlogs]
      decide +kernel
    · rw [hlogs]
      decide +kernel
  have hback : PathsPrintBack (plainExport.rememberedOn (plainHost (write (Settings.fresh {}))))
      ((plainHost (write (Settings.fresh {}))).files.fileAt?
        (plainExport.fileOn (plainHost (write (Settings.fresh {}))))) := by
    rw [hfile]
    exact pathsPrintBack_write _ _
  refine (keepsSettings_run_iff rfl htree howns hback).2 (.inr (.inr ?_))
  intro name _ _ d hd
  rw [hfile, setBy_write] at hd
  exact hd

/-- A text with the folders of its user, and a value of the wrong type. -/
def mistypedText : String :=
  "[paths]\noutput_folder = \"mine\"\nlogs_folder = \"kept\"\n\n[logging]\nerror_tail = \"many\"\n"

/-- The user's folder is lost. -/
theorem not_keepsSettings_mistypedText :
    ¬ KeepsSettings (some (encode mistypedText))
      ((plainExport.run.run (plainHost mistypedText)).2.files.fileAt? (.ofText "s.toml")) := by
  intro hkeeps
  have hset : (setBy (some (encode mistypedText)) .paths "output_folder").bind text? =
      some "mine" := by decide +kernel
  have hlost : (setBy ((plainExport.run.run (plainHost mistypedText)).2.files.fileAt?
      (.ofText "s.toml")) .paths "output_folder").bind text? ≠ some "mine" := by decide +kernel
  obtain ⟨d, hd, htext⟩ := Option.bind_eq_some_iff.1 hset
  obtain rfl := text?_eq_some htext
  obtain ⟨e, he, hsame⟩ :=
    hkeeps .paths "output_folder" (by decide) (by decide) (.text "mine") hd
  obtain rfl | ⟨x, y, hx, -, -⟩ := hsame
  · refine hlost ?_
    rw [he]
    rfl
  · cases hx

end Request

end ExportDesk
