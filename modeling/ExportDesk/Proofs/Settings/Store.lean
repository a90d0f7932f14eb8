import ExportDesk.Settings.Store
import ExportDesk.Proofs.Files.Interrupted
import ExportDesk.Proofs.Host
import ExportDesk.Proofs.Text.Utf8

/-!
# What becomes of a settings file that is there

`loadOrCreate_file` and `updateSection_file`: reading the settings and writing a section leave the
file as it was, or replace it by a text that is known.
-/

namespace ExportDesk

open Text

namespace FileSystem

variable {fs : FileSystem} {p : Path} {c : Bytes}

theorem exists?_of_file (h : fs.fileAt? p = some c) : fs.exists? p = true := by
  obtain ⟨l, x, hstatus⟩ := fileAt?_eq_some.1 h
  unfold exists?
  rw [hstatus]
  rfl

theorem fileAt?_of_absent (h : fs.exists? p = false) : fs.fileAt? p = none := by
  cases hc : fs.fileAt? p with
  | none => rfl
  | some c =>
    rw [exists?_of_file hc] at h
    cases h

/-- What is read of a file is what it holds. -/
theorem decode?_of_readText {text : String} (h : fs.fileAt? p = some c)
    (hread : fs.readText p = .ok text) : decode? c = some text := by
  obtain ⟨l, x, hstatus⟩ := fileAt?_eq_some.1 h
  unfold readText FileSystem.read at hread
  rw [hstatus] at hread
  cases hrefuse : fs.refuses (.read p) with
  | some e =>
    rw [hrefuse] at hread
    cases hread
  | none =>
    rw [hrefuse] at hread
    simp only [bind, Except.bind] at hread
    split at hread
    · cases hread
    next c' hc' =>
      cases hc'
      split at hread
      next text' htext =>
        cases hread
        exact htext
      · cases hread

theorem fileAt?_of_readText {text : String} (hread : fs.readText p = .ok text) :
    ∃ c, fs.fileAt? p = some c ∧ decode? c = some text := by
  have hfound := hread
  unfold readText FileSystem.read at hfound
  cases hrefuse : fs.refuses (.read p) with
  | some e =>
    rw [hrefuse] at hfound
    cases hfound
  | none =>
    rw [hrefuse] at hfound
    cases hstatus : fs.status p with
    | error e =>
      rw [hstatus] at hfound
      cases hfound
    | ok found =>
      rw [hstatus] at hfound
      obtain ⟨l, n⟩ := found
      cases n with
      | directory => cases hfound
      | file c x =>
        have hc := fileAt?_eq_some.2 ⟨l, x, hstatus⟩
        exact ⟨c, hc, decode?_of_readText hc hread⟩

theorem refuses_of_readText {text : String} (hread : fs.readText p = .ok text) :
    fs.refuses (.read p) = none := by
  unfold readText FileSystem.read at hread
  cases hrefuse : fs.refuses (.read p) with
  | none => rfl
  | some e =>
    rw [hrefuse] at hread
    cases hread

/-- A file that the system lets be read is read as the text it holds. -/
theorem readText_of_file {text : String} (h : fs.fileAt? p = some c)
    (hrefuse : fs.refuses (.read p) = none) (htext : decode? c = some text) :
    fs.readText p = .ok text := by
  obtain ⟨l, x, hstatus⟩ := fileAt?_eq_some.1 h
  unfold readText FileSystem.read
  rw [hrefuse, hstatus]
  simp only [bind, Except.bind, pure, Except.pure, htext]

theorem exists?_of_readText {text : String} (hread : fs.readText p = .ok text) :
    fs.exists? p = true := by
  obtain ⟨c, hc, -⟩ := fileAt?_of_readText hread
  exact exists?_of_file hc

theorem fileAt?_of_spares {fs' : FileSystem} (hs : Spares p fs fs')
    (h : fs.fileAt? p = some c) : fs'.fileAt? p = some c := by
  obtain ⟨l, x, hstatus⟩ := fileAt?_eq_some.1 h
  exact fileAt?_eq_some.2 ⟨l, x, hs.file l c x hstatus⟩

end FileSystem

/-- After some work the tree is sound and the file at the path holds `c`. -/
structure Host.HoldsAfter (p : Path) (h h' : Host) (c : Bytes) : Prop where
  world : h.SameWorld h'
  tree : h'.files.IsTree
  file : h'.files.fileAt? p = some c

namespace Host.HoldsAfter

variable {p : Path} {h h' h'' : Host} {c c' : Bytes}

theorem refl (ht : h.files.IsTree) (hc : h.files.fileAt? p = some c) : HoldsAfter p h h c :=
  ⟨.refl h, ht, hc⟩

theorem trans (hh : HoldsAfter p h h' c) (hh' : HoldsAfter p h' h'' c') :
    HoldsAfter p h h'' c' := ⟨hh.world.trans hh'.world, hh'.tree, hh'.file⟩

theorem spares (hh : HoldsAfter p h h' c) (hs : h'.Spares p h'') : HoldsAfter p h h'' c :=
  ⟨hh.world.trans hs.world, hs.files.tree hh.tree, FileSystem.fileAt?_of_spares hs.files hh.file⟩

end Host.HoldsAfter

namespace SettingsStore

variable {store : SettingsStore} {h : Host} {c : Bytes}

/-- Writing is the replacement of the file, and changes nothing else on the host. -/
theorem run_writeFile (store : SettingsStore) (text : String) (h : Host) :
    (store.writeFile text).run h =
      (((Disk.replaceFile store.path (encode text)).run.run h.files).1.mapError .inaccessible,
        { h with files := ((Disk.replaceFile store.path (encode text)).run.run h.files).2 }) := by
  unfold writeFile
  rw [StateT.run_bind, OnHost.run_disk]
  rfl

/-- Writing fails and keeps the file, whether or not there is one, or the file has the text. -/
theorem writeFile_cases (ht : h.files.IsTree) (text : String) :
    (∃ e, ((store.writeFile text).run h).1 = .error (.inaccessible e)) ∧
        FileSystem.Keeps store.path h.files ((store.writeFile text).run h).2.files ∨
      ((store.writeFile text).run h).1 = .ok () ∧
        h.HoldsAfter store.path ((store.writeFile text).run h).2 (encode text) ∧
        ((store.writeFile text).run h).2.files.refuses = h.files.refuses := by
  rw [run_writeFile]
  cases hrun : (Disk.replaceFile store.path (encode text)).run.run h.files with
  | mk r fs' =>
    obtain ⟨⟨e, he⟩, hkeeps⟩ | ⟨hok, hfile, htree, hcur, hlinks, hrefuses⟩ :=
      Disk.replaceFile_cases ht hrun
    · rw [he]
      exact .inl ⟨⟨e, rfl⟩, hkeeps⟩
    · rw [hok]
      exact .inr ⟨rfl, ⟨⟨rfl, rfl, rfl, rfl, hcur, hlinks⟩, htree, hfile⟩, hrefuses⟩

/-- Writing succeeds or leaves the file as it was. -/
theorem writeFile_file (ht : h.files.IsTree) (hc : h.files.fileAt? store.path = some c)
    (text : String) :
    h.HoldsAfter store.path ((store.writeFile text).run h).2 c ∨
      ((store.writeFile text).run h).1 = .ok () ∧
        h.HoldsAfter store.path ((store.writeFile text).run h).2 (encode text) := by
  obtain ⟨-, hkeeps⟩ | ⟨hok, hnew, -⟩ := writeFile_cases ht text
  · refine .inl ⟨⟨?_, ?_, ?_, ?_, hkeeps.spares.current, hkeeps.spares.links⟩,
      hkeeps.spares.tree ht, hkeeps.found hc⟩ <;> rw [run_writeFile]
  · exact .inr ⟨hok, hnew⟩

/-- The start-up takes the settings `s` from the file's text. -/
structure Loads (store : SettingsStore) (h : Host) (text : String) (s : Settings)
    (incomplete : Bool) : Prop where
  read : h.files.readText store.path = .ok text
  examined : examine h.environment text = .ok (s, incomplete)

section

variable {text : String} {s : Settings}

theorem loadOrCreate_untaken (hexists : h.files.exists? store.path = true)
    (hnone : ∀ text s b, ¬ Loads store h text s b) :
    ∃ e, store.loadOrCreate.run h = ((.error e, store), h) := by
  unfold loadOrCreate readFile
  cases htext : h.files.readText store.path with
  | error e =>
    refine ⟨.inaccessible e, ?_⟩
    simp [hexists, htext, Except.mapError]
    rfl
  | ok text =>
    cases hex : examine h.environment text with
    | error e =>
      refine ⟨e, ?_⟩
      simp [hexists, htext, Except.mapError, hex]
      rfl
    | ok found => exact absurd ⟨htext, hex⟩ (hnone text found.1 found.2)

theorem loadOrCreate_complete (hexists : h.files.exists? store.path = true)
    (hl : Loads store h text s false) :
    store.loadOrCreate.run h = ((.ok (), { store with settings := s }), h) := by
  unfold loadOrCreate readFile
  simp [hexists, hl.read, Except.mapError, hl.examined]
  rfl

/-- A file that lacks something is written anew. -/
theorem loadOrCreate_incomplete (hexists : h.files.exists? store.path = true)
    (hl : Loads store h text s true) :
    ∃ noted, h.SameWorld noted ∧ noted.files = h.files ∧
      store.loadOrCreate.run h =
        (((({ store with settings := s } : SettingsStore).save.run noted).1,
            { store with settings := s }),
          (({ store with settings := s } : SettingsStore).save.run noted).2) := by
  let noted : Host := ((OnHost.note .debug .settings
    ("Rewriting config " ++ store.path.display)).run h).2
  refine ⟨noted, ⟨rfl, rfl, rfl, rfl, rfl, rfl⟩, rfl, ?_⟩
  unfold loadOrCreate readFile
  simp [hexists, hl.read, Except.mapError, hl.examined]
  rfl

end

/-- Where there is no file, one is written with the defaults. -/
theorem loadOrCreate_absent {r : Except SettingsError Unit} {h' : Host}
    (hexists : h.files.exists? store.path = false)
    (hsave : ({ store with settings := Settings.fresh h.environment } : SettingsStore).save.run h =
      (r, h')) :
    ∃ noted, h'.SameWorld noted ∧ noted.files = h'.files ∧
      store.loadOrCreate.run h =
        ((r, { store with settings := Settings.fresh h.environment }), noted) := by
  cases r with
  | error e =>
    refine ⟨h', .refl h', rfl, ?_⟩
    unfold loadOrCreate
    simp [hexists, hsave]
    rfl
  | ok u =>
    refine ⟨((OnHost.note .info .settings
      ("Created default config at " ++ store.path.display)).run h').2,
      ⟨rfl, rfl, rfl, rfl, rfl, rfl⟩, rfl, ?_⟩
    unfold loadOrCreate
    simp [hexists, hsave]
    rfl

/-- **Reading the settings.** Either they are not taken, and store and file are as they were, or
they are, and the file is as it was or lacked something and has been written anew. -/
theorem loadOrCreate_file (ht : h.files.IsTree) (hc : h.files.fileAt? store.path = some c) :
    ((∀ text s b, ¬ Loads store h text s b) ∧ (store.loadOrCreate.run h).1.2 = store ∧
      h.HoldsAfter store.path (store.loadOrCreate.run h).2 c) ∨
    ∃ text s b, Loads store h text s b ∧ decode? c = some text ∧
      (store.loadOrCreate.run h).1.2 = { store with settings := s } ∧
      (h.HoldsAfter store.path (store.loadOrCreate.run h).2 c ∨
        h.HoldsAfter store.path (store.loadOrCreate.run h).2 (encode (SettingsText.write s))) := by
  have hexists := FileSystem.exists?_of_file hc
  by_cases hloads : ∃ text s b, Loads store h text s b
  · right
    obtain ⟨text, s, b, hl⟩ := hloads
    refine ⟨text, s, b, hl, FileSystem.decode?_of_readText hc hl.read, ?_⟩
    cases b with
    | false =>
      rw [loadOrCreate_complete hexists hl]
      exact ⟨rfl, .inl (.refl ht hc)⟩
    | true =>
      obtain ⟨noted, hworld, hfiles, hrun⟩ := loadOrCreate_incomplete hexists hl
      rw [hrun]
      rw [← hfiles] at ht hc
      obtain hsame | ⟨-, hnew⟩ := writeFile_file ht hc (SettingsText.write s)
      · exact ⟨rfl, .inl ⟨hworld.trans hsame.world, hsame.tree, hsame.file⟩⟩
      · exact ⟨rfl, .inr ⟨hworld.trans hnew.world, hnew.tree, hnew.file⟩⟩
  · left
    have hnone : ∀ text s b, ¬ Loads store h text s b :=
      fun text s b hl => hloads ⟨text, s, b, hl⟩
    obtain ⟨e, hrun⟩ := loadOrCreate_untaken hexists hnone
    rw [hrun]
    exact ⟨hnone, rfl, .refl ht hc⟩

/-- **Writing a section.** The file is as it was, or its text has been revised. -/
theorem updateSection_file (ht : h.files.IsTree) (hc : h.files.fileAt? store.path = some c)
    (part : SettingsSection) :
    h.HoldsAfter store.path ((store.updateSection part).run h).2 c ∨
    ∃ text new, decode? c = some text ∧ revise text store.settings part = .ok new ∧
      h.HoldsAfter store.path ((store.updateSection part).run h).2 (encode new) := by
  have hexists := FileSystem.exists?_of_file hc
  cases htext : h.files.readText store.path with
  | error e =>
    have hrun : (store.updateSection part).run h = (.error (.inaccessible e), h) := by
      unfold updateSection readFile
      simp [hexists, htext, Except.mapError]
      rfl
    rw [hrun]
    exact .inl (.refl ht hc)
  | ok text =>
    cases hrevise : revise text store.settings part with
    | error e =>
      have hrun : (store.updateSection part).run h = (.error e, h) := by
        unfold updateSection readFile
        simp [hexists, htext, Except.mapError, hrevise]
        rfl
      rw [hrun]
      exact .inl (.refl ht hc)
    | ok new =>
      have hrun : (store.updateSection part).run h = (store.writeFile new).run h := by
        unfold updateSection readFile
        simp [hexists, htext, Except.mapError, hrevise]
      rw [hrun]
      obtain hsame | ⟨-, hnew⟩ := writeFile_file ht hc new
      · exact .inl hsame
      · exact .inr ⟨text, new, FileSystem.decode?_of_readText hc htext, hrevise, hnew⟩

end SettingsStore

/-! ## A host with one file -/

/-- A host with nothing on its disk but `s.toml`, where no program can be started. -/
def Host.holding (text : String) : Host where
  files := { entries := [([encode "s.toml"], .file (encode text) false)] }
  environment := {}
  launcher := fun _ _ _ => pure (.error .noSuchEntry)
  clock := { timeOfDay := "12:00:00", date := "2025-06-01", timestamp := "2025-06-01T12:00:00Z" }

namespace Host

theorem isTree_holding (text : String) : (holding text).files.IsTree := by
  refine FileSystem.isTree_of_entries rfl rfl fun e he => ?_
  obtain rfl := List.mem_singleton.1 he
  rfl

theorem fileAt?_holding (text : String) :
    (holding text).files.fileAt? (.ofText "s.toml") = some (encode text) := by
  have hstatus : (holding text).files.status (.ofText "s.toml") =
      .ok ([encode "s.toml"], .file (encode text) false) := rfl
  exact FileSystem.fileAt?_eq_some.2 ⟨_, _, hstatus⟩

theorem readText_holding (text : String) :
    (holding text).files.readText (.ofText "s.toml") = .ok text :=
  FileSystem.readText_of_file (fileAt?_holding text) rfl (decode?_encode text)

end Host

end ExportDesk
