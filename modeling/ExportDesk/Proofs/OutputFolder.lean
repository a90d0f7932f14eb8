import ExportDesk.OutputFolder
import ExportDesk.Program.Preview
import ExportDesk.Proofs.Files.Grown
import ExportDesk.Proofs.Host
import ExportDesk.Proofs.Record
import ExportDesk.Proofs.Settings.Store
import ExportDesk.Proofs.Text.Utf8

/-!
# Who means which folder

`SettingsStore.outputFolder_readers`: previews and exports mean the same folder by the setting,
which is the per-user one if the setting is blank. The folder that the settings store makes when the
program starts is this one exactly if the setting is not blank; only then an export is sure to find
its folder there.
-/

namespace ExportDesk

open Text

/-! ## The per-user folder -/

theorem Path.mem_join {p child : Path} {b : UInt8} (hb : b ∈ child.bytes) :
    b ∈ (p.join child).bytes := by
  unfold join
  split
  · exact hb
  split
  · exact List.mem_append_right _ hb
  · exact List.mem_append_right _ (List.mem_cons_of_mem _ hb)

namespace Environment

variable {env : Environment} {text : String}

/-- The name of the per-user folder can be seen. -/
theorem mem_outputFolder (env : Environment) : 0x41 ∈ env.outputFolder.bytes := by
  have hname : 0x41 ∈ encode "Auto Editor Output" := by decide +kernel
  unfold outputFolder
  split
  · exact Path.mem_join hname
  · exact hname

/-- No blank text names the per-user folder. -/
theorem ofText_ne_outputFolder (hblank : isBlank text = true) :
    Path.ofText text ≠ env.outputFolder := by
  intro h
  have hbyte : 0x41 ∈ encode text := by
    rw [show encode text = env.outputFolder.bytes from congrArg Path.bytes h]
    exact env.mem_outputFolder
  have hchar : Char.ofNat 0x41 ∈ text.toList := mem_of_mem_encode (by decide) hbyte
  have hall := List.all_eq_true.1 hblank _ hchar
  exact absurd hall (by decide)

theorem outputFolderFor_eq_ofText :
    Path.ofText text = env.outputFolderFor text ↔ isBlank text = false := by
  unfold outputFolderFor
  cases hblank : isBlank text with
  | true => simp [ofText_ne_outputFolder hblank]
  | false => simp

theorem isEmpty_outputFolderFor : (env.outputFolderFor text).isEmpty = false := by
  refine Bool.eq_false_iff.2 fun h => ?_
  have hbytes : (env.outputFolderFor text).bytes = [] := List.isEmpty_iff.1 h
  unfold outputFolderFor at hbytes
  split at hbytes
  next =>
    have hbyte := env.mem_outputFolder
    rw [hbytes] at hbyte
    cases hbyte
  next hvisible =>
    rw [eq_empty_of_encode hbytes] at hvisible
    exact hvisible rfl

end Environment

/-! ## Exports -/

namespace OutputFolder

variable {configured : String} {h : Host}

/-- **What the preparation of the configured folder comes to**: it is there, or it is made. -/
theorem prepare_eq (configured : String) (h : Host) :
    let folder := h.environment.outputFolderFor configured
    (prepare configured).run h =
      if h.files.exists? folder then (.ok folder, h)
      else match (Disk.makeDirectoryAll folder).run.run h.files with
        | (.error e, fs) => (.error ⟨folder, e⟩, { h with files := fs })
        | (.ok (), fs) => (.ok folder, { h with files := fs }.entered
            [.noted ⟨.info, .locations, "Directory created at: " ++ folder.display⟩]) := by
  intro folder
  have hprepare : (prepare configured).run h =
      (((resolve configured).run h).1.mapError fun cause => ⟨folder, cause⟩,
        ((resolve configured).run h).2) := rfl
  rw [hprepare]
  unfold resolve
  rw [StateT.run_bind, StateT.run_get, pure_bind]
  dsimp only
  split
  · rfl
  rw [StateT.run_bind, OnHost.run_disk]
  rcases (Disk.makeDirectoryAll folder).run.run h.files with ⟨e | _, fs⟩ <;> rfl

/-- A folder that was prepared is the one that is meant, and it is there. -/
theorem prepare_ok {made : Path} {h' : Host}
    (hrun : (prepare configured).run h = (.ok made, h')) :
    made = h.environment.outputFolderFor configured ∧ h'.files.exists? made = true := by
  rw [prepare_eq] at hrun
  split at hrun
  next hexists =>
    obtain ⟨hmade, rfl⟩ := Prod.mk.inj hrun
    rw [← Except.ok.inj hmade]
    exact ⟨rfl, hexists⟩
  next =>
    split at hrun
    · cases (Prod.mk.inj hrun).1
    next fs hfolder =>
      obtain ⟨hmade, rfl⟩ := Prod.mk.inj hrun
      rw [← Except.ok.inj hmade]
      exact ⟨rfl, FileSystem.exists?_of_isDirectory
        (Disk.isDirectory_of_makeDirectoryAll Environment.isEmpty_outputFolderFor hfolder)⟩

/-- A failure names the folder that is meant. -/
theorem prepare_error {e : OutputFolderError} {h' : Host}
    (hrun : (prepare configured).run h = (.error e, h')) :
    e.path = h.environment.outputFolderFor configured := by
  rw [prepare_eq] at hrun
  split at hrun
  · cases (Prod.mk.inj hrun).1
  split at hrun
  · obtain ⟨he, -⟩ := Prod.mk.inj hrun
    rw [← Except.error.inj he]
  · cases (Prod.mk.inj hrun).1

/-- Nothing is left to prepare exactly if the folder is there. -/
theorem prepare_idle_iff (configured : String) (h : Host) :
    let folder := h.environment.outputFolderFor configured
    (prepare configured).run h = (.ok folder, h) ↔ h.files.exists? folder = true := by
  intro folder
  refine ⟨fun hrun => (prepare_ok hrun).2, fun hexists => ?_⟩
  rw [prepare_eq, if_pos hexists]

end OutputFolder

/-! ## The settings store -/

namespace SettingsStore

variable {store : SettingsStore} {h h' : Host}

theorem ensureFolder_ok {folder : Path} (hrun : (ensureFolder folder).run h = (.ok (), h')) :
    ∃ fs, h' = { h with files := fs } ∧ FileSystem.Grows [] h.files fs ∧
      (folder.isEmpty = false → fs.exists? folder = true) := by
  unfold ensureFolder at hrun
  rw [StateT.run_bind, StateT.run_get, pure_bind] at hrun
  dsimp only at hrun
  split at hrun
  next hexists =>
    obtain ⟨-, rfl⟩ := Prod.mk.inj hrun
    exact ⟨h.files, rfl, .refl [] h.files, fun _ => hexists⟩
  next =>
    have hgrows := Disk.grows_makeDirectoryAll folder h.files
    rw [StateT.run_bind, OnHost.run_disk] at hrun
    rcases hmade : (Disk.makeDirectoryAll folder).run.run h.files with ⟨e | _, fs⟩
    · rw [hmade] at hrun
      cases (Prod.mk.inj hrun).1
    · rw [hmade] at hrun hgrows
      obtain ⟨-, rfl⟩ := Prod.mk.inj hrun
      exact ⟨fs, rfl, hgrows, fun hfolder => FileSystem.exists?_of_isDirectory
        (Disk.isDirectory_of_makeDirectoryAll hfolder hmade)⟩

/-- The folder for exports stays when the one for logs is made. -/
theorem ensureFolders_ok (hrun : store.ensureFolders.run h = (.ok (), h')) :
    h'.environment = h.environment ∧
      (store.outputFolder.isEmpty = false → h'.files.exists? store.outputFolder = true) := by
  unfold ensureFolders at hrun
  rw [StateT.run_bind] at hrun
  rcases hfirst : (ensureFolder store.outputFolder).run h with ⟨e | _, h₁⟩
  · rw [hfirst] at hrun
    cases (Prod.mk.inj hrun).1
  · rw [hfirst] at hrun
    obtain ⟨fs, rfl, -, hthere⟩ := ensureFolder_ok hfirst
    obtain ⟨fs', rfl, hgrows, -⟩ := ensureFolder_ok hrun
    exact ⟨rfl, fun hfolder => hgrows.exists? (hthere hfolder)⟩

/-- **Who means which folder** by the setting for exports. A preview shows the folder that an export
then uses, which is there when it has been prepared, and which a failure of the preparation names.
The settings store goes by the text as it is, so it means the same folder exactly if the text is not
blank. In this case an export has nothing left to prepare once the store has made its folders. For a
blank text that depends on whether somebody else has made the per-user folder; the store has made a
folder with a blank name instead, unless the text is empty. -/
theorem outputFolder_readers (store : SettingsStore) (h : Host) :
    let text := store.settings.paths.outputFolder
    let folder := h.environment.outputFolderFor text
    ExportRequest.previewFolder h.environment store.settings.paths none = folder ∧
      (∀ made h', (OutputFolder.prepare text).run h = (.ok made, h') →
        made = folder ∧ h'.files.exists? folder = true) ∧
      (∀ e h', (OutputFolder.prepare text).run h = (.error e, h') → e.path = folder) ∧
      (store.outputFolder = folder ↔ isBlank text = false) ∧
      ∀ h', store.ensureFolders.run h = (.ok (), h') →
        (text ≠ "" → h'.files.exists? store.outputFolder = true) ∧
          (isBlank text = false → (OutputFolder.prepare text).run h' = (.ok folder, h')) ∧
          ((OutputFolder.prepare text).run h' = (.ok folder, h') ↔
            h'.files.exists? folder = true) := by
  intro text folder
  refine ⟨rfl, fun made h' hrun => ?_, fun e h' hrun => OutputFolder.prepare_error hrun,
    Environment.outputFolderFor_eq_ofText, fun h' hrun => ?_⟩
  · obtain ⟨rfl, hthere⟩ := OutputFolder.prepare_ok hrun
    exact ⟨rfl, hthere⟩
  · obtain ⟨henv, hthere⟩ := ensureFolders_ok hrun
    have hidle := OutputFolder.prepare_idle_iff text h'
    rw [henv] at hidle
    refine ⟨fun htext => hthere ?_, fun hvisible => hidle.2 ?_, hidle⟩
    · exact Bool.eq_false_iff.2 fun hempty => htext (eq_empty_of_encode (List.isEmpty_iff.1 hempty))
    · have hsame : store.outputFolder = folder := Environment.outputFolderFor_eq_ofText.2 hvisible
      show h'.files.exists? folder = true
      rw [← hsame]
      refine hthere ?_
      rw [hsame]
      exact Environment.isEmpty_outputFolderFor

/-- A store whose folder for exports has been set. -/
def settingOutput (text : String) : SettingsStore where
  path := .ofText "s.toml"
  settings := { paths := { outputFolder := text, logsFolder := "logs" } }

/-- An export finds its folder where the store has made it. -/
theorem outputFolder_readers_plain :
    let ensured := (settingOutput "out").ensureFolders.run (.holding "")
    ensured.1 = .ok () ∧
      (OutputFolder.prepare "out").run ensured.2 = (.ok (.ofText "out"), ensured.2) := by
  intro ensured
  have hok : ensured.1 = .ok () := by decide +kernel
  obtain ⟨-, -, -, -, hensured⟩ := outputFolder_readers (settingOutput "out") (.holding "")
  exact ⟨hok, (hensured ensured.2 (Prod.ext hok rfl)).2.1 (by decide)⟩

/-- With a blank setting the store makes a folder that nobody means, and an export still has to make
the one that is shown. -/
theorem outputFolder_readers_blank :
    let store := settingOutput "  "
    let shown := ExportRequest.previewFolder (Host.holding "").environment store.settings.paths none
    let ensured := store.ensureFolders.run (.holding "")
    let prepared := (OutputFolder.prepare "  ").run ensured.2
    ensured.1 = .ok () ∧ prepared.1 = .ok shown ∧ store.outputFolder ≠ shown ∧
      ensured.2.files.isDirectory store.outputFolder = true ∧
      ensured.2.files.exists? shown = false ∧ prepared.2.files.exists? shown = true := by
  decide +kernel

end SettingsStore

end ExportDesk
