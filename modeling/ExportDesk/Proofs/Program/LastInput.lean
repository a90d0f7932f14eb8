import ExportDesk.Proofs.Program.Sparing
import ExportDesk.Proofs.Settings.Fields
import ExportDesk.Proofs.Settings.Store

/-!
# The settings file over a run that exports

A run reads the settings, exports, and remembers the input in the settings file. `run_file` says
what the file holds in the end, and `keepsSettings_run_iff` when that keeps what the user had set:
if the settings could not be read, the defaults take the place of the user's folders.
-/

namespace ExportDesk

open Text Toml SettingsText SettingsStore

/-! ## The two ends of a run -/

namespace Request

variable (r : Request) (h : Host)

/-- The settings file on a host. -/
def fileOn : Path := r.settingsFile h.environment

/-- The settings that a run starts from. -/
def storeOn : SettingsStore := (r.readSettings.run h).1

/-- The settings in memory when the input is remembered. -/
def rememberedOn : Settings :=
  ((r.storeOn h).withLastInput (r.exporting.inputOn h)).settings

/-- The settings are taken from this text of the file. -/
def Takes (text : String) (s : Settings) : Prop :=
  ∃ incomplete, Loads (.ofPath h.environment (r.fileOn h)) h text s incomplete

/-- How a run begins if the file holds the first content, and the second once the settings have
been read. -/
inductive Begins (c : Bytes) : Bytes → Prop where
  | byDefault (untaken : ∀ text s, ¬ r.Takes h text s)
      (settings : (r.storeOn h).settings = Settings.fresh h.environment) : Begins c c
  | taken {text : String} {s : Settings} (takes : r.Takes h text s)
      (decoded : decode? c = some text) (settings : (r.storeOn h).settings = s) : Begins c c
  /-- The file lacked something and has been written anew. -/
  | anew {text : String} {s : Settings} (takes : r.Takes h text s)
      (decoded : decode? c = some text) (settings : (r.storeOn h).settings = s) :
      Begins c (encode (write s))

variable {r h} {c : Bytes}

theorem readSettings_run {loaded : (Except SettingsError Unit × SettingsStore) × Host}
    (hload : (SettingsStore.ofPath h.environment (r.fileOn h)).loadOrCreate.run h = loaded) :
    r.storeOn h = loaded.1.2 ∧ loaded.2.Spares (r.fileOn h) (r.readSettings.run h).2 := by
  obtain ⟨⟨result, store⟩, h₁⟩ := loaded
  have hload' := hload
  unfold fileOn at hload'
  unfold storeOn
  cases result with
  | ok _ =>
    have hrun : r.readSettings.run h = (store, h₁) := by
      unfold readSettings
      simp [hload']
      rfl
    rw [hrun]
    exact ⟨rfl, .refl _ _⟩
  | error e =>
    have hrun : ∃ text,
        r.readSettings.run h = (store, ((OnHost.printLine .stderr text).run h₁).2) := by
      unfold readSettings
      simp [hload']
      exact ⟨_, rfl⟩
    obtain ⟨text, hrun⟩ := hrun
    have hprint : OnHost.Spares h₁ (r.fileOn h) (OnHost.printLine .stderr text) fun _ => True :=
      .printLine _ _
    rw [hrun]
    exact ⟨rfl, (hprint h₁ (.refl _ _)).1⟩

/-- **The beginning of a run.** -/
theorem readSettings_file (ht : h.files.IsTree) (hc : h.files.fileAt? (r.fileOn h) = some c) :
    (r.storeOn h).path = r.fileOn h ∧
      ∃ c₁, r.Begins h c c₁ ∧ h.HoldsAfter (r.fileOn h) (r.readSettings.run h).2 c₁ := by
  obtain ⟨hstore, hspares⟩ := readSettings_run (r := r) (h := h) rfl
  have hstart : (SettingsStore.ofPath h.environment (r.fileOn h)).path = r.fileOn h := rfl
  rw [← hstart] at hc
  obtain ⟨hnone, hloaded, hfile⟩ | ⟨text, s, b, hloads, hdecode, hloaded, hfile⟩ :=
    loadOrCreate_file ht hc
  · rw [hloaded] at hstore
    refine ⟨by rw [hstore]; rfl, c, .byDefault (fun text s htakes => ?_) ?_, ?_⟩
    · obtain ⟨b, hb⟩ := htakes
      exact hnone text s b hb
    · rw [hstore]
      rfl
    · exact hfile.spares hspares
  · rw [hloaded] at hstore
    have hsettings : (r.storeOn h).settings = s := by rw [hstore]
    refine ⟨by rw [hstore]; rfl, ?_⟩
    obtain hsame | hnew := hfile
    · exact ⟨c, .taken ⟨b, hloads⟩ hdecode hsettings, hsame.spares hspares⟩
    · exact ⟨_, .anew ⟨b, hloads⟩ hdecode hsettings, hnew.spares hspares⟩

end Request

/-- The content as it was, or with the paths that the settings hold written to it. -/
def PathsRevised (s : Settings) (c c' : Bytes) : Prop :=
  c' = c ∨ ∃ text new, decode? c = some text ∧ revise text s .paths = .ok new ∧ c' = encode new

/-- **The end of a run.** -/
theorem remembers_file {store : SettingsStore} {input : Path} {h h' : Host} {c : Bytes}
    (ht : h.files.IsTree) (hc : h.files.fileAt? store.path = some c)
    (hstep : Remembers store input h h') :
    ∃ c', PathsRevised (store.withLastInput input).settings c c' ∧ h.HoldsAfter store.path h' c' := by
  have hspares : (((store.withLastInput input).updateSection .paths).run h).2.Spares
      store.path h' := by
    unfold Remembers rememberInput at hstep
    rw [StateT.run_bind] at hstep
    cases hupdate : ((store.withLastInput input).updateSection .paths).run h with
    | mk result h₁ =>
      cases result with
      | ok _ =>
        rw [hupdate] at hstep
        have hsame : h' = h₁ := hstep
        rw [hsame]
        exact .refl _ _
      | error e =>
        have hnote : OnHost.Spares h₁ store.path (OnHost.note .warn .handlers
            ("Could not save last input path: " ++ e.message)) fun _ => True := .note _ _ _
        rw [hupdate] at hstep
        have hnoted : h' = ((OnHost.note .warn .handlers
            ("Could not save last input path: " ++ e.message)).run h₁).2 := hstep
        rw [hnoted]
        exact (hnote h₁ (.refl _ _)).1
  have hpath : (store.withLastInput input).path = store.path := rfl
  rw [← hpath] at hc
  obtain hsame | ⟨text, new, hdecode, hrevise, hnew⟩ := updateSection_file ht hc .paths
  · exact ⟨c, .inl rfl, hsame.spares hspares⟩
  · exact ⟨_, .inr ⟨text, new, hdecode, hrevise, rfl⟩, hnew.spares hspares⟩

/-! ## A whole run -/

namespace Request

variable {r : Request} {h : Host} {c : Bytes}

/-- Nothing but the settings store writes to the settings file: neither a program that is started
nor one of the two logs. -/
structure OwnsFile (r : Request) (h : Host) : Prop where
  launcher : h.launcher.Spares (r.fileOn h)
  programLog :
    h.files.target (ProgramLog.pathOn (r.storeOn h).logsFolder h.clock.date) ≠
      h.files.target (r.fileOn h)
  exportLog :
    h.files.target
        (ExportLog.pathFor (r.storeOn h).logsFolder (logName (r.exporting.inputOn h))) ≠
      h.files.target (r.fileOn h)

/-- What a run does once the settings are there. -/
def work (r : Request) (store : SettingsStore) : OnHost Bool := do
  let file ← r.openLog store
  OnHost.note .debug .main ("Auto Editor GUI " ++ version ++ " starting")
  OnHost.note .debug .main ("Config: " ++ store.path.display)
  let done ← r.perform store
  file.forM ProgramLog.writeFile
  return done

theorem run_eq (r : Request) : r.run = r.readSettings >>= r.work := rfl

section

variable {store : SettingsStore} {input : Path}

theorem openLog_spares (hverb : r.verb = .exporting)
    (hprogram : h.files.reached (ProgramLog.pathOn store.logsFolder h.clock.date) ≠
      h.files.reached store.path) :
    OnHost.Spares h store.path (r.openLog store) fun file =>
      ∀ path, file = some path → path = ProgramLog.pathOn store.logsFolder h.clock.date := by
  have hterminal : OnHost.Spares h store.path r.openTerminalLog Anything :=
    .get_bind fun _ _ => .weaken (.enter _) fun _ _ => trivial
  unfold openLog
  rw [hverb, if_pos (show Verb.exporting.takesExport = true from rfl)]
  exact .bind (.openLogFile hprogram) fun file hfile => .bind hterminal fun _ _ =>
    .bind (.makeFolders store) fun _ _ => .pure hfile

theorem perform_spares (hverb : r.verb = .exporting) (hl : h.launcher.Spares store.path)
    (hinput : r.exporting.inputOn h = input)
    (hexport : h.files.reached (ExportLog.pathFor store.logsFolder (logName input)) ≠
      h.files.reached store.path) :
    OnHost.SparesUntil h store.path (r.perform store)
      (fun h₂ h₃ => h₃ = h₂ ∨ Remembers store input h₂ h₃) := by
  subst hinput
  unfold perform
  rw [hverb]
  intro h' hs'
  exact carryOut_spares hl hexport h' hs'

/-- Whether or not the last step of an export is reached, it is known what the file then holds. -/
theorem last_file {h₂ h₃ : Host} (ht : h.files.IsTree)
    (hc : h.files.fileAt? store.path = some c) (hs : h.Spares store.path h₂)
    (hlast : h₃ = h₂ ∨ Remembers store input h₂ h₃) :
    ∃ c', PathsRevised (store.withLastInput input).settings c c' ∧
      h.HoldsAfter store.path h₃ c' := by
  have hholds : h.HoldsAfter store.path h₂ c := (Host.HoldsAfter.refl ht hc).spares hs
  obtain rfl | hremembers := hlast
  · exact ⟨c, .inl rfl, hholds⟩
  · obtain ⟨c', hrevised, hafter⟩ := remembers_file hholds.tree hholds.file hremembers
    exact ⟨c', hrevised, hholds.trans hafter⟩

theorem work_file (hverb : r.verb = .exporting) (ht : h.files.IsTree)
    (hc : h.files.fileAt? store.path = some c) (hl : h.launcher.Spares store.path)
    (hinput : r.exporting.inputOn h = input)
    (hprogram : h.files.reached (ProgramLog.pathOn store.logsFolder h.clock.date) ≠
      h.files.reached store.path)
    (hexport : h.files.reached (ExportLog.pathFor store.logsFolder (logName input)) ≠
      h.files.reached store.path) :
    ∃ c', PathsRevised (store.withLastInput input).settings c c' ∧
      h.HoldsAfter store.path ((r.work store).run h).2 c' := by
  have haround : OnHost.SparesAround h store.path (r.work store)
      (fun h₂ h₃ => h₃ = h₂ ∨ Remembers store input h₂ h₃) := by
    refine .bind (openLog_spares hverb hprogram) fun file hfile => .bind (.note _ _ _) fun _ _ =>
      .bind (.note _ _ _) fun _ _ => ?_
    -- what follows the export only writes the program's log
    refine .ofUntil (R := Anything) (perform_spares hverb hl hinput hexport)
      fun done h₂ h₃ hs hlast => ?_
    obtain ⟨c', -, hafter⟩ := last_file ht hc hs hlast
    cases file with
    | none => exact .pure trivial
    | some path =>
      obtain rfl := hfile path rfl
      refine .bind (.writeFile ?_) fun _ _ => .pure trivial
      rw [hafter.world.reached, hafter.world.reached]
      exact hprogram
  obtain ⟨h₂, h₃, hs, hlast, hend⟩ := haround h (.refl _ h)
  obtain ⟨c', hrevised, hafter⟩ := last_file ht hc hs hlast
  exact ⟨c', hrevised, hafter.spares hend⟩

end

/-- **What the settings file holds after a run that exports.** -/
theorem run_file (hverb : r.verb = .exporting) (ht : h.files.IsTree)
    (hc : h.files.fileAt? (r.fileOn h) = some c) (howns : r.OwnsFile h) :
    ∃ c₁ c', r.Begins h c c₁ ∧ PathsRevised (r.rememberedOn h) c₁ c' ∧
      (r.run.run h).2.files.fileAt? (r.fileOn h) = some c' := by
  obtain ⟨hpath, c₁, hbegins, hafter⟩ := readSettings_file ht hc
  obtain ⟨hl, hprogram, hexport⟩ := howns
  -- without links, a path leads to the location that it names
  rw [← FileSystem.reached_plain ht.plain, ← FileSystem.reached_plain ht.plain] at hprogram hexport
  rw [← hpath] at hafter hl hprogram hexport ⊢
  have hinput : r.exporting.inputOn (r.readSettings.run h).2 = r.exporting.inputOn h := by
    unfold ExportRequest.inputOn
    rw [hafter.world.choices]
  obtain ⟨c', hrevised, hend⟩ := work_file hverb hafter.tree hafter.file
    (by rwa [hafter.world.launcher]) hinput
    (by
      rw [hafter.world.clock, hafter.world.reached, hafter.world.reached]
      exact hprogram)
    (by
      rw [hafter.world.reached, hafter.world.reached]
      exact hexport)
  rw [run_eq]
  exact ⟨c₁, c', hbegins, hrevised, hend.file⟩

end Request

end ExportDesk
