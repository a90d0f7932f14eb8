import ExportDesk.Program.Run
import ExportDesk.Proofs.Host

/-!
# What an export spares

Between reading the settings and remembering the input, an export makes folders, writes its logs
and runs the tool. If the tool and the two logs spare a file, all of that does
(`finishExport_spares`, `carryOut_spares`): what happens to the settings file is left to the two
ends.
-/

namespace ExportDesk

open Text

variable {h₀ : Host} {p : Path} {α σ : Type}

/-- Nothing more is known of the result. -/
def Anything (_ : α) : Prop := True

namespace OnHost.Spares

/-! ## Folders and the terminal -/

theorem printAlert (a : Alert) : OnHost.Spares h₀ p (printAlert a) Anything := printLine _ _

theorem ensureFolder (folder : Path) :
    OnHost.Spares h₀ p (SettingsStore.ensureFolder folder) Anything := by
  refine get_bind fun h _ => ?_
  split
  · exact pure trivial
  · exact bind (disk (Disk.spares_makeDirectoryAll folder)) fun _ _ => pure trivial

theorem ensureFolders (store : SettingsStore) :
    OnHost.Spares h₀ p store.ensureFolders Anything := by
  refine bind (ensureFolder _) fun r _ => ?_
  split
  · exact pure trivial
  · exact ensureFolder _

theorem makeFolders (store : SettingsStore) :
    OnHost.Spares h₀ p (Request.makeFolders store) Anything := by
  refine bind (ensureFolders store) fun r _ => ?_
  split
  · exact pure trivial
  · exact note _ _ _

theorem prepareFolder (configured : String) :
    OnHost.Spares h₀ p (OutputFolder.prepare configured) Anything := by
  refine get_bind fun h _ => bind (Q := Anything) ?_ fun _ _ => pure trivial
  refine get_bind fun h _ => ?_
  dsimp only
  split
  · exact pure trivial
  refine bind (disk (Disk.spares_makeDirectoryAll _)) fun r _ => ?_
  split
  · exact pure trivial
  · exact bind (note _ _ _) fun _ _ => pure trivial

end OnHost.Spares

/-! ## Logs -/

/-- The file of the program's log on a day. -/
def ProgramLog.pathOn (folder : Path) (date : String) : Path :=
  folder.join (.ofText (ProgramLog.fileName date))

/-- The file of an export's log. -/
def ExportLog.pathFor (folder : Path) (name : String) : Path :=
  folder.join (.ofText (LogFile.fileName name))

namespace OnHost.Spares

theorem openPath {q : Path} (hq : h₀.files.reached q ≠ h₀.files.reached p) :
    OnHost.Spares h₀ p (ProgramLog.openPath q) Anything := by
  exact bind (disk (.step hq fun _ _ => FileSystem.spares_openAtEnd)) fun _ _ => pure trivial

theorem openFile {folder : Path}
    (hq : h₀.files.reached (ProgramLog.pathOn folder h₀.clock.date) ≠ h₀.files.reached p) :
    OnHost.Spares h₀ p (ProgramLog.openFile folder) fun r =>
      ∀ path, r = .ok path → path = ProgramLog.pathOn folder h₀.clock.date := by
  refine get_bind fun h hs => ?_
  rw [hs.world.clock]
  refine bind (openPath hq) fun r _ => ?_
  split
  · exact pure fun path h => by cases h; rfl
  · exact pure fun path h => by cases h
  · refine bind (disk (Disk.spares_makeDirectoryAll _)) fun made _ => ?_
    split
    · exact pure fun path h => by cases h
    · refine bind (openPath hq) fun again _ => pure fun path h => ?_
      cases again with
      | error e => cases h
      | ok _ =>
        cases h
        rfl

theorem openLogFile {store : SettingsStore}
    (hq : h₀.files.reached (ProgramLog.pathOn store.logsFolder h₀.clock.date) ≠
      h₀.files.reached p) :
    OnHost.Spares h₀ p (Request.openLogFile store) fun r =>
      ∀ path, r = some path → path = ProgramLog.pathOn store.logsFolder h₀.clock.date := by
  refine bind (openFile hq) fun r hr => ?_
  split
  · refine pure fun path h => ?_
    cases h
    exact hr _ rfl
  · exact bind (printLine _ _) fun _ _ => pure fun path h => by cases h

theorem append {q : Path} (content : Bytes) (hq : h₀.files.reached q ≠ h₀.files.reached p) :
    OnHost.Spares h₀ p (OnHost.disk (Disk.step (·.append q content))) Anything :=
  disk (.step hq fun _ _ => FileSystem.spares_append)

theorem writeFile {q : Path} (hq : h₀.files.reached q ≠ h₀.files.reached p) :
    OnHost.Spares h₀ p (ProgramLog.writeFile q) Anything := by
  refine get_bind fun h _ => bind (append _ hq) fun _ _ => pure trivial

/-- A log writes to its own file and keeps to it. -/
theorem flush {log : ExportLog} (hq : h₀.files.reached log.path ≠ h₀.files.reached p) :
    OnHost.Spares h₀ p log.flush fun log' => log'.path = log.path := by
  unfold ExportLog.flush
  split
  · exact pure rfl
  refine bind (append _ hq) fun r _ => ?_
  split <;> exact pure rfl

theorem perform {log : ExportLog} (hq : h₀.files.reached log.path ≠ h₀.files.reached p)
    (call : LogCall) :
    OnHost.Spares h₀ p (log.perform call) fun r => r.2.path = log.path := by
  have hkeep (lines : List String) : (log.keep lines).path = log.path := by
    unfold ExportLog.keep
    split <;> rfl
  refine get_bind fun h _ => ?_
  split
  · refine bind (flush ?_) fun log' hpath => pure ?_
    · rwa [hkeep]
    · exact hpath.trans (hkeep _)
  · refine bind (Q := fun log' => log'.path = log.path) ?_ fun log' hpath => pure hpath
    refine bind (flush ?_) fun log' hpath => pure ?_
    · rwa [hkeep]
    · exact hpath.trans (hkeep _)
  · exact pure (hkeep _)

theorem performAll {log : ExportLog} (hq : h₀.files.reached log.path ≠ h₀.files.reached p)
    (calls : List LogCall) :
    OnHost.Spares h₀ p (log.performAll calls) fun r => r.2.path = log.path := by
  induction calls generalizing log with
  | nil => exact pure rfl
  | cons call calls ih =>
    refine bind (perform hq call) fun r hr => ?_
    rw [← hr] at hq
    exact bind (ih hq) fun r' hr' => pure (hr'.trans hr)

theorem create {name : String} {folder : Path} (config : LogConfig)
    (hq : h₀.files.reached (ExportLog.pathFor folder name) ≠ h₀.files.reached p) :
    OnHost.Spares h₀ p (ExportLog.create name folder config) fun r =>
      ∀ log, r = .ok log → log.path = ExportLog.pathFor folder name := by
  unfold ExportLog.create
  dsimp only
  rw [show folder.join (.ofText (LogFile.fileName name)) = ExportLog.pathFor folder name from rfl]
  generalize ExportLog.pathFor folder name = path at hq ⊢
  have hstep : Disk.Spares h₀.files p (Disk.step (·.create path)) :=
    .step hq fun _ _ => FileSystem.spares_create
  refine bind (disk (.bind (Disk.spares_makeDirectoryAll _) fun _ => hstep)) fun made _ => pure ?_
  intro log h
  cases made with
  | error e => cases h
  | ok _ =>
    cases h
    rfl

theorem startLog {store : SettingsStore} {input : Path} (i : Invocation)
    (hq : h₀.files.reached (ExportLog.pathFor store.logsFolder (logName input)) ≠
      h₀.files.reached p) :
    OnHost.Spares h₀ p (startLog store input i) fun r =>
      ∀ log, r = some log → log.path = ExportLog.pathFor store.logsFolder (logName input) := by
  refine bind (create _ hq) fun r hr => ?_
  generalize ExportLog.pathFor store.logsFolder (logName input) = path at hq hr ⊢
  cases r with
  | error e => exact bind (note _ _ _) fun _ _ => pure fun log h => by cases h
  | ok log =>
    have hpath := hr log rfl
    rw [← hpath] at hq
    refine bind (performAll hq _) fun r' hr' => bind (note _ _ _) fun _ _ => pure ?_
    intro log' h
    cases h
    exact hr'.trans hpath

theorem endLog {log : Option ExportLog} (a : Alert)
    (hq : ∀ l, log = some l → h₀.files.reached l.path ≠ h₀.files.reached p) :
    OnHost.Spares h₀ p (endLog log a) Anything := by
  cases log with
  | none => exact pure trivial
  | some log => exact bind (performAll (hq log rfl) _) fun _ _ => pure trivial

/-! ## Running the tool -/

theorem observeAll {I : σ → Prop} {observe : σ → OutputLine → OnHost σ}
    (ho : ∀ s line, I s → OnHost.Spares h₀ p (observe s line) I) {s : σ} (hs : I s)
    (lines : List OutputLine) : OnHost.Spares h₀ p (observeAll observe s lines) I := by
  induction lines generalizing s with
  | nil => exact pure hs
  | cons line lines ih => exact bind (ho s line hs) fun s' hs' => ih hs'

theorem follow {I : σ → Prop} {observe : σ → OutputLine → OnHost σ}
    (ho : ∀ s line, I s → OnHost.Spares h₀ p (observe s line) I) {s : σ} (hs : I s)
    (i : Invocation) (tailLines : Nat) (child : ChildRun) :
    OnHost.Spares h₀ p (i.follow tailLines child observe s) fun r => I r.2 := by
  unfold Invocation.follow
  split
  · exact pure hs
  refine bind (observeAll ho hs _) fun s' hs' => ?_
  split
  · exact bind (note _ _ _) fun _ _ => pure hs'
  · dsimp only
    split <;> exact bind (note _ _ _) fun _ _ => pure hs'

theorem execute {I : σ → Prop} {observe : σ → OutputLine → OnHost σ}
    (hl : h₀.launcher.Spares p)
    (ho : ∀ s line, I s → OnHost.Spares h₀ p (observe s line) I) {s : σ} (hs : I s)
    (i : Invocation) (tailLines : Nat) :
    OnHost.Spares h₀ p (i.execute tailLines observe s) fun r => I r.2 := by
  refine bind (disk (Disk.spares_makeDirectoryAll _)) fun r _ => ?_
  split
  · exact bind (note _ _ _) fun _ _ => pure hs
  refine bind (note _ _ _) fun _ _ => bind (launch hl _ _) fun r _ => ?_
  split
  · exact bind (note _ _ _) fun _ _ => pure hs
  · exact follow ho hs i tailLines _

theorem run {I : σ → Prop} {observe : σ → OutputLine → OnHost σ}
    (hl : h₀.launcher.Spares p)
    (ho : ∀ s line, I s → OnHost.Spares h₀ p (observe s line) I) {s : σ} (hs : I s)
    (r : ToolRunner) (i : Invocation) :
    OnHost.Spares h₀ p (r.run i observe s) fun r => I r.2 := by
  unfold ToolRunner.run
  split
  · exact execute hl ho hs i r.tailLines
  · exact bind (note _ _ _) fun _ _ => pure hs

theorem runLogged (hl : h₀.launcher.Spares p) {watch : σ → OutputLine → OnHost σ}
    (hw : ∀ s line, OnHost.Spares h₀ p (watch s line) Anything) {log : ExportLog}
    (hq : h₀.files.reached log.path ≠ h₀.files.reached p) (r : ToolRunner) (i : Invocation)
    (s : σ) :
    OnHost.Spares h₀ p (r.runLogged i log watch s) fun r => r.2.log.path = log.path := by
  have hperform (call : LogCall) (l : ToolRunner.Logged σ) (hpath : l.log.path = log.path) :
      OnHost.Spares h₀ p (l.perform call) fun l' => l'.log.path = log.path := by
    rw [← hpath] at hq
    exact bind (perform hq call) fun r hr => pure (hr.trans hpath)
  have hcalls (calls : List LogCall) (l : ToolRunner.Logged σ) (hpath : l.log.path = log.path) :
      OnHost.Spares h₀ p (calls.foldlM ToolRunner.Logged.perform l)
        fun l' => l'.log.path = log.path := by
    induction calls generalizing l with
    | nil => exact pure hpath
    | cons call calls ih =>
      rw [List.foldlM_cons]
      exact bind (hperform call l hpath) fun l' hpath' => ih l' hpath'
  refine bind (hperform _ _ rfl) fun l hpath => bind (hperform _ l hpath) fun l hpath => ?_
  refine bind (run (I := fun l => l.log.path = log.path) hl ?_ hpath r i) fun r hr =>
    bind (hcalls _ _ hr) fun l hpath => pure hpath
  intro l line hpath
  exact bind (hperform _ l hpath) fun l' hpath' => bind (hw _ line) fun _ _ => pure hpath'

theorem runTool (hl : h₀.launcher.Spares p) {log : Option ExportLog}
    (hq : ∀ l, log = some l → h₀.files.reached l.path ≠ h₀.files.reached p) (s : Settings)
    (i : Invocation) :
    OnHost.Spares h₀ p (runTool s i log) fun r =>
      ∀ l, r.2 = some l → h₀.files.reached l.path ≠ h₀.files.reached p := by
  cases log with
  | some log =>
    have hq := hq log rfl
    refine bind (runLogged hl (fun _ _ => printLine _ _) hq _ i ()) fun r hr => pure ?_
    intro l h
    cases h
    rwa [hr]
  | none =>
    refine bind (run (I := Anything) hl (fun _ _ _ => printLine _ _) trivial _ i) fun _ _ =>
      pure fun l h => by cases h

end OnHost.Spares

/-! ## The run between its two ends -/

/-- The input that a request comes to on a host; an empty path if there is none. -/
def ExportRequest.inputOn (r : ExportRequest) (h : Host) : Path :=
  match r.input, r.pick with
  | some path, _ => path
  | none, false => ⟨[]⟩
  | none, true => (h.choices .inputFile).getD ⟨[]⟩

namespace OnHost.Spares

theorem chooseInput (r : ExportRequest) :
    OnHost.Spares h₀ p r.chooseInput fun input => input = r.inputOn h₀ := by
  unfold ExportRequest.inputOn ExportRequest.chooseInput
  cases r.input with
  | some path => exact pure rfl
  | none =>
    cases r.pick with
    | false => exact pure rfl
    | true =>
      refine bind (ask _) fun chosen hchosen => ?_
      rw [← hchosen]
      cases chosen with
      | none => exact bind (note _ _ _) fun _ _ => pure rfl
      | some path =>
        dsimp only
        split
        · exact bind (note _ _ _) fun _ _ => pure rfl
        · exact pure rfl

theorem chooseOutput (r : ExportRequest) :
    OnHost.Spares h₀ p r.chooseOutput Anything := by
  unfold ExportRequest.chooseOutput
  split
  · exact pure trivial
  · exact pure trivial
  · refine bind (ask _) fun chosen _ => ?_
    split
    · exact pure trivial
    · exact bind (note _ _ _) fun _ _ => pure trivial

theorem outputFolder (s : PathSettings) (picked : Option Path) :
    OnHost.Spares h₀ p (ExportRequest.outputFolder s picked) Anything := by
  cases picked with
  | none => exact prepareFolder s.outputFolder
  | some folder => exact pure trivial

theorem start (s : Session) (o : ExportOptions) :
    OnHost.Spares h₀ p (s.start o) Anything := by
  unfold Session.start
  split
  · exact bind (note _ _ _) fun _ _ => pure trivial
  · exact bind (note _ _ _) fun _ _ => pure trivial
  · exact pure trivial

theorem showAlert (a : Option Alert) :
    OnHost.Spares h₀ p (a.forM ExportDesk.printAlert) Anything := by
  cases a with
  | none => exact pure trivial
  | some a => exact printAlert a

theorem showInvocation (o : ExportOptions) (t : ToolSettings) :
    OnHost.Spares h₀ p (showInvocation o t) Anything := by
  have hannounce : OnHost.Spares h₀ p (announceInvocation o t) Anything :=
    bind (note _ _ _) fun _ _ => pure trivial
  exact bind hannounce fun _ _ => bind (printLine _ _) fun _ _ =>
    bind (printLine _ _) fun _ _ => pure trivial

end OnHost.Spares

/-- The input is remembered from `h` to `h'`. -/
def Remembers (store : SettingsStore) (input : Path) (h h' : Host) : Prop :=
  h' = ((rememberInput store input).run h).2

/-- All of an export but its last step spares the file. -/
theorem finishExport_spares (store : SettingsStore) (session : Session) (o : ExportOptions)
    (hl : h₀.launcher.Spares p)
    (hq : h₀.files.reached (ExportLog.pathFor store.logsFolder (logName o.input)) ≠
      h₀.files.reached p) :
    OnHost.SparesUntil h₀ p (ExportRequest.finishExport store session o)
      (Remembers store o.input) := by
  refine .bind (.showInvocation o _) fun i _ => .bind (.startLog i hq) fun log hlog => ?_
  refine .bind (.runTool hl (fun l h => ?_) _ i) fun r hr => ?_
  · rwa [hlog l h]
  · exact .bind (.endLog _ hr) fun _ _ => .bind (.printAlert _) fun _ _ => .last fun h => rfl

/-- An export spares the file to its end, or up to its last step. -/
theorem carryOut_spares {r : ExportRequest} {store : SettingsStore}
    (hl : h₀.launcher.Spares p)
    (hq : h₀.files.reached (ExportLog.pathFor store.logsFolder (logName (r.inputOn h₀))) ≠
      h₀.files.reached p) :
    OnHost.SparesUntil h₀ p (r.carryOut store)
      (fun h h' => h' = h ∨ Remembers store (r.inputOn h₀) h h') := by
  refine .bind (.chooseInput r) fun input hinput => .bind (.chooseOutput r) fun picked _ => ?_
  subst hinput
  generalize r.inputOn h₀ = input at hq ⊢
  refine .bind (.start _ _) fun _ _ => .bind (.showAlert _) fun _ _ => ?_
  split
  · exact .ofSpares (Q := Anything) (.pure trivial) fun h => .inl rfl
  refine .bind (.outputFolder _ picked) fun folder _ => ?_
  split
  · refine .ofSpares (Q := Anything) (.bind (.note _ _ _) fun _ _ => ?_) fun h => .inl rfl
    exact .bind (.printAlert _) fun _ _ => .pure trivial
  · refine .weaken (finishExport_spares store _ _ hl ?_) fun h h' hlast => .inr hlast
    exact hq

end ExportDesk
