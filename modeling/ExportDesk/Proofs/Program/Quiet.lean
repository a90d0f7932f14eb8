import ExportDesk.Proofs.Files.Grown
import ExportDesk.Proofs.Program.Sparing
import ExportDesk.Proofs.Session
import ExportDesk.Proofs.Tool.Attempt

/-!
# What an export does besides running the tool

Everything that an export does besides running the tool is quiet: it asks nothing and leaves the
tool alone. With the run in the middle, the work comes to exactly one attempt
(`OnHost.Attempts`), however the log and the settings file fare.
-/

namespace ExportDesk

open Text

namespace OnHost

variable {α β σ : Type} {F : FileSystem → FileSystem → Prop} [IsPreorder FileSystem F]
  {Q : α → Prop}

/-! ## Quiet work -/

/-- Whatever is appended to the file, `F` holds from before to after. -/
def Writes (F : FileSystem → FileSystem → Prop) (q : Path) : Prop :=
  ∀ content, Disk.Within F (Disk.step (·.append q content))

omit [IsPreorder FileSystem F] in
theorem writes_anyChange (q : Path) : Writes FileSystem.AnyChange q := fun _ _ => trivial

namespace Quiet

theorem printAlert (a : Alert) : Quiet F (printAlert a) Anything := printLine _ _

theorem prepareFolder {configured : String} (hmake : ∀ q, Disk.Within F (Disk.makeDirectoryAll q)) :
    Quiet F (OutputFolder.prepare configured) Anything := by
  refine get_bind fun h => bind (Q := Anything) ?_ fun _ _ => pure trivial
  refine get_bind fun h => ?_
  dsimp only
  split
  · exact pure trivial
  refine bind (disk (hmake _)) fun r _ => ?_
  split
  · exact pure trivial
  · exact bind (note _ _ (by decide) (by decide)) fun _ _ => pure trivial

/-- A log writes to its own file and keeps to it. -/
theorem flush {log : ExportLog} (hw : Writes F log.path) :
    Quiet F log.flush fun log' => log'.path = log.path := by
  unfold ExportLog.flush
  split
  · exact pure rfl
  refine bind (disk (hw log.kept)) fun r _ => ?_
  split <;> exact pure rfl

theorem perform {log : ExportLog} (hw : Writes F log.path) (call : LogCall) :
    Quiet F (log.perform call) fun r => r.2.path = log.path := by
  have hkeep (lines : List String) : (log.keep lines).path = log.path := by
    unfold ExportLog.keep
    split <;> rfl
  refine get_bind fun h => ?_
  split
  · refine bind (flush ?_) fun log' hpath => pure (hpath.trans (hkeep _))
    rwa [hkeep]
  · refine bind (Q := fun log' => log'.path = log.path) ?_ fun log' hpath => pure hpath
    refine bind (flush ?_) fun log' hpath => pure (hpath.trans (hkeep _))
    rwa [hkeep]
  · exact pure (hkeep _)

theorem performAll {log : ExportLog} (hw : Writes F log.path) (calls : List LogCall) :
    Quiet F (log.performAll calls) fun r => r.2.path = log.path := by
  induction calls generalizing log with
  | nil => exact pure rfl
  | cons call calls ih =>
    refine bind (perform hw call) fun r hr => ?_
    rw [← hr] at hw
    exact bind (ih hw) fun r' hr' => pure (hr'.trans hr)

theorem create {name : String} {folder : Path} (config : LogConfig)
    (hmake : ∀ q, Disk.Within F (Disk.makeDirectoryAll q))
    (hcreate : Disk.Within F (Disk.step (·.create (ExportLog.pathFor folder name)))) :
    Quiet F (ExportLog.create name folder config) fun r =>
      ∀ log, r = .ok log → log.path = ExportLog.pathFor folder name := by
  unfold ExportLog.create
  dsimp only
  rw [show folder.join (.ofText (LogFile.fileName name)) = ExportLog.pathFor folder name from rfl]
  generalize ExportLog.pathFor folder name = path at hcreate ⊢
  have htrans (fs₁ fs₂ fs₃ : FileSystem) (h : F fs₁ fs₂) (h' : F fs₂ fs₃) : F fs₁ fs₃ :=
    trans_of F h h'
  refine bind (disk (.bind htrans (hmake folder) fun _ => hcreate)) fun made _ => pure ?_
  intro log h
  cases made with
  | error e => cases h
  | ok _ =>
    cases h
    rfl

theorem startLog {store : SettingsStore} {input : Path} (i : Invocation)
    (hmake : ∀ q, Disk.Within F (Disk.makeDirectoryAll q))
    (hcreate : Disk.Within F
      (Disk.step (·.create (ExportLog.pathFor store.logsFolder (logName input)))))
    (hw : Writes F (ExportLog.pathFor store.logsFolder (logName input))) :
    Quiet F (startLog store input i) fun r =>
      ∀ log, r = some log → log.path = ExportLog.pathFor store.logsFolder (logName input) := by
  refine bind (create _ hmake hcreate) fun r hr => ?_
  generalize ExportLog.pathFor store.logsFolder (logName input) = path at hw hr ⊢
  cases r with
  | error e =>
    exact bind (note _ _ (by decide) (by decide)) fun _ _ => pure fun log h => by cases h
  | ok log =>
    have hpath := hr log rfl
    rw [← hpath] at hw
    refine bind (performAll hw _) fun r' hr' =>
      bind (note _ _ (by decide) (by decide)) fun _ _ => pure fun log' h => ?_
    cases h
    exact hr'.trans hpath

theorem endLog (log : Option ExportLog) (a : Alert) :
    Quiet FileSystem.AnyChange (endLog log a) Anything := by
  cases log with
  | none => exact pure trivial
  | some log => exact bind (performAll (writes_anyChange _) _) fun _ _ => pure trivial

theorem rememberInput (store : SettingsStore) (input : Path) :
    Quiet FileSystem.AnyChange (rememberInput store input) fun store' =>
      store' = store.withLastInput input := by
  have hwrite (text : String) : Quiet FileSystem.AnyChange
      ((store.withLastInput input).writeFile text) Anything :=
    bind (disk fun _ => trivial) fun _ _ => pure trivial
  have hupdate : Quiet FileSystem.AnyChange
      ((store.withLastInput input).updateSection .paths) Anything := by
    refine get_bind fun h => ?_
    dsimp only
    split
    · exact pure trivial
    · split
      · exact pure trivial
      · exact hwrite _
  refine bind hupdate fun r _ => ?_
  split
  · exact pure rfl
  · exact bind (note _ _ (by decide) (by decide)) fun _ _ => pure rfl

theorem showInvocation (o : ExportOptions) (t : ToolSettings) :
    Quiet F (showInvocation o t) fun i => i = buildInvocation o t := by
  have hannounce : Quiet F (announceInvocation o t) fun i => i = buildInvocation o t :=
    bind (note _ _ (by decide) (by decide)) fun _ _ => pure rfl
  exact bind hannounce fun i hi => bind (printLine _ _) fun _ _ =>
    bind (printLine _ _) fun _ _ => pure hi

theorem start (s : Session) (o : ExportOptions) : Quiet F (s.start o) (· = s.request o) := by
  unfold Session.start
  obtain ⟨-, hr⟩ | ⟨-, -, hr⟩ | ⟨-, -, hr⟩ := s.request_cases o
  · rw [hr]
    exact bind (note _ _ (by decide) (by decide)) fun _ _ => pure rfl
  · rw [hr]
    exact bind (note _ _ (by decide) (by decide)) fun _ _ => pure rfl
  · rw [hr]
    exact pure rfl

theorem observeAll {observe : σ → OutputLine → OnHost σ}
    (ho : ∀ s line, Quiet F (observe s line) Anything) (s : σ) (lines : List OutputLine) :
    Quiet F (observeAll observe s lines) Anything := by
  induction lines generalizing s with
  | nil => exact pure trivial
  | cons line lines ih => exact bind (ho s line) fun s' _ => ih s'

end Quiet

/-! ## Work with one attempt at running the tool -/

/-- The work comes to exactly one attempt at running the command: it is quiet up to the attempt,
with `F` from the files then to those at the attempt, and quiet from there on. Its result goes with
the attempt by `Q`. -/
def Attempts (F : FileSystem → FileSystem → Prop) (r : ToolRunner) (i : Invocation) (m : OnHost α)
    (Q : Attempt → α → Prop) : Prop :=
  ∀ h, ∃ h₁, h.Went F [] [] h₁ ∧ Q ((r.attempt i).run h₁).1 (m.run h).1 ∧
    h.Went FileSystem.AnyChange (((r.attempt i).run h₁).1.trace r i) [] (m.run h).2

namespace Attempts

variable {r : ToolRunner} {i : Invocation} {Q : Attempt → α → Prop} {R : Attempt → β → Prop}

/-- Quiet work, and then work with an attempt. -/
theorem afterQuiet {P : α → Prop} {m : OnHost α} {f : α → OnHost β} (hm : Quiet F m P)
    (hf : ∀ x, P x → Attempts F r i (f x) R) : Attempts F r i (m >>= f) R := by
  intro h
  obtain ⟨hw, hx⟩ := hm h
  obtain ⟨h₁, hw₁, ha, hw'⟩ := hf _ hx (m.run h).2
  exact ⟨h₁, hw.trans hw₁, ha, (hw.mono fun _ => trivial).trans hw'⟩

omit [IsPreorder FileSystem F] in
/-- Work with an attempt, and then quiet work. -/
theorem bind {m : OnHost α} {f : α → OnHost β} (hm : Attempts F r i m Q)
    (hf : ∀ a x, Q a x → Quiet FileSystem.AnyChange (f x) (R a)) : Attempts F r i (m >>= f) R := by
  intro h
  obtain ⟨h₁, hw, ha, hw'⟩ := hm h
  obtain ⟨hw₂, hb⟩ := hf _ _ ha (m.run h).2
  exact ⟨h₁, hw, hb, hw'.thenQuiet hw₂⟩

/-- **One run** is one attempt, whoever watches. -/
theorem run {observe : σ → OutputLine → OnHost σ}
    (ho : ∀ s line, Quiet FileSystem.AnyChange (observe s line) Anything) (r : ToolRunner)
    (i : Invocation) (s : σ) :
    Attempts F r i (r.run i observe s) fun a x => x.1 = a.outcome r i := by
  intro h
  refine ⟨h, .refl h, ?_⟩
  rw [r.run_run i observe s h]
  have hattempt := r.attempt_went i h
  generalize (r.attempt i).run h = attempted at hattempt ⊢
  obtain ⟨hwatched, -⟩ := Quiet.observeAll ho s attempted.1.lines attempted.2
  exact ⟨rfl, (hattempt.thenQuiet hwatched).trans (attempted.1.noteEnd_went i _)⟩

/-- A run with a log is one attempt too. -/
theorem runLogged {watch : σ → OutputLine → OnHost σ}
    (hwatch : ∀ s line, Quiet FileSystem.AnyChange (watch s line) Anything) {log : ExportLog}
    (hw : Writes F log.path) (r : ToolRunner) (i : Invocation) (s : σ) :
    Attempts F r i (r.runLogged i log watch s) fun a x => x.1 = a.outcome r i := by
  have hperform {F : FileSystem → FileSystem → Prop} [IsPreorder FileSystem F]
      {l : ToolRunner.Logged σ} (hw : Writes F l.log.path) (call : LogCall) :
      Quiet F (l.perform call) fun l' => l'.log.path = l.log.path :=
    .bind (.perform hw call) fun x hx => .pure hx
  have hcalls (calls : List LogCall) (l : ToolRunner.Logged σ) :
      Quiet FileSystem.AnyChange (calls.foldlM ToolRunner.Logged.perform l) Anything := by
    induction calls generalizing l with
    | nil => exact .pure trivial
    | cons call calls ih =>
      rw [List.foldlM_cons]
      exact .bind (hperform (writes_anyChange _) call) fun l' _ => ih l'
  refine .afterQuiet (hperform (l := ⟨log, [], s⟩) hw _) fun l hpath => ?_
  rw [← show l.log.path = log.path from hpath] at hw
  refine .afterQuiet (hperform hw _) fun l' _ => ?_
  refine .bind (run (fun l line => ?_) r i l') fun a x hx => ?_
  · exact .bind (hperform (writes_anyChange _) _) fun l' _ =>
      .bind (hwatch _ line) fun _ _ => .pure trivial
  · exact .bind (hcalls _ _) fun _ _ => .pure hx

theorem runTool {log : Option ExportLog} (hw : ∀ l, log = some l → Writes F l.path)
    (s : Settings) (i : Invocation) :
    Attempts F (.ofSettings s) i (runTool s i log) fun a x =>
      x.1 = a.outcome (.ofSettings s) i := by
  have hecho (s : Unit) (line : OutputLine) :
      Quiet FileSystem.AnyChange (echoLine s line) Anything := .printLine _ _
  cases log with
  | some log => exact .bind (runLogged hecho (hw log rfl) _ i ()) fun a x hx => .pure hx
  | none => exact .bind (run hecho _ i ()) fun a x hx => .pure hx

end Attempts

end OnHost

end ExportDesk
