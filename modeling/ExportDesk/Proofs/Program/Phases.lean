import ExportDesk.Proofs.OutputFolder
import ExportDesk.Proofs.Program.Quiet

/-!
# The phases of an export

`ExportRequest.carryOut_phases`: an export without input changes nothing, one whose output folder
cannot be made is given up, and any other one comes to exactly one attempt at running the tool,
whose exit code alone decides. What an export goes by is settled on the host before it does
anything: the input, the folder (`folderOn`) and what is asked for them (`asks`).
-/

namespace ExportDesk

open Text

/-! ## Choices -/

namespace ExportRequest

/-- The folder that a request chooses on a host, if it is another than the configured one. -/
def outputOn (r : ExportRequest) (h : Host) : Option Path :=
  match r.output, r.pickOutput with
  | some path, _ => some path
  | none, false => none
  | none, true => h.choices .outputFolder

/-- The questions that a request puts to the user. -/
def asks (r : ExportRequest) : List Question :=
  (if r.input.isNone && r.pick then [.inputFile] else []) ++
    (if r.output.isNone && r.pickOutput then [.outputFolder] else [])

theorem chooseInput_went (r : ExportRequest) (h : Host) :
    h.Went Eq [] (if r.input.isNone && r.pick then [.inputFile] else [])
        (r.chooseInput.run h).2 ∧
      (r.chooseInput.run h).1 = r.inputOn h := by
  unfold chooseInput inputOn
  cases r.input with
  | some path => exact ⟨.refl h, rfl⟩
  | none =>
    cases r.pick with
    | false => exact ⟨.refl h, rfl⟩
    | true =>
      refine OnHost.Quiet.ask_bind (R := (· = (h.choices .inputFile).getD ⟨[]⟩)) ?_
      cases h.choices .inputFile with
      | none => exact .bind (.note _ _ (by decide) (by decide)) fun _ _ => .pure rfl
      | some path =>
        dsimp only
        split
        · exact .bind (.note _ _ (by decide) (by decide)) fun _ _ => .pure rfl
        · exact .pure rfl

theorem chooseOutput_went (r : ExportRequest) (h : Host) :
    h.Went Eq [] (if r.output.isNone && r.pickOutput then [.outputFolder] else [])
        (r.chooseOutput.run h).2 ∧
      (r.chooseOutput.run h).1 = r.outputOn h := by
  unfold chooseOutput outputOn
  cases r.output with
  | some path => exact ⟨.refl h, rfl⟩
  | none =>
    cases r.pickOutput with
    | false => exact ⟨.refl h, rfl⟩
    | true =>
      refine OnHost.Quiet.ask_bind (R := (· = h.choices .outputFolder)) ?_
      cases h.choices .outputFolder with
      | none => exact .bind (.note _ _ (by decide) (by decide)) fun _ _ => .pure rfl
      | some path => exact .pure rfl

/-- **The choices** of a request: what is done with them starts from the same files. -/
theorem choose_went {β : Type} (r : ExportRequest) (h : Host)
    (f : Path → Option Path → OnHost β) :
    ∃ h₁, h.Went Eq [] r.asks h₁ ∧ (do
        let input ← r.chooseInput
        let picked ← r.chooseOutput
        f input picked : OnHost β).run h = (f (r.inputOn h) (r.outputOn h)).run h₁ := by
  obtain ⟨hw, hinput⟩ := r.chooseInput_went h
  obtain ⟨hw', hpicked⟩ := r.chooseOutput_went (r.chooseInput.run h).2
  have houtput : r.outputOn (r.chooseInput.run h).2 = r.outputOn h := by
    unfold outputOn
    rw [hw.choices]
  refine ⟨_, hw.trans hw', ?_⟩
  rw [← hinput, ← houtput, ← hpicked]
  rfl

/-- The folder for the result as a request settles it on a host. -/
def folderOn (r : ExportRequest) (s : PathSettings) (h : Host) : Except OutputFolderError Path :=
  ((outputFolder s (r.outputOn h)).run h).1

end ExportRequest

/-- The user is told of a success exactly if the run was one. -/
theorem Outcome.kind_alert_iff (o : Outcome) (operation : String) :
    ((o.alert operation).kind == .success) = true ↔ o.isSuccess = true := by
  cases o <;> simp [Outcome.alert, Outcome.isSuccess]

/-- The folder that the preparation of the configured one gives. -/
theorem OutputFolder.prepare_run (configured : String) (h : Host) :
    let folder := h.environment.outputFolderFor configured
    ((OutputFolder.prepare configured).run h).1 =
      if h.files.exists? folder then .ok folder
      else (((Disk.makeDirectoryAll folder).run.run h.files).1.map fun _ => folder).mapError
        fun cause => ⟨folder, cause⟩ := by
  intro folder
  rw [prepare_eq]
  split
  · rfl
  · rcases (Disk.makeDirectoryAll folder).run.run h.files with ⟨e | _, fs⟩ <;> rfl

/-- The report of an export that never came to the tool. -/
structure ExportReport.Stopped (store : SettingsStore) (message : String) (report : ExportReport) :
    Prop where
  failed : report.succeeded = false
  kept : report.store = store
  invocation : report.invocation = none
  outcome : report.outcome = none
  ended : report.session.inFlight = false
  alert : report.session.alert = some ⟨.error, message⟩

/-- The report of an export that came to an attempt. -/
structure ExportReport.Attempted (store : SettingsStore) (input : Path) (runner : ToolRunner)
    (i : Invocation) (a : Attempt) (report : ExportReport) : Prop where
  succeeded : report.succeeded = true ↔ ∃ child, a = .ran child ∧ child.ExitsWith 0
  kept : report.store = { store with settings.paths.lastInputPath := input.display }
  invocation : report.invocation = some i
  outcome : report.outcome = some (a.outcome runner i)
  ended : report.session.inFlight = false

namespace ExportRequest

/-- The folder does not depend on what has been said. -/
theorem run_outputFolder_congr (s : PathSettings) (picked : Option Path) {h h' : Host}
    (hfiles : h'.files = h.files) (henv : h'.environment = h.environment) :
    ((outputFolder s picked).run h').1 = ((outputFolder s picked).run h).1 := by
  cases picked with
  | some folder => rfl
  | none =>
    show ((OutputFolder.prepare s.outputFolder).run h').1 =
      ((OutputFolder.prepare s.outputFolder).run h).1
    rw [OutputFolder.prepare_run, OutputFolder.prepare_run, hfiles, henv]

/-! ## The phases -/

/-- The phase of the run comes to one attempt. -/
theorem finishExport_attempts (store : SettingsStore) (session : Session) (o : ExportOptions)
    (fs : FileSystem) :
    let i := buildInvocation o store.settings.tool
    let runner := ToolRunner.ofSettings store.settings
    OnHost.Attempts
      (FileSystem.GrowsFrom fs
        [fs.target (ExportLog.pathFor store.logsFolder (logName o.input))])
      runner i (finishExport store session o)
      fun a report => report.Attempted store o.input runner i a := by
  intro i runner
  refine .afterQuiet (.showInvocation o _) fun i' hi => ?_
  subst hi
  refine .afterQuiet (.startLog i (Disk.growsFrom_makeDirectoryAll _ _)
    (Disk.growsFrom_step fun _ _ => FileSystem.grows_create)
    fun _ => Disk.growsFrom_step fun _ _ => FileSystem.grows_append) fun log hlog => ?_
  refine .bind (.runTool (fun l hl => ?_) _ i) fun a x hx => ?_
  · rw [hlog l hl]
    exact fun _ => Disk.growsFrom_step fun _ _ => FileSystem.grows_append
  obtain ⟨outcome, log⟩ := x
  obtain rfl : outcome = a.outcome runner i := hx
  refine .bind (.endLog log _) fun _ _ => .bind (.printAlert _) fun _ _ =>
    .bind (.rememberInput store o.input) fun store' hstore => .pure ⟨?_, hstore, rfl, rfl, rfl⟩
  rw [← Attempt.isSuccess_outcome runner i]
  exact Outcome.kind_alert_iff _ _

theorem outputFolder_quiet (s : PathSettings) (picked : Option Path) :
    OnHost.Quiet (FileSystem.Grows []) (outputFolder s picked) Anything := by
  cases picked with
  | some folder => exact .pure trivial
  | none => exact .prepareFolder Disk.grows_makeDirectoryAll

/-- What an export does once it has been begun. -/
def settle (store : SettingsStore) (session : Session) (draft : ExportOptions)
    (picked : Option Path) : OnHost ExportReport := do
  match ← outputFolder store.settings.paths picked with
  | .error e =>
    OnHost.note .error .handlers e.message
    let (alert, session) := session.abort e.message
    printAlert alert
    return { succeeded := false, session, store }
  | .ok folder => finishExport store session { draft with outputDirectory := folder }

/-- What an export does once its choices have been made. -/
def carryOutWith (r : ExportRequest) (store : SettingsStore) (input : Path)
    (picked : Option Path) : OnHost ExportReport := do
  let draft := r.options store.settings.exporting input ⟨[]⟩
  let (refusal, session) ←
    ({ operation := draft.format.label ++ " export" } : Session).start draft
  session.alert.forM printAlert
  if refusal.isSome then return { succeeded := false, session, store }
  settle store session draft picked

theorem carryOut_eq (r : ExportRequest) (store : SettingsStore) :
    r.carryOut store = (do
      let input ← r.chooseInput
      let picked ← r.chooseOutput
      r.carryOutWith store input picked : OnHost ExportReport) := rfl

/-- An export without input is refused. -/
theorem carryOutWith_refused (r : ExportRequest) (store : SettingsStore) {input : Path}
    (hinput : input.isEmpty = true) (picked : Option Path) :
    OnHost.Quiet Eq (r.carryOutWith store input picked)
      (·.Stopped store "No input file selected") := by
  refine .bind (.start _ _) fun x hx => ?_
  obtain ⟨hflight, -⟩ | ⟨-, -, hr⟩ | ⟨-, ho, -⟩ := Session.request_cases
    { operation := (r.options store.settings.exporting input ⟨[]⟩).format.label ++ " export" }
    (r.options store.settings.exporting input ⟨[]⟩)
  · cases hflight
  · rw [hr] at hx
    subst hx
    exact .bind (.printAlert _) fun _ _ => .pure ⟨rfl, rfl, rfl, rfl, rfl, rfl⟩
  · exact absurd (hinput.symm.trans ho) (by decide)

/-- Any other one is begun, and nothing has become of it yet. -/
theorem carryOutWith_begun (r : ExportRequest) (store : SettingsStore) {input : Path}
    (hinput : input.isEmpty = false) (picked : Option Path) (h : Host) :
    ∃ h₁ session, h.Went Eq [] [] h₁ ∧ (r.carryOutWith store input picked).run h =
      (settle store session (r.options store.settings.exporting input ⟨[]⟩) picked).run h₁ := by
  let draft := r.options store.settings.exporting input ⟨[]⟩
  let new : Session := { operation := draft.format.label ++ " export" }
  obtain ⟨hw, hx⟩ := OnHost.Quiet.start (F := Eq) new draft h
  obtain ⟨hw', -⟩ := OnHost.Quiet.printAlert (F := Eq) (Session.startingAlert draft)
    ((new.start draft).run h).2
  have hrun : (r.carryOutWith store input picked).run h =
      (match ((new.start draft).run h).1 with
        | (refusal, session) => do
          session.alert.forM printAlert
          if refusal.isSome then return { succeeded := false, session, store }
          settle store session draft picked : OnHost ExportReport).run
        ((new.start draft).run h).2 := rfl
  obtain ⟨hflight, -⟩ | ⟨-, ho, -⟩ | ⟨-, -, hr⟩ := new.request_cases draft
  · cases hflight
  · exact absurd (hinput.symm.trans ho) (by decide)
  · refine ⟨_, (new.request draft).2, hw.trans hw', ?_⟩
    rw [hrun, hx, hr]
    rfl

/-- An export whose folder cannot be made is given up. -/
theorem settle_aborted (store : SettingsStore) (session : Session) (draft : ExportOptions)
    {picked : Option Path} {h : Host} {e : OutputFolderError}
    (hfolder : ((outputFolder store.settings.paths picked).run h).1 = .error e) :
    h.Went (FileSystem.Grows []) [] [] ((settle store session draft picked).run h).2 ∧
      ((settle store session draft picked).run h).1.Stopped store e.message := by
  let h₁ := ((outputFolder store.settings.paths picked).run h).2
  let giveUp : OnHost ExportReport := do
    OnHost.note .error .handlers e.message
    printAlert ⟨.error, e.message⟩
    return { succeeded := false, session := (session.abort e.message).2, store }
  have hrun : (settle store session draft picked).run h = giveUp.run h₁ := by
    show (match ((outputFolder store.settings.paths picked).run h).1 with
      | .error e => _
      | .ok folder => _ : OnHost ExportReport).run h₁ = giveUp.run h₁
    rw [hfolder]
    rfl
  have hgiveUp : OnHost.Quiet (FileSystem.Grows []) giveUp (· =
      { succeeded := false, session := (session.abort e.message).2, store }) :=
    .bind (.note _ _ (by decide) (by decide)) fun _ _ => .bind (.printAlert _) fun _ _ =>
      .pure rfl
  obtain ⟨hw, -⟩ := outputFolder_quiet store.settings.paths picked h
  obtain ⟨hw', hreport⟩ := hgiveUp h₁
  rw [hrun, hreport]
  exact ⟨hw.trans hw', rfl, rfl, rfl, rfl, rfl, rfl⟩

/-- An export with a folder comes to one attempt. -/
theorem settle_attempted (store : SettingsStore) (session : Session) (draft : ExportOptions)
    {picked : Option Path} {h : Host} {folder : Path}
    (hfolder : ((outputFolder store.settings.paths picked).run h).1 = .ok folder) :
    ∃ h₁, h.Went (FileSystem.Grows []) [] [] h₁ ∧ (settle store session draft picked).run h =
      (finishExport store session { draft with outputDirectory := folder }).run h₁ := by
  refine ⟨_, (outputFolder_quiet store.settings.paths picked h).1, ?_⟩
  show (match ((outputFolder store.settings.paths picked).run h).1 with
    | .error e => _
    | .ok folder => _ : OnHost ExportReport).run _ = _
  rw [hfolder]
  rfl

section

variable {r : ExportRequest} (store : SettingsStore) {h : Host}

/-- What is left of an export with an input, once it has been begun. -/
theorem carryOut_begun (hinput : (r.inputOn h).isEmpty = false) :
    ∃ h₁ session, h.Went Eq [] r.asks h₁ ∧
      ((outputFolder store.settings.paths (r.outputOn h)).run h₁).1 =
        r.folderOn store.settings.paths h ∧
      (r.carryOut store).run h = (settle store session
        (r.options store.settings.exporting (r.inputOn h) ⟨[]⟩) (r.outputOn h)).run h₁ := by
  obtain ⟨h₁, hw, hrun⟩ := r.choose_went h (r.carryOutWith store)
  obtain ⟨h₂, session, hw', hrun'⟩ := r.carryOutWith_begun store hinput (r.outputOn h) h₁
  have hboth := hw.thenQuiet hw'
  refine ⟨h₂, session, hboth, ?_, ?_⟩
  · exact run_outputFolder_congr _ _ hboth.files.symm hboth.environment
  · rw [carryOut_eq, hrun, hrun']

/-- The first phase. -/
theorem carryOut_refused (hinput : (r.inputOn h).isEmpty = true) :
    h.Went Eq [] r.asks ((r.carryOut store).run h).2 ∧
      ((r.carryOut store).run h).1.Stopped store "No input file selected" := by
  obtain ⟨h₁, hw, hrun⟩ := r.choose_went h (r.carryOutWith store)
  obtain ⟨hw', hreport⟩ := r.carryOutWith_refused store hinput (r.outputOn h) h₁
  rw [carryOut_eq, hrun]
  exact ⟨hw.thenQuiet hw', hreport⟩

/-- The second phase. -/
theorem carryOut_aborted (hinput : (r.inputOn h).isEmpty = false) {e : OutputFolderError}
    (hfolder : r.folderOn store.settings.paths h = .error e) :
    h.Went (FileSystem.Grows []) [] r.asks ((r.carryOut store).run h).2 ∧
      ((r.carryOut store).run h).1.Stopped store e.message := by
  obtain ⟨h₁, session, hw, hsame, hrun⟩ := carryOut_begun store hinput
  obtain ⟨hw', hreport⟩ := settle_aborted store session
    (r.options store.settings.exporting (r.inputOn h) ⟨[]⟩) (hsame.trans hfolder)
  have hgrown : h.Went (FileSystem.Grows []) [] r.asks h₁ :=
    hw.mono fun heq => heq ▸ .refl [] h.files
  rw [hrun]
  exact ⟨hgrown.thenQuiet hw', hreport⟩

/-- The third phase. -/
theorem carryOut_attempted (hinput : (r.inputOn h).isEmpty = false) {folder : Path}
    (hfolder : r.folderOn store.settings.paths h = .ok folder) :
    let logFile := h.files.target (ExportLog.pathFor store.logsFolder (logName (r.inputOn h)))
    let runner := ToolRunner.ofSettings store.settings
    let i := buildInvocation (r.options store.settings.exporting (r.inputOn h) folder)
      store.settings.tool
    ∃ h₁, h.Went (FileSystem.Grows [logFile]) [] r.asks h₁ ∧
      let a := ((runner.attempt i).run h₁).1
      h.Went FileSystem.AnyChange (a.trace runner i) r.asks ((r.carryOut store).run h).2 ∧
        ((r.carryOut store).run h).1.Attempted store (r.inputOn h) runner i a := by
  intro logFile runner i
  obtain ⟨h₁, session, hw, hsame, hrun⟩ := carryOut_begun store hinput
  obtain ⟨h₂, hw', hrun'⟩ := settle_attempted store session
    (r.options store.settings.exporting (r.inputOn h) ⟨[]⟩) (hsame.trans hfolder)
  obtain ⟨h₃, hw₃, hreport, hend⟩ := finishExport_attempts store session
    (r.options store.settings.exporting (r.inputOn h) folder) h.files h₂
  have hbegun : h.Went (FileSystem.Grows []) [] r.asks h₂ :=
    (hw.mono fun heq => heq ▸ .refl [] h.files).thenQuiet hw'
  have hreached : (r.carryOut store).run h = (finishExport store session
      (r.options store.settings.exporting (r.inputOn h) folder)).run h₂ := by
    rw [hrun, hrun']
    rfl
  rw [← hreached] at hreport hend
  refine ⟨h₃, ?_, ?_, hreport⟩
  · refine (hbegun.mono fun hgrown => hgrown.mono (List.nil_subset _)).thenQuiet ?_
    exact hw₃.mono fun hgrown => hgrown hbegun.files.current hbegun.files.links
  · have hw := (hbegun.mono fun _ => trivial).trans hend
    rwa [List.append_nil] at hw

end

/-- A host where no file can be made, and every tool comes to this end; it succeeds, unless another
one is given. -/
def sealedHost (ending : ChildEnd := .ended (some 0)) : Host where
  files :=
    { entries := []
      refuses := fun
        | .create _ => some .permissionDenied
        | _ => none }
  environment := {}
  launcher := fun _ _ _ => pure (.ok { ending })
  clock := { timeOfDay := "12:00:00", date := "2025-06-01", timestamp := "2025-06-01T12:00:00Z" }

end ExportRequest

end ExportDesk
