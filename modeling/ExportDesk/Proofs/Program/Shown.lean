import ExportDesk.Program.Preview
import ExportDesk.Proofs.Program.Phases

/-!
# A preview shows what an export does

`ExportRequest.preview_shows`: whenever an export comes to a command, a preview by the same choices
shows that command, although the one makes the output folder and the other only names it. Both miss
the input in the same cases and ask the same questions, and a preview leaves the files alone.
-/

namespace ExportDesk

open Text

namespace ExportRequest

variable (r : ExportRequest) (s : Settings) (h : Host)

/-- The folder that a request names on a host. -/
def namedFolderOn : Path := previewFolder h.environment s.paths (r.outputOn h)

/-- The command that a request comes to in a folder. -/
def commandIn (folder : Path) : Invocation :=
  buildInvocation (r.options s.exporting (r.inputOn h) folder) s.tool

/-- What a preview does once its choices have been made. -/
def previewIn (input folder : Path) : OnHost PreviewReport := do
  let o := r.options s.exporting input folder
  match o.refusal? with
  | some refusal =>
    printAlert ⟨.error, refusal.message⟩
    return .error refusal
  | none =>
    let i ← announceInvocation o s.tool
    printInvocation i
    return .ok i

theorem previewIn_quiet (input folder : Path) :
    OnHost.Quiet Eq (r.previewIn s input folder) (· =
      if input.isEmpty then .error .noInputFile
      else .ok (buildInvocation (r.options s.exporting input folder) s.tool)) := by
  unfold previewIn ExportOptions.refusal?
  have hsame : (r.options s.exporting input folder).input.isEmpty = input.isEmpty := rfl
  dsimp only
  rw [hsame]
  cases input.isEmpty with
  | true => exact .bind (.printAlert _) fun _ _ => .pure rfl
  | false =>
    have hannounce : OnHost.Quiet Eq
        (announceInvocation (r.options s.exporting input folder) s.tool)
        (· = buildInvocation (r.options s.exporting input folder) s.tool) :=
      .bind (.note _ _ (by decide) (by decide)) fun _ _ => .pure rfl
    have hprint (i : Invocation) : OnHost.Quiet Eq (printInvocation i) Anything :=
      .bind (.printLine _ _) fun _ _ => .bind (.printLine _ _) fun _ _ =>
        .bind (.print _ _) fun _ _ => .printLine _ _
    refine .bind hannounce fun i hi => .bind (hprint i) fun _ _ => .pure ?_
    rw [hi]
    rfl

/-- What a preview does with the choices: the folder is named, and not made. -/
def previewWith (input : Path) (picked : Option Path) : OnHost PreviewReport := do
  let folder := previewFolder (← get).environment s.paths picked
  r.previewIn s input folder

theorem preview_eq :
    r.preview s = (do
      let input ← r.chooseInput
      let picked ← r.chooseOutput
      r.previewWith s input picked : OnHost PreviewReport) := rfl

theorem run_previewWith (input : Path) (picked : Option Path) :
    (r.previewWith s input picked).run h =
      (r.previewIn s input (previewFolder h.environment s.paths picked)).run h := by
  unfold previewWith
  rw [StateT.run_bind, StateT.run_get, pure_bind]

/-- **A preview.** Nothing is done but to ask and to tell. -/
theorem preview_went :
    h.Went Eq [] r.asks ((r.preview s).run h).2 ∧
      ((r.preview s).run h).1 =
        if (r.inputOn h).isEmpty then .error .noInputFile
        else .ok (r.commandIn s h (r.namedFolderOn s h)) := by
  obtain ⟨h₁, hw, hrun⟩ := r.choose_went h (r.previewWith s)
  have hpreview : (r.preview s).run h =
      (r.previewIn s (r.inputOn h) (r.namedFolderOn s h)).run h₁ := by
    rw [preview_eq, hrun, run_previewWith, namedFolderOn, hw.environment]
  obtain ⟨hw', hshown⟩ := r.previewIn_quiet s (r.inputOn h) (r.namedFolderOn s h) h₁
  rw [hpreview]
  exact ⟨hw.thenQuiet hw', hshown⟩

/-- A preview goes by the environment and the choices alone. -/
theorem preview_answer {h h' : Host} (henv : h'.environment = h.environment)
    (hchoices : h'.choices = h.choices) :
    ((r.preview s).run h').1 =
      if (r.inputOn h).isEmpty then .error .noInputFile
      else .ok (r.commandIn s h (r.namedFolderOn s h)) := by
  have hinput : r.inputOn h' = r.inputOn h := by
    unfold inputOn
    rw [hchoices]
  have hnamed : r.namedFolderOn s h' = r.namedFolderOn s h := by
    unfold namedFolderOn outputOn
    rw [hchoices, henv]
  have hcommand : r.commandIn s h' = r.commandIn s h := by
    unfold commandIn
    rw [hinput]
  rw [(r.preview_went s h').2, hinput, hnamed, hcommand]

theorem preview_ok {i : Invocation} (hi : ((r.preview s).run h).1 = .ok i) :
    i = r.commandIn s h (r.namedFolderOn s h) := by
  rw [(r.preview_went s h).2] at hi
  split at hi
  · cases hi
  · exact (Except.ok.inj hi).symm

/-! ## What is given and what is asked for -/

/-- An input that is given is used. -/
theorem preview_givenInput {input : Path} (hr : r.input = some input) {i : Invocation}
    (hi : ((r.preview s).run h).1 = .ok i) :
    i = buildInvocation (r.options s.exporting input i.outputDirectory) s.tool := by
  have hgiven : r.inputOn h = input := by
    unfold inputOn
    rw [hr]
  obtain rfl := r.preview_ok s h hi
  rw [← hgiven]
  rfl

/-- A folder that is given is used. -/
theorem preview_givenOutput {folder : Path} (hr : r.output = some folder) {i : Invocation}
    (hi : ((r.preview s).run h).1 = .ok i) : i.outputDirectory = folder := by
  have hgiven : r.outputOn h = some folder := by
    unfold outputOn
    rw [hr]
  rw [r.preview_ok s h hi]
  show r.namedFolderOn s h = folder
  rw [namedFolderOn, hgiven]
  rfl

/-- A folder chooser that is cancelled counts for nothing. -/
theorem outputOn_cancelled (hcancelled : h.choices .outputFolder = none) :
    ({ r with pickOutput := false } : ExportRequest).outputOn h = r.outputOn h := by
  unfold outputOn
  cases r.output with
  | some folder => rfl
  | none =>
    cases r.pickOutput with
    | false => rfl
    | true => exact hcancelled.symm

theorem preview_cancelled (hcancelled : h.choices .outputFolder = none) :
    (({ r with pickOutput := false }.preview s).run h).1 = ((r.preview s).run h).1 := by
  rw [(preview_went _ s h).2, namedFolderOn, r.outputOn_cancelled h hcancelled]
  exact (r.preview_went s h).2.symm

/-! ## The command of an export -/

/-- The folder that is made is the one that is named. -/
theorem folderOn_eq {folder : Path} (hfolder : r.folderOn s.paths h = .ok folder) :
    folder = r.namedFolderOn s h := by
  unfold folderOn at hfolder
  unfold namedFolderOn previewFolder
  cases houtput : r.outputOn h with
  | some picked =>
    rw [houtput] at hfolder
    exact (Except.ok.inj hfolder).symm
  | none =>
    rw [houtput] at hfolder
    have hprepared : ((OutputFolder.prepare s.paths.outputFolder).run h).1 = .ok folder := hfolder
    rw [OutputFolder.prepare_run] at hprepared
    split at hprepared
    · exact (Except.ok.inj hprepared).symm
    · cases hmade : ((Disk.makeDirectoryAll (h.environment.outputFolderFor
          s.paths.outputFolder)).run.run h.files).1 with
      | error e =>
        rw [hmade] at hprepared
        cases hprepared
      | ok _ =>
        rw [hmade] at hprepared
        exact (Except.ok.inj hprepared).symm

/-- The command that an export comes to, if it does. -/
theorem carryOut_invocation (store : SettingsStore) :
    ((r.carryOut store).run h).1.invocation =
      if (r.inputOn h).isEmpty then none
      else (r.folderOn store.settings.paths h).toOption.map (r.commandIn store.settings h) := by
  cases hinput : (r.inputOn h).isEmpty with
  | true =>
    exact (carryOut_refused store hinput).2.invocation
  | false =>
    cases hfolder : r.folderOn store.settings.paths h with
    | error e =>
      exact (carryOut_aborted store hinput hfolder).2.invocation
    | ok folder =>
      obtain ⟨h₁, -, -, hreport⟩ := carryOut_attempted store hinput hfolder
      exact hreport.invocation

/-- The command is in the folder that is named. -/
theorem carryOut_command {store : SettingsStore} {i : Invocation}
    (hi : ((r.carryOut store).run h).1.invocation = some i) :
    (r.inputOn h).isEmpty = false ∧
      i = r.commandIn store.settings h (r.namedFolderOn store.settings h) := by
  rw [carryOut_invocation] at hi
  split at hi
  · cases hi
  next hinput =>
    refine ⟨Bool.eq_false_iff.2 hinput, ?_⟩
    cases hfolder : r.folderOn store.settings.paths h with
    | error e =>
      rw [hfolder] at hi
      cases hi
    | ok folder =>
      rw [hfolder] at hi
      obtain rfl := Option.some.inj hi
      rw [r.folderOn_eq store.settings h hfolder]

theorem carryOut_cancelled (store : SettingsStore)
    (hcancelled : h.choices .outputFolder = none) :
    (({ r with pickOutput := false }.carryOut store).run h).1.invocation =
      ((r.carryOut store).run h).1.invocation := by
  rw [carryOut_invocation, r.carryOut_invocation h store]
  unfold folderOn
  rw [r.outputOn_cancelled h hcancelled]
  rfl

/-- The questions that an export puts. -/
theorem carryOut_questions (store : SettingsStore) :
    ((r.carryOut store).run h).2.questions = h.questions ++ r.asks := by
  cases hinput : (r.inputOn h).isEmpty with
  | true => exact (carryOut_refused store hinput).1.asked
  | false =>
    cases hfolder : r.folderOn store.settings.paths h with
    | error e => exact (carryOut_aborted store hinput hfolder).1.asked
    | ok folder =>
      obtain ⟨h₁, -, hw, -⟩ := carryOut_attempted store hinput hfolder
      exact hw.asked

end ExportRequest

/-- The message about a folder is not the one about a missing input. -/
theorem OutputFolderError.message_ne (e : OutputFolderError) :
    e.message ≠ "No input file selected" := by
  unfold OutputFolderError.message
  intro h
  -- only the first of the two has a colon
  have hcolon := congrArg (':' ∈ ·.toList) h
  simp at hcolon

namespace ExportRequest

/-- The report of an export that was missing its input: there is no command, and the alert says
why. -/
def LacksInput (report : ExportReport) : Prop :=
  report.invocation = none ∧ report.session.alert = some ⟨.error, "No input file selected"⟩

theorem lacksInput_carryOut (r : ExportRequest) (h : Host) (store : SettingsStore) :
    LacksInput ((r.carryOut store).run h).1 ↔ (r.inputOn h).isEmpty = true := by
  constructor
  · rintro ⟨hnone, halert⟩
    by_contra hinput
    rw [Bool.not_eq_true] at hinput
    cases hfolder : r.folderOn store.settings.paths h with
    | error e =>
      have habort := (carryOut_aborted store hinput hfolder).2.alert
      rw [halert] at habort
      exact e.message_ne (congrArg Alert.message (Option.some.inj habort)).symm
    | ok folder =>
      obtain ⟨h₁, -, -, hreport⟩ := carryOut_attempted store hinput hfolder
      have hsome := hreport.invocation
      rw [hnone] at hsome
      cases hsome
  · intro hinput
    have hstopped := (carryOut_refused store hinput).2
    exact ⟨hstopped.invocation, hstopped.alert⟩

/-- **A preview shows what an export does.** On two hosts with the same environment, where the user
makes the same choices: the command that an export comes to is the one that a preview shows, and
both miss the input in the same cases; a preview refuses for no other reason. Both put the same
questions; an input and a folder that are given are used, and not asked for. A folder chooser that
is cancelled changes no command. A preview leaves the files as they are. -/
theorem preview_shows (r : ExportRequest) (store : SettingsStore) {h h' : Host}
    (henv : h'.environment = h.environment) (hchoices : h'.choices = h.choices) :
    let exported := (r.carryOut store).run h
    let shown := (r.preview store.settings).run h'
    (∀ i, exported.1.invocation = some i → shown.1 = .ok i) ∧
      (shown.1 = .error .noInputFile ↔ LacksInput exported.1) ∧
      shown.1 ≠ .error .exportInFlight ∧
      exported.2.questions = h.questions ++ r.asks ∧
      shown.2.questions = h'.questions ++ r.asks ∧
      (∀ input, r.input = some input → .inputFile ∉ r.asks ∧ ∀ i, shown.1 = .ok i →
        i = buildInvocation (r.options store.settings.exporting input i.outputDirectory)
          store.settings.tool) ∧
      (∀ folder, r.output = some folder → .outputFolder ∉ r.asks ∧ ∀ i, shown.1 = .ok i →
        i.outputDirectory = folder) ∧
      (h.choices .outputFolder = none →
        (({ r with pickOutput := false }.carryOut store).run h).1.invocation =
            exported.1.invocation ∧
          (({ r with pickOutput := false }.preview store.settings).run h').1 = shown.1) ∧
      shown.2.files = h'.files := by
  intro exported shown
  have hwent := (r.preview_went store.settings h').1
  have hshown : shown.1 = _ := r.preview_answer store.settings henv hchoices
  refine ⟨fun i hi => ?_, ?_, ?_, r.carryOut_questions h store, hwent.asked,
    fun input hr => ⟨by simp [asks, hr], fun i => r.preview_givenInput store.settings h' hr⟩,
    fun folder hr => ⟨by simp [asks, hr], fun i => r.preview_givenOutput store.settings h' hr⟩,
    fun hcancelled => ⟨r.carryOut_cancelled h store hcancelled, ?_⟩, hwent.files.symm⟩
  · obtain ⟨hinput, rfl⟩ := r.carryOut_command h hi
    rw [hshown, hinput]
    rfl
  · rw [hshown, lacksInput_carryOut]
    cases (r.inputOn h).isEmpty <;> simp
  · rw [hshown]
    cases (r.inputOn h).isEmpty <;> simp
  · exact r.preview_cancelled store.settings h' (hchoices ▸ hcancelled)

/-- An export with a chooser for its folder, which is cancelled where nobody answers. -/
def askingExport : ExportRequest := { input := some (.ofText "clip.mp4"), pickOutput := true }

/-- The host of `sealedHost` at another time. -/
def openHost : Host :=
  { sealedHost with files := { entries := [([encode "clip.mp4"], .file [] false)] } }

theorem preview_shows_openHost :
    let paths : PathSettings := { outputFolder := "out", logsFolder := "logs" }
    let store : SettingsStore := { path := .ofText "s.toml", settings := { paths } }
    openHost.environment = sealedHost.environment ∧ openHost.choices = sealedHost.choices ∧
      sealedHost.choices .outputFolder = none ∧
      ∃ i, ((askingExport.carryOut store).run sealedHost).1.invocation = some i ∧
        i.outputDirectory = .ofText "out" ∧
        ((askingExport.preview store.settings).run openHost).1 = .ok i := by
  intro paths store
  have hfolder : askingExport.folderOn paths sealedHost = .ok (.ofText "out") := by
    decide +kernel
  have hi := askingExport.carryOut_invocation sealedHost store
  rw [hfolder] at hi
  have henv : openHost.environment = sealedHost.environment := rfl
  have hchoices : openHost.choices = sealedHost.choices := rfl
  exact ⟨henv, hchoices, rfl, _, hi, rfl, (preview_shows askingExport store henv hchoices).1 _ hi⟩

end ExportRequest

end ExportDesk
