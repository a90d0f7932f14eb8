import ExportDesk.Proofs.Files.Grown
import ExportDesk.Proofs.Host
import ExportDesk.Proofs.Tool.Attempt
import ExportDesk.Proofs.Tool.Tail

/-!
# What a log holds of a run

`ToolRunner.runLogged_transcript`: with a new log a run comes to the same as without one, and the
log then holds the run's transcript and nothing else. A log that has recorded some lines is
`recording`; each call adds its messages to it (`perform_message`, `perform_output`,
`perform_showTail`), the lines of the tool one after the other (`observeAll_recording`).
-/

namespace ExportDesk

open Text

/-! ## The transcript -/

/-- The last lines of the tool under a heading, if there is anything to see in them. -/
def tailShown (capacity : Nat) (header : String) (texts : List String) : List String :=
  let last := texts.rtake (max 1 capacity)
  if ∃ text ∈ last, isBlank text = false then ("[" ++ header ++ "/tail]") :: last else []

/-- What a log is asked to show of the lines it remembers. -/
theorem LogCall.drafts_showTail (capacity : Nat) (header : String) (texts : List String) :
    (LogCall.showTail header).drafts (Tail.ofLines capacity texts) =
      (tailShown capacity header texts).map (⟨.shownTail, ·⟩) := by
  have hlast : (Tail.ofLines capacity texts).lines = texts.rtake (max 1 capacity) := by
    rw [Tail.ofLines_lines, Nat.max_comm]
  by_cases hblank : ∃ text ∈ texts.rtake (max 1 capacity), isBlank text = false
  · have hseen : (Tail.ofLines capacity texts).isBlank = false := by
      simpa [Tail.isBlank, hlast] using hblank
    simp [drafts, hseen, tailShown, hblank, hlast]
  · have hunseen : (Tail.ofLines capacity texts).isBlank = true := by
      simpa [Tail.isBlank, hlast] using hblank
    simp [drafts, hunseen, tailShown, hblank]

/-- The end of a run as its log tells it. -/
def endingLines (c : LogConfig) (i : Invocation) (texts : List String) : Outcome → List String
  | .success _ => ["[SUCCESS] Wrote " ++ i.outputPath.display]
  | .failure code _ =>
    ("[ERROR] " ++ i.program ++ " exited with code " ++ toString code) ::
      tailShown c.errorTail i.program texts
  | .notRun cause => ["[ERROR] " ++ cause.message]

/-- The lines of the tool as a log shows them, if it does. -/
def shownLines (c : LogConfig) (seen : List OutputLine) : List String :=
  if c.compact then []
  else seen.map fun l => if l.stream = .stderr then "[stderr] " ++ l.text else l.text

/-- What a log tells before the run. -/
def openingLines (i : Invocation) : List String :=
  ["=== Export (" ++ i.format.label ++ ") ===", "$ " ++ i.preview]

/-- All that a log tells of a run with the lines seen. -/
def transcript (c : LogConfig) (i : Invocation) (seen : List OutputLine) (o : Outcome) :
    List String :=
  openingLines i ++ shownLines c seen ++ endingLines c i (seen.map (·.text)) o

/-- A compact log has no line of the tool before the end. -/
theorem transcript_compact {c : LogConfig} (hcompact : c.compact = true) (i : Invocation)
    (seen : List OutputLine) (o : Outcome) :
    transcript c i seen o = openingLines i ++ endingLines c i (seen.map (·.text)) o := by
  simp only [transcript, shownLines, hcompact, if_true, List.append_nil]

/-- A log that has something to write appends it to its file, and does nothing else. -/
theorem ExportLog.host_flush {log : ExportLog} (hkept : log.kept.isEmpty = false) (h : Host) :
    (log.flush.run h).2 =
      ((OnHost.disk (Disk.step (·.append log.path log.kept))).run h).2 := by
  unfold ExportLog.flush
  rw [if_neg (by simp [hkept]), StateT.run_bind, OnHost.run_disk]
  rcases (Disk.step (·.append log.path log.kept)).run.run h.files with ⟨e | _, fs⟩ <;> rfl

/-- Lines as a file holds them. -/
def fileBytes (lines : List String) : Bytes := lines.flatMap fun l => encode (l ++ "\n")

namespace ToolRunner

variable {σ : Type}

/-- The observer that remembers every line. -/
def collect (seen : List OutputLine) (line : OutputLine) : OnHost (List OutputLine) :=
  return seen ++ [line]

/-- The lines that an observer sees of a run. -/
def seenOn (r : ToolRunner) (i : Invocation) (h : Host) : List OutputLine :=
  ((r.run i collect []).run h).1.2

theorem observeAll_collect (seen ls : List OutputLine) :
    observeAll collect seen ls = return seen ++ ls := by
  induction ls generalizing seen with
  | nil => rw [List.append_nil]; rfl
  | cons l ls ih =>
    show collect seen l >>= (observeAll collect · ls) = _
    rw [collect, pure_bind, ih, List.append_assoc]
    rfl

/-- An observer sees the lines of the attempt. -/
theorem seenOn_eq (r : ToolRunner) (i : Invocation) (h : Host) :
    r.seenOn i h = ((r.attempt i).run h).1.lines := by
  rw [seenOn, run_run, observeAll_collect]
  rfl

/-! ## A log that records -/

/-- A log after it has recorded lines, and remembered those of the tool. -/
def recording (log : ExportLog) (watcher : σ) (lines texts : List String) : Logged σ where
  log := { log with kept := fileBytes lines, tail := Tail.ofLines log.config.errorTail texts }
  emitted := lines
  watcher

section

variable {log : ExportLog} (hopen : log.isOpen = true) (hstamps : log.config.timestamps = false)

include hopen hstamps

/-- A call that leaves the file alone adds its messages. -/
theorem perform_recording (watcher : σ) (lines texts texts' : List String)
    {call : LogCall} (hflush : call ≠ .flush) (hclose : call ≠ .close)
    (htail : call.tailAfter (Tail.ofLines log.config.errorTail texts) =
      Tail.ofLines log.config.errorTail texts') :
    (recording log watcher lines texts).perform call =
      return recording log watcher
        (lines ++ ((call.drafts (Tail.ofLines log.config.errorTail texts)).filter
          (log.config.takes ·.origin)).map (·.text)) texts' := by
  have hline (time : String) : log.config.line time = id := by
    funext message
    rw [LogConfig.line, hstamps]
    rfl
  have hperform : (recording log watcher lines texts).perform call = fun h =>
      let told := (recording log watcher lines texts).log.messages h.clock.timeOfDay call
      ({ recording log watcher lines texts with
          log := { (recording log watcher lines texts).log.keep told with
            tail := call.tailAfter (recording log watcher lines texts).log.tail }
          emitted := lines ++ told }, h) := by
    cases call with
    | flush => exact absurd rfl hflush
    | close => exact absurd rfl hclose
    | _ => rfl
  rw [hperform]
  funext h
  simp only [ExportLog.messages, recording, hline, htail, ExportLog.keep, hopen]
  simp [fileBytes]
  rfl

theorem perform_message {level : LogLevel} (hlevel : log.config.level ≤ level) (watcher : σ)
    (lines texts : List String) (mark : Mark) (text : String) :
    (recording log watcher lines texts).perform (.message level mark text) =
      return recording log watcher (lines ++ [mark.format text]) texts := by
  rw [perform_recording hopen hstamps watcher lines texts texts (by simp) (by simp) rfl]
  simp [LogCall.drafts, LogConfig.takes, hlevel]

theorem perform_output (watcher : σ) (lines texts : List String) (l : OutputLine) :
    (recording log watcher lines texts).perform (.output l) =
      return recording log watcher (lines ++ shownLines log.config [l]) (texts ++ [l.text]) := by
  have htail : (LogCall.output l).tailAfter (Tail.ofLines log.config.errorTail texts) =
      Tail.ofLines log.config.errorTail (texts ++ [l.text]) := (Tail.ofLines_concat _ _ _).symm
  rw [perform_recording hopen hstamps watcher lines texts _ (by simp) (by simp) htail]
  have hmarked : l.marked = if l.stream = .stderr then "[stderr] " ++ l.text else l.text := by
    unfold OutputLine.marked
    cases l.stream <;> rfl
  cases hcompact : log.config.compact with
  | true => simp [LogCall.drafts, LogConfig.takes, shownLines, hcompact]
  | false => simp [LogCall.drafts, LogConfig.takes, shownLines, hcompact, hmarked]

theorem perform_showTail (watcher : σ) (lines texts : List String) (header : String) :
    (recording log watcher lines texts).perform (.showTail header) =
      return recording log watcher (lines ++ tailShown log.config.errorTail header texts)
        texts := by
  rw [perform_recording hopen hstamps watcher lines texts texts (by simp) (by simp) rfl]
  have htaken (last : List String) :
      (last.map (⟨.shownTail, ·⟩ : String → Draft)).filter (log.config.takes ·.origin) =
        last.map (⟨.shownTail, ·⟩) := by
    refine List.filter_eq_self.2 fun d hd => ?_
    obtain ⟨text, -, rfl⟩ := List.mem_map.1 hd
    rfl
  have htexts (last : List String) :
      (last.map (⟨.shownTail, ·⟩ : String → Draft)).map (·.text) = last :=
    (List.map_map ..).trans (List.map_id last)
  rw [LogCall.drafts_showTail, htaken, htexts]

/-- **The lines of the tool**, one after the other: the other observer sees them as it does
without a log. -/
theorem observeAll_recording (watch : σ → OutputLine → OnHost σ) (watcher : σ)
    (lines texts : List String) (seen : List OutputLine) :
    observeAll (Logged.observe watch) (recording log watcher lines texts) seen = do
      let watcher ← observeAll watch watcher seen
      return recording log watcher (lines ++ shownLines log.config seen)
        (texts ++ seen.map (·.text)) := by
  have hcons (l : OutputLine) (ls : List OutputLine) : shownLines log.config [l] ++
      shownLines log.config ls = shownLines log.config (l :: ls) := by
    unfold shownLines
    cases log.config.compact <;> rfl
  induction seen generalizing watcher lines texts with
  | nil =>
    have hnil : shownLines log.config [] = [] := by
      unfold shownLines
      cases log.config.compact <;> rfl
    simp only [observeAll, pure_bind, hnil, List.map_nil, List.append_nil]
  | cons l ls ih =>
    have hobserve : Logged.observe watch (recording log watcher lines texts) l = do
        let watcher ← watch watcher l
        return recording log watcher (lines ++ shownLines log.config [l]) (texts ++ [l.text]) := by
      unfold Logged.observe
      rw [perform_output hopen hstamps, pure_bind]
      rfl
    simp only [observeAll, hobserve, bind_assoc, pure_bind, ih, List.append_assoc, hcons,
      List.map_cons, List.singleton_append]

/-- What a log is told about the end of a run. -/
theorem perform_closing (hlevel : log.config.level ≤ .info) (watcher : σ)
    (lines texts : List String) (i : Invocation) (o : Outcome) :
    (closingCalls i o).foldlM Logged.perform (recording log watcher lines texts) =
      return recording log watcher (lines ++ endingLines log.config i texts o) texts := by
  have herror : log.config.level ≤ .error := Nat.le_trans hlevel (by decide)
  cases o with
  | success stdout =>
    simp only [closingCalls, List.foldlM_cons, List.foldlM_nil, LogCall.success,
      perform_message hopen hstamps hlevel, pure_bind]
    rfl
  | failure code diagnostic =>
    simp only [closingCalls, List.foldlM_cons, List.foldlM_nil, LogCall.error,
      perform_message hopen hstamps herror, perform_showTail hopen hstamps, pure_bind,
      List.append_assoc]
    simp [endingLines, Mark.format, String.append_assoc]
  | notRun cause =>
    simp only [closingCalls, List.foldlM_cons, List.foldlM_nil, LogCall.error,
      perform_message hopen hstamps herror, pure_bind]
    rfl

omit hstamps in
/-- What is recorded goes to the file at the end. -/
theorem perform_flush (watcher : σ) {lines : List String} (hlines : lines ≠ [])
    (texts : List String) (h : Host) :
    let flushed := ((recording log watcher lines texts).perform .flush).run h
    flushed.1.emitted = lines ∧ flushed.1.watcher = watcher ∧
      flushed.2 = ((OnHost.disk (Disk.step (·.append log.path (fileBytes lines)))).run h).2 := by
  intro flushed
  let told := (recording log watcher lines texts).log
  have hkeep : { told.keep [] with tail := told.tail } = told := by
    simp [told, recording, ExportLog.keep, hopen]
  have hflushed : flushed = (⟨(told.flush.run h).1, lines ++ [], watcher⟩,
      (told.flush.run h).2) := by
    conv_rhs => rw [← hkeep]
    rfl
  have hkept : told.kept.isEmpty = false := by
    cases lines with
    | nil => exact absurd rfl hlines
    | cons l ls => simp [told, recording, fileBytes, encode]
  rw [hflushed]
  exact ⟨List.append_nil _, rfl, ExportLog.host_flush hkept h⟩

/-- A run with a log, taken apart as `run_eq` does it without one. -/
theorem runLogged_eq (hlevel : log.config.level ≤ .info) (r : ToolRunner) (i : Invocation)
    (hnew : log = { log with tail := Tail.ofCapacity log.config.errorTail, kept := [] })
    (watch : σ → OutputLine → OnHost σ) (s : σ) :
    r.runLogged i log watch s = do
      let a ← r.attempt i
      let watcher ← observeAll watch s a.lines
      a.noteEnd i
      let l ← (recording log watcher (transcript log.config i a.lines (a.outcome r i))
        (a.lines.map (·.text))).perform .flush
      return (a.outcome r i, l) := by
  have hstart : ({ log, emitted := [], watcher := s } : Logged σ) = recording log s [] [] := by
    unfold recording
    conv_lhs => rw [hnew]
    rfl
  have hphase : Mark.phase.format ("Export (" ++ i.format.label ++ ")") =
      "=== Export (" ++ i.format.label ++ ") ===" := by
    show "=== " ++ ("Export (" ++ i.format.label ++ ")") ++ " ===" = _
    rw [show "=== Export (" = "=== " ++ "Export (" from rfl,
      show ") ===" = ")" ++ " ===" from rfl]
    simp only [String.append_assoc]
  unfold runLogged
  simp only [hstart, LogCall.phase, LogCall.command, perform_message hopen hstamps hlevel,
    run_eq, observeAll_recording hopen hstamps, List.foldlM_append,
    perform_closing hopen hstamps hlevel, bind_assoc, pure_bind, List.foldlM_cons,
    List.foldlM_nil, List.nil_append, List.singleton_append, hphase]
  rfl

end

end ToolRunner

/-- A log that was just made: its file is there, and empty. -/
theorem ExportLog.create_ok {name : String} {folder : Path} {config : LogConfig} {h h' : Host}
    {log : ExportLog} (hlog : (ExportLog.create name folder config).run h = (.ok log, h')) :
    log.config = config ∧ log.tail = Tail.ofCapacity config.errorTail ∧ log.isOpen = true ∧
      log.kept = [] ∧ h'.files.fileAt? log.path = some [] := by
  unfold ExportLog.create at hlog
  dsimp only at hlog
  generalize folder.join (.ofText (LogFile.fileName name)) = path at hlog
  simp only [StateT.run_bind, OnHost.run_disk, Disk.run_bind] at hlog
  rcases hmade : (Disk.makeDirectoryAll folder).run.run h.files with ⟨_ | _, fs⟩
  · rw [hmade] at hlog
    cases hlog
  · simp only [hmade, Disk.run_step] at hlog
    cases hcreate : fs.create path with
    | error e =>
      rw [hcreate] at hlog
      cases hlog
    | ok fs' =>
      rw [hcreate] at hlog
      obtain ⟨hmade, rfl⟩ := Prod.mk.inj hlog
      obtain rfl := Except.ok.inj hmade
      refine ⟨rfl, rfl, rfl, rfl, ?_⟩
      exact FileSystem.fileAt?_create hcreate

namespace ToolRunner

variable {σ : Type}

/-- **A run with a new log.** The outcome is that of the run without a log, the other observer sees
the same lines, and the log emits the transcript of the run and nothing else, whichever end the run
comes to: also one that cannot be learned, after any number of lines. The host is as after
the run without a log, but that the transcript has been appended to the log's file; so if nobody
else writes to the file, which was empty when the log was made, it then holds the transcript.
A compact log of a run that did not fail has three lines, and none of the tool. -/
theorem runLogged_transcript (r : ToolRunner) (i : Invocation)
    (watch : σ → OutputLine → OnHost σ) (s : σ) {name : String} {folder : Path}
    {config : LogConfig} {h₀ h₁ : Host} {log : ExportLog}
    (hlog : (ExportLog.create name folder config).run h₀ = (.ok log, h₁))
    (hlevel : config.level = .info) (hstamps : config.timestamps = false) (h : Host) :
    let plain := (r.run i watch s).run h
    let logged := (r.runLogged i log watch s).run h
    let told := transcript config i (r.seenOn i h) plain.1.1
    logged.1.1 = plain.1.1 ∧ logged.1.2.watcher = plain.1.2 ∧ logged.1.2.emitted = told ∧
      logged.2 = ((OnHost.disk (Disk.step (·.append log.path (fileBytes told)))).run plain.2).2 ∧
      h₁.files.fileAt? log.path = some [] ∧
      (∀ c, plain.2.files.fileAt? log.path = some c →
        plain.2.files.refuses (.fill log.path) = none →
        logged.2.files.fileAt? log.path = some (c ++ fileBytes told)) ∧
      (config.compact = true →
        (∀ stdout, plain.1.1 = .success stdout →
          told = openingLines i ++ ["[SUCCESS] Wrote " ++ i.outputPath.display]) ∧
        ∀ cause, plain.1.1 = .notRun cause →
          told = openingLines i ++ ["[ERROR] " ++ cause.message]) := by
  obtain ⟨rfl, htail, hopen, hkept, hempty⟩ := ExportLog.create_ok hlog
  have hnew : log = { log with tail := Tail.ofCapacity log.config.errorTail, kept := [] } := by
    rw [← htail, ← hkept]
  have hlevel' : log.config.level ≤ .info := by
    rw [hlevel]
    decide
  -- both runs make the same attempt, and both observers see its lines
  let a := ((r.attempt i).run h).1
  let watched := (observeAll watch s a.lines).run ((r.attempt i).run h).2
  let ended := ((a.noteEnd i).run watched.2).2
  have hseen : r.seenOn i h = a.lines := seenOn_eq r i h
  have hplain : (r.run i watch s).run h = ((a.outcome r i, watched.1), ended) :=
    run_run r i watch s h
  let told := transcript log.config i a.lines (a.outcome r i)
  let flushed := ((recording log watched.1 told (a.lines.map (·.text))).perform .flush).run ended
  have hlogged : (r.runLogged i log watch s).run h =
      ((a.outcome r i, flushed.1), flushed.2) := by
    rw [runLogged_eq hopen hstamps hlevel' r i hnew]
    rfl
  obtain ⟨hemitted, hwatcher, hend⟩ := perform_flush hopen watched.1
    (show told ≠ [] by simp [told, transcript, openingLines]) (a.lines.map (·.text)) ended
  rw [hplain, hlogged, hseen]
  refine ⟨rfl, hwatcher, hemitted, hend, hempty, fun c hc hpermit => ?_,
    fun hcompact => ⟨?_, ?_⟩⟩
  · obtain ⟨fs, happend, hcontent⟩ := FileSystem.fileAt?_append hc hpermit (fileBytes told)
    show flushed.2.files.fileAt? log.path = _
    rw [hend, OnHost.run_disk, Disk.run_step, happend]
    exact hcontent
  · intro stdout ho
    have ho' : a.outcome r i = .success stdout := ho
    show transcript log.config i a.lines (a.outcome r i) = _
    rw [transcript_compact hcompact, ho']
    rfl
  · intro cause ho
    have ho' : a.outcome r i = .notRun cause := ho
    show transcript log.config i a.lines (a.outcome r i) = _
    rw [transcript_compact hcompact, ho']
    rfl

/-- A host where the tool writes to both of its streams and comes to this end; it fails, unless
another one is given. -/
def troubledHost (ending : ChildEnd := .ended (some 3)) : Host where
  files := { entries := [] }
  environment := {}
  launcher := fun _ _ _ => pure (.ok {
    writes := [(.stdout, encode "one\ntwo\n"), (.stderr, encode "no room\n"),
      (.stdout, encode "\n")]
    ending })
  clock := { timeOfDay := "12:00:00", date := "2025-06-01", timestamp := "2025-06-01T12:00:00Z" }

/-- An export with the tool of the settings. -/
def talkExport : Invocation :=
  buildInvocation { input := .ofText "talk.mp4", outputDirectory := .ofText "out" } {}

/-- What its log tells, up to the end of the tool. -/
def troubledTranscript (ending : List String) : List String :=
  ["=== Export (MP4 Video) ===", "$ " ++ talkExport.preview, "one", "two", "[stderr] no room",
    ""] ++ ending

/-- If the tool fails its last two lines are told once more, although all four are there; if its end
cannot be learned the cause is told, after the same lines. -/
theorem runLogged_transcript_troubled :
    let config : LogConfig := { compact := false, errorTail := 2, timestamps := false }
    let Tells (ending : ChildEnd) (last : List String) : Prop :=
      let made := (ExportLog.create "talk" (.ofText "logs") config).run (troubledHost ending)
      ∃ log h₁, made = (.ok log, h₁) ∧ config.level = .info ∧ config.timestamps = false ∧
        let logged := (runLogged { tool := {} } talkExport log collect []).run h₁
        logged.1.2.emitted = troubledTranscript last ∧
          logged.2.files.fileAt? log.path = some (fileBytes (troubledTranscript last))
    Tells (.ended (some 3))
        ["[ERROR] auto-editor exited with code 3", "[auto-editor/tail]", "no room", ""] ∧
      Tells (.lost .noChildProcess)
        ["[ERROR] Lost track of auto-editor while waiting for it to exit: " ++
          "No child processes (os error 10)"] := by
  intro config Tells
  -- the host stays a variable here, so that nothing unfolds the run on it
  have htells {h₀ h₁ : Host} {log : ExportLog} {told : List String}
      (hlog : (ExportLog.create "talk" (.ofText "logs") config).run h₀ = (.ok log, h₁))
      (htold : transcript config talkExport (seenOn { tool := {} } talkExport h₁)
        ((run { tool := {} } talkExport collect []).run h₁).1.1 = told)
      (hempty : ((run { tool := {} } talkExport collect []).run h₁).2.files.fileAt? log.path =
        some [])
      (hpermit : ((run { tool := {} } talkExport collect []).run h₁).2.files.refuses
        (.fill log.path) = none) :
      let logged := (runLogged { tool := {} } talkExport log collect []).run h₁
      logged.1.2.emitted = told ∧
        logged.2.files.fileAt? log.path = some (fileBytes told) := by
    obtain ⟨-, -, hemitted, -, -, hfile, -⟩ :=
      runLogged_transcript { tool := {} } talkExport collect [] hlog rfl rfl h₁
    have hwritten := hfile [] hempty hpermit
    rw [List.nil_append, htold] at hwritten
    rw [htold] at hemitted
    exact ⟨hemitted, hwritten⟩
  let log : ExportLog :=
    { name := "talk", path := .ofText "logs/talk.log", config, tail := Tail.ofCapacity 2 }
  let made (ending : ChildEnd) :=
    (ExportLog.create "talk" (.ofText "logs") config).run (troubledHost ending)
  have hmade {ending : ChildEnd} (h : (made ending).1 = .ok log) :
      made ending = (.ok log, (made ending).2) := Prod.ext h rfl
  have hfailed := @hmade (.ended (some 3)) (by decide +kernel)
  have hlost := @hmade (.lost .noChildProcess) (by decide +kernel)
  refine ⟨⟨log, _, hfailed, rfl, rfl, htells hfailed ?_ ?_ ?_⟩,
    ⟨log, _, hlost, rfl, rfl, htells hlost ?_ ?_ ?_⟩⟩
  · decide +kernel
  · decide +kernel
  · decide +kernel
  · decide +kernel
  · decide +kernel
  · decide +kernel

end ToolRunner

end ExportDesk
