import ExportDesk.Proofs.Log.Transcript
import Mathlib.Data.List.DropRight

/-!
# A log over all its calls

`ExportLog.recorded_sinks`: what a log has given to its listener, to its file and to its tail is
settled by the history of its calls. The listener goes on after the log has been closed, the file
does not (`beforeClose`), and the tail begins again whenever it is cleared (`outputSinceClear`).
Between two calls anything may happen on the host that leaves the log's file alone; `Recorded` is
the relation that allows for it. One call keeps the accounts in order (`Accounts.perform`), and so
do all of them.
-/

namespace ExportDesk

open Text

/-! ## The history of a log -/

/-- A call and the time of day when it was made. -/
structure LogEvent where
  timeOfDay : String
  call : LogCall
deriving DecidableEq, Repr

/-- The line of the tool that a call hands over. -/
def LogCall.outputText? : LogCall → Option String
  | .output line => some line.text
  | _ => none

/-- The messages of a call, after these lines of the tool. The level does not matter for a line of
the tool, and neither the level nor compactness for a tail that is shown. -/
def LogCall.emits (c : LogConfig) (texts : List String) : LogCall → List String
  | .message level mark text => if c.level ≤ level then [mark.format text] else []
  | .alert ⟨.inProgress, text⟩ => if c.level ≤ .info then [text] else []
  | .alert ⟨.success, text⟩ => if c.level ≤ .info then [Mark.success.format text] else []
  | .alert ⟨.error, text⟩ => if c.level ≤ .error then [Mark.error.format text] else []
  | .output line => if !c.compact then [line.marked] else []
  | .showTail header => tailShown c.errorTail header texts
  | .optionsPretty tokens =>
    if c.level ≤ .info then
      ["--- auto-editor options (pretty) ---",
        trimEnd (Command.pretty tokens),
        "------------------------------------"]
    else []
  | .optionsJson tokens =>
    if c.level ≤ .info then
      ["--- auto-editor options (json) ---",
        Json.prettyTexts tokens,
        "----------------------------------"]
    else []
  | .clearTail | .flush | .close => []

/-- The lines of the tool since the tail was cleared the last time. -/
def outputSinceClear (history : List LogEvent) : List String :=
  (history.rtakeWhile fun e => e.call ≠ .clearTail).filterMap fun e => e.call.outputText?

/-- The history up to the first time that the log was closed. -/
def beforeClose (history : List LogEvent) : List LogEvent :=
  history.takeWhile fun e => e.call ≠ .close

/-- The messages of later calls, as lines. -/
def emittedAfter (c : LogConfig) (past : List LogEvent) : List LogEvent → List String
  | [] => []
  | e :: later =>
    (e.call.emits c (outputSinceClear past)).map (c.line e.timeOfDay) ++
      emittedAfter c (past ++ [e]) later

/-- The messages of all calls, as lines. -/
def emitted (c : LogConfig) (history : List LogEvent) : List String := emittedAfter c [] history

section

variable {c : LogConfig} {past later history : List LogEvent} {e : LogEvent}

theorem emittedAfter_concat :
    emittedAfter c past (later ++ [e]) = emittedAfter c past later ++
      (e.call.emits c (outputSinceClear (past ++ later))).map (c.line e.timeOfDay) := by
  induction later generalizing past with
  | nil => simp [emittedAfter]
  | cons first later ih => simp [emittedAfter, ih]

theorem emitted_concat :
    emitted c (history ++ [e]) = emitted c history ++
      (e.call.emits c (outputSinceClear history)).map (c.line e.timeOfDay) :=
  emittedAfter_concat

theorem outputSinceClear_concat :
    outputSinceClear (history ++ [e]) =
      if e.call = .clearTail then []
      else outputSinceClear history ++ e.call.outputText?.toList := by
  unfold outputSinceClear
  rw [List.rtakeWhile_concat]
  by_cases he : e.call = .clearTail
  · simp [he]
  · rw [if_pos (by simpa using he), if_neg he, List.filterMap_append]
    cases htext : e.call.outputText? <;> simp [htext]

/-- Nothing has been closed before. -/
theorem beforeClose_eq_self (hopen : ∀ e ∈ history, e.call ≠ .close) :
    beforeClose history = history :=
  List.takeWhile_eq_self_iff.2 fun e he => by simpa using hopen e he

theorem beforeClose_concat_open (hopen : ∀ e ∈ history, e.call ≠ .close) (he : e.call ≠ .close) :
    beforeClose (history ++ [e]) = history ++ [e] :=
  beforeClose_eq_self fun e' he' => by
    obtain he' | he' := List.mem_append.1 he'
    · exact hopen e' he'
    · exact List.mem_singleton.1 he' ▸ he

/-- The call that closes a log is not one of those before, and neither is any later one. -/
theorem beforeClose_concat (h : (∃ e ∈ history, e.call = .close) ∨ e.call = .close) :
    beforeClose (history ++ [e]) = beforeClose history := by
  unfold beforeClose
  by_cases hopen : ∀ e ∈ history, decide (e.call ≠ .close) = true
  · have he : e.call = .close := by
      obtain ⟨e', he', hclose⟩ | hclose := h
      · exact absurd hclose (of_decide_eq_true (hopen e' he'))
      · exact hclose
    rw [List.takeWhile_append_of_pos hopen, List.takeWhile_eq_self_iff.2 hopen]
    simp [he]
  · rw [List.takeWhile_append, if_neg]
    exact fun hall => hopen (List.takeWhile_eq_self_iff.1
      ((List.takeWhile_prefix _).eq_of_length hall))

end

/-! ## One call -/

namespace ExportLog

variable {log : ExportLog} {h : Host}

/-- Messages of one origin are taken all together. -/
theorem messages_of_drafts {call : LogCall} {origin : Origin} {texts : List String}
    (hdrafts : call.drafts log.tail = texts.map (⟨origin, ·⟩)) (timeOfDay : String) :
    log.messages timeOfDay call =
      if log.config.takes origin then texts.map (log.config.line timeOfDay) else [] := by
  unfold messages
  rw [hdrafts]
  split
  next htakes =>
    rw [List.filter_eq_self.2 fun d hd => ?_, List.map_map]
    · rfl
    · obtain ⟨text, -, rfl⟩ := List.mem_map.1 hd
      exact htakes
  next htakes =>
    rw [List.filter_eq_nil_iff.2 fun d hd => ?_]
    · rfl
    · obtain ⟨text, -, rfl⟩ := List.mem_map.1 hd
      exact htakes

/-- The messages of a call, by what the log remembers. -/
theorem messages_eq {texts : List String}
    (htail : log.tail = Tail.ofLines log.config.errorTail texts) (timeOfDay : String)
    (call : LogCall) :
    log.messages timeOfDay call =
      (call.emits log.config texts).map (log.config.line timeOfDay) := by
  have hif (origin : Origin) (ts : List String) (b : Prop) [Decidable b]
      (hdrafts : call.drafts log.tail = ts.map (⟨origin, ·⟩))
      (hb : log.config.takes origin = true ↔ b) :
      log.messages timeOfDay call = (if b then ts else []).map (log.config.line timeOfDay) := by
    rw [messages_of_drafts hdrafts]
    by_cases hb' : b
    · rw [if_pos (hb.2 hb'), if_pos hb']
    · rw [if_neg fun htakes => hb' (hb.1 htakes), if_neg hb']
      rfl
  cases call with
  | message level mark text =>
    exact hif (.levelled level) [_] _ rfl decide_eq_true_iff
  | alert a =>
    rcases a with ⟨_ | _ | _, text⟩
    · exact hif (.levelled .info) [_] _ rfl decide_eq_true_iff
    · exact hif (.levelled .info) [_] _ rfl decide_eq_true_iff
    · exact hif (.levelled .error) [_] _ rfl decide_eq_true_iff
  | output line => exact hif .toolOutput [_] _ rfl Iff.rfl
  | showTail header =>
    rw [messages_of_drafts (by rw [htail]; exact LogCall.drafts_showTail _ header texts)]
    rfl
  | optionsPretty tokens => exact hif (.levelled .info) [_, _, _] _ rfl decide_eq_true_iff
  | optionsJson tokens => exact hif (.levelled .info) [_, _, _] _ rfl decide_eq_true_iff
  | clearTail => rfl
  | flush => rfl
  | close => rfl

theorem fileBytes_append (lines more : List String) :
    fileBytes (lines ++ more) = fileBytes lines ++ fileBytes more := List.flatMap_append

/-- Nothing changes if there are no lines to keep. -/
theorem keep_nil : { log.keep [] with tail := log.tail } = log := by
  unfold keep
  split
  · exact congrArg (fun kept => { log with kept }) (List.append_nil _)
  · rfl

/-- A log whose file can be written has nothing kept back after it has been flushed. -/
theorem flush_run {written : Bytes} (hfile : h.files.fileAt? log.path = some written)
    (hpermit : h.files.refuses (.fill log.path) = none) :
    ∃ fs, log.flush.run h = ({ log with kept := [] }, { h with files := fs }) ∧
      fs.fileAt? log.path = some (written ++ log.kept) := by
  by_cases hkept : log.kept.isEmpty = true
  · have hnone : log.kept = [] := List.isEmpty_iff.1 hkept
    refine ⟨h.files, ?_, ?_⟩
    · unfold flush
      rw [if_pos hkept, ← hnone]
      rfl
    · rw [hnone, List.append_nil, hfile]
  · obtain ⟨fs, happend, hcontent⟩ := FileSystem.fileAt?_append hfile hpermit log.kept
    refine ⟨fs, ?_, hcontent⟩
    unfold flush
    rw [if_neg hkept, StateT.run_bind, OnHost.run_disk, Disk.run_step, happend]
    rfl

/-- A log with nothing kept back leaves the host alone when it is flushed. -/
theorem flush_run_of_kept (hkept : log.kept = []) : log.flush.run h = (log, h) := by
  unfold flush
  rw [hkept]
  rfl

theorem perform_flush :
    (log.perform .flush).run h = (([], (log.flush.run h).1), (log.flush.run h).2) := by
  conv_rhs => rw [← log.keep_nil]
  rfl

theorem perform_close :
    (log.perform .close).run h = (([], (log.close.run h).1), (log.close.run h).2) := by
  conv_rhs => rw [← log.keep_nil]
  rfl

/-- Any other call leaves the host alone. -/
theorem perform_told {call : LogCall} (hflush : call ≠ .flush) (hclose : call ≠ .close) :
    (log.perform call).run h =
      ((log.messages h.clock.timeOfDay call,
        { log.keep (log.messages h.clock.timeOfDay call) with
          tail := call.tailAfter log.tail }), h) := by
  cases call with
  | flush => exact absurd rfl hflush
  | close => exact absurd rfl hclose
  | _ => rfl

/-! ## All calls -/

/-- **What calls of a log lead to**, one after the other. What happens on the host between two of
them leaves the log's file as it is, and writable. -/
inductive Recorded (log₀ : ExportLog) (h₀ : Host) :
    List LogEvent → ExportLog → Host → List String → Prop
  | start : Recorded log₀ h₀ [] log₀ h₀ []
  | call {history : List LogEvent} {log : ExportLog} {h h' : Host} {lines : List String}
      (before : Recorded log₀ h₀ history log h lines)
      (hfile : h'.files.fileAt? log.path = h.files.fileAt? log.path)
      (hpermit : h'.files.refuses (.fill log.path) = none) (call : LogCall) :
      Recorded log₀ h₀ (history ++ [⟨h'.clock.timeOfDay, call⟩])
        ((log.perform call).run h').1.2 ((log.perform call).run h').2
        (lines ++ ((log.perform call).run h').1.1)

/-- What a flush leaves as it is. -/
theorem flush_keeps (log : ExportLog) (h : Host) :
    (log.flush.run h).1.path = log.path ∧ (log.flush.run h).2.clock = h.clock ∧
      (log.flush.run h).2.files.refuses = h.files.refuses := by
  by_cases hkept : log.kept.isEmpty = true
  · rw [flush_run_of_kept (List.isEmpty_iff.1 hkept)]
    exact ⟨rfl, rfl, rfl⟩
  · unfold flush
    rw [if_neg hkept, StateT.run_bind, OnHost.run_disk, Disk.run_step]
    cases happend : h.files.append log.path log.kept with
    | error e => exact ⟨rfl, rfl, rfl⟩
    | ok fs =>
      obtain ⟨l, c, x, -, rfl⟩ := FileSystem.append_ok happend
      exact ⟨rfl, rfl, rfl⟩

theorem perform_keeps (log : ExportLog) (call : LogCall) (h : Host) :
    let did := (log.perform call).run h
    did.1.2.path = log.path ∧ did.2.clock = h.clock ∧ did.2.files.refuses = h.files.refuses := by
  intro did
  by_cases hclose : call = .close
  · have hdid : did = _ := hclose ▸ perform_close
    rw [hdid]
    exact log.flush_keeps h
  by_cases hflush : call = .flush
  · have hdid : did = _ := hflush ▸ perform_flush
    rw [hdid]
    exact log.flush_keeps h
  · have hdid : did = _ := perform_told hflush hclose
    rw [hdid]
    refine ⟨?_, rfl, rfl⟩
    unfold keep
    split <;> rfl

/-- Calls in a row, with nothing else in between. -/
theorem Recorded.performAll {log₀ : ExportLog} {h₀ : Host} {history : List LogEvent}
    {lines : List String} (before : Recorded log₀ h₀ history log h lines)
    (hpermit : h.files.refuses (.fill log.path) = none) (calls : List LogCall) :
    Recorded log₀ h₀ (history ++ calls.map (⟨h.clock.timeOfDay, ·⟩))
      ((log.performAll calls).run h).1.2 ((log.performAll calls).run h).2
      (lines ++ ((log.performAll calls).run h).1.1) := by
  induction calls generalizing history log h lines with
  | nil =>
    rw [List.map_nil, List.append_nil, show (log.performAll []).run h = (([], log), h) from rfl,
      List.append_nil]
    exact before
  | cons call calls ih =>
    obtain ⟨hpath, hclock, hrefuses⟩ := log.perform_keeps call h
    have hnext := ih (before.call rfl hpermit call) (by rw [hpath, hrefuses]; exact hpermit)
    rw [hclock, List.append_assoc, List.append_assoc] at hnext
    exact hnext

/-! ## The accounts of a log -/

/-- Where a log stands after its history. -/
structure Accounts (config : LogConfig) (path : Path) (history : List LogEvent) (log : ExportLog)
    (h : Host) : Prop where
  config_eq : log.config = config
  path_eq : log.path = path
  tail : log.tail = Tail.ofLines config.errorTail (outputSinceClear history)
  isOpen : log.isOpen = true ↔ ∀ e ∈ history, e.call ≠ .close
  /-- what is not in the file yet is kept back for it, as long as the log is open -/
  file : ∃ written, h.files.fileAt? path = some written ∧
    written ++ log.kept = fileBytes (emitted config (beforeClose history))
  kept : log.isOpen = false → log.kept = []

namespace Accounts

variable {config : LogConfig} {path : Path} {history : List LogEvent} {log : ExportLog} {h : Host}

/-- A log that was just made. -/
theorem create {name : String} {folder : Path} {h₀ : Host}
    (hlog : (ExportLog.create name folder config).run h₀ = (.ok log, h)) :
    Accounts config log.path [] log h := by
  obtain ⟨hconfig, htail, hopen, hkept, hfile⟩ := create_ok hlog
  refine ⟨hconfig, rfl, htail, by simp [hopen], ⟨[], hfile, ?_⟩, fun _ => hkept⟩
  rw [hkept]
  rfl

/-- Another host with the same file. -/
theorem onHost {h' : Host} (ha : Accounts config path history log h)
    (hfile : h'.files.fileAt? path = h.files.fileAt? path) :
    Accounts config path history log h' := by
  obtain ⟨written, hwritten, hkept⟩ := ha.file
  exact ⟨ha.config_eq, ha.path_eq, ha.tail, ha.isOpen, ⟨written, hfile.trans hwritten, hkept⟩,
    ha.kept⟩

theorem messages (ha : Accounts config path history log h) (e : LogEvent) :
    log.messages e.timeOfDay e.call =
      (e.call.emits config (outputSinceClear history)).map (config.line e.timeOfDay) := by
  have hconfig := ha.config_eq
  subst hconfig
  exact messages_eq ha.tail e.timeOfDay e.call

theorem tailAfter (ha : Accounts config path history log h) (e : LogEvent) :
    e.call.tailAfter log.tail =
      Tail.ofLines config.errorTail (outputSinceClear (history ++ [e])) := by
  rw [outputSinceClear_concat, ha.tail]
  cases hcall : e.call with
  | output line => exact (Tail.ofLines_concat _ _ _).symm
  | clearTail => exact Tail.clear_ofLines _ _
  | _ =>
    rw [if_neg (by simp)]
    exact congrArg _ (List.append_nil _).symm

/-- What a call comes to before it gets to the file, unless it closes the log. -/
theorem told (ha : Accounts config path history log h) {e : LogEvent} (hclose : e.call ≠ .close) :
    Accounts config path (history ++ [e])
      { log.keep (log.messages e.timeOfDay e.call) with tail := e.call.tailAfter log.tail } h := by
  obtain ⟨written, hwritten, hkept⟩ := ha.file
  have hhistory : (∀ e' ∈ history ++ [e], e'.call ≠ .close) ↔ ∀ e' ∈ history, e'.call ≠ .close := by
    simp [or_imp, forall_and, hclose]
  unfold keep
  by_cases hopen : log.isOpen = true
  · have hpast := ha.isOpen.1 hopen
    rw [if_pos hopen]
    refine ⟨ha.config_eq, ha.path_eq, ha.tailAfter e, ha.isOpen.trans hhistory.symm,
      ⟨written, hwritten, ?_⟩, fun hclosed => Bool.noConfusion (hopen.symm.trans hclosed)⟩
    rw [beforeClose_eq_self hpast] at hkept
    rw [beforeClose_concat_open hpast hclose, emitted_concat, ← ha.messages, fileBytes_append,
      ← hkept, List.append_assoc]
    rfl
  · have hpast : ∃ e ∈ history, e.call = .close := by
      by_contra hnone
      exact hopen (ha.isOpen.2 fun e he hcall => hnone ⟨e, he, hcall⟩)
    rw [if_neg hopen]
    refine ⟨ha.config_eq, ha.path_eq, ha.tailAfter e, ha.isOpen.trans hhistory.symm,
      ⟨written, hwritten, ?_⟩, ha.kept⟩
    rw [beforeClose_concat (.inl hpast)]
    exact hkept

/-- The file of a log that has nothing kept back for it. -/
theorem fileAt? (ha : Accounts config path history log h) (hkept : log.kept = []) :
    h.files.fileAt? path = some (fileBytes (emitted config (beforeClose history))) := by
  obtain ⟨written, hwritten, hwhole⟩ := ha.file
  rw [hwritten, ← hwhole, hkept, List.append_nil]

theorem flush (ha : Accounts config path history log h)
    (hpermit : h.files.refuses (.fill path) = none) :
    (log.flush.run h).1.kept = [] ∧
      Accounts config path history (log.flush.run h).1 (log.flush.run h).2 := by
  obtain ⟨written, hwritten, hwhole⟩ := ha.file
  have hpath := ha.path_eq
  subst hpath
  obtain ⟨fs, hrun, hfile⟩ := flush_run hwritten hpermit
  rw [hrun]
  exact ⟨rfl, ha.config_eq, rfl, ha.tail, ha.isOpen,
    ⟨_, hfile, (List.append_nil _).trans hwhole⟩, fun _ => rfl⟩

/-- What closing a log comes to. -/
theorem close (ha : Accounts config path history log h)
    (hpermit : h.files.refuses (.fill path) = none) (timeOfDay : String) :
    (log.close.run h).1.kept = [] ∧ Accounts config path (history ++ [⟨timeOfDay, .close⟩])
      (log.close.run h).1 (log.close.run h).2 := by
  obtain ⟨hkept, hflushed⟩ := ha.flush hpermit
  have hfile := hflushed.fileAt? hkept
  have htail := hflushed.tailAfter ⟨timeOfDay, .close⟩
  refine ⟨rfl, hflushed.config_eq, hflushed.path_eq, htail, by simp [ExportLog.close],
    ⟨_, hfile, ?_⟩, fun _ => rfl⟩
  rw [beforeClose_concat (.inr rfl)]
  exact List.append_nil _

/-- **One call** keeps the accounts in order. -/
theorem perform (ha : Accounts config path history log h)
    (hpermit : h.files.refuses (.fill path) = none) (call : LogCall) :
    let did := (log.perform call).run h
    let e : LogEvent := ⟨h.clock.timeOfDay, call⟩
    did.1.1 = (call.emits config (outputSinceClear history)).map (config.line e.timeOfDay) ∧
      Accounts config path (history ++ [e]) did.1.2 did.2 ∧
      (call = .flush ∨ call = .close → did.1.2.kept = []) := by
  intro did e
  by_cases hclose : call = .close
  · subst hclose
    have hdid : did = _ := perform_close
    obtain ⟨hkept, hclosed⟩ := ha.close hpermit e.timeOfDay
    rw [hdid]
    exact ⟨rfl, hclosed, fun _ => hkept⟩
  have htold := ha.told (e := e) hclose
  by_cases hflush : call = .flush
  · subst hflush
    have hdid : did = _ := perform_flush
    rw [show { log.keep (log.messages e.timeOfDay e.call) with
      tail := e.call.tailAfter log.tail } = log from keep_nil] at htold
    obtain ⟨hkept, hflushed⟩ := htold.flush hpermit
    rw [hdid]
    exact ⟨rfl, hflushed, fun _ => hkept⟩
  · have hdid : did = _ := perform_told hflush hclose
    rw [hdid]
    exact ⟨ha.messages e, htold, fun h => (h.elim hflush hclose).elim⟩

/-- **All calls** keep the accounts in order, and give the listener every message. -/
theorem recorded {log₀ : ExportLog} {h₀ : Host} (ha : Accounts config path [] log₀ h₀)
    {lines : List String} (hrun : Recorded log₀ h₀ history log h lines) :
    lines = emitted config history ∧ Accounts config path history log h ∧
      ∀ e ∈ history.getLast?, e.call = .flush ∨ e.call = .close → log.kept = [] := by
  induction hrun with
  | start => exact ⟨rfl, ha, fun e he => nomatch he⟩
  | call before hfile hpermit call ih =>
    obtain ⟨hlines, ih, -⟩ := ih
    have hpath := ih.path_eq
    rw [hpath] at hfile hpermit
    obtain ⟨htold, hafter, hkept⟩ := (ih.onHost hfile).perform hpermit call
    refine ⟨?_, hafter, fun e he hlast => ?_⟩
    · rw [emitted_concat, hlines, htold]
    · rw [List.getLast?_concat] at he
      obtain rfl := Option.some_inj.1 he
      exact hkept hlast

end Accounts

/-! ## The three sinks -/

/-- A call leaves the host alone if nothing is kept back for the file. -/
theorem perform_of_kept (hkept : log.kept = []) (call : LogCall) :
    ((log.perform call).run h).2 = h := by
  by_cases hclose : call = .close
  · rw [hclose, perform_close]
    show (log.flush.run h).2 = h
    rw [flush_run_of_kept hkept]
  by_cases hflush : call = .flush
  · rw [hflush, perform_flush, flush_run_of_kept hkept]
  · rw [perform_told hflush hclose]

/-- **The three sinks of a log**, over all the calls since it was made. The listener has got the
messages of all of them, in order. The tail has the last lines of the tool since it was cleared,
whatever was taken. The file has the messages up to the first closing as soon as they are flushed,
or the log is closed or dropped, which is to close it; and once the log is closed, no call touches
the host any more. -/
theorem recorded_sinks {name : String} {folder : Path} {config : LogConfig} {h₀ h₁ : Host}
    {log₀ : ExportLog} (hlog : (create name folder config).run h₀ = (.ok log₀, h₁))
    {history : List LogEvent} {lines : List String}
    (hrun : Recorded log₀ h₁ history log h lines) :
    let inFile := fileBytes (emitted config (beforeClose history))
    lines = emitted config history ∧
      log.tail.lines = (outputSinceClear history).rtake (max 1 config.errorTail) ∧
      (∀ e ∈ history.getLast?, e.call = .flush ∨ e.call = .close →
        h.files.fileAt? log₀.path = some inFile) ∧
      (∀ h', h'.files.fileAt? log₀.path = h.files.fileAt? log₀.path →
        h'.files.refuses (.fill log₀.path) = none →
        (log.close.run h').2.files.fileAt? log₀.path = some inFile) ∧
      ((∃ e ∈ history, e.call = .close) →
        h.files.fileAt? log₀.path = some inFile ∧
          ∀ call h', ((log.perform call).run h').2 = h') := by
  intro inFile
  obtain ⟨hlines, ha, hlast⟩ := (Accounts.create hlog).recorded hrun
  refine ⟨hlines, ?_, fun e he hwritten => ha.fileAt? (hlast e he hwritten),
    fun h' hfile hpermit => ?_, fun ⟨e, he, hcall⟩ => ?_⟩
  · rw [ha.tail, Tail.ofLines_lines, Nat.max_comm]
  · obtain ⟨hkept, hclosed⟩ := (ha.onHost hfile).close hpermit ""
    rw [hclosed.fileAt? hkept, beforeClose_concat (.inr rfl)]
  · have hclosed : log.isOpen = false :=
      Bool.eq_false_iff.2 fun hopen => ha.isOpen.1 hopen e he hcall
    have hkept := ha.kept hclosed
    exact ⟨ha.fileAt? hkept, fun call _ => perform_of_kept hkept call⟩

/-- Of all that the tool has printed, the listener and the file get the one line that is remembered
when the tail is shown. -/
theorem recorded_sinks_compact :
    let config : LogConfig := { level := .warn, errorTail := 0, timestamps := false }
    let calls : List LogCall :=
      [.output ⟨.stdout, "one"⟩, .output ⟨.stdout, "two"⟩, .info "unseen", .showTail "tool",
        .clearTail, .close, .warn "late", .output ⟨.stderr, "three"⟩, .flush]
    let made := (create "talk" (.ofText "logs") config).run ToolRunner.troubledHost
    ∃ log₀ h₁, made = (.ok log₀, h₁) ∧
      let did := (log₀.performAll calls).run h₁
      did.1.1 = ["[tool/tail]", "two", "[WARNING] late"] ∧ did.1.2.tail.lines = ["three"] ∧
        did.2.files.fileAt? log₀.path = some (fileBytes ["[tool/tail]", "two"]) := by
  intro config calls made
  let log₀ : ExportLog :=
    { name := "talk", path := .ofText "logs/talk.log", config, tail := Tail.ofCapacity 0 }
  have hmade : made.1 = .ok log₀ := by decide +kernel
  have hlog : made = (.ok log₀, made.2) := Prod.ext hmade rfl
  let history : List LogEvent := calls.map (⟨made.2.clock.timeOfDay, ·⟩)
  have hstart : Recorded log₀ made.2 [] log₀ made.2 [] := .start
  have hrun := hstart.performAll rfl calls
  refine ⟨log₀, made.2, hlog, ?_⟩
  generalize (log₀.performAll calls).run made.2 = did at hrun ⊢
  obtain ⟨hlines, htail, hfile, -, -⟩ := recorded_sinks hlog hrun
  have htold : emitted config history = ["[tool/tail]", "two", "[WARNING] late"] := by
    decide +kernel
  have hlast : (outputSinceClear history).rtake (max 1 config.errorTail) = ["three"] := by
    decide +kernel
  have hfirst : emitted config (beforeClose history) = ["[tool/tail]", "two"] := by decide +kernel
  exact ⟨hlines.trans htold, htail.trans hlast,
    (hfile _ rfl (.inl rfl)).trans (congrArg (fun lines => some (fileBytes lines)) hfirst)⟩

end ExportLog

end ExportDesk
