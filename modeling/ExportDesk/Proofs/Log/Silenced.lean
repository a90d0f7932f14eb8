import ExportDesk.Proofs.Log.History

/-!
# What a configuration keeps out of a log

`ExportLog.course_of_config`: of the same calls, a log with a higher level emits the same messages,
but for those of the calls below that level, and a compact log emits the same messages, but for the
lines of the tool; both remember the same after every call.

All messages of a call have one origin (`LogCall.origin_of_mem`), so a call is silenced altogether or
not at all. `LogConfig.Silences` says which calls one configuration silences of those that another
one takes; `ExportLog.course_silenced` carries it over a whole run. What happens on the host
between the calls is left open, also whether the file can be written.
-/

namespace ExportDesk

/-! ## Runs of a log -/

/-- A call and the host that it finds. -/
structure LogTurn where
  host : Host
  call : LogCall

/-- The call and the time of day when it was made. -/
def LogTurn.event (t : LogTurn) : LogEvent := ⟨t.host.clock.timeOfDay, t.call⟩

/-- A call and what came of it: the messages it emitted, and the lines remembered after it. -/
structure Told where
  call : LogCall
  messages : List String
  tail : List String
deriving DecidableEq, Repr

namespace ExportLog

/-- What comes of calls, one after the other, each on the host that it finds. -/
def course (log : ExportLog) : List LogTurn → List Told
  | [] => []
  | t :: ts =>
    let did := (log.perform t.call).run t.host
    ⟨t.call, did.1.1, did.1.2.tail.lines⟩ :: did.1.2.course ts

variable (log : ExportLog) (h : Host)

/-- A flush changes nothing of a log but what is kept back for the file. -/
theorem exists_flush : ∃ kept, (log.flush.run h).1 = { log with kept } := by
  by_cases hkept : log.kept.isEmpty = true
  · rw [flush_run_of_kept (List.isEmpty_iff.1 hkept)]
    exact ⟨log.kept, rfl⟩
  · unfold flush
    rw [if_neg hkept, StateT.run_bind, OnHost.run_disk, Disk.run_step]
    rcases h.files.append log.path log.kept with _ | fs
    · exact ⟨log.kept, rfl⟩
    · exact ⟨[], rfl⟩

/-- What a call leads to besides the file: its messages, and what is remembered. -/
theorem perform_eq (call : LogCall) :
    let did := (log.perform call).run h
    did.1.1 = log.messages h.clock.timeOfDay call ∧ did.1.2.config = log.config ∧
      did.1.2.tail = call.tailAfter log.tail := by
  intro did
  obtain ⟨kept, hflushed⟩ := log.exists_flush h
  by_cases hclose : call = .close
  · subst hclose
    have hdid : did = _ := perform_close
    have hclosed : (log.close.run h).1 =
        { (log.flush.run h).1 with isOpen := false, kept := [] } := rfl
    rw [hdid, hclosed, hflushed]
    exact ⟨rfl, rfl, rfl⟩
  by_cases hflush : call = .flush
  · subst hflush
    have hdid : did = _ := perform_flush
    rw [hdid, hflushed]
    exact ⟨rfl, rfl, rfl⟩
  · have hdid : did = _ := perform_told hflush hclose
    rw [hdid]
    refine ⟨rfl, ?_, rfl⟩
    unfold keep
    split <;> rfl

end ExportLog

/-! ## The origin of a call -/

namespace LogCall

/-- The level of a call's messages, if they have one. -/
def level? : LogCall → Option LogLevel
  | .message level _ _ => some level
  | .alert ⟨.error, _⟩ => some .error
  | .alert ⟨.inProgress, _⟩ | .alert ⟨.success, _⟩ => some .info
  | .optionsPretty _ | .optionsJson _ => some .info
  | .output _ | .showTail _ | .clearTail | .flush | .close => none

/-- Does the call hand over a line of the tool? -/
def IsOutput (call : LogCall) : Prop := call.outputText?.isSome = true

instance : DecidablePred IsOutput := fun call =>
  inferInstanceAs (Decidable (call.outputText?.isSome = true))

/-- Does the call have a level, and a lower one? -/
def IsBelow (level : LogLevel) (call : LogCall) : Prop := ∃ l ∈ call.level?, ¬ level ≤ l

instance (level : LogLevel) : DecidablePred (IsBelow level) := fun call =>
  inferInstanceAs (Decidable (∃ l ∈ call.level?, ¬ level ≤ l))

/-- Where the messages of a call come from. -/
def origin (call : LogCall) : Origin :=
  match call.level? with
  | some level => .levelled level
  | none => if call.IsOutput then .toolOutput else .shownTail

theorem origin_of_mem {call : LogCall} {tail : Tail} {d : Draft} (hd : d ∈ call.drafts tail) :
    d.origin = call.origin := by
  have hone (origin : Origin) (texts : List String) (hd : d ∈ texts.map (⟨origin, ·⟩)) :
      d.origin = origin := by
    obtain ⟨text, -, rfl⟩ := List.mem_map.1 hd
    rfl
  cases call with
  | message level mark text => exact hone _ [_] hd
  | alert a => rcases a with ⟨_ | _ | _, text⟩ <;> exact hone _ [_] hd
  | output line => exact hone _ [_] hd
  | showTail header =>
    have hshown : d ∈ if tail.isBlank then [] else
      (("[" ++ header ++ "/tail]") :: tail.lines).map (⟨.shownTail, ·⟩) := hd
    split at hshown
    · cases hshown
    · exact hone _ _ hshown
  | optionsPretty tokens => exact hone _ [_, _, _] hd
  | optionsJson tokens => exact hone _ [_, _, _] hd
  | clearTail => cases hd
  | flush => cases hd
  | close => cases hd

theorem drafts_eq (call : LogCall) (tail : Tail) :
    call.drafts tail = ((call.drafts tail).map (·.text)).map (⟨call.origin, ·⟩) := by
  have hsame : ∀ d ∈ call.drafts tail, (⟨call.origin, d.text⟩ : Draft) = d := by
    intro d hd
    rw [← origin_of_mem hd]
  rw [List.map_map]
  exact ((List.map_congr_left (g := id) hsame).trans (List.map_id _)).symm

end LogCall

/-- All messages of a call are emitted, or none. -/
theorem ExportLog.messages_eq_if (log : ExportLog) (timeOfDay : String) (call : LogCall) :
    log.messages timeOfDay call =
      if log.config.takes call.origin then
        ((call.drafts log.tail).map (·.text)).map (log.config.line timeOfDay)
      else [] :=
  messages_of_drafts (call.drafts_eq log.tail) timeOfDay

/-! ## Silenced calls -/

/-- The same as before, but that the call has emitted nothing if it is one of those. -/
def Told.silence (P : LogCall → Prop) [DecidablePred P] (t : Told) : Told :=
  if P t.call then { t with messages := [] } else t

section

variable (P : LogCall → Prop) [DecidablePred P] (told : List Told)

theorem map_tail_silence : (told.map (Told.silence P)).map (·.tail) = told.map (·.tail) := by
  rw [List.map_map]
  refine List.map_congr_left fun t _ => ?_
  show (Told.silence P t).tail = t.tail
  unfold Told.silence
  split <;> rfl

/-- To silence calls is to remove their messages from those of the run. -/
theorem flatMap_messages_silence :
    (told.map (Told.silence P)).flatMap (·.messages) =
      (told.filter fun t => ¬ P t.call).flatMap (·.messages) := by
  induction told with
  | nil => rfl
  | cons t told ih =>
    rw [List.map_cons, List.flatMap_cons, ih]
    by_cases ht : P t.call
    · simp [Told.silence, ht]
    · simp [Told.silence, ht]

end

/-- The other configuration takes what this one takes, but for those calls. -/
structure LogConfig.Silences (P : LogCall → Prop) [DecidablePred P] (c c' : LogConfig) :
    Prop where
  timestamps : c'.timestamps = c.timestamps
  takes : ∀ call : LogCall, c'.takes call.origin = (c.takes call.origin && !decide (P call))

/-- A higher level silences the calls below it. -/
theorem LogConfig.silences_level {c : LogConfig} {level : LogLevel} (h : c.level ≤ level) :
    Silences (LogCall.IsBelow level) c { c with level } := by
  refine ⟨rfl, fun call => ?_⟩
  cases hlevel : call.level? with
  | none =>
    have hnot : ¬ call.IsBelow level := by
      rintro ⟨l, hl, -⟩
      rw [hlevel] at hl
      cases hl
    rw [decide_eq_false hnot, Bool.not_false, Bool.and_true, LogCall.origin, hlevel]
    dsimp only
    split <;> rfl
  | some l =>
    have hiff : call.IsBelow level ↔ ¬ level ≤ l := by
      constructor
      · rintro ⟨l', hl', hlow⟩
        rw [hlevel, Option.mem_some_iff] at hl'
        rwa [hl']
      · exact fun hlow => ⟨l, hlevel, hlow⟩
    rw [LogCall.origin, hlevel, decide_eq_decide.2 hiff]
    show decide (level ≤ l) = (decide (c.level ≤ l) && !decide (¬ level ≤ l))
    by_cases hl : level ≤ l
    · have hlow : c.level ≤ l := Nat.le_trans h hl
      simp [hl, hlow]
    · simp [hl]

/-- Compactness silences the lines of the tool. -/
theorem LogConfig.silences_compact (c : LogConfig) :
    Silences LogCall.IsOutput c { c with compact := true } := by
  refine ⟨rfl, fun call => ?_⟩
  cases call with
  | output line => simp [LogCall.origin, LogCall.level?, takes, LogCall.IsOutput, LogCall.outputText?]
  | alert a => rcases a with ⟨_ | _ | _, text⟩ <;> exact (Bool.and_true _).symm
  | _ => exact (Bool.and_true _).symm

namespace ExportLog

/-- A call that is silenced emits nothing, and any other one the same. -/
theorem messages_silenced {P : LogCall → Prop} [DecidablePred P] {log log' : ExportLog}
    (hconfig : log.config.Silences P log'.config) (htail : log'.tail = log.tail)
    (timeOfDay : String) (call : LogCall) :
    log'.messages timeOfDay call = if P call then [] else log.messages timeOfDay call := by
  have hline : log'.config.line timeOfDay = log.config.line timeOfDay := by
    funext text
    unfold LogConfig.line
    rw [hconfig.timestamps]
  rw [messages_eq_if, messages_eq_if, hconfig.takes, htail]
  by_cases hP : P call
  · simp [hP]
  · simp [hP, hline]

/-- **Runs with and without silence.** If two logs remember the same and one configuration silences
some calls of the other, then the same calls come to the same, but that these emit nothing. -/
theorem course_silenced {P : LogCall → Prop} [DecidablePred P] {log log' : ExportLog}
    (hconfig : log.config.Silences P log'.config) (htail : log'.tail = log.tail)
    {turns turns' : List LogTurn}
    (hsame : turns'.map LogTurn.event = turns.map LogTurn.event) :
    log'.course turns' = (log.course turns).map (Told.silence P) := by
  induction turns generalizing log log' turns' with
  | nil =>
    obtain rfl : turns' = [] := by simpa using hsame
    rfl
  | cons t turns ih =>
    cases turns' with
    | nil => cases hsame
    | cons t' turns' =>
      rw [List.map_cons, List.map_cons, List.cons.injEq] at hsame
      obtain ⟨hevent, hlater⟩ := hsame
      have htime : t'.host.clock.timeOfDay = t.host.clock.timeOfDay :=
        congrArg LogEvent.timeOfDay hevent
      have hcall : t'.call = t.call := congrArg LogEvent.call hevent
      obtain ⟨hmessages, hkept, hremembered⟩ := log.perform_eq t.host t.call
      obtain ⟨hmessages', hkept', hremembered'⟩ := log'.perform_eq t'.host t'.call
      have htails : ((log'.perform t'.call).run t'.host).1.2.tail =
          ((log.perform t.call).run t.host).1.2.tail := by
        rw [hremembered', hremembered, hcall, htail]
      have hrest := ih (by rw [hkept, hkept']; exact hconfig) htails hlater
      rw [course, course, List.map_cons, hrest, List.cons.injEq]
      refine ⟨?_, rfl⟩
      rw [hmessages', hmessages, htails, htime, hcall, messages_silenced hconfig htail]
      unfold Told.silence
      dsimp only
      split <;> rfl

/-- A log that is not compact emits every line of the tool, as one message. -/
theorem messages_of_output {log : ExportLog} {turns : List LogTurn}
    (hcompact : log.config.compact = false) :
    ∀ t ∈ log.course turns, ∀ line, t.call = .output line →
      ∃ timeOfDay, t.messages = [log.config.line timeOfDay line.marked] := by
  induction turns generalizing log with
  | nil => exact fun t ht => nomatch ht
  | cons turn turns ih =>
    obtain ⟨hmessages, hkept, -⟩ := log.perform_eq turn.host turn.call
    intro t ht line hline
    rcases List.mem_cons.1 ht with rfl | ht
    · have hcall : turn.call = .output line := hline
      refine ⟨turn.host.clock.timeOfDay, hmessages.trans ?_⟩
      rw [hcall, messages_eq_if, if_pos]
      · rfl
      · show (!log.config.compact) = true
        rw [hcompact]
        rfl
    · rw [← hkept]
      exact ih (by rw [hkept]; exact hcompact) t ht line hline

/-- **What a configuration keeps out of a log.** The same calls are made at the same times of two
new logs; nothing else on the two hosts has to be the same, or even to work. If the second log has
the higher level, it emits what the first one does, in the same order, without the messages of the
calls below that level, which the lines of the tool and a tail that is shown never are. If the
second log is compact and the first one is not, it emits what the first one does without the lines
of the tool, of which the first one emits each as a message. Either way both logs remember the same
after every call. -/
theorem course_of_config {config other : LogConfig} {name name' : String} {folder folder' : Path}
    {h₀ h₁ h₀' h₁' : Host} {log log' : ExportLog}
    (hlog : (create name folder config).run h₀ = (.ok log, h₁))
    (hlog' : (create name' folder' other).run h₀' = (.ok log', h₁'))
    {turns turns' : List LogTurn}
    (hsame : turns'.map LogTurn.event = turns.map LogTurn.event) :
    let told := log.course turns
    let told' := log'.course turns'
    (∀ level, config.level ≤ level → other = { config with level } →
      told' = told.map (Told.silence (LogCall.IsBelow level)) ∧
        told'.flatMap (·.messages) =
          (told.filter fun t => ¬ t.call.IsBelow level).flatMap (·.messages) ∧
        told'.map (·.tail) = told.map (·.tail)) ∧
      (config.compact = false → other = { config with compact := true } →
        told' = told.map (Told.silence LogCall.IsOutput) ∧
          told'.flatMap (·.messages) =
            (told.filter fun t => ¬ t.call.IsOutput).flatMap (·.messages) ∧
          told'.map (·.tail) = told.map (·.tail) ∧
          ∀ t ∈ told, ∀ line, t.call = .output line →
            ∃ timeOfDay, t.messages = [config.line timeOfDay line.marked]) := by
  intro told told'
  obtain ⟨rfl, htail, -⟩ := create_ok hlog
  obtain ⟨rfl, htail', -⟩ := create_ok hlog'
  have hsilent {P : LogCall → Prop} [DecidablePred P] (hP : log.config.Silences P log'.config)
      (hcapacity : log'.config.errorTail = log.config.errorTail) :
      told' = told.map (Told.silence P) := by
    refine course_silenced hP ?_ hsame
    rw [htail', htail, hcapacity]
  constructor
  · intro level hlevel hother
    have htold := hsilent (P := LogCall.IsBelow level)
      (by rw [hother]; exact LogConfig.silences_level hlevel) (by rw [hother])
    refine ⟨htold, ?_, ?_⟩
    · rw [htold, flatMap_messages_silence]
    · rw [htold, map_tail_silence]
  · intro hcompact hother
    have htold := hsilent (P := LogCall.IsOutput)
      (by rw [hother]; exact log.config.silences_compact) (by rw [hother])
    refine ⟨htold, ?_, ?_, messages_of_output hcompact⟩
    · rw [htold, flatMap_messages_silence]
    · rw [htold, map_tail_silence]

/-- Three logs of the same calls. Warnings and what the tool printed pass the higher level; the tail
that is shown passes the compact log too. -/
theorem course_of_config_warn :
    let config : LogConfig := { level := .debug, compact := false, errorTail := 1 }
    let high : LogConfig := { config with level := .warn }
    let quiet : LogConfig := { config with compact := true }
    let logOf (c : LogConfig) : ExportLog :=
      { name := "talk", path := .ofText "logs/talk.log", config := c, tail := Tail.ofCapacity 1 }
    let made (c : LogConfig) := (create "talk" (.ofText "logs") c).run ToolRunner.troubledHost
    let turns : List LogTurn := [.debug "unseen", .output ⟨.stdout, "one"⟩, .warn "slow",
      .output ⟨.stderr, "two"⟩, .alert ⟨.success, "done"⟩, .showTail "cut"].map
        (⟨ToolRunner.troubledHost, ·⟩)
    let toldTo (c : LogConfig) := ((logOf c).course turns).flatMap (·.messages)
    (∀ c ∈ [config, high, quiet], (made c).1 = .ok (logOf c)) ∧
      config.level ≤ .warn ∧ config.compact = false ∧
      toldTo config = ["[12:00:00] unseen", "[12:00:00] one", "[12:00:00] [WARNING] slow",
        "[12:00:00] [stderr] two", "[12:00:00] [SUCCESS] done", "[12:00:00] [cut/tail]",
        "[12:00:00] two"] ∧
      toldTo high = ["[12:00:00] one", "[12:00:00] [WARNING] slow", "[12:00:00] [stderr] two",
        "[12:00:00] [cut/tail]", "[12:00:00] two"] ∧
      toldTo quiet = ["[12:00:00] unseen", "[12:00:00] [WARNING] slow",
        "[12:00:00] [SUCCESS] done", "[12:00:00] [cut/tail]", "[12:00:00] two"] := by
  intro config high quiet logOf made turns toldTo
  have hmade : ∀ c ∈ [config, high, quiet], (made c).1 = .ok (logOf c) := by decide +kernel
  have hlog (c : LogConfig) (hc : c ∈ [config, high, quiet]) :
      made c = (.ok (logOf c), (made c).2) := Prod.ext (hmade c hc) rfl
  have hlow := hlog config (by simp)
  have hlevel : config.level ≤ .warn := by decide
  obtain ⟨hhigh, -⟩ := course_of_config hlow (hlog high (by simp)) (Eq.refl (turns.map _))
  obtain ⟨-, hquiet⟩ := course_of_config hlow (hlog quiet (by simp)) (Eq.refl (turns.map _))
  obtain ⟨-, hhighTold, -⟩ := hhigh .warn hlevel rfl
  obtain ⟨-, hquietTold, -⟩ := hquiet rfl rfl
  exact ⟨hmade, hlevel, rfl, by decide +kernel, hhighTold.trans (by decide +kernel),
    hquietTold.trans (by decide +kernel)⟩

end ExportLog

end ExportDesk
