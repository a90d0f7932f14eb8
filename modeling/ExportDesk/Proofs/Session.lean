import ExportDesk.Session
import Mathlib.Data.List.Induction

/-!
# A session goes by its history

A session is asked one thing after the other, and the events, each a call with its reply, make up
its history. `Session.performAll_history`: an export is in flight exactly if one has begun and
nothing has ended it since, and the alert is the one that the last event with a say in it left.

`Session.Follows` holds at the start and is kept by every call (`Follows.perform`); so is
`Session.Honest`, that an alert of a running export is seen only while one runs, as long as no call
puts up an alert of its own.
-/

namespace ExportDesk

/-! ## Calls and their history -/

/-- What a session can be asked to do. -/
inductive SessionCall where
  | request (o : ExportOptions)
  | finish (o : Outcome)
  | abort (message : String)
  | replaceAlert (a : Alert)
  | dismiss
deriving DecidableEq, Repr

/-- Does the call end an export? -/
def SessionCall.ends : SessionCall → Bool
  | .finish _ | .abort _ => true
  | _ => false

/-- What a session gives back. -/
inductive SessionReply where
  | begun
  | refused (r : Refusal)
  | ended (a : Alert)
  | done
deriving DecidableEq, Repr

/-- The reply to a request; `none` means that it was not refused. -/
def SessionReply.ofRequest : Option Refusal → SessionReply
  | none => .begun
  | some r => .refused r

/-- A call and what came of it. -/
structure SessionEvent where
  call : SessionCall
  reply : SessionReply
deriving DecidableEq, Repr

namespace Session

/-- Does what a call asks for. -/
def perform (s : Session) : SessionCall → SessionReply × Session
  | .request o => (.ofRequest (s.request o).1, (s.request o).2)
  | .finish o => (.ended (s.finish o).1, (s.finish o).2)
  | .abort message => (.ended (s.abort message).1, (s.abort message).2)
  | .replaceAlert a => (.done, s.replaceAlert a)
  | .dismiss => (.done, s.dismiss)

/-- Performs calls one after the other. Gives the history of them. -/
def performAll (s : Session) : List SessionCall → List SessionEvent × Session
  | [] => ([], s)
  | c :: cs =>
    let later := (s.perform c).2.performAll cs
    (⟨c, (s.perform c).1⟩ :: later.1, later.2)

/-- Has an export begun, and has nothing ended it since? -/
def Running (history : List SessionEvent) : Prop :=
  ∃ before o after, history = before ++ ⟨.request o, .begun⟩ :: after ∧
    ∀ e ∈ after, e.call.ends = false

/-- The alert under which an export starts. -/
def startingAlert (o : ExportOptions) : Alert :=
  ⟨.inProgress, "Exporting " ++ inputName o.input ++ " as " ++ o.format.label ++ "..."⟩

end Session

/-- What an event makes of the alert: another one, or none at all. An event without a say in it
leaves the alert alone. -/
def SessionEvent.alert? (operation : String) (e : SessionEvent) : Option (Option Alert) :=
  match e.call, e.reply with
  | .request o, .begun => some (some (Session.startingAlert o))
  | .request _, .refused .noInputFile => some (some ⟨.error, Refusal.noInputFile.message⟩)
  | .request _, _ => none
  | .finish o, _ => some (some (o.alert operation))
  | .abort message, _ => some (some ⟨.error, message⟩)
  | .replaceAlert a, _ => some (some a)
  | .dismiss, _ => some none

/-- No outcome says that an export is running. -/
theorem Outcome.alert_kind_ne (o : Outcome) (operation : String) :
    (o.alert operation).kind ≠ .inProgress := by
  cases o <;> simp [Outcome.alert]

namespace Session

/-- The alert that the last event with a say in it left; none at the start. -/
def lastAlert (operation : String) (history : List SessionEvent) : Option Alert :=
  ((history.filterMap (·.alert? operation)).getLast?).getD none

variable {operation : String} {history : List SessionEvent} {e : SessionEvent} {s : Session}

/-! ## One more event -/

theorem performAll_concat (s : Session) (cs : List SessionCall) (c : SessionCall) :
    s.performAll (cs ++ [c]) =
      ((s.performAll cs).1 ++ [⟨c, ((s.performAll cs).2.perform c).1⟩],
        ((s.performAll cs).2.perform c).2) := by
  induction cs generalizing s with
  | nil => rfl
  | cons d cs ih =>
    rw [List.cons_append, performAll, performAll, ih]
    rfl

theorem map_call_performAll (s : Session) (cs : List SessionCall) :
    (s.performAll cs).1.map (·.call) = cs := by
  induction cs generalizing s with
  | nil => rfl
  | cons c cs ih =>
    show c :: ((s.perform c).2.performAll cs).1.map (·.call) = c :: cs
    rw [ih]

/-- An event of a longer history is the last one, or one of the shorter history. -/
theorem split_concat {before after : List SessionEvent} {x : SessionEvent}
    (h : history ++ [e] = before ++ x :: after) :
    (before = history ∧ x = e ∧ after = []) ∨
      ∃ after', after = after' ++ [e] ∧ history = before ++ x :: after' := by
  rcases List.eq_nil_or_concat after with rfl | ⟨after', y, rfl⟩
  · obtain ⟨rfl, he⟩ := List.append_inj' h rfl
    exact .inl ⟨rfl, (List.singleton_inj.1 he).symm, rfl⟩
  · have h' : history ++ [e] = (before ++ x :: after') ++ [y] := by simpa using h
    obtain ⟨rfl, he⟩ := List.append_inj' h' rfl
    obtain rfl := List.singleton_inj.1 he
    exact .inr ⟨after', by simp, rfl⟩

theorem not_running_nil : ¬ Running [] := by
  rintro ⟨before, o, after, h, -⟩
  simp at h

theorem running_concat_begun (o : ExportOptions) : Running (history ++ [⟨.request o, .begun⟩]) :=
  ⟨history, o, [], rfl, by simp⟩

/-- An event other than a beginning leaves an export running unless it ends it. -/
theorem running_concat (h : e.reply ≠ .begun) :
    Running (history ++ [e]) ↔ e.call.ends = false ∧ Running history := by
  constructor
  · rintro ⟨before, o, after, hsplit, hafter⟩
    obtain ⟨-, rfl, -⟩ | ⟨after', rfl, rfl⟩ := split_concat hsplit
    · exact absurd rfl h
    · exact ⟨hafter e (by simp), before, o, after', rfl, fun x hx => hafter x (by simp [hx])⟩
  · rintro ⟨hends, before, o, after, rfl, hafter⟩
    refine ⟨before, o, after ++ [e], by simp, fun x hx => ?_⟩
    rcases List.mem_append.1 hx with hx | hx
    · exact hafter x hx
    · rwa [List.mem_singleton.1 hx]

theorem lastAlert_concat :
    lastAlert operation (history ++ [e]) =
      (e.alert? operation).getD (lastAlert operation history) := by
  unfold lastAlert
  rw [List.filterMap_append]
  cases h : e.alert? operation <;> simp [h]

/-! ## Requests -/

/-- What can come of a request, and when. -/
theorem request_cases (s : Session) (o : ExportOptions) :
    (s.inFlight = true ∧ s.request o = (some .exportInFlight, s)) ∨
    (s.inFlight = false ∧ o.input.isEmpty = true ∧ s.request o =
      (some .noInputFile, { s with alert := some ⟨.error, Refusal.noInputFile.message⟩ })) ∨
    (s.inFlight = false ∧ o.input.isEmpty = false ∧ s.request o =
      (none, { s with inFlight := true, alert := some (startingAlert o) })) := by
  cases h : s.inFlight with
  | true => exact .inl ⟨rfl, by rw [request, if_pos h]⟩
  | false =>
    unfold request ExportOptions.refusal?
    rw [h]
    cases o.input.isEmpty with
    | true => exact .inr (.inl ⟨rfl, rfl, rfl⟩)
    | false => exact .inr (.inr ⟨rfl, rfl, rfl⟩)

/-- On a host a request comes to the same, and is noted. -/
theorem start_run (s : Session) (o : ExportOptions) (h : Host) :
    ((s.start o).run h).1 = s.request o := by
  unfold start
  obtain ⟨-, hr⟩ | ⟨-, -, hr⟩ | ⟨-, -, hr⟩ := s.request_cases o <;> rw [hr] <;> rfl

/-! ## What every call keeps -/

/-- The session is the one that its history leads to. -/
structure Follows (operation : String) (history : List SessionEvent) (s : Session) : Prop where
  named : s.operation = operation
  running : s.inFlight = true ↔ Running history
  alert : s.alert = lastAlert operation history
  /-- between two beginnings there is an end -/
  apart : ∀ before o between o' after,
    history = before ++ ⟨.request o, .begun⟩ :: (between ++ ⟨.request o', .begun⟩ :: after) →
      ∃ e ∈ between, e.call.ends = true

theorem follows_new (operation : String) : Follows operation [] { operation } :=
  ⟨rfl, by simp [not_running_nil], rfl, fun before o between o' after h => by simp at h⟩

/-- An event that begins nothing: it is enough to look at its effect on the session. -/
theorem Follows.concat {s' : Session} (hs : Follows operation history s) (he : e.reply ≠ .begun)
    (hnamed : s'.operation = s.operation)
    (hflight : s'.inFlight = (!e.call.ends && s.inFlight))
    (halert : s'.alert = (e.alert? s.operation).getD s.alert) :
    Follows operation (history ++ [e]) s' := by
  refine ⟨hnamed.trans hs.named, ?_, ?_, fun before o between o' after h => ?_⟩
  · rw [running_concat he, hflight, ← hs.running, Bool.and_eq_true, Bool.not_eq_true']
  · rw [halert, lastAlert_concat, hs.named, hs.alert]
  · rw [← List.cons_append, ← List.append_assoc] at h
    obtain ⟨-, rfl, -⟩ | ⟨after', -, h⟩ := split_concat h
    · exact absurd rfl he
    · exact hs.apart before o between o' after' (by rw [h]; simp)

/-- A beginning: nothing was running when it came. -/
theorem Follows.concat_begun {o : ExportOptions} (hs : Follows operation history s)
    (hflight : s.inFlight = false) :
    Follows operation (history ++ [⟨.request o, .begun⟩])
      { s with inFlight := true, alert := some (startingAlert o) } := by
  refine ⟨hs.named, iff_of_true rfl (running_concat_begun o), ?_,
    fun before o₁ between o₂ after h => ?_⟩
  · rw [lastAlert_concat]
    rfl
  rw [← List.cons_append, ← List.append_assoc] at h
  obtain ⟨rfl, -, -⟩ | ⟨after', -, h⟩ := split_concat h
  · by_contra hnone
    have hrunning : Running (before ++ ⟨.request o₁, .begun⟩ :: between) :=
      ⟨before, o₁, between, rfl, by simpa using hnone⟩
    rw [← hs.running, hflight] at hrunning
    cases hrunning
  · exact hs.apart before o₁ between o₂ after' (by rw [h]; simp)

/-- **One call** keeps to the history. -/
theorem Follows.perform (hs : Follows operation history s) (c : SessionCall) :
    Follows operation (history ++ [⟨c, (s.perform c).1⟩]) (s.perform c).2 := by
  cases c with
  | request o =>
    simp only [Session.perform]
    obtain ⟨-, hr⟩ | ⟨-, -, hr⟩ | ⟨hflight, -, hr⟩ := s.request_cases o
    · rw [hr]
      exact hs.concat (by simp [SessionReply.ofRequest]) rfl rfl rfl
    · rw [hr]
      exact hs.concat (by simp [SessionReply.ofRequest]) rfl rfl rfl
    · rw [hr]
      exact hs.concat_begun hflight
  | finish o => exact hs.concat (by simp [Session.perform]) rfl rfl rfl
  | abort message => exact hs.concat (by simp [Session.perform]) rfl rfl rfl
  | replaceAlert a => exact hs.concat (by simp [Session.perform]) rfl rfl rfl
  | dismiss => exact hs.concat (by simp [Session.perform]) rfl rfl rfl

/-- Calls, one after the other, keep to the history. -/
theorem follows_performAll (operation : String) (calls : List SessionCall) :
    Follows operation (performAll { operation } calls).1 (performAll { operation } calls).2 := by
  induction calls using List.reverseRecOn with
  | nil => exact follows_new operation
  | append_singleton cs c ih =>
    rw [performAll_concat]
    exact ih.perform c

/-- An alert of a running export is seen only while one runs. -/
def Honest (s : Session) : Prop :=
  ∀ a, s.alert = some a → a.kind = .inProgress → s.inFlight = true

theorem honest_of_kind {a : Alert} (ha : a.kind ≠ .inProgress) (h : s.alert = some a) :
    Honest s := by
  intro b hb hkind
  rw [h] at hb
  cases hb
  exact absurd hkind ha

/-- Only a call that puts up an alert of its own can make the session dishonest. -/
theorem Honest.perform (hs : Honest s) {c : SessionCall} (hc : ∀ a, c ≠ .replaceAlert a) :
    Honest (s.perform c).2 := by
  cases c with
  | request o =>
    simp only [Session.perform]
    obtain ⟨-, hr⟩ | ⟨-, -, hr⟩ | ⟨-, -, hr⟩ := s.request_cases o
    · rw [hr]
      exact hs
    · rw [hr]
      exact honest_of_kind (by simp) rfl
    · rw [hr]
      exact fun _ _ _ => rfl
  | finish o => exact honest_of_kind (Outcome.alert_kind_ne o s.operation) rfl
  | abort message => exact honest_of_kind (by simp) rfl
  | replaceAlert a => exact absurd rfl (hc a)
  | dismiss => exact fun a h => by cases h

theorem honest_performAll (operation : String) {calls : List SessionCall}
    (h : ∀ a, .replaceAlert a ∉ calls) : Honest (performAll { operation } calls).2 := by
  induction calls using List.reverseRecOn with
  | nil => exact fun a h => by cases h
  | append_singleton cs c ih =>
    rw [performAll_concat]
    refine (ih fun a ha => h a (by simp [ha])).perform fun a ha => h a ?_
    rw [ha]
    simp

/-! ## Any sequence of calls -/

/-- **A session goes by its history.** After any calls to a new session, an export is in flight
exactly if one has begun and neither been finished nor aborted since, and between two beginnings
there is an end. The next request is refused because of it exactly if an export is in flight, and
changes nothing then; otherwise one without input is refused with an alert and starts nothing, and
any other one begins. To show and to hide an alert leaves the export alone. The alert is the one
that the last event with a say in it left, and unless a call has put up an alert of its own, that
an export is running is only said while one is. -/
theorem performAll_history (operation : String) (calls : List SessionCall) :
    let history := (performAll { operation } calls).1
    let s := (performAll { operation } calls).2
    history.map (·.call) = calls ∧
      (s.inFlight = true ↔ Running history) ∧
      (∀ before o between o' after,
        history = before ++ ⟨.request o, .begun⟩ :: (between ++ ⟨.request o', .begun⟩ :: after) →
          ∃ e ∈ between, e.call.ends = true) ∧
      (∀ o, ((s.request o).1 = some .exportInFlight ↔ s.inFlight = true) ∧
        (s.inFlight = true → (s.request o).2 = s) ∧
        ((s.request o).1 = some .noInputFile ↔ s.inFlight = false ∧ o.input.isEmpty = true) ∧
        ((s.request o).1 = some .noInputFile → (s.request o).2 =
          { s with inFlight := false, alert := some ⟨.error, "No input file selected"⟩ }) ∧
        ((s.request o).1 = none → (s.request o).2 =
          { s with inFlight := true, alert := some (startingAlert o) }) ∧
        ∀ h, ((s.start o).run h).1 = s.request o) ∧
      s.dismiss.inFlight = s.inFlight ∧
      (∀ a, (s.replaceAlert a).inFlight = s.inFlight) ∧
      s.alert = lastAlert operation history ∧
      ((∀ a, .replaceAlert a ∉ calls) →
        ∀ a, s.alert = some a → a.kind = .inProgress → s.inFlight = true) := by
  intro history s
  have hs : Follows operation history s := follows_performAll operation calls
  refine ⟨map_call_performAll _ calls, hs.running, hs.apart, fun o => ?_, rfl, fun _ => rfl,
    hs.alert, honest_performAll operation⟩
  obtain ⟨hflight, hr⟩ | ⟨hflight, ho, hr⟩ | ⟨hflight, ho, hr⟩ := s.request_cases o
  · simp [hr, hflight, start_run]
  · simp [hr, hflight, ho, start_run, Refusal.message]
  · simp [hr, hflight, ho, start_run]

/-- Two exports: the first one is asked for twice, the second one at first without an input. -/
def twoExports : List SessionCall :=
  [.request { input := .ofText "a.mp4", outputDirectory := .ofText "out" },
   .request { input := ⟨[]⟩, outputDirectory := .ofText "out" }, .dismiss, .finish (.success ""),
   .request { input := ⟨[]⟩, outputDirectory := .ofText "out" },
   .request { input := .ofText "b.mp4", outputDirectory := .ofText "out", format := .premiere }]

theorem performAll_history_twoExports :
    (∀ a, .replaceAlert a ∉ twoExports) ∧
      (performAll { operation := "Export" } twoExports).2.alert =
        some ⟨.inProgress, "Exporting b.mp4 as Premiere Pro XML..."⟩ ∧
      (performAll { operation := "Export" } twoExports).2.inFlight = true := by
  have hcalls : ∀ a, .replaceAlert a ∉ twoExports := by simp [twoExports]
  have halert : (performAll { operation := "Export" } twoExports).2.alert =
      some ⟨.inProgress, "Exporting b.mp4 as Premiere Pro XML..."⟩ := by decide +kernel
  obtain ⟨-, -, -, -, -, -, -, honest⟩ := performAll_history "Export" twoExports
  exact ⟨hcalls, halert, honest hcalls _ halert rfl⟩

end Session

end ExportDesk
