import ExportDesk.Proofs.Host
import Mathlib.Data.List.Basic
import Mathlib.Order.Defs.Unbundled

/-!
# What the record tells

The record of a host tells what was asked and what was done about the tool. `Host.Went` says of two
hosts which of both came in between, and by a relation what became of the files. Work that is
`OnHost.Quiet` asks nothing and leaves the tool alone; the rules put the claims about longer work
together from those about its steps.
-/

namespace ExportDesk

/-- Is the entry about the running of the tool? -/
def Entry.isOfTool : Entry → Bool
  | .started _ _ => true
  | .noted e => e.source = .bridge ∨ e.source = .capability
  | .printed _ _ | .asked _ | .logOpened _ => false

/-- The question that was put. -/
def Entry.question? : Entry → Option Question
  | .asked q => some q
  | .started _ _ | .noted _ | .printed _ _ | .logOpened _ => none

/-- The program that was started, with its arguments. -/
def Entry.start? : Entry → Option (String × List String)
  | .started program arguments => some (program, arguments)
  | .noted _ | .printed _ _ | .asked _ | .logOpened _ => none

namespace Host

/-- All of the record that is about the running of the tool. -/
def toolTrace (h : Host) : List Entry := h.record.toList.filter Entry.isOfTool

/-- The host with entries added to its record. -/
def entered (h : Host) (es : List Entry) : Host := { h with record := es.foldl Array.push h.record }

theorem toList_entered (h : Host) (es : List Entry) :
    (h.entered es).record.toList = h.record.toList ++ es := by
  induction es generalizing h with
  | nil => exact (List.append_nil _).symm
  | cons e es ih =>
    show ((h.entered [e]).entered es).record.toList = _
    rw [ih, List.append_cons]
    exact congrArg (· ++ es) Array.toList_push

theorem questions_eq (h : Host) : h.questions = h.record.toList.filterMap Entry.question? :=
  List.filterMap_congr fun e _ => by cases e <;> rfl

theorem starts_eq_filterMap (h : Host) : h.starts = h.record.toList.filterMap Entry.start? :=
  List.filterMap_congr fun e _ => by cases e <;> rfl

theorem starts_entered (h : Host) (es : List Entry) :
    (h.entered es).starts = h.starts ++ es.filterMap Entry.start? := by
  rw [starts_eq_filterMap, toList_entered, List.filterMap_append, starts_eq_filterMap]

variable {F : FileSystem → FileSystem → Prop} {tool tool' : List Entry}
  {asked asked' : List Question} {h h₁ h₂ h₃ : Host}

/-- From one host to a later one: what was done about the tool in between and what was asked. What
became of the files goes by `F`. -/
structure Went (F : FileSystem → FileSystem → Prop) (tool : List Entry) (asked : List Question)
    (h h' : Host) : Prop where
  environment : h'.environment = h.environment
  launcher : h'.launcher = h.launcher
  choices : h'.choices = h.choices
  files : F h.files h'.files
  tool : h'.toolTrace = h.toolTrace ++ tool
  asked : h'.questions = h.questions ++ asked

namespace Went

theorem refl [IsPreorder FileSystem F] (h : Host) : h.Went F [] [] h :=
  ⟨rfl, rfl, rfl, refl_of F _, (List.append_nil _).symm, (List.append_nil _).symm⟩

theorem trans [IsPreorder FileSystem F] (hw : h₁.Went F tool asked h₂)
    (hw' : h₂.Went F tool' asked' h₃) : h₁.Went F (tool ++ tool') (asked ++ asked') h₃ := by
  refine ⟨hw'.environment.trans hw.environment, hw'.launcher.trans hw.launcher,
    hw'.choices.trans hw.choices, trans_of F hw.files hw'.files, ?_, ?_⟩
  · rw [hw'.tool, hw.tool, List.append_assoc]
  · rw [hw'.asked, hw.asked, List.append_assoc]

theorem thenQuiet [IsPreorder FileSystem F] (hw : h₁.Went F tool asked h₂)
    (hw' : h₂.Went F [] [] h₃) : h₁.Went F tool asked h₃ := by
  simpa only [List.append_nil] using hw.trans hw'

theorem mono {G : FileSystem → FileSystem → Prop} (hw : h₁.Went F tool asked h₂)
    (hFG : F h₁.files h₂.files → G h₁.files h₂.files) : h₁.Went G tool asked h₂ :=
  ⟨hw.environment, hw.launcher, hw.choices, hFG hw.files, hw.tool, hw.asked⟩

theorem entered [IsPreorder FileSystem F] (h : Host) (es : List Entry) :
    h.Went F (es.filter Entry.isOfTool) (es.filterMap Entry.question?) (h.entered es) := by
  refine ⟨rfl, rfl, rfl, refl_of F _, ?_, ?_⟩
  · rw [toolTrace, toList_entered, List.filter_append]
    rfl
  · rw [questions_eq, toList_entered, List.filterMap_append, questions_eq]

/-- Entries that are all about the running of the tool. -/
theorem enteredOfTool [IsPreorder FileSystem F] (h : Host) {es : List Entry}
    (hes : ∀ e ∈ es, e.isOfTool = true) : h.Went F es [] (h.entered es) := by
  have hw : h.Went F _ _ (h.entered es) := .entered h es
  have hasked : es.filterMap Entry.question? = [] := by
    refine List.filterMap_eq_nil_iff.2 fun e he => ?_
    have htool := hes e he
    cases e with
    | asked q => cases htool
    | _ => rfl
  rwa [List.filter_eq_self.2 hes, hasked] at hw

end Went

end Host

/-- Nothing is said about what becomes of the files. -/
def FileSystem.AnyChange (_ _ : FileSystem) : Prop := True

instance : IsPreorder FileSystem FileSystem.AnyChange where
  refl _ := trivial
  trans _ _ _ _ _ := trivial

namespace OnHost

section

variable {h : Host} {program : String} {arguments : List String} {fs : FileSystem}

/-- A start that fails leaves the files as the system left them. -/
theorem launch_error {e : IoError}
    (hlaunch : (h.launcher h.environment program arguments).run h.files = (.error e, fs)) :
    (launch program arguments).run h = (.error e, { h with files := fs }) := by
  unfold launch
  rw [StateT.run_bind, StateT.run_get, pure_bind]
  dsimp only
  rw [hlaunch]
  rfl

/-- A start enters the record. -/
theorem launch_ok {child : ChildRun}
    (hlaunch : (h.launcher h.environment program arguments).run h.files = (.ok child, fs)) :
    (launch program arguments).run h =
      (.ok child, { h with files := fs }.entered [.started program arguments]) := by
  unfold launch
  rw [StateT.run_bind, StateT.run_get, pure_bind]
  dsimp only
  rw [hlaunch]
  rfl

end

variable {α β : Type} {F : FileSystem → FileSystem → Prop} {Q : α → Prop} {R : β → Prop}

/-- The work asks nothing and leaves the tool alone, and its result satisfies `Q`. -/
def Quiet (F : FileSystem → FileSystem → Prop) (m : OnHost α) (Q : α → Prop) : Prop :=
  ∀ h, h.Went F [] [] (m.run h).2 ∧ Q (m.run h).1

namespace Quiet

variable [IsPreorder FileSystem F]

theorem pure {a : α} (ha : Q a) : Quiet F (pure a) Q := fun h => ⟨.refl h, ha⟩

theorem bind {m : OnHost α} {f : α → OnHost β} (hm : Quiet F m Q)
    (hf : ∀ a, Q a → Quiet F (f a) R) : Quiet F (m >>= f) R := by
  intro h
  obtain ⟨hw, ha⟩ := hm h
  obtain ⟨hw', hb⟩ := hf _ ha (m.run h).2
  exact ⟨hw.trans hw', hb⟩

omit [IsPreorder FileSystem F] in
theorem get_bind {f : Host → OnHost β} (hf : ∀ h, Quiet F (f h) R) : Quiet F (get >>= f) R :=
  fun h => hf h h

theorem enter {e : Entry} (htool : e.isOfTool = false) (hasked : e.question? = none) :
    Quiet F (enter e) fun _ => True := by
  intro h
  have hw : h.Went F _ _ (h.entered [e]) := .entered h [e]
  rw [List.filter_cons_of_neg (by simp [htool]), List.filterMap_cons_none hasked] at hw
  exact ⟨hw, trivial⟩

theorem note (level : LogLevel) {source : Source} (message : String)
    (hbridge : source ≠ .bridge) (hcapability : source ≠ .capability) :
    Quiet F (note level source message) fun _ => True :=
  enter (by simp [Entry.isOfTool, hbridge, hcapability]) rfl

theorem print (s : OutputStream) (text : String) : Quiet F (print s text) fun _ => True :=
  enter rfl rfl

theorem printLine (s : OutputStream) (text : String) :
    Quiet F (printLine s text) fun _ => True := print s _

omit [IsPreorder FileSystem F] in
theorem disk {d : Disk α} (hd : Disk.Within F d) : Quiet F (disk d) fun _ => True := by
  intro h
  exact ⟨⟨rfl, rfl, rfl, hd h.files, (List.append_nil _).symm, (List.append_nil _).symm⟩, trivial⟩

/-- A question, and then quiet work with the answer. -/
theorem ask_bind {q : Question} {f : Option Path → OnHost β} {h : Host}
    (hf : Quiet F (f (h.choices q)) R) :
    h.Went F [] [q] ((ask q >>= f).run h).2 ∧ R ((ask q >>= f).run h).1 := by
  have hasked : h.Went F [] [q] (h.entered [.asked q]) := .entered h [.asked q]
  obtain ⟨hw, hb⟩ := hf (h.entered [.asked q])
  exact ⟨hasked.trans hw, hb⟩

end Quiet

end OnHost

end ExportDesk
