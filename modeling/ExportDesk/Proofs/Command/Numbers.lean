import ExportDesk.Command.Build
import ExportDesk.Program.Choices
import ExportDesk.Proofs.Number.Fields
import ExportDesk.Proofs.Number.Plain

/-!
# Numbers the tool is given

`buildInvocation_numbers`: whatever is typed for the loudness and the margin, and whatever the
settings hold for them, the tool is given two decimals in their units, the margin without a minus.

A number is looked at twice: in the field it is typed into, and where the command is built, which
alone sees the numbers of the settings. Both put the same default in place of the same numbers, so
that looking twice does what looking once does (`Field.orDefault_orDefault`).
-/

namespace ExportDesk

open NumberLayout

namespace Field

/-- The number that is read, sound or not, where one is asked for. -/
def read? (units : List String) (typed : Option String) (stored : Binary64) : Option Binary64 :=
  match typed with
  | some text => Literal.read (dropUnits units (Text.trimChars text.toList))
  | none => some stored

theorem Units.read?_eq_some_iff {units : List String} (h : Units units) {typed : Option String}
    {stored x : Binary64} : read? units typed stored = some x ↔ Asks units typed stored x := by
  cases typed with
  | some text => exact h.asks_typed_iff.symm
  | none =>
    constructor
    · rintro ⟨rfl⟩
      exact .stored _
    · rintro ⟨⟩
      rfl

/-- A sound number as it is, and the default in place of any other and of none. -/
def orDefault (isSound : Binary64 → Bool) (default : Binary64) (x? : Option Binary64) : Binary64 :=
  (x?.filter isSound).getD default

section

variable {isSound : Binary64 → Bool} {default x : Binary64}

theorem orDefault_of_sound (h : isSound x = true) : orDefault isSound default (some x) = x := by
  unfold orDefault
  rw [Option.filter_some, if_pos h]
  rfl

theorem orDefault_of_unsound {x? : Option Binary64} (h : ∀ x, x? = some x → isSound x = false) :
    orDefault isSound default x? = default := by
  unfold orDefault
  cases x? with
  | none => rfl
  | some x =>
    rw [Option.filter_some, if_neg (Bool.not_eq_true _ ▸ h x rfl)]
    rfl

/-- It is the default, or the sound number that was asked for. -/
theorem orDefault_cases (isSound : Binary64 → Bool) (default : Binary64) (x? : Option Binary64) :
    orDefault isSound default x? = default ∨
      ∃ x, x? = some x ∧ isSound x = true ∧ orDefault isSound default x? = x := by
  by_cases h : ∃ x, x? = some x ∧ isSound x = true
  · obtain ⟨x, rfl, hx⟩ := h
    exact .inr ⟨x, rfl, hx, orDefault_of_sound hx⟩
  · refine .inl (orDefault_of_unsound fun x hx => Bool.eq_false_iff.2 fun hsound => ?_)
    exact h ⟨x, hx, hsound⟩

/-- Looking at a number once more changes nothing. -/
theorem orDefault_orDefault (x? : Option Binary64) :
    orDefault isSound default (some (orDefault isSound default x?)) =
      orDefault isSound default x? := by
  obtain hdefault | ⟨x, -, hx, hsame⟩ := orDefault_cases isSound default x?
  · rw [hdefault]
    unfold orDefault
    rw [Option.filter_some]
    split <;> rfl
  · rw [hsame, orDefault_of_sound hx]

end

/-- Is the number one that a margin can have? -/
def isSoundMargin (x : Binary64) : Bool := x.isFinite && x.isPositive

end Field

open ExportDesk.Field

/-! ## Loudness and margin -/

theorem readLoudness_eq (text : String) (stored : Binary64) :
    readLoudness text =
      orDefault Binary64.isFinite defaultLoudness (read? loudnessUnits (some text) stored) := rfl

theorem readMargin_eq (text : String) (stored : Binary64) :
    readMargin text =
      orDefault isSoundMargin defaultMargin (read? marginUnits (some text) stored) := by
  unfold readMargin readNumber? orDefault
  rw [Option.filter_filter]
  rfl

theorem ExportOptions.effectiveLoudness_eq (o : ExportOptions) :
    o.effectiveLoudness = orDefault Binary64.isFinite defaultLoudness (some o.loudness) := by
  unfold effectiveLoudness orDefault
  rw [Option.filter_some]
  split <;> rfl

theorem ExportOptions.effectiveMargin_eq (o : ExportOptions) :
    o.effectiveMargin = orDefault isSoundMargin defaultMargin (some o.margin) := by
  unfold effectiveMargin orDefault isSoundMargin
  rw [Option.filter_some]
  split <;> rfl

/-- **The loudness on the command line** depends on what was asked for alone, wherever from. -/
theorem ExportRequest.effectiveLoudness_options (r : ExportRequest) (s : ExportSettings)
    (input folder : Path) :
    (r.options s input folder).effectiveLoudness =
      orDefault Binary64.isFinite defaultLoudness (read? loudnessUnits r.loudness s.loudness) := by
  have hoption : (r.options s input folder).loudness =
      (r.loudness.map readLoudness).getD s.loudness := rfl
  rw [ExportOptions.effectiveLoudness_eq, hoption]
  cases r.loudness with
  | none => rfl
  | some text =>
    rw [Option.map_some, Option.getD_some, readLoudness_eq text s.loudness, orDefault_orDefault]

/-- **The margin on the command line** depends on what was asked for alone, wherever from. -/
theorem ExportRequest.effectiveMargin_options (r : ExportRequest) (s : ExportSettings)
    (input folder : Path) :
    (r.options s input folder).effectiveMargin =
      orDefault isSoundMargin defaultMargin (read? marginUnits r.margin s.margin) := by
  have hoption : (r.options s input folder).margin =
      (r.margin.map readMargin).getD s.margin := rfl
  rw [ExportOptions.effectiveMargin_eq, hoption]
  cases r.margin with
  | none => rfl
  | some text =>
    rw [Option.map_some, Option.getD_some, readMargin_eq text s.margin, orDefault_orDefault]

/-- A margin on the command line is never below zero, nor a zero with a sign. -/
theorem ExportOptions.effectiveMargin_sign (o : ExportOptions) :
    o.effectiveMargin.sign = false := by
  rw [effectiveMargin_eq]
  obtain hdefault | ⟨x, -, hx, hsame⟩ :=
    orDefault_cases isSoundMargin defaultMargin (some o.margin)
  · rw [hdefault]
    decide
  · unfold isSoundMargin Binary64.isPositive at hx
    simp only [Bool.and_eq_true, Bool.not_eq_true'] at hx
    rw [hsame, hx.2.1.1]

/-- **The numbers on the command line of an export.** Whatever is typed and whatever is stored, the
loudness is a finite decimal in decibels and the margin a finite one in seconds without a minus, and
each stands for one number exactly. That number is the one that was asked for if it is finite and,
for the margin, above zero. In place of any other number, and of a text that asks for none, it is
the default. -/
theorem buildInvocation_numbers (r : ExportRequest) (s : ExportSettings) (input folder : Path)
    (t : ToolSettings) :
    let o := r.options s input folder
    let i := buildInvocation o t
    ∃ (loudness margin : Binary64) (shownLoudness shownMargin : String),
      i.argv = t.effectiveProgram :: t.leadingArgs ++
        [input.display, "--export", o.format.name, "--edit", "audio:" ++ shownLoudness ++ "dB",
          "--margin", shownMargin ++ "s", "--output", i.outputPath.display] ∧
      (loudness.isFinite = true ∧ IsNumeral loudness shownLoudness) ∧
      (margin.isFinite = true ∧ IsNumeral margin shownMargin ∧ '-' ∉ shownMargin.toList) ∧
      (∀ x, Asks loudnessUnits r.loudness s.loudness x → x.isFinite = true → loudness = x) ∧
      ((∀ x, Asks loudnessUnits r.loudness s.loudness x → x.isFinite = false) →
        loudness = defaultLoudness) ∧
      (∀ x, Asks marginUnits r.margin s.margin x → x.isFinite = true → x.isPositive = true →
        margin = x) ∧
      ((∀ x, Asks marginUnits r.margin s.margin x → (x.isFinite && x.isPositive) = false) →
        margin = defaultMargin) := by
  intro o i
  simp only [← units_loudness.read?_eq_some_iff, ← units_margin.read?_eq_some_iff]
  have hloudness : o.effectiveLoudness = orDefault Binary64.isFinite defaultLoudness
      (read? loudnessUnits r.loudness s.loudness) := r.effectiveLoudness_options s input folder
  have hmargin : o.effectiveMargin = orDefault isSoundMargin defaultMargin
      (read? marginUnits r.margin s.margin) := r.effectiveMargin_options s input folder
  have hshown : IsNumeral o.effectiveLoudness (plain.write o.effectiveLoudness) :=
    isNumeral_plain o.effectiveLoudness_isFinite
  have hshown' : IsNumeral o.effectiveMargin (plain.write o.effectiveMargin) :=
    isNumeral_plain o.effectiveMargin_isFinite
  have hminus : '-' ∉ (plain.write o.effectiveMargin).toList := by
    rw [hshown'.minus_mem_iff, o.effectiveMargin_sign]
    exact Bool.false_ne_true
  refine ⟨o.effectiveLoudness, o.effectiveMargin, _, _, rfl,
    ⟨o.effectiveLoudness_isFinite, hshown⟩, ⟨o.effectiveMargin_isFinite, hshown', hminus⟩,
    fun x hx hsound => ?_, fun hunsound => ?_, fun x hx hfinite hpositive => ?_,
    fun hunsound => ?_⟩
  · rw [hloudness, hx, orDefault_of_sound hsound]
  · rw [hloudness, orDefault_of_unsound hunsound]
  · rw [hmargin, hx, orDefault_of_sound (Bool.and_eq_true_iff.2 ⟨hfinite, hpositive⟩)]
  · rw [hmargin]
    exact orDefault_of_unsound hunsound

/-- A literal beyond every finite number, and a stored zero with its sign set. -/
example :
    let r : ExportRequest := { loudness := some "1e400 dB" }
    let s : ExportSettings := { margin := Binary64.zero true }
    let o := r.options s (.ofText "a.mp4") (.ofText "out")
    (exportArguments o).drop 3 =
      ["--edit", "audio:-19dB", "--margin", "0s", "--output", "out/a.xml"] := by
  decide +kernel

end ExportDesk
