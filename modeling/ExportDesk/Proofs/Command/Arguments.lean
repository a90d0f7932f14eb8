import ExportDesk.Command.Build
import ExportDesk.Proofs.Text.Utf8

/-!
# What the tool is given

`buildInvocation_argv`: the argument list of an export has the shape that the tool expects, and
determines what people read of the input. The tool is given the input's own bytes exactly if they
are a text (`Invocation.givesInput_iff`). Inputs that read the same are given alike, so that one of
two files may be cut in place of the other.
-/

namespace ExportDesk

open Text

/-- A program is given the bytes of its arguments. Where the tool looks for the input, it is given
the input's own. -/
def Invocation.GivesInput (i : Invocation) (t : ToolSettings) (input : Path) : Prop :=
  (i.argv[t.leadingArgs.length + 1]?).map encode = some input.bytes

/-- What is given in the input's place. -/
theorem Invocation.argv_input (o : ExportOptions) (t : ToolSettings) :
    (buildInvocation o t).argv[t.leadingArgs.length + 1]? = some o.input.display := by
  show (t.leadingArgs ++ exportArguments o)[t.leadingArgs.length]? = _
  rw [List.getElem?_append_right (Nat.le_refl _), Nat.sub_self]
  rfl

/-- **The input's own bytes** are given exactly if they are a text. -/
theorem Invocation.givesInput_iff (o : ExportOptions) (t : ToolSettings) :
    (buildInvocation o t).GivesInput t o.input ↔ isUtf8 o.input.bytes = true := by
  rw [GivesInput, argv_input, Option.map_some, Option.some_inj]
  exact encode_decodeLossy_iff o.input.bytes

/-- Paths that are texts are told apart by what people read of them. -/
theorem Path.eq_of_display {p q : Path} (hp : isUtf8 p.bytes = true) (hq : isUtf8 q.bytes = true)
    (h : p.display = q.display) : p = q := by
  have hbytes : p.bytes = q.bytes := by
    rw [← (encode_decodeLossy_iff p.bytes).2 hp, ← (encode_decodeLossy_iff q.bytes).2 hq]
    exact congrArg encode h
  cases p
  exact congrArg Path.mk hbytes

/-- A path that a text names is read as that text. -/
theorem Path.display_ofText (s : String) : (Path.ofText s).display = s :=
  decodeLossy_of_decode? (decode?_encode s)

/-- The command depends on what people read of the input. -/
theorem buildInvocation_congr {o : ExportOptions} {input : Path}
    (h : input.display = o.input.display) (t : ToolSettings) :
    buildInvocation { o with input } t = buildInvocation o t := by
  unfold buildInvocation exportArguments outputPath
  rw [h]
  rfl

theorem length_exportArguments (o : ExportOptions) : (exportArguments o).length = 9 := rfl

/-- Argument lists that are the same have as many leading arguments, whatever these are. -/
theorem length_leadingArgs {o o' : ExportOptions} {t t' : ToolSettings}
    (h : (buildInvocation o' t').argv = (buildInvocation o t).argv) :
    t'.leadingArgs.length = t.leadingArgs.length := by
  have hlength := congrArg List.length h
  simp only [Invocation.argv, buildInvocation, List.length_cons, List.length_append,
    length_exportArguments] at hlength
  omega

/-- **The argument list of an export.** The program comes first, then its leading arguments, and
then the input and the options, in this order and with nothing else; the result's path is given
byte for byte. Only inputs that read the same can have the same argument list, whatever the other
options and the tools are, so two inputs that are texts never do. Apart from that the list does not
depend on the input's bytes: inputs that read the same always have the same list. -/
theorem buildInvocation_argv (o : ExportOptions) (t : ToolSettings) :
    let i := buildInvocation o t
    i.argv = t.effectiveProgram :: t.leadingArgs ++
        [o.input.display, "--export", o.format.name,
          "--edit", "audio:" ++ NumberLayout.plain.write o.effectiveLoudness ++ "dB",
          "--margin", NumberLayout.plain.write o.effectiveMargin ++ "s",
          "--output", i.outputPath.display] ∧
      encode i.outputPath.display = i.outputPath.bytes ∧
      (i.GivesInput t o.input ↔ isUtf8 o.input.bytes = true) ∧
      (∀ o' t', (buildInvocation o' t').argv = i.argv →
        o'.input.display = o.input.display ∧
          (isUtf8 o.input.bytes = true → isUtf8 o'.input.bytes = true → o'.input = o.input)) ∧
      ∀ input : Path, (buildInvocation { o with input } t).argv = i.argv ↔
        input.display = o.input.display := by
  intro i
  have hdisplay (o' : ExportOptions) (t' : ToolSettings)
      (h : (buildInvocation o' t').argv = i.argv) : o'.input.display = o.input.display := by
    have hinput := Invocation.argv_input o' t'
    rw [h, length_leadingArgs h, Invocation.argv_input] at hinput
    exact (Option.some_inj.1 hinput).symm
  refine ⟨rfl, ?_, Invocation.givesInput_iff o t, fun o' t' h => ⟨hdisplay o' t' h, ?_⟩,
    fun input => ⟨hdisplay { o with input } t, fun h => ?_⟩⟩
  · -- the path of the result is a text, although the folder's need not be
    obtain ⟨name, hname⟩ : ∃ name, i.outputPath = Path.ofText name := ⟨_, rfl⟩
    rw [hname, Path.display_ofText]
    rfl
  · exact fun hinput hinput' => Path.eq_of_display hinput' hinput (hdisplay o' t' h)
  · rw [buildInvocation_congr h]

/-- An export of a file to the folder `out`. -/
def exportOf (input : Path) : ExportOptions := { input, outputDirectory := .ofText "out" }

/-- Names with everything in them that a shell would trip over, and that look like options. -/
theorem buildInvocation_argv_quoted :
    let input : Path := .ofText "--my \"best\"\nclip's \\ cut é.mov"
    let other : Path := .ofText "--my \"best\" clip's \\ cut é.mov"
    let i := buildInvocation (exportOf input) {}
    isUtf8 input.bytes = true ∧ isUtf8 other.bytes = true ∧ i.GivesInput {} input ∧
      (buildInvocation (exportOf other) {}).argv ≠ i.argv := by
  intro input other i
  have hinput : isUtf8 input.bytes = true := by decide +kernel
  have hother : isUtf8 other.bytes = true := by decide +kernel
  obtain ⟨-, -, hgives, hapart, -⟩ := buildInvocation_argv (exportOf input) {}
  refine ⟨hinput, hother, hgives.2 hinput, fun hsame => ?_⟩
  have heq : other = input := (hapart (exportOf other) {} hsame).2 hinput hother
  exact absurd heq (by decide +kernel)

/-- A name that is no text is given as another one, which another file may have. -/
theorem not_givesInput_latin1 :
    let input : Path := ⟨[0xE9] ++ encode ".mp4"⟩
    let other : Path := .ofText "\uFFFD.mp4"
    ¬ (buildInvocation (exportOf input) {}).GivesInput {} input ∧ other ≠ input ∧
      (buildInvocation (exportOf other) {}).argv = (buildInvocation (exportOf input) {}).argv ∧
      (buildInvocation (exportOf input) {}).GivesInput {} other := by
  unfold Invocation.GivesInput
  decide +kernel

end ExportDesk
