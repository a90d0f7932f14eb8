import ExportDesk.Command.OutputPath
import ExportDesk.Format
import ExportDesk.Proofs.Command.Arguments
import ExportDesk.Proofs.Files.Components
import ExportDesk.Proofs.Text.Blank
import Mathlib.Data.List.DropRight

/-!
# Where the output file lies

`outputPath_in_folder`: the output file lies directly in the output folder, under a name that is
made of the last name of the input, whichever kinds of slashes the input uses. The folder that is
made for it is the one that its path leads to.

`outputPath_of_output`: the output of an output is that of the first input. What is cut off as an
extension is just what was put on as one (`stem_append`), and no part of the folder gets into the
name (`baseName_inFolder`).
-/

namespace ExportDesk

open Text

namespace OutputPath

/-! ## The name -/

/-- The last name of a text is what follows its last slash. -/
structure IsLastName (base text : List Char) : Prop where
  plain : ∀ c ∈ base, isSlash c = false
  last : ∃ folder, text = folder ++ base ∧ ∀ c, folder.getLast? = some c → isSlash c = true

theorem isLastName_baseName (cs : List Char) : IsLastName (baseName cs) cs where
  plain c hc := by simpa using List.mem_rtakeWhile_imp (p := (!isSlash ·)) hc
  last := by
    refine ⟨cs.rdropWhile (!isSlash ·), (List.rdropWhile_append_rtakeWhile).symm, fun c hc => ?_⟩
    simpa using not_of_getLast?_rdropWhile hc

theorem baseName_eq_self {cs : List Char} (h : ∀ c ∈ cs, isSlash c = false) :
    baseName cs = cs := by
  refine List.rtakeWhile_eq_self_iff.2 fun c hc => ?_
  rw [h c hc]
  rfl

theorem stem_subset (name : List Char) : stem name ⊆ name := by
  unfold stem
  dsimp only
  split
  · exact List.Subset.refl name
  · exact List.take_subset _ _

/-- A name of a file is one that has a stem before the extension and stays in its folder. -/
structure IsFileName (name extension : List Char) : Prop where
  stem : ∃ stem, stem ≠ [] ∧ name = stem ++ extension
  plain : ∀ c ∈ name, isSlash c = false
  ne_here : name ≠ ['.']
  ne_up : name ≠ ['.', '.']

/-- The name depends on the last name of the input alone. -/
theorem fileName_baseName (input extension : List Char) :
    fileName (baseName input) extension = fileName input extension := by
  unfold fileName
  rw [baseName_eq_self (isLastName_baseName input).plain]

theorem extension_spec (f : ExportFormat) :
    (∀ c ∈ f.extension.toList, isSlash c = false) ∧ 1 < f.extension.toList.length := by
  have hall : f.extension.toList.all (!isSlash ·) = true ∧ 1 < f.extension.toList.length := by
    cases f <;> decide +kernel
  exact ⟨fun c hc => by simpa using List.all_eq_true.1 hall.1 c hc, hall.2⟩

/-- The stem of an output file stays in its folder and is not empty; the extension has no part in
it. -/
theorem exists_stem (input : List Char) :
    ∃ s, s ≠ [] ∧ (∀ c ∈ s, isSlash c = false) ∧
      ∀ extension, fileName input extension = s ++ extension := by
  refine ⟨_, ?_, fun c hc => ?_, fun extension => rfl⟩
  · split
    next => decide
    next h => simpa using h
  · split at hc
    next =>
      have hall : fallbackStem.all (!isSlash ·) = true := by decide
      simpa using List.all_eq_true.1 hall c hc
    next => exact (isLastName_baseName input).plain c (stem_subset _ hc)

theorem isFileName_fileName (input : List Char) (f : ExportFormat) :
    IsFileName (fileName input f.extension.toList) f.extension.toList := by
  obtain ⟨hext, hlong⟩ := extension_spec f
  obtain ⟨s, hne, hplain, hnames⟩ := exists_stem input
  have hname := hnames f.extension.toList
  have hlen : 2 < (fileName input f.extension.toList).length := by
    have := List.length_pos_iff.2 hne
    rw [hname, List.length_append]
    omega
  refine ⟨⟨s, hne, hname⟩, fun c hc => ?_, fun h => ?_, fun h => ?_⟩
  · rw [hname] at hc
    exact (List.mem_append.1 hc).elim (hplain c) (hext c)
  · rw [h] at hlen
    exact absurd hlen (by decide)
  · rw [h] at hlen
    exact absurd hlen (by decide)

/-! ## The folder -/

/-- A text without the slashes at its end. -/
structure IsTrimmed (front text : List Char) : Prop where
  last : ∀ c, front.getLast? = some c → isSlash c = false
  slashes : ∃ slashes, text = front ++ slashes ∧ ∀ c ∈ slashes, isSlash c = true

theorem isTrimmed_trimSlashes (cs : List Char) : IsTrimmed (trimSlashes cs) cs where
  last _ hc := not_of_getLast?_rdropWhile hc
  slashes := ⟨cs.rtakeWhile isSlash, (List.rdropWhile_append_rtakeWhile).symm,
    fun _ hc => List.mem_rtakeWhile_imp hc⟩

theorem isSlash_slashFor (dir : List Char) : isSlash (slashFor dir) = true := by
  unfold slashFor
  split <;> rfl

/-- A folder that uses no `\` is joined by `/`. -/
theorem slashFor_of_not_mem {dir : List Char} (h : '\\' ∉ dir) : slashFor dir = '/' := by
  unfold slashFor
  rw [if_neg (by simp [h])]

/-- The path of a name in a folder. -/
def inFolder (dir name : List Char) : List Char :=
  if dir.isEmpty then name else trimSlashes dir ++ slashFor dir :: name

theorem chars_eq (input dir extension : List Char) :
    chars input dir extension = inFolder dir (fileName input extension) := rfl

/-- The bytes before the name are those of the folder, with one separator at the end. -/
theorem exists_folderBytes {dir : String} (h : '\\' ∉ dir.toList) :
    ∃ pre : Bytes, Path.EndsFolder pre ∧
      (⟨pre⟩ : Path).isAbsolute = (Path.ofText dir).isAbsolute ∧
      (⟨pre⟩ : Path).segments = (Path.ofText dir).segments ∧
      ∀ name, encode (String.ofList (inFolder dir.toList name)) =
        pre ++ encode (String.ofList name) := by
  have hslash : String.utf8EncodeChar '/' = [Path.separator] := by decide
  cases hempty : dir.toList.isEmpty with
  | true =>
    obtain rfl : dir = "" := String.toList_eq_nil_iff.1 (List.isEmpty_iff.1 hempty)
    exact ⟨[], .inl rfl, rfl, rfl, fun name => rfl⟩
  | false =>
    obtain ⟨slashes, hdir, hslashes⟩ := (isTrimmed_trimSlashes dir.toList).slashes
    have hall : slashes = List.replicate slashes.length '/' := by
      refine List.eq_replicate_of_mem fun c hc => ?_
      have hc' : c ∈ dir.toList := by rw [hdir]; exact List.mem_append_right _ hc
      have hne : c ≠ '\\' := fun heq => h (heq ▸ hc')
      simpa [isSlash, hne] using hslashes c hc
    have hbytes : encode dir = (trimSlashes dir.toList).flatMap String.utf8EncodeChar ++
        List.replicate slashes.length Path.separator := by
      conv => lhs; rw [encode, hdir, hall]
      simp [List.flatMap_replicate, hslash]
    refine ⟨(trimSlashes dir.toList).flatMap String.utf8EncodeChar ++ [Path.separator],
      .inr ⟨_, rfl⟩, ?_, ?_, fun name => ?_⟩
    · rw [Path.ofText, hbytes]
      refine Path.isAbsolute_append_slashes fun hnil => ?_
      rw [eq_empty_of_encode (hbytes.trans hnil)] at hempty
      cases hempty
    · rw [Path.segments_append_slash, Path.ofText, hbytes, Path.segments_append_slashes]
    · simp [inFolder, hempty, encode, slashFor_of_not_mem h, hslash]

end OutputPath

open OutputPath

theorem outputPath_eq (input dir extension : String) :
    outputPath (.ofText input) (.ofText dir) extension =
      .ofText (String.ofList (inFolder dir.toList (fileName input.toList extension.toList))) := by
  unfold outputPath
  rw [Path.display_ofText, Path.display_ofText, chars_eq]

/-- The bytes of the name of a file are a name. -/
theorem OutputPath.IsFileName.bytes {name extension : List Char} (h : IsFileName name extension) :
    Path.IsName (encode (String.ofList name)) := by
  have hne {t : String} (ht : name ≠ t.toList) : String.ofList name ≠ t := by
    rintro rfl
    exact ht String.toList_ofList.symm
  obtain ⟨stem, hstem, hname⟩ := h.stem
  refine Path.isName_encode (fun hmem => ?_) (hne fun hnil => ?_) (hne (t := ".") h.ne_here)
    (hne (t := "..") h.ne_up)
  · rw [String.toList_ofList] at hmem
    exact absurd (h.plain _ hmem) (by decide)
  · exact hstem (List.append_eq_nil_iff.1 (hname.symm.trans hnil)).1

/-- **The output file lies directly in the output folder.** Its path is the folder's without the
slashes at its end, one slash, and a name; the name alone if the folder is empty. The name depends
on the last name of the input and the extension alone, whatever slashes the input has. It has a
stem before the extension, and leads neither into a folder nor up. If the folder uses no `\`, then
the parent of the path has the folder's components, and an invocation writes its result into the
very folder that it makes first. -/
theorem outputPath_in_folder (input dir : String) (f : ExportFormat) :
    ∃ base front, IsLastName base input.toList ∧ IsTrimmed front dir.toList ∧
      isSlash (slashFor dir.toList) = true ∧
      let name := fileName base f.extension.toList
      let result := outputPath (.ofText input) (.ofText dir) f.extension
      IsFileName name f.extension.toList ∧
        result = .ofText (String.ofList
          (if dir = "" then name else front ++ slashFor dir.toList :: name)) ∧
        ('\\' ∉ dir.toList →
          (∃ parent, result.parent = some parent ∧
            parent.components = (Path.ofText dir).components) ∧
          ∀ (o : ExportOptions) (t : ToolSettings) (fs : FileSystem),
            let i := buildInvocation
              { o with input := .ofText input, outputDirectory := .ofText dir, format := f } t
            fs.target i.outputPath =
              fs.target i.outputDirectory ++ [encode (String.ofList name)]) := by
  have hname := isFileName_fileName input.toList f
  refine ⟨_, _, isLastName_baseName _, isTrimmed_trimSlashes _, isSlash_slashFor _, ?_⟩
  simp only [fileName_baseName]
  refine ⟨hname, ?_, fun hdir => ?_⟩
  · rw [outputPath_eq, inFolder]
    simp only [List.isEmpty_iff, String.toList_eq_nil_iff]
  · obtain ⟨pre, hpre, habs, hseg, hbytes⟩ := exists_folderBytes hdir
    obtain ⟨hsep, hne, hdot, hup⟩ := hname.bytes
    have hresult : outputPath (.ofText input) (.ofText dir) f.extension =
        ⟨pre ++ encode (String.ofList (fileName input.toList f.extension.toList))⟩ := by
      rw [outputPath_eq, Path.ofText, hbytes]
    constructor
    · obtain ⟨parent, hparent, hcomponents⟩ := Path.parent_append_name hpre hsep hne hdot
      exact ⟨parent, hresult ▸ hparent, hcomponents.trans (Path.components_congr habs hseg)⟩
    · intro o t fs
      unfold buildInvocation
      simp only [hresult]
      rw [FileSystem.target_append_name fs hpre hsep hne hdot hup, Path.target_congr habs hseg]

/-- An input that ends with a step up, and a folder with everything at its end that does not
count. -/
theorem outputPath_in_folder_dots :
    '\\' ∉ "./out/.//".toList ∧
      ∃ parent, (outputPath (.ofText "C:\\Videos/..") (.ofText "./out/.//")
          ExportFormat.premiere.extension).parent = some parent ∧
        parent.components = (Path.ofText "./out/.//").components := by
  have hdir : '\\' ∉ "./out/.//".toList := by decide +kernel
  obtain ⟨_, _, -, -, -, -, -, hplace⟩ :=
    outputPath_in_folder "C:\\Videos/.." "./out/.//" .premiere
  exact ⟨hdir, (hplace hdir).1⟩

/-! ## Outputs as inputs -/

namespace OutputPath

/-- An extension is one dot and what is behind it. -/
theorem exists_behindDot (f : ExportFormat) :
    ∃ behind, f.extension.toList = '.' :: behind ∧ '.' ∉ behind := by
  have hall : f.extension.toList.head? = some '.' ∧ '.' ∉ f.extension.toList.tail := by
    cases f <;> decide +kernel
  obtain ⟨behind, hbehind⟩ := List.head?_eq_some_iff.1 hall.1
  rw [hbehind, List.tail_cons] at hall
  exact ⟨behind, hbehind, hall.2⟩

/-- What is cut off is the last dot and what is behind it, whichever dots are before. -/
theorem stem_append {s behind : List Char} (hs : s ≠ []) (hbehind : '.' ∉ behind) :
    stem (s ++ '.' :: behind) = s := by
  have hafter : (s ++ '.' :: behind).reverse.takeWhile (· != '.') = behind.reverse := by
    rw [List.reverse_append, List.reverse_cons, List.append_assoc, List.takeWhile_append_of_pos]
    · simp
    · intro c hc
      rw [bne_iff_ne]
      rintro rfl
      exact hbehind (List.mem_reverse.1 hc)
  have hbefore : (s ++ '.' :: behind).take
      ((s ++ '.' :: behind).length - behind.reverse.length - 1) = s := by
    have hlen : (s ++ '.' :: behind).length - behind.reverse.length - 1 = s.length := by
      rw [List.length_append, List.length_cons, List.length_reverse]
      omega
    rw [hlen, List.take_left]
  unfold stem
  dsimp only
  rw [hafter, hbefore, if_neg]
  rw [Bool.or_eq_true, not_or, List.isEmpty_iff]
  refine ⟨?_, hs⟩
  rw [beq_iff_eq, List.length_append, List.length_cons, List.length_reverse]
  omega

/-- The last name of a path is found, whatever its folder is. -/
theorem baseName_inFolder {name : List Char} (hname : ∀ c ∈ name, isSlash c = false)
    (dir : List Char) : baseName (inFolder dir name) = name := by
  unfold inFolder
  split
  · exact baseName_eq_self hname
  · have hplain : ∀ c ∈ name.reverse, (!isSlash c) = true := by
      intro c hc
      rw [hname c (List.mem_reverse.1 hc), Bool.not_false]
    rw [baseName, List.reverse_append, List.reverse_cons, List.append_assoc,
      List.takeWhile_append_of_pos hplain]
    simp [isSlash_slashFor]

/-- An output has the name that its input has, but for the extension. -/
theorem fileName_chars (input dir extension : List Char) (f : ExportFormat) :
    fileName (chars input dir f.extension.toList) extension = fileName input extension := by
  obtain ⟨s, hs, hplain, hname⟩ := exists_stem input
  obtain ⟨behind, hext, hdot⟩ := exists_behindDot f
  have hbase : baseName (chars input dir f.extension.toList) = s ++ '.' :: behind := by
    rw [chars_eq, baseName_inFolder (isFileName_fileName input f).plain, hname, hext]
  rw [hname]
  unfold fileName
  dsimp only
  rw [hbase, stem_append hs hdot, if_neg]
  rwa [List.isEmpty_iff]

end OutputPath

/-- **One export of an output**, to any folder and with any extension, leads where an export of the
input does. -/
theorem outputPath_outputPath (input dir dir' : Path) (f : ExportFormat) (extension : String) :
    outputPath (outputPath input dir f.extension) dir' extension =
      outputPath input dir' extension := by
  have hname := fileName_chars input.display.toList dir.display.toList extension.toList f
  unfold outputPath
  rw [Path.display_ofText, String.toList_ofList, chars_eq _ dir'.display.toList, hname, ← chars_eq]

/-- The last argument is the file that the tool is told to write. -/
theorem Invocation.getLast?_argv (o : ExportOptions) (t : ToolSettings) :
    (buildInvocation o t).argv.getLast? = some (buildInvocation o t).outputPath.display := by
  show (t.effectiveProgram :: t.leadingArgs ++ exportArguments o).getLast? = _
  have hne : exportArguments o ≠ [] := List.cons_ne_nil _ _
  rw [List.getLast?_append_of_ne_nil _ hne]
  rfl

/-- The output of the last of some exports into one folder, each of the output before it. -/
def outputThrough (dir input : Path) (formats : List ExportFormat) : Path :=
  formats.foldl (fun path f => outputPath path dir f.extension) input

/-- **An output of an output is the input's.** The extension changes, and nothing else of the path;
with the same format, nothing changes at all. So however often an output is exported into the same
folder, its name neither grows nor shrinks, and the tool is told to write the same file. This is so
for all paths, texts or not. -/
theorem outputPath_of_output (input dir : Path) (f g : ExportFormat) :
    outputPath (outputPath input dir f.extension) dir g.extension =
        outputPath input dir g.extension ∧
      (∀ formats, outputPath (outputThrough dir input formats) dir g.extension =
        outputPath input dir g.extension) ∧
      ∀ (o : ExportOptions) (t t' : ToolSettings),
        let first := buildInvocation { o with input, outputDirectory := dir, format := f } t
        let again := buildInvocation
          { o with input := first.outputPath, outputDirectory := dir, format := g } t'
        let direct := buildInvocation { o with input, outputDirectory := dir, format := g } t'
        again.outputPath = direct.outputPath ∧ again.argv.getLast? = direct.argv.getLast? := by
  have honce := outputPath_outputPath input dir dir f g.extension
  refine ⟨honce, fun formats => ?_, fun o t t' => ?_⟩
  · -- only the last of the exports before counts, and it does not count either
    induction formats using List.reverseRecOn with
    | nil => rfl
    | append_singleton formats f' ih =>
      rw [outputThrough, List.foldl_concat, outputPath_outputPath]
      exact ih
  · intro first again direct
    have hpath : again.outputPath = direct.outputPath := honce
    refine ⟨hpath, ?_⟩
    rw [Invocation.getLast?_argv, Invocation.getLast?_argv]
    exact congrArg (fun path : Path => some path.display) hpath

end ExportDesk
