import ExportDesk.Proofs.Files.Components
import ExportDesk.Proofs.Log.Transcript
import ExportDesk.Proofs.Program.Quiet

/-!
# Where the log of an export lies

`ExportLog.create_in_folder`: the log of an export lies directly in the folder for logs, whatever
bytes the path of the input has. Every name is made a safe one, and a safe one is left alone
(`safeName_eq_self_iff`), so the name of a log holds nothing that leads elsewhere
(`isLogName_fileName`).
-/

namespace ExportDesk

open Text

namespace LogFile

/-! ## Safe names -/

/-- What some system refuses in the name of a file. -/
def refusedChars : List Char := "/\\:*?\"<>|".toList

/-- A name that shows something and holds nothing that is refused. -/
structure IsSafeName (name : String) : Prop where
  shown : isBlank name = false
  plain : ∀ c ∈ name.toList, c ∉ refusedChars

theorem unsafeChars_eq : unsafeChars = refusedChars := by decide +kernel

/-- A given name is looked through character by character. -/
theorem plain_of_all {name : String} (h : name.toList.all (· ∉ refusedChars) = true) :
    ∀ c ∈ name.toList, c ∉ refusedChars :=
  fun c hc => of_decide_eq_true (List.all_eq_true.1 h c hc)

theorem safeChar_not_mem (c : Char) : safeChar c ∉ unsafeChars := by
  unfold safeChar
  split
  next => decide
  next h => simpa using h

theorem safeChar_eq_self {c : Char} (h : c ∉ unsafeChars) : safeChar c = c := by
  unfold safeChar
  rw [if_neg (by simpa using h)]

theorem isSafeName_safeName (name : String) : IsSafeName (safeName name) := by
  unfold safeName
  dsimp only
  split
  next => exact ⟨by decide, plain_of_all (by decide +kernel)⟩
  next hblank =>
    refine ⟨Bool.eq_false_iff.2 hblank, fun c hc => ?_⟩
    rw [String.toList_ofList] at hc
    obtain ⟨c, -, rfl⟩ := List.mem_map.1 hc
    rw [← unsafeChars_eq]
    exact safeChar_not_mem c

theorem IsSafeName.safeName_eq {name : String} (h : IsSafeName name) : safeName name = name := by
  have hsame : name.toList.map safeChar = name.toList := by
    refine (List.map_congr_left fun c hc => ?_).trans (List.map_id _)
    exact safeChar_eq_self (unsafeChars_eq ▸ h.plain c hc)
  unfold safeName
  rw [hsame, String.ofList_toList, if_neg (Bool.eq_false_iff.1 h.shown)]

/-- The safe names are those that are left as they are. -/
theorem safeName_eq_self_iff {name : String} : safeName name = name ↔ IsSafeName name :=
  ⟨fun h => h ▸ isSafeName_safeName name, IsSafeName.safeName_eq⟩

/-! ## Names of logs -/

/-- A name made of a stem and the extension, both the stem and the whole name safe. It is no step of
a path. -/
structure IsLogName (stem name : String) : Prop where
  eq : name = stem ++ ".log"
  stem : IsSafeName stem
  safe : IsSafeName name
  ne_here : name ≠ "."
  ne_up : name ≠ ".."

theorem IsSafeName.isLogName {stem : String} (h : IsSafeName stem) :
    IsLogName stem (stem ++ ".log") := by
  have hlong {t : String} (ht : t.length < 4) : stem ++ ".log" ≠ t := by
    rintro rfl
    rw [String.length_append] at ht
    exact absurd ht (Nat.not_lt.2 (Nat.le_add_left 4 _))
  refine ⟨rfl, h, ⟨?_, fun c hc => ?_⟩, hlong (by decide), hlong (by decide)⟩
  · rw [isBlank_append, h.shown, Bool.false_and]
  · rw [String.toList_append, List.mem_append] at hc
    exact hc.elim (h.plain c) (plain_of_all (by decide +kernel) c)

theorem isLogName_fileName (name : String) : IsLogName (safeName name) (fileName name) :=
  (isSafeName_safeName name).isLogName

/-- The name of a log is the name of one entry. -/
theorem IsLogName.bytes {stem name : String} (h : IsLogName stem name) :
    Path.IsName (encode name) := by
  refine Path.isName_encode (fun hmem => h.safe.plain _ hmem (by decide +kernel)) ?_ h.ne_here
    h.ne_up
  intro hempty
  exact absurd (hempty ▸ h.safe.shown) (by decide)

end LogFile

/-! ## The log of an export -/

namespace ExportLog

/-- The file of a log is an entry of the folder. -/
theorem isChildOf_pathFor (folder : Path) (name : String) :
    (pathFor folder name).IsChildOf folder (encode (LogFile.fileName name)) :=
  Path.isChildOf_join folder (LogFile.isLogName_fileName name).bytes

section

variable {name : String} {folder : Path} {config : LogConfig} {h h' : Host} {log : ExportLog}

/-- Whether or not a log can be made, nothing but its folder and its file is. -/
theorem grows_create (name : String) (folder : Path) (config : LogConfig) (h : Host) :
    let made := (ExportLog.create name folder config).run h
    h.files.Grows [h.files.target (pathFor folder name)] made.2.files ∧
      ∀ log, made.1 = .ok log → log.path = pathFor folder name := by
  have hquiet : OnHost.Quiet _ (ExportLog.create name folder config) _ := .create config
    (Disk.growsFrom_makeDirectoryAll h.files [h.files.target (pathFor folder name)])
    (Disk.growsFrom_step fun _ _ => FileSystem.grows_create)
  obtain ⟨hwent, hpath⟩ := hquiet h
  exact ⟨hwent.files rfl rfl, hpath⟩

/-- The file of a log stands where the path led before the log was made. -/
theorem node?_of_create (hlog : (ExportLog.create name folder config).run h = (.ok log, h')) :
    ∃ x, h'.files.node? (h.files.target log.path) = some (.file [] x) := by
  obtain ⟨-, -, -, -, hempty⟩ := create_ok hlog
  obtain ⟨hgrows, -⟩ := grows_create name folder config h
  rw [hlog] at hgrows
  obtain ⟨l, x, hstatus⟩ := FileSystem.fileAt?_eq_some.1 hempty
  obtain ⟨-, -, -, -, hnode⟩ := FileSystem.status_file hstatus
  rw [FileSystem.status_location hstatus, hgrows.target] at hnode
  exact ⟨x, hnode⟩

end

/-- **The log of an export lies directly in the folder for logs**, whatever bytes are in the path of
the input and in that of the folder. Its name is that of the input made safe, with `.log`: something
shows in it even without the extension, it holds none of the characters that some system refuses,
and it is no step of a path. The parent of the log's path has the components of the folder, and the
file that is opened is the entry of this name in the folder. No other file appears, changes or goes,
even if the log cannot be made. A name is made safe once and for all, and just the safe ones are
left as they are. -/
theorem create_in_folder (input folder : Path) (config : LogConfig) (h : Host) :
    let name := LogFile.fileName (logName input)
    let place := h.files.target folder ++ [encode name]
    let made := (ExportLog.create (logName input) folder config).run h
    LogFile.IsLogName (LogFile.safeName (logName input)) name ∧
      (∀ log, made.1 = .ok log →
        log.path.IsChildOf folder (encode name) ∧
          ∃ executable, made.2.files.node? place = some (.file [] executable)) ∧
      h.files.Grows [place] made.2.files ∧
      (∀ s, LogFile.safeName (LogFile.safeName s) = LogFile.safeName s) ∧
      ∀ s, LogFile.safeName s = s ↔ LogFile.IsSafeName s := by
  have hchild := isChildOf_pathFor folder (logName input)
  obtain ⟨hgrows, hpath⟩ := grows_create (logName input) folder config h
  rw [hchild.target] at hgrows
  refine ⟨LogFile.isLogName_fileName _, fun log hmade => ?_, hgrows, LogFile.safeName_safeName,
    fun _ => LogFile.safeName_eq_self_iff⟩
  obtain ⟨x, hnode⟩ := node?_of_create (Prod.ext hmade rfl)
  rw [hpath log hmade] at hnode ⊢
  rw [hchild.target] at hnode
  exact ⟨hchild, x, hnode⟩

/-- An input with a path of another system, in which a byte is no text, and a folder that has to be
made. -/
theorem create_in_folder_foreign :
    let input : Path := ⟨encode "C:\\Videos/..\\a?" ++ [0xFF] ++ encode ".b.mp4"⟩
    let folder := Path.ofText "./logs//"
    let name := ".._a_\uFFFD.b.log"
    ∃ log h', (ExportLog.create (logName input) folder {}).run ToolRunner.troubledHost =
        (.ok log, h') ∧
      log.path.IsChildOf folder (encode name) ∧
        ∃ executable, h'.files.node? [encode "logs", encode name] =
          some (.file [] executable) := by
  intro input folder name
  generalize hrun : (ExportLog.create (logName input) folder {}).run ToolRunner.troubledHost = made
  let log : ExportLog :=
    { name := "..\\a?\uFFFD.b", path := .ofText ("./logs//" ++ name), config := {}
      tail := Tail.ofCapacity 20 }
  have hname : LogFile.fileName (logName input) = name := by decide +kernel
  have hfolder : ToolRunner.troubledHost.files.target folder = [encode "logs"] := by decide +kernel
  have hmade : made.1 = .ok log := by
    rw [← hrun]
    decide +kernel
  have hplace := (create_in_folder input folder {} ToolRunner.troubledHost).2.1
  rw [hrun, hname, hfolder] at hplace
  obtain ⟨hchild, hnode⟩ := hplace log hmade
  exact ⟨log, made.2, Prod.ext hmade rfl, hchild, hnode⟩

end ExportLog

end ExportDesk
