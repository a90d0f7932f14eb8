import ExportDesk.Proofs.Files.Beside
import ExportDesk.Proofs.Files.Replace

/-!
# A replacement that is interrupted

`interrupted_replaceFile`: after any number of its steps, whichever of them fails, a replacement has
left the file as it was or has given it the new content. `Keeps` says what "as it was" means for a
path that may lead nowhere: a file that is found is found again with its content, and at the
location that the path names no file comes or goes. `FoldersOf` says which folders have been made for
it; a name that is a link to one of them is taken by the file.
-/

namespace ExportDesk

open Text

namespace FileSystem

variable {fs fs' : FileSystem} {p q : Path} {c : Bytes}

/-! ## Contents by location -/

/-- The content of the file at a location, if a file is there. -/
def contentAt? (fs : FileSystem) (l : Location) : Option Bytes :=
  match fs.node? l with
  | some (.file c _) => some c
  | _ => none

theorem contentAt?_put_ne {l m : Location} (h : fs.real m ≠ fs.real l) (n : Node) :
    (fs.put l n).contentAt? m = fs.contentAt? m := by
  unfold contentAt?
  rw [node?_put_ne fs h]

/-- What is found by the path is at the location that it names. -/
theorem contentAt?_of_fileAt? (h : fs.fileAt? p = some c) :
    fs.contentAt? (fs.target p) = some c := by
  obtain ⟨l, x, hstatus⟩ := fileAt?_eq_some.1 h
  obtain ⟨-, -, -, -, hnode⟩ := status_file hstatus
  unfold contentAt?
  rw [← status_location hstatus, hnode]

/-! ## Keeping a file -/

/-- From one file system to a later one, with the file that a path names as it was, or as absent as
it was. -/
structure Keeps (p : Path) (fs fs' : FileSystem) : Prop where
  spares : Spares p fs fs'
  content : fs'.contentAt? (fs.target p) = fs.contentAt? (fs.target p)
  refuses : fs'.refuses = fs.refuses

namespace Keeps

theorem refl (p : Path) (fs : FileSystem) : Keeps p fs fs := ⟨.refl p fs, rfl, rfl⟩

theorem trans {fs₁ fs₂ fs₃ : FileSystem} (h : Keeps p fs₁ fs₂) (h' : Keeps p fs₂ fs₃) :
    Keeps p fs₁ fs₃ := by
  refine ⟨h.spares.trans h'.spares, ?_, h'.refuses.trans h.refuses⟩
  rw [← h.content, ← h.spares.target p]
  exact h'.content

theorem found (h : Keeps p fs fs') (hc : fs.fileAt? p = some c) : fs'.fileAt? p = some c := by
  obtain ⟨l, x, hstatus⟩ := fileAt?_eq_some.1 hc
  exact fileAt?_eq_some.2 ⟨l, x, h.spares.file l c x hstatus⟩

end Keeps

theorem keeps_makeDirectory (h : fs.makeDirectory q = .ok fs') : Keeps p fs fs' := by
  have hspares : Spares p fs fs' := spares_makeDirectory h
  obtain ⟨folder, name, slash, hloc, hnode, -, rfl⟩ := makeDirectory_ok h
  refine ⟨hspares, ?_, rfl⟩
  by_cases heq : fs.real (fs.target p) = fs.real (folder ++ [name])
  · -- a directory is as little a file as nothing is
    have hne : fs.node? (folder ++ [name]) ≠ some .directory := by simp [hnode]
    have hmade := node?_put_self fs (real_ne_nil hne) .directory
    unfold node? at hnode hmade
    unfold contentAt? node?
    rw [real_put] at hmade ⊢
    rw [heq, hnode, hmade]
  · exact contentAt?_put_ne heq _

theorem keeps_create (hq : fs.reached q ≠ fs.reached p) (h : fs.create q = .ok fs') :
    Keeps p fs fs' := by
  have hspares := spares_create hq h
  obtain ⟨folder, name, x, hloc, -, -, rfl⟩ := create_ok h
  unfold reached at hq
  rw [← locate_location hloc] at hq
  exact ⟨hspares, contentAt?_put_ne hq.symm _, rfl⟩

theorem keeps_append {content : Bytes} (hq : fs.reached q ≠ fs.reached p)
    (h : fs.append q content = .ok fs') : Keeps p fs fs' := by
  have hspares := spares_append hq h
  obtain ⟨l, c, x, hstatus, rfl⟩ := append_ok h
  unfold reached at hq
  rw [← status_location hstatus] at hq
  exact ⟨hspares, contentAt?_put_ne hq.symm _, rfl⟩

/-! ## The folders that are made -/

/-- From one file system to a later one, a folder is new at most at the locations that these paths
lead to. -/
structure FoldersOf (qs : List Path) (fs fs' : FileSystem) : Prop where
  current : fs'.current = fs.current
  links : fs'.links = fs.links
  folder : ∀ l, fs'.node? l = some .directory →
    fs.node? l = some .directory ∨ ∃ q ∈ qs, fs.reached q = fs.real l

theorem folder_of_put {l m : Location} {n : Node} (hl : fs.real l ≠ [])
    (h : (fs.put l n).node? m = some .directory) :
    fs.node? m = some .directory ∨ fs.real l = fs.real m ∧ n = .directory := by
  unfold node? at h
  rw [real_put, entryAt?_put fs hl] at h
  split at h
  next heq => exact .inr ⟨heq.symm, Option.some.inj h⟩
  next => exact .inl h

namespace FoldersOf

variable {qs : List Path}

theorem refl (qs : List Path) (fs : FileSystem) : FoldersOf qs fs fs := ⟨rfl, rfl, fun _ => .inl⟩

theorem trans {fs₁ fs₂ fs₃ : FileSystem} (h : FoldersOf qs fs₁ fs₂) (h' : FoldersOf qs fs₂ fs₃) :
    FoldersOf qs fs₁ fs₃ := by
  refine ⟨h'.current.trans h.current, h'.links.trans h.links, fun l hl => ?_⟩
  obtain hl | ⟨q, hq, hreached⟩ := h'.folder l hl
  · exact h.folder l hl
  · rw [reached_congr h.current h.links, real_congr h.links] at hreached
    exact .inr ⟨q, hq, hreached⟩

theorem makeDirectory (hq : q ∈ qs) (h : fs.makeDirectory q = .ok fs') : FoldersOf qs fs fs' := by
  obtain ⟨folder, name, slash, hloc, hnode, -, rfl⟩ := makeDirectory_ok h
  refine ⟨rfl, rfl, fun l hl => ?_⟩
  have hne : fs.node? (folder ++ [name]) ≠ some .directory := by simp [hnode]
  obtain hl | ⟨heq, -⟩ := folder_of_put (real_ne_nil hne) hl
  · exact .inl hl
  · refine .inr ⟨q, hq, ?_⟩
    unfold reached
    rw [← locate_location hloc]
    exact heq

/-- Where there was no folder a file makes none. -/
theorem putFile {l : Location} {c : Bytes} {x : Bool} (hne : fs.node? l ≠ some .directory) :
    FoldersOf qs fs (fs.put l (.file c x)) := by
  refine ⟨rfl, rfl, fun m hm => ?_⟩
  obtain hm | ⟨-, hfile⟩ := folder_of_put (real_ne_nil hne) hm
  · exact .inl hm
  · cases hfile

theorem create (h : fs.create q = .ok fs') : FoldersOf qs fs fs' := by
  obtain ⟨folder, name, x, -, hne, -, rfl⟩ := create_ok h
  exact putFile hne

theorem append {content : Bytes} (h : fs.append q content = .ok fs') : FoldersOf qs fs fs' := by
  obtain ⟨l, c, x, hstatus, rfl⟩ := append_ok h
  obtain ⟨folder, name, -, rfl, hnode⟩ := status_file hstatus
  exact putFile (by simp [hnode])

end FoldersOf

/-! ## Paths that never go up -/

theorem walk_of_never_up {l : Location} {ss : List Bytes} (h : [Path.dot, Path.dot] ∉ ss) :
    fs.walk l ss = l ++ ss.filter (· != [Path.dot]) := by
  induction ss generalizing l with
  | nil => exact (List.append_nil l).symm
  | cons s ss ih =>
    rw [List.mem_cons, not_or] at h
    unfold walk
    by_cases hdot : s = [Path.dot]
    · simp [hdot, ih h.2]
    · simp [hdot, Ne.symm h.1, ih h.2]

/-- Names that lead to an entry lead there in every tree in which something is at its location. -/
theorem follow_of_node (hs : fs'.IsSound) {slash sl : Bool} {l folder : Location}
    {ss : List Bytes} {name : Bytes} (hup : [Path.dot, Path.dot] ∉ ss)
    (h : fs.follow slash l ss = .ok (.entry folder name sl))
    (hnode : fs'.node? (folder ++ [name]) ≠ none) :
    fs'.follow slash l ss = .ok (.entry folder name sl) := by
  induction ss generalizing l with
  | nil => exact h
  | cons s rest ih =>
    rw [List.mem_cons, not_or] at hup
    unfold follow at h ⊢
    split at h
    next hdot => rw [if_pos hdot, ih hup.2 h]
    next hdot =>
      rw [if_neg hdot]
      rw [if_neg (by simpa using Ne.symm hup.1)] at h ⊢
      split at h
      · cases h
      next hlong =>
        rw [if_neg hlong]
        split at h
        next hrest =>
          rw [if_pos hrest]
          exact h
        next hrest =>
          rw [if_neg hrest]
          split at h
          next hdir =>
            -- the entry stands below this name, which therefore is a directory's
            obtain ⟨-, hname, -, before, hss⟩ := follow_entry h
            have hloc : folder ++ [name] =
                (l ++ [s]) ++ (rest.filter (· != [Path.dot])) := by
              rw [← walk_of_never_up hup.2, ← follow_location h]
              rfl
            have hbelow : rest.filter (· != [Path.dot]) ≠ [] := by
              rw [hss, List.filter_append]
              simp [hname]
            rw [hloc] at hnode
            rw [hs.above hbelow hnode]
            exact ih hup.2 h
          · cases h
          · cases h

/-- What a path that never goes up leads to is settled by what is at its location. -/
theorem fileAt?_of_content (hs' : fs'.IsSound) (hcur : fs'.current = fs.current)
    (hup : [Path.dot, Path.dot] ∉ p.segments) (h : fs.fileAt? p = some c)
    (hcontent : fs'.contentAt? (fs.target p) = some c) : fs'.fileAt? p = some c := by
  obtain ⟨l, x, hstatus⟩ := fileAt?_eq_some.1 h
  obtain ⟨folder, name, hloc, rfl, -⟩ := status_file hstatus
  rw [← locate_location hloc] at hcontent
  unfold contentAt? at hcontent
  split at hcontent
  next c' x' hnode =>
    cases hcontent
    have hfollow := follow_of_node hs' hup (follow_of_locate hloc) (by
      rw [show folder ++ [name] = (Place.entry folder name false).location from rfl, hnode]
      exact Option.some_ne_none _)
    rw [← hcur] at hfollow
    exact fileAt?_eq_some.2 ⟨_, x', status_of_entry (locate_of_follow hloc hfollow) hnode⟩
  · cases hcontent

/-- A path that never goes up finds the same as before. -/
theorem Keeps.fileAt? (h : Keeps p fs fs') (hs : fs.IsSound)
    (hup : [Path.dot, Path.dot] ∉ p.segments) : fs'.fileAt? p = fs.fileAt? p := by
  cases hc : fs.fileAt? p with
  | some c => exact h.found hc
  | none =>
    cases hc' : fs'.fileAt? p with
    | none => rfl
    | some c =>
      have hcontent := contentAt?_of_fileAt? hc'
      rw [h.spares.target p, h.content, ← h.spares.target p] at hcontent
      rw [fileAt?_of_content hs h.spares.current.symm hup hc' hcontent] at hc
      cases hc

end FileSystem

/-! ## The steps -/

namespace ReplaceStep

variable {p : Path} {content : Bytes} {fs fs' : FileSystem}

/-- The name of the temporary file is no other name of the file. -/
def IsApart (p : Path) (fs : FileSystem) : Prop :=
  ∀ name, p.fileName = some name → fs.reached (temporary p) ≠ fs.reached p

theorem target_temporary_ne {name : Bytes} (hname : p.fileName = some name) (fs : FileSystem) :
    fs.target (temporary p) ≠ fs.target p := by
  obtain ⟨folder, other, hne, hfile, htemp⟩ := target_temporary fs hname
  rw [hfile, htemp]
  simpa using hne

/-- Where there are no links the temporary file has a name of its own. -/
theorem isApart_plain (h : fs.links.names = []) : IsApart p fs := by
  intro name hname
  rw [FileSystem.reached_plain h, FileSystem.reached_plain h]
  exact target_temporary_ne hname fs

theorem IsApart.keeps (h : IsApart p fs) (hk : FileSystem.Keeps p fs fs') : IsApart p fs' := by
  intro name hname
  rw [FileSystem.reached_congr hk.spares.current hk.spares.links,
    FileSystem.reached_congr hk.spares.current hk.spares.links]
  exact h name hname

/-- Only beside a path with a file name can a temporary file be written. -/
theorem IsApart.reached_ne (h : IsApart p fs) {folder : Location} {name : Bytes}
    (hloc : fs.locate (temporary p) = .ok (.entry folder name false)) :
    fs.reached (temporary p) ≠ fs.reached p := by
  cases hname : p.fileName with
  | some name => exact h name hname
  | none =>
    -- such a path would be its own temporary path
    have htemp : temporary p = p := by
      unfold temporary Path.withExtension
      rw [hname]
    rw [htemp] at hloc
    obtain ⟨name, hsome⟩ := FileSystem.fileName_of_entry hloc
    rw [hname] at hsome
    cases hsome

/-- From one file system to a later one, with the file kept if the temporary name is apart. -/
def KeepsIfApart (p : Path) (fs fs' : FileSystem) : Prop := IsApart p fs → FileSystem.Keeps p fs fs'

theorem KeepsIfApart.trans {fs₁ fs₂ fs₃ : FileSystem} (h : KeepsIfApart p fs₁ fs₂)
    (h' : KeepsIfApart p fs₂ fs₃) : KeepsIfApart p fs₁ fs₃ :=
  fun ha => (h ha).trans (h' (ha.keeps (h ha)))

/-- Every step but the last keeps the file. -/
theorem keeps_perform {s : ReplaceStep} (hs : s ≠ .renameOver) :
    Disk.Within (KeepsIfApart p) (perform p content s) := by
  cases s with
  | makeParent =>
    unfold perform
    cases p.parent with
    | none => exact fun fs _ => .refl p fs
    | some folder =>
      exact fun fs _ => Disk.within_makeDirectories (.refl p) (fun _ _ _ => .trans)
        (fun _ _ _ _ => FileSystem.keeps_makeDirectory) fs
  | createTemporary =>
    refine Disk.Within.step (fun fs _ => .refl p fs) fun fs fs' h ha => ?_
    obtain ⟨folder, name, x, hloc, -⟩ := FileSystem.create_ok h
    exact FileSystem.keeps_create (ha.reached_ne hloc) h
  | fillTemporary =>
    refine Disk.Within.step (fun fs _ => .refl p fs) fun fs fs' h ha => ?_
    obtain ⟨l, c, x, hstatus, -⟩ := FileSystem.append_ok h
    obtain ⟨folder, name, hloc, -⟩ := FileSystem.status_file hstatus
    exact FileSystem.keeps_append (ha.reached_ne hloc) h
  | syncTemporary =>
    refine Disk.Within.step (fun fs _ => .refl p fs) fun fs fs' h _ => ?_
    obtain rfl := FileSystem.sync_ok h
    exact .refl p _
  | renameOver => exact absurd rfl hs

/-- The folders above the file, which are made where they are missing. -/
def folders (p : Path) : List Path :=
  match p.parent with
  | some folder => folder.ancestors
  | none => []

/-- Every step but the last makes no other folders. -/
theorem foldersOf_perform {s : ReplaceStep} (hs : s ≠ .renameOver) :
    Disk.Within (FileSystem.FoldersOf (folders p)) (perform p content s) := by
  cases s with
  | makeParent =>
    unfold perform folders
    cases p.parent with
    | none => exact .refl []
    | some folder =>
      exact Disk.within_makeDirectories (.refl _) (fun _ _ _ => .trans)
        fun _ hq _ _ => .makeDirectory hq
  | createTemporary => exact .step (.refl _) fun _ _ => .create
  | fillTemporary => exact .step (.refl _) fun _ _ => .append
  | syncTemporary =>
    refine .step (.refl _) fun fs fs' h => ?_
    obtain rfl := FileSystem.sync_ok h
    exact .refl _ _
  | renameOver => exact absurd rfl hs

/-- What every step but the last brings about, they bring about together. -/
theorem within_performAll {R : FileSystem → FileSystem → Prop} (hrefl : ∀ fs, R fs fs)
    (htrans : ∀ fs₁ fs₂ fs₃, R fs₁ fs₂ → R fs₂ fs₃ → R fs₁ fs₃)
    (hperform : ∀ s ≠ .renameOver, Disk.Within R (perform p content s)) {ss : List ReplaceStep}
    (hss : .renameOver ∉ ss) : Disk.Within R (performAll p content ss) := by
  induction ss with
  | nil => exact hrefl
  | cons s ss ih =>
    rw [List.mem_cons, not_or] at hss
    exact Disk.Within.bind htrans (hperform s (Ne.symm hss.1)) fun _ => ih hss.2

theorem performAll_append (ss ts : List ReplaceStep) :
    performAll p content (ss ++ ts) = (do performAll p content ss; performAll p content ts) := by
  induction ss with
  | nil => rfl
  | cons s ss ih =>
    rw [List.cons_append, performAll, ih, performAll, bind_assoc]

/-- The steps before the move. -/
def preparing : List ReplaceStep :=
  [.makeParent, .createTemporary, .fillTemporary, .syncTemporary]

theorem all_eq : all = preparing ++ [.renameOver] := rfl

/-- What is left of a replacement that is cut short after some steps. -/
def after (p : Path) (content : Bytes) (fs : FileSystem) (n : Nat) : FileSystem :=
  ((performAll p content (all.take n)).run.run fs).2

/-- The move is not among the steps before it. -/
theorem take_all {n : Nat} (hn : n ≤ preparing.length) : .renameOver ∉ all.take n := by
  rw [all_eq, List.take_append_of_le_length hn]
  exact fun hmem => absurd (List.mem_of_mem_take hmem) (by decide)

/-- Until the move, the file is kept. -/
theorem keeps_after (ha : IsApart p fs) {n : Nat} (hn : n ≤ preparing.length) :
    FileSystem.Keeps p fs (after p content fs n) :=
  within_performAll (fun fs _ => .refl p fs) (fun _ _ _ => .trans) (fun _ => keeps_perform)
    (take_all hn) fs ha

/-- Until the move, no other folders have been made. -/
theorem foldersOf_after {n : Nat} (hn : n ≤ preparing.length) :
    FileSystem.FoldersOf (folders p) fs (after p content fs n) :=
  within_performAll (.refl _) (fun _ _ _ => .trans) (fun _ => foldersOf_perform) (take_all hn) fs

/-- Once it is prepared, the temporary file has the content. -/
theorem status_prepared (h : (performAll p content preparing).run.run fs = (.ok (), fs')) :
    ∃ l x, fs'.status (temporary p) = .ok (l, .file content x) := by
  unfold preparing performAll at h
  rw [Disk.run_bind] at h
  rcases hparent : (perform p content .makeParent).run.run fs with ⟨e | _, fs₁⟩
  · rw [hparent] at h
    cases h
  rw [hparent] at h
  simp only [performAll, Disk.run_bind, perform, Disk.run_step] at h
  cases hcreate : fs₁.create (temporary p) with
  | error e =>
    rw [hcreate] at h
    cases h
  | ok fs₂ =>
    rw [hcreate] at h
    simp only at h
    cases happend : fs₂.append (temporary p) content with
    | error e =>
      rw [happend] at h
      cases h
    | ok fs₃ =>
      rw [happend] at h
      simp only at h
      cases hsync : fs₃.sync (temporary p) with
      | error e =>
        rw [hsync] at h
        cases h
      | ok fs₄ =>
        rw [hsync] at h
        cases h
        obtain rfl := FileSystem.sync_ok hsync
        exact FileSystem.status_append_create hcreate happend

end ReplaceStep

/-- After the last step the path finds the new content; only if it ended with a link to a folder,
and so found no file, it may still find none. -/
def ReplaceStep.Renewed (p : Path) (content : Bytes) (fs fs' : FileSystem) : Prop :=
  fs'.fileAt? p = some content ∨
    (after p content fs preparing.length).LinksToFolder p ∧
      fs.fileAt? p = none ∧ fs'.fileAt? p = none

/-- **What becomes of a replacement.** It fails and has kept the file, or the file is renewed. -/
theorem Disk.replaceFile_renewed {fs fs' : FileSystem} {p : Path} {content : Bytes}
    {r : Except IoError Unit} (hs : fs.IsSound) (ha : ReplaceStep.IsApart p fs)
    (hrun : (Disk.replaceFile p content).run.run fs = (r, fs')) :
    (∃ e, r = .error e) ∧ FileSystem.Keeps p fs fs' ∨
      r = .ok () ∧ ReplaceStep.Renewed p content fs fs' ∧ fs'.IsSound ∧
        fs'.current = fs.current ∧ fs'.refuses = fs.refuses ∧
        (fs.links.names = [] → fs'.links = fs.links) := by
  have hkeeps := @ReplaceStep.keeps_after p content fs ha _ le_rfl
  unfold ReplaceStep.Renewed
  unfold ReplaceStep.after at hkeeps ⊢
  rw [show ReplaceStep.all.take ReplaceStep.preparing.length = ReplaceStep.preparing from rfl]
    at hkeeps ⊢
  unfold Disk.replaceFile at hrun
  rw [ReplaceStep.all_eq, ReplaceStep.performAll_append, Disk.run_bind] at hrun
  rcases hprepare : (ReplaceStep.performAll p content ReplaceStep.preparing).run.run fs with
    ⟨e | _, fs₃⟩
  · rw [hprepare] at hkeeps hrun
    cases hrun
    exact .inl ⟨⟨e, rfl⟩, hkeeps⟩
  rw [hprepare] at hkeeps hrun
  simp only [ReplaceStep.performAll, Disk.run_bind, ReplaceStep.perform, Disk.run_step] at hrun
  cases hrename : fs₃.rename (ReplaceStep.temporary p) p with
  | error e =>
    rw [hrename] at hrun
    cases hrun
    exact .inl ⟨⟨e, rfl⟩, hkeeps⟩
  | ok fs₄ =>
    rw [hrename] at hrun
    cases hrun
    obtain ⟨l, x, hstatus⟩ := ReplaceStep.status_prepared hprepare
    obtain ⟨folder, name, hloc, -⟩ := FileSystem.status_file hstatus
    obtain ⟨hnew, hs', hcur, hrefuses, hplain⟩ := FileSystem.fileAt?_rename
      (hkeeps.spares.sound hs) hrename hstatus ((ha.keeps hkeeps).reached_ne hloc)
    refine .inr ⟨rfl, ?_, hs', hcur.trans hkeeps.spares.current,
      hrefuses.trans hkeeps.refuses, fun hnone => ?_⟩
    · obtain hnew | ⟨hfolder, hnone⟩ := hnew
      · exact .inl hnew
      · refine .inr ⟨hfolder, ?_, hnone⟩
        cases hc : fs.fileAt? p with
        | none => rfl
        | some c =>
          -- a file would still be where the folder is
          have hfile := FileSystem.contentAt?_of_fileAt? (hkeeps.found hc)
          unfold FileSystem.contentAt? at hfile
          rw [hfolder.2] at hfile
          cases hfile
    · rw [← hkeeps.spares.links] at hnone ⊢
      exact hplain hnone

namespace ReplaceStep

variable {p : Path} {content : Bytes} {fs fs' : FileSystem}

/-- The file can be replaced: the temporary file is another one, and where there is no file the
name is no link to a folder, be it there or only made for the file. -/
structure IsReplaceable (p : Path) (fs : FileSystem) : Prop where
  apart : IsApart p fs
  named : fs.fileAt? p = none → fs.isLink (fs.own (fs.target p)) = true →
    fs.node? (fs.target p) ≠ some .directory ∧ ∀ q ∈ folders p, fs.reached q ≠ fs.reached p

theorem isReplaceable_plain (h : fs.links.names = []) : IsReplaceable p fs :=
  ⟨isApart_plain h, fun _ hlink =>
    absurd ((FileSystem.isLink_plain h _).symm.trans hlink) Bool.false_ne_true⟩

theorem IsReplaceable.file (hr : IsReplaceable p fs) (h : Renewed p content fs fs') :
    fs'.fileAt? p = some content := by
  obtain hnew | ⟨⟨hlink, hdir⟩, hnone, -⟩ := h
  · exact hnew
  · -- the name has been what it was up to the last step
    have hkeeps := @keeps_after p content fs hr.apart _ le_rfl
    have hfolders := @foldersOf_after p content fs _ le_rfl
    unfold FileSystem.own at hlink
    rw [hkeeps.spares.target, hkeeps.spares.real, FileSystem.isLink_congr hkeeps.spares.links]
      at hlink
    rw [hkeeps.spares.target] at hdir
    obtain ⟨hfree, hapart⟩ := hr.named hnone hlink
    obtain hdir | ⟨q, hq, hreached⟩ := hfolders.folder _ hdir
    · exact absurd hdir hfree
    · exact absurd hreached (hapart q hq)

end ReplaceStep

/-- `replaceFile_renewed` where there are no links. -/
theorem Disk.replaceFile_cases {fs fs' : FileSystem} {p : Path} {content : Bytes}
    {r : Except IoError Unit} (ht : fs.IsTree)
    (hrun : (Disk.replaceFile p content).run.run fs = (r, fs')) :
    (∃ e, r = .error e) ∧ FileSystem.Keeps p fs fs' ∨
      r = .ok () ∧ fs'.fileAt? p = some content ∧ fs'.IsTree ∧ fs'.current = fs.current ∧
        fs'.links = fs.links ∧ fs'.refuses = fs.refuses := by
  have hr : ReplaceStep.IsReplaceable p fs := ReplaceStep.isReplaceable_plain ht.plain
  obtain hkept | ⟨hok, hnew, hs', hcur, hrefuses, hplain⟩ :=
    Disk.replaceFile_renewed ht.toIsSound hr.apart hrun
  · exact .inl hkept
  · have hlinks := hplain ht.plain
    exact .inr ⟨hok, hr.file hnew, ⟨hs', (congrArg Links.names hlinks).trans ht.plain⟩, hcur,
      hlinks, hrefuses⟩

/-- **Cut short after any number of steps**, a replacement has kept the file, or all steps are done
and the file is renewed. -/
theorem Disk.interrupted_replaceFile {fs : FileSystem} {p : Path} (hs : fs.IsSound)
    (ha : ReplaceStep.IsApart p fs) (content : Bytes) (n : Nat) :
    FileSystem.Keeps p fs (ReplaceStep.after p content fs n) ∨
      ReplaceStep.all.length ≤ n ∧
        ReplaceStep.Renewed p content fs (ReplaceStep.after p content fs n) := by
  by_cases hn : n ≤ ReplaceStep.preparing.length
  · exact .inl (ReplaceStep.keeps_after ha hn)
  · have hall : ReplaceStep.all.length ≤ n := not_le.1 hn
    rw [show ReplaceStep.after p content fs n = ((Disk.replaceFile p content).run.run fs).2 by
      unfold ReplaceStep.after Disk.replaceFile
      rw [List.take_of_length_le hall]]
    obtain ⟨-, hkeeps⟩ | ⟨-, hnew, -⟩ := @Disk.replaceFile_renewed fs _ p content _ hs ha rfl
    · exact .inl hkeeps
    · exact .inr ⟨hall, hnew⟩

end ExportDesk
