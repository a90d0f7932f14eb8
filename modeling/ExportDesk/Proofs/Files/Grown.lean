import ExportDesk.Proofs.Files.Changes
import Mathlib.Order.Defs.Unbundled

/-!
# What making folders and writing a file come to

`FileSystem.Grows`: nothing is different but that folders have been made where nothing was, and what
stands at the locations written to. A file that has been made is there, and empty; bytes appended to
a file that is there are found behind its content.
-/

namespace ExportDesk

open Text

namespace FileSystem

variable {fs fs' : FileSystem} {p q : Path}

/-! ## Folders -/

/-- Apart from where the locations written to lead, only folders have been made. -/
structure Grows (written : List Location) (fs fs' : FileSystem) : Prop where
  current : fs'.current = fs.current
  links : fs'.links = fs.links
  node : ∀ l, fs.real l ∉ written.map fs.real →
    fs'.node? l = fs.node? l ∨ fs.node? l = none ∧ fs'.node? l = some .directory

namespace Grows

variable {written : List Location}

theorem refl (written : List Location) (fs : FileSystem) : Grows written fs fs :=
  ⟨rfl, rfl, fun _ _ => .inl rfl⟩

theorem real (h : Grows written fs fs') : fs'.real = fs.real := funext (real_congr h.links)

theorem trans {fs₁ fs₂ fs₃ : FileSystem} (h : Grows written fs₁ fs₂) (h' : Grows written fs₂ fs₃) :
    Grows written fs₁ fs₃ := by
  refine ⟨h'.current.trans h.current, h'.links.trans h.links, fun l hl => ?_⟩
  have hl' : fs₂.real l ∉ written.map fs₂.real := by rwa [h.real]
  obtain hsame | ⟨hnone, hmade⟩ := h.node l hl
  · rw [← hsame]
    exact h'.node l hl'
  · obtain hsame | ⟨hnone', -⟩ := h'.node l hl'
    · exact .inr ⟨hnone, hsame.trans hmade⟩
    · rw [hmade] at hnone'
      cases hnone'

theorem mono {more : List Location} (h : Grows written fs fs') (hmore : written ⊆ more) :
    Grows more fs fs' :=
  ⟨h.current, h.links, fun l hl => h.node l fun hmem => hl (List.map_subset _ hmore hmem)⟩

/-- Paths name the locations that they named. -/
theorem target (h : Grows written fs fs') (p : Path) : fs'.target p = fs.target p :=
  target_congr h.current h.links p

/-- No file has appeared, changed or gone anywhere else. -/
theorem file (h : Grows written fs fs') {l : Location} (hl : fs.real l ∉ written.map fs.real)
    {c : Bytes} {x : Bool} : fs'.node? l = some (.file c x) ↔ fs.node? l = some (.file c x) := by
  obtain hsame | ⟨hnone, hmade⟩ := h.node l hl
  · rw [hsame]
  · simp [hnone, hmade]

end Grows

/-- Something put where a location leads. -/
theorem grows_put (fs : FileSystem) (l : Location) (n : Node) : Grows [l] fs (fs.put l n) := by
  refine ⟨rfl, rfl, fun m hm => .inl (node?_put_ne fs ?_ n)⟩
  simpa using hm

theorem grows_makeDirectory (h : fs.makeDirectory q = .ok fs') : Grows [] fs fs' := by
  obtain ⟨folder, name, slash, -, hnode, -, rfl⟩ := makeDirectory_ok h
  refine ⟨rfl, rfl, fun l _ => ?_⟩
  by_cases hl : fs.real l = fs.real (folder ++ [name])
  · have hne : fs.node? (folder ++ [name]) ≠ some .directory := by simp [hnode]
    unfold node?
    rw [real_put, hl]
    exact .inr ⟨hnode, node?_put_self fs (real_ne_nil hne) _⟩
  · exact .inl (node?_put_ne _ hl _)

theorem grows_create (h : fs.create q = .ok fs') : Grows [fs.target q] fs fs' := by
  obtain ⟨folder, name, x, hloc, -, -, rfl⟩ := create_ok h
  rw [← locate_location hloc]
  exact grows_put fs _ _

theorem grows_append {content : Bytes} (h : fs.append q content = .ok fs') :
    Grows [fs.target q] fs fs' := by
  obtain ⟨l, c, x, hstatus, rfl⟩ := append_ok h
  rw [← status_location hstatus]
  exact grows_put fs _ _

instance (written : List Location) : IsPreorder FileSystem (Grows written) where
  refl := .refl written
  trans _ _ _ := .trans

/-- The same for whoever starts from the folder and with the links of `fs₀`: which locations paths
lead to is settled then. -/
def GrowsFrom (fs₀ : FileSystem) (written : List Location) (fs fs' : FileSystem) : Prop :=
  fs.current = fs₀.current → fs.links = fs₀.links → Grows written fs fs'

instance (fs₀ : FileSystem) (written : List Location) :
    IsPreorder FileSystem (GrowsFrom fs₀ written) where
  refl fs _ _ := .refl written fs
  trans _ _ _ h h' hcur hlinks :=
    (h hcur hlinks).trans
      (h' ((h hcur hlinks).current.trans hcur) ((h hcur hlinks).links.trans hlinks))

end FileSystem

namespace Disk

/-- Whatever comes of the making of folders, it is nothing but folders. -/
theorem grows_makeDirectoryAll (q : Path) :
    Disk.Within (FileSystem.Grows []) (Disk.makeDirectoryAll q) :=
  Disk.within_makeDirectories (.refl []) (fun _ _ _ => .trans)
    fun _ _ _ _ => FileSystem.grows_makeDirectory

theorem growsFrom_makeDirectoryAll (fs₀ : FileSystem) (written : List Location) (q : Path) :
    Disk.Within (FileSystem.GrowsFrom fs₀ written) (Disk.makeDirectoryAll q) :=
  fun fs _ _ => (grows_makeDirectoryAll q fs).mono (List.nil_subset _)

/-- A step that writes where a path leads. -/
theorem growsFrom_step {fs₀ : FileSystem} {q : Path}
    {f : FileSystem → Except IoError FileSystem}
    (hf : ∀ fs fs', f fs = .ok fs' → FileSystem.Grows [fs.target q] fs fs') :
    Disk.Within (FileSystem.GrowsFrom fs₀ [fs₀.target q]) (Disk.step f) := by
  refine .step (refl_of _) fun fs fs' h hcur hlinks => ?_
  rw [← FileSystem.target_congr hcur hlinks]
  exact hf fs fs' h

end Disk

/-! ## Folders that are there -/

namespace FileSystem

variable {fs fs' : FileSystem} {p : Path}

theorem exists?_of_isDirectory (h : fs.isDirectory p = true) : fs.exists? p = true := by
  unfold isDirectory at h
  unfold exists?
  split at h
  next hstatus => rw [hstatus]; rfl
  · cases h

/-- A folder that has been made is there. -/
theorem isDirectory_of_makeDirectory (h : fs.makeDirectory p = .ok fs') :
    fs'.isDirectory p = true := by
  obtain ⟨folder, name, slash, hloc, hnode, -, rfl⟩ := makeDirectory_ok h
  have hne : fs.node? (folder ++ [name]) ≠ some .directory := by simp [hnode]
  unfold isDirectory status
  rw [locate_mono (fun _ => directory_put hne .directory) rfl rfl hloc]
  simp only [bind, Except.bind, node?_put_self _ (real_ne_nil hne)]
  rfl

/-- Where only folders are made, paths lead where they led. -/
theorem Grows.status (hg : Grows [] fs fs') {found : Location × Node}
    (h : fs.status p = .ok found) : fs'.status p = .ok found := by
  have hnode (l : Location) (hl : fs.node? l ≠ none) : fs'.node? l = fs.node? l := by
    obtain hsame | ⟨hnone, -⟩ := hg.node l List.not_mem_nil
    · exact hsame
    · exact absurd hnone hl
  have hlocate {place : Place} (hloc : fs.locate p = .ok place) : fs'.locate p = .ok place := by
    refine locate_mono (fun m hm => ?_) hg.current hg.links hloc
    rw [hnode m (by simp [hm]), hm]
  unfold FileSystem.status at h ⊢
  cases hloc : fs.locate p with
  | error e =>
    rw [hloc] at h
    cases h
  | ok place =>
    rw [hloc] at h
    rw [hlocate hloc]
    cases place with
    | directory l => exact h
    | entry folder name slash =>
      cases hentry : fs.node? (folder ++ [name]) with
      | none =>
        simp only [bind, Except.bind, hentry] at h
        cases h
      | some n =>
        have hkept := hnode _ (show fs.node? (folder ++ [name]) ≠ none by simp [hentry])
        simp only [bind, Except.bind, hkept, hentry] at h ⊢
        exact h

theorem Grows.exists? (hg : Grows [] fs fs') (h : fs.exists? p = true) : fs'.exists? p = true := by
  unfold FileSystem.exists? at h ⊢
  cases hstatus : fs.status p with
  | error e =>
    rw [hstatus] at h
    cases h
  | ok found =>
    rw [hg.status hstatus]
    rfl

end FileSystem

namespace Disk

variable {fs fs' : FileSystem} {p : Path}

theorem run_get_bind {α : Type} (f : FileSystem → Disk α) (fs : FileSystem) :
    (get >>= f).run.run fs = (f fs).run.run fs := rfl

/-- The last attempt to make a folder puts up with one that is there. -/
theorem isDirectory_of_settle {e : IoError}
    (h : (do if (← get).isDirectory p then return () else throw e : Disk Unit).run.run fs =
      (.ok (), fs')) : fs'.isDirectory p = true := by
  rw [run_get_bind] at h
  split at h
  next hthere =>
    obtain ⟨-, rfl⟩ := Prod.mk.inj h
    exact hthere
  next => cases (Prod.mk.inj h).1

/-- A folder that has been made with all its ancestors is there. -/
theorem isDirectory_of_makeDirectories {up : List Path} (hp : p.isEmpty = false)
    (h : (makeDirectories (p :: up)).run.run fs = (.ok (), fs')) : fs'.isDirectory p = true := by
  unfold makeDirectories at h
  rw [if_neg (by simp [hp]), run_get_bind] at h
  cases hmade : fs.makeDirectory p with
  | ok fs₁ =>
    rw [hmade] at h
    obtain ⟨-, rfl⟩ := Prod.mk.inj h
    exact FileSystem.isDirectory_of_makeDirectory hmade
  | error e =>
    rw [hmade] at h
    simp only at h
    split at h
    · -- the ancestors first, and then the folder once more
      rw [run_bind] at h
      rcases hup : (makeDirectories up).run.run fs with ⟨e' | _, fs₂⟩
      · rw [hup] at h
        cases (Prod.mk.inj h).1
      · rw [hup] at h
        simp only [run_get_bind] at h
        cases hagain : fs₂.makeDirectory p with
        | ok fs₃ =>
          rw [hagain] at h
          obtain ⟨-, rfl⟩ := Prod.mk.inj h
          exact FileSystem.isDirectory_of_makeDirectory hagain
        | error e =>
          rw [hagain] at h
          exact isDirectory_of_settle h
    · exact isDirectory_of_settle h

theorem isDirectory_of_makeDirectoryAll (hp : p.isEmpty = false)
    (h : (makeDirectoryAll p).run.run fs = (.ok (), fs')) : fs'.isDirectory p = true :=
  isDirectory_of_makeDirectories hp h

end Disk

/-! ## Contents -/

namespace FileSystem

variable {fs fs' : FileSystem} {p : Path}

/-- A file put where a path leads is found there. -/
theorem fileAt?_put {folder : Location} {name : Bytes} (c : Bytes) (x : Bool)
    (hloc : fs.locate p = .ok (.entry folder name false))
    (hnode : fs.node? (folder ++ [name]) ≠ some .directory) :
    (fs.put (folder ++ [name]) (.file c x)).fileAt? p = some c := by
  exact fileAt?_eq_some.2 ⟨_, x, status_of_entry
    (locate_mono (fun _ => directory_put hnode (.file c x)) rfl rfl hloc)
    (node?_put_self _ (real_ne_nil hnode) _)⟩

theorem fileAt?_create (h : fs.create p = .ok fs') : fs'.fileAt? p = some [] := by
  obtain ⟨folder, name, x, hloc, hnode, -, rfl⟩ := create_ok h
  exact fileAt?_put [] x hloc hnode

theorem fileAt?_append {c : Bytes} (hc : fs.fileAt? p = some c)
    (hpermit : fs.refuses (.fill p) = none) (content : Bytes) :
    ∃ fs', fs.append p content = .ok fs' ∧ fs'.fileAt? p = some (c ++ content) := by
  obtain ⟨l, x, hstatus⟩ := fileAt?_eq_some.1 hc
  obtain ⟨folder, name, hloc, rfl, hnode⟩ := status_file hstatus
  refine ⟨_, ?_, fileAt?_put (c ++ content) x hloc (by simp [hnode])⟩
  simp only [append, permit, hpermit, hstatus, bind, Except.bind]
  rfl

end FileSystem

end ExportDesk
