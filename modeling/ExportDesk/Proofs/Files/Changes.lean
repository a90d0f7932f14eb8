import ExportDesk.Files.Disk
import ExportDesk.Proofs.Files.Tree

/-!
# What the operations leave alone

One lemma for each operation says what its success means; from it follows which files it spares.
Making directories spares every file (`spares_makeDirectoryAll`), and writing to a file spares those
at other locations.
-/

namespace ExportDesk

open Text

namespace FileSystem

variable {fs fs' : FileSystem} {p q : Path}

/-! ## What success means -/

theorem makeDirectory_ok (h : fs.makeDirectory p = .ok fs') :
    ∃ folder name slash, fs.locate p = .ok (.entry folder name slash) ∧
      fs.node? (folder ++ [name]) = none ∧ fs.isLink (fs.real folder ++ [name]) = false ∧
      fs' = fs.put (folder ++ [name]) .directory := by
  unfold makeDirectory at h
  simp only [bind, Except.bind] at h
  split at h
  · cases h
  split at h
  · cases h
  next place hloc =>
    split at h
    · cases h
    next folder name slash =>
      split at h
      · cases h
      next hnode =>
        split at h
        · cases h
        next hlink =>
          cases h
          exact ⟨folder, name, slash, hloc, hnode, Bool.eq_false_iff.2 hlink, rfl⟩

/-- A file that was opened for writing is empty, and it is where its path leads. -/
theorem create_ok (h : fs.create p = .ok fs') :
    ∃ folder name x, fs.locate p = .ok (.entry folder name false) ∧
      fs.node? (folder ++ [name]) ≠ some .directory ∧
      (fs.node? (folder ++ [name]) = none → fs.HasRoom (folder ++ [name])) ∧
      fs' = fs.put (folder ++ [name]) (.file [] x) := by
  unfold create at h
  simp only [bind, Except.bind] at h
  split at h
  · cases h
  split at h
  · cases h
  next place hloc =>
    split at h
    · cases h
    next folder name slash =>
      split at h
      · cases h
      next c x hnode =>
        split at h
        · cases h
        next hslash =>
          cases h
          rw [Bool.not_eq_true] at hslash
          exact ⟨folder, name, x, by rw [hloc, hslash], by simp [hnode], by simp [hnode], rfl⟩
      next hnode =>
        split at h
        · cases h
        next hslash =>
          split at h
          · cases h
          next hlink =>
            split at h
            · cases h
            next hfolder =>
              cases h
              rw [Bool.not_eq_true] at hslash hlink
              exact ⟨folder, name, false, by rw [hloc, hslash], by simp [hnode],
                fun _ => ⟨not_not.1 hfolder, hlink⟩, rfl⟩

theorem append_ok {content : Bytes} (h : fs.append p content = .ok fs') :
    ∃ l c x, fs.status p = .ok (l, .file c x) ∧ fs' = fs.put l (.file (c ++ content) x) := by
  unfold append at h
  simp only [bind, Except.bind] at h
  split at h
  · cases h
  split at h
  · cases h
  next hstatus =>
    split at h
    · next l c x =>
        cases h
        exact ⟨l, c, x, hstatus, rfl⟩
    · cases h

theorem openAtEnd_ok (h : fs.openAtEnd p = .ok fs') : fs' = fs ∨ fs.create p = .ok fs' := by
  unfold openAtEnd at h
  split at h
  · simp only [bind, Except.bind] at h
    split at h
    · cases h
    · cases h
      exact .inl rfl
  · exact .inr h

theorem sync_ok (h : fs.sync p = .ok fs') : fs' = fs := by
  unfold sync at h
  simp only [bind, Except.bind] at h
  split at h
  · cases h
  · cases h
    rfl

/-! ## What is spared -/

theorem spares_makeDirectory (h : fs.makeDirectory q = .ok fs') : Spares p fs fs' := by
  obtain ⟨folder, name, slash, hloc, hnode, hlink, rfl⟩ := makeDirectory_ok h
  refine .put (fun hs => hasRoom_of_folder (hs.folder hloc) hlink)
    (by rw [hnode]; exact (Option.some_ne_none _).symm) ?_
  intro c x hfile hp
  unfold node? at hnode hfile
  rw [hp, hfile] at hnode
  cases hnode

/-- The location that a path leads to in the end. -/
def reached (fs : FileSystem) (p : Path) : Location := fs.real (fs.target p)

theorem reached_congr (hcur : fs'.current = fs.current) (hlinks : fs'.links = fs.links)
    (p : Path) : fs'.reached p = fs.reached p := by
  unfold reached
  rw [target_congr hcur hlinks, real_congr hlinks]

theorem reached_plain (h : fs.links.names = []) (p : Path) : fs.reached p = fs.target p :=
  real_plain h _

theorem spares_create (hq : fs.reached q ≠ fs.reached p) (h : fs.create q = .ok fs') :
    Spares p fs fs' := by
  obtain ⟨folder, name, x, hloc, hnode, hroom, rfl⟩ := create_ok h
  have hfree (hs : fs.IsSound) : fs.HasRoom (folder ++ [name]) := by
    by_cases hnone : fs.node? (folder ++ [name]) = none
    · exact hroom hnone
    · exact hs.hasRoom hnone (real_ne_nil hnode)
  refine .put hfree hnode fun _ _ _ => ?_
  unfold reached at hq
  rwa [← locate_location hloc] at hq

theorem spares_append {content : Bytes} (hq : fs.reached q ≠ fs.reached p)
    (h : fs.append q content = .ok fs') : Spares p fs fs' := by
  obtain ⟨l, c, x, hstatus, rfl⟩ := append_ok h
  obtain ⟨folder, name, hloc, rfl, hnode⟩ := status_file hstatus
  have hfile : fs.node? (folder ++ [name]) ≠ some .directory := by
    rw [hnode]
    simp
  refine .put (fun hs => hs.hasRoom (by simp [hnode]) (real_ne_nil hfile)) hfile fun _ _ _ => ?_
  unfold reached at hq
  rwa [← locate_location hloc] at hq

theorem spares_openAtEnd (hq : fs.reached q ≠ fs.reached p) (h : fs.openAtEnd q = .ok fs') :
    Spares p fs fs' := by
  obtain rfl | h := openAtEnd_ok h
  · exact .refl p _
  · exact spares_create hq h

end FileSystem

/-! ## Several steps -/

namespace Disk

variable {α β : Type} {fs₀ : FileSystem} {p q : Path}

theorem run_bind (d : Disk α) (f : α → Disk β) (fs : FileSystem) :
    (d >>= f).run.run fs = match d.run.run fs with
      | (.ok a, fs') => (f a).run.run fs'
      | (.error e, fs') => (.error e, fs') := by
  show (ExceptT.bindCont f (d.run.run fs).1).run (d.run.run fs).2 = _
  rcases d.run.run fs with ⟨_ | a, fs'⟩ <;> rfl

theorem run_step (f : FileSystem → Except IoError FileSystem) (fs : FileSystem) :
    (step f).run.run fs = match f fs with
      | .ok fs' => (.ok (), fs')
      | .error e => (.error e, fs) := by
  unfold step
  rw [run_bind]
  show ((match f fs with
    | .ok fs' => set fs'
    | .error e => throw e : Disk Unit).run.run fs) = _
  cases f fs <;> rfl

/-- Whatever comes of the action, `R` holds from the file system before it to the one after. -/
def Within (R : FileSystem → FileSystem → Prop) (d : Disk α) : Prop :=
  ∀ fs, R fs (d.run.run fs).2

section

variable {R : FileSystem → FileSystem → Prop}

theorem Within.bind {d : Disk α} {f : α → Disk β}
    (htrans : ∀ fs₁ fs₂ fs₃, R fs₁ fs₂ → R fs₂ fs₃ → R fs₁ fs₃) (hd : Within R d)
    (hf : ∀ a, Within R (f a)) : Within R (d >>= f) := by
  intro fs
  have h := hd fs
  rw [run_bind]
  rcases hrun : d.run.run fs with ⟨_ | a, fs'⟩
  · rwa [hrun] at h
  · rw [hrun] at h
    exact htrans _ _ _ h (hf a fs')

theorem Within.step {f : FileSystem → Except IoError FileSystem} (hrefl : ∀ fs, R fs fs)
    (h : ∀ fs fs', f fs = .ok fs' → R fs fs') : Within R (step f) := by
  intro fs
  rw [run_step]
  cases hf : f fs with
  | error e => exact hrefl fs
  | ok fs' => exact h fs fs' hf

theorem within_makeDirectories (hrefl : ∀ fs, R fs fs)
    (htrans : ∀ fs₁ fs₂ fs₃, R fs₁ fs₂ → R fs₂ fs₃ → R fs₁ fs₃) {ps : List Path}
    (hmake : ∀ q ∈ ps, ∀ fs fs', fs.makeDirectory q = .ok fs' → R fs fs') :
    Within R (makeDirectories ps) := by
  induction ps with
  | nil => exact fun fs => hrefl fs
  | cons q up ih =>
    have ih := ih fun p hp => hmake p (List.mem_cons_of_mem q hp)
    have hmake := hmake q List.mem_cons_self
    intro fs
    unfold makeDirectories
    split
    · exact hrefl fs
    rw [run_bind]
    show R fs ((match fs.makeDirectory q with
      | .ok fs => set fs
      | .error e => _ : Disk Unit).run.run fs).2
    cases hq : fs.makeDirectory q with
    | ok fs' => exact hmake _ _ hq
    | error e =>
      simp only
      split
      · -- the ancestors first, and then the folder once more
        refine Within.bind htrans ih (fun _ => ?_) fs
        intro fs₂
        rw [run_bind]
        show R fs₂ ((match fs₂.makeDirectory q with
          | .ok fs => set fs
          | .error e => _ : Disk Unit).run.run fs₂).2
        cases hagain : fs₂.makeDirectory q with
        | ok fs' => exact hmake _ _ hagain
        | error e =>
          rw [run_bind]
          show R fs₂ ((if fs₂.isDirectory q then Pure.pure ()
            else MonadExcept.throw e : Disk Unit).run.run fs₂).2
          split <;> exact hrefl fs₂
      · rw [run_bind]
        show R fs ((if fs.isDirectory q then Pure.pure ()
          else MonadExcept.throw e : Disk Unit).run.run fs).2
        split <;> exact hrefl fs

end

/-- Whatever comes of the action, a file at the path stays as it is. Paths start from the folder and
go by the links of `fs₀`. -/
def Spares (fs₀ : FileSystem) (p : Path) (d : Disk α) : Prop :=
  ∀ fs, fs.current = fs₀.current → fs.links = fs₀.links →
    FileSystem.Spares p fs (d.run.run fs).2

theorem Spares.pure (a : α) : Spares fs₀ p (pure a : Disk α) := fun fs _ _ => .refl p fs

theorem Spares.throw (e : IoError) : Spares fs₀ p (throw e : Disk α) := fun fs _ _ => .refl p fs

theorem Spares.bind {d : Disk α} {f : α → Disk β} (hd : Spares fs₀ p d)
    (hf : ∀ a, Spares fs₀ p (f a)) : Spares fs₀ p (d >>= f) := by
  intro fs hcur hlinks
  have h := hd fs hcur hlinks
  rw [run_bind]
  rcases hrun : d.run.run fs with ⟨_ | a, fs'⟩
  · rwa [hrun] at h
  · rw [hrun] at h
    exact h.trans (hf a fs' (h.current.trans hcur) (h.links.trans hlinks))

/-- A step that leaves the file alone if it leads elsewhere than the path. -/
theorem Spares.step {f : FileSystem → Except IoError FileSystem}
    (hq : fs₀.reached q ≠ fs₀.reached p)
    (h : ∀ fs fs', fs.reached q ≠ fs.reached p → f fs = .ok fs' → FileSystem.Spares p fs fs') :
    Spares fs₀ p (step f) := by
  intro fs hcur hlinks
  rw [run_step]
  cases hf : f fs with
  | error e => exact .refl p fs
  | ok fs' =>
    refine h fs fs' ?_ hf
    rwa [FileSystem.reached_congr hcur hlinks, FileSystem.reached_congr hcur hlinks]

theorem spares_makeDirectoryAll (q : Path) : Spares fs₀ p (makeDirectoryAll q) :=
  fun fs _ _ => within_makeDirectories (.refl p) (fun _ _ _ => .trans)
    (fun _ _ _ _ => FileSystem.spares_makeDirectory) fs

end Disk

end ExportDesk
