import ExportDesk.Files.Tree
import ExportDesk.Proofs.Files.Links

/-!
# What a change of the file system leaves alone

Where a path leads is settled by its names and the links as soon as it leads anywhere
(`locate_location`), and a file is found again by its path as long as no directory has gone
(`status_of_spares`). So a change at a location that leads elsewhere spares the file (`Spares.put`).
-/

namespace ExportDesk.FileSystem

open Text

variable {fs fs' : FileSystem}

/-! ## Entries -/

theorem real_congr (h : fs'.links = fs.links) (l : Location) : fs'.real l = fs.real l := by
  unfold real
  rw [h]

theorem isLink_congr (h : fs'.links = fs.links) (l : Location) : fs'.isLink l = fs.isLink l := by
  unfold isLink
  rw [h]

theorem real_plain (h : fs.links.names = []) (l : Location) : fs.real l = l := by
  unfold real
  rw [Links.resolve_plain h]

theorem real_of_not_isLink {folder : Location} {name : Bytes}
    (h : fs.isLink (fs.real folder ++ [name]) = false) :
    fs.real (folder ++ [name]) = fs.real folder ++ [name] := by
  unfold real at h ⊢
  rw [Links.resolve_concat, Links.hop_of_lookup]
  unfold isLink at h
  simpa using h

theorem lookup_filter_ne {α : Type} (es : List (Location × α)) {l m : Location} (h : m ≠ l) :
    (es.filter (fun e => e.1 != l)).lookup m = es.lookup m := by
  induction es with
  | nil => rfl
  | cons e es ih =>
    rcases e with ⟨k, n⟩
    by_cases hk : k = l
    · subst hk
      have hb : (m == k) = false := by simpa using h
      simp [List.lookup_cons, ih, hb]
    · simp [hk, List.lookup_cons, ih]

@[simp] theorem real_put (fs : FileSystem) (l m : Location) (n : Node) :
    (fs.put l n).real m = fs.real m := rfl

@[simp] theorem isLink_put (fs : FileSystem) (l m : Location) (n : Node) :
    (fs.put l n).isLink m = fs.isLink m := rfl

theorem entryAt?_put_ne (fs : FileSystem) {l m : Location} (hm : m ≠ fs.real l) (n : Node) :
    (fs.put l n).entryAt? m = fs.entryAt? m := by
  have hb : (m == fs.real l) = false := by simpa using hm
  unfold entryAt? put
  simp [List.lookup_cons, hb, lookup_filter_ne _ hm]

theorem entryAt?_put (fs : FileSystem) {l : Location} (hl : fs.real l ≠ []) (m : Location)
    (n : Node) :
    (fs.put l n).entryAt? m = if m = fs.real l then some n else fs.entryAt? m := by
  split
  next hm => simp [entryAt?, put, hm, hl]
  next hm => exact entryAt?_put_ne fs hm n

theorem real_ne_nil {l : Location} (h : fs.node? l ≠ some .directory) : fs.real l ≠ [] := by
  intro hl
  unfold node? at h
  rw [hl] at h
  exact h rfl

theorem node?_put_self (fs : FileSystem) {l : Location} (hl : fs.real l ≠ []) (n : Node) :
    (fs.put l n).node? l = some n := by
  unfold node?
  rw [real_put, entryAt?_put fs hl, if_pos rfl]

theorem node?_put_ne (fs : FileSystem) {l m : Location} (h : fs.real m ≠ fs.real l) (n : Node) :
    (fs.put l n).node? m = fs.node? m := entryAt?_put_ne fs h n

/-- What is no directory may be put where none is: all directories are still there. -/
theorem directory_put {l : Location} (hn : fs.node? l ≠ some .directory) (n : Node) {m : Location}
    (hm : fs.node? m = some .directory) : (fs.put l n).node? m = some .directory := by
  rw [node?_put_ne fs, hm]
  intro heq
  unfold node? at hn hm
  exact hn (heq ▸ hm)

/-! ## Where a path leads -/

/-- The location that names lead to from a folder, whatever stands on the way. -/
def walk (fs : FileSystem) : Location → List Bytes → Location
  | l, [] => l
  | l, s :: rest =>
    if s == [Path.dot] then fs.walk l rest
    else if s == [Path.dot, Path.dot] then fs.walk (fs.real l).dropLast rest
    else fs.walk (l ++ [s]) rest

/-- The location that a path names. -/
def target (fs : FileSystem) (p : Path) : Location :=
  fs.walk (if p.isAbsolute then [] else fs.current) p.segments

theorem walk_congr (h : fs'.links = fs.links) (l : Location) (ss : List Bytes) :
    fs'.walk l ss = fs.walk l ss := by
  induction ss generalizing l with
  | nil => rfl
  | cons s rest ih => rw [walk, walk, ih, ih, ih, real_congr h]

theorem target_congr (hcur : fs'.current = fs.current) (h : fs'.links = fs.links) (p : Path) :
    fs'.target p = fs.target p := by
  unfold target
  rw [hcur, walk_congr h]

theorem follow_location {slash : Bool} {l : Location} {ss : List Bytes} {place : Place}
    (h : fs.follow slash l ss = .ok place) : place.location = fs.walk l ss := by
  induction ss generalizing l with
  | nil =>
    cases h
    rfl
  | cons s rest ih =>
    unfold follow at h
    unfold walk
    split at h
    next hdot => rw [if_pos hdot, ih h]
    next hdot =>
      rw [if_neg hdot]
      split at h
      next hup => rw [if_pos hup, ih h]
      next hup =>
        rw [if_neg hup]
        split at h
        · cases h
        · split at h
          next hrest =>
            cases h
            rw [List.isEmpty_iff.1 hrest]
            rfl
          next => split at h <;> first | exact ih h | cases h

theorem follow_of_locate {p : Path} {place : Place} (h : fs.locate p = .ok place) :
    fs.follow (p.bytes.getLast? == some Path.separator)
      (if p.isAbsolute then [] else fs.current) p.segments = .ok place := by
  unfold locate at h
  split at h
  · cases h
  split at h
  · cases h
  split at h
  · cases h
  exact h

theorem locate_location {p : Path} {place : Place} (h : fs.locate p = .ok place) :
    place.location = fs.target p := follow_location (follow_of_locate h)

/-- A path leads to the same place where all the directories are that it goes through, and the
locations on its way, which `I` holds of, lead where they led. -/
theorem follow_mono {I : Location → Prop} {slash : Bool} {l : Location} {ss : List Bytes}
    {place : Place}
    (hd : ∀ m, fs.node? m = some .directory → fs'.node? m = some .directory ∧ I m)
    (hreal : ∀ m, I m → fs'.real m = fs.real m ∧ I (fs.real m).dropLast) (hl : I l)
    (h : fs.follow slash l ss = .ok place) : fs'.follow slash l ss = .ok place := by
  induction ss generalizing l with
  | nil => exact h
  | cons s rest ih =>
    unfold follow at h ⊢
    split at h
    next hdot => rw [if_pos hdot, ih hl h]
    next hdot =>
      rw [if_neg hdot]
      split at h
      next hup => rw [if_pos hup, (hreal l hl).1, ih (hreal l hl).2 h]
      next hup =>
        rw [if_neg hup]
        split at h
        · cases h
        next hlong =>
          rw [if_neg hlong]
          split at h
          next hrest =>
            rw [if_pos hrest]
            exact h
          next hrest =>
            rw [if_neg hrest]
            split at h
            next hnode =>
              rw [(hd _ hnode).1]
              exact ih (hd _ hnode).2 h
            · cases h
            · cases h

/-- `follow_mono` for whole paths. -/
theorem locate_of_follow {p : Path} {place : Place} (h : fs.locate p = .ok place)
    (hfollow : fs'.follow (p.bytes.getLast? == some Path.separator)
      (if p.isAbsolute then [] else fs'.current) p.segments = .ok place) :
    fs'.locate p = .ok place := by
  unfold locate at h ⊢
  split at h
  · cases h
  next hzero =>
    rw [if_neg hzero]
    split at h
    · cases h
    next hempty =>
      rw [if_neg hempty]
      split at h
      · cases h
      next hlong => rwa [if_neg hlong]

theorem locate_mono {p : Path} {place : Place}
    (hd : ∀ m, fs.node? m = some .directory → fs'.node? m = some .directory)
    (hcur : fs'.current = fs.current) (hlinks : fs'.links = fs.links)
    (h : fs.locate p = .ok place) : fs'.locate p = .ok place := by
  have hfollow := follow_of_locate h
  rw [← hcur] at hfollow
  exact locate_of_follow h (follow_mono (I := fun _ => True) (fun m hm => ⟨hd m hm, trivial⟩)
    (fun m _ => ⟨real_congr hlinks m, trivial⟩) trivial hfollow)

/-! ## Trees -/

/-- The name of an entry or of a link, but never both at once, stands in a directory, and so does
whoever works on them. -/
structure IsSound (fs : FileSystem) : Prop where
  current : fs.entryAt? fs.current = some .directory
  parents : ∀ l s, fs.entryAt? (l ++ [s]) ≠ none → fs.entryAt? l = some .directory
  linked : ∀ l s, fs.isLink (l ++ [s]) = true → fs.entryAt? l = some .directory
  apart : ∀ l, fs.isLink l = true → fs.entryAt? l = none

/-- Every entry but the root stands in a directory, and so does whoever works on them; there are no
links. -/
structure IsTree (fs : FileSystem) : Prop extends IsSound fs where
  plain : fs.links.names = []

theorem isLink_plain (h : fs.links.names = []) (l : Location) : fs.isLink l = false := by
  unfold isLink
  rw [h]
  rfl

/-- It is enough to look at the entries that are listed. -/
theorem isTree_of_entries (hplain : fs.links.names = [])
    (hcur : fs.entryAt? fs.current = some .directory)
    (h : ∀ e ∈ fs.entries, fs.entryAt? e.1.dropLast = some .directory) : fs.IsTree := by
  have hnone (l : Location) : ¬ fs.isLink l = true := by simp [isLink_plain hplain]
  refine ⟨⟨hcur, fun l s hentry => ?_, fun l s hl => absurd hl (hnone _),
    fun l hl => absurd hl (hnone l)⟩, hplain⟩
  unfold entryAt? at hentry
  rw [if_neg (by simp)] at hentry
  obtain ⟨n, hn⟩ := Option.ne_none_iff_exists'.1 hentry
  obtain ⟨before, after, heq, -⟩ := List.lookup_eq_some_iff.1 hn
  have hparent := h (l ++ [s], n) (by rw [heq]; simp)
  rwa [List.dropLast_concat] at hparent

/-- The directory that a place is, or is looked for in. -/
def Place.folder : Place → Location
  | .directory l => l
  | .entry folder _ _ => folder

/-- An entry may be put where the location leads: into a directory, and under no link's name. -/
structure HasRoom (fs : FileSystem) (l : Location) : Prop where
  folder : fs.entryAt? (fs.real l).dropLast = some .directory
  free : fs.isLink (fs.real l) = false

namespace IsSound

theorem isLink_of_entry (hs : fs.IsSound) {l : Location} (h : fs.entryAt? l ≠ none) :
    fs.isLink l = false := Bool.eq_false_iff.2 fun hl => h (hs.apart l hl)

/-- Where an entry is, no link is on the way. -/
theorem real_of_entry (hs : fs.IsSound) {l : Location} (h : fs.entryAt? l ≠ none) :
    fs.real l = l := by
  induction l using List.reverseRecOn with
  | nil => rfl
  | append_singleton l s ih =>
    have hl : fs.real l = l := ih (by simp [hs.parents l s h])
    have hfree := hs.isLink_of_entry h
    rw [real_of_not_isLink (by rwa [hl]), hl]

/-- Whoever works on the files does so in a directory. -/
theorem here (hs : fs.IsSound) : fs.node? fs.current = some .directory := by
  unfold node?
  rw [hs.real_of_entry (by simp [hs.current]), hs.current]

theorem hasRoom (hs : fs.IsSound) {l : Location} (h : fs.node? l ≠ none) (hl : fs.real l ≠ []) :
    fs.HasRoom l := by
  refine ⟨hs.parents _ ((fs.real l).getLast hl) ?_, hs.isLink_of_entry h⟩
  rwa [List.dropLast_concat_getLast]

/-- The directory above a directory. -/
theorem up (hs : fs.IsSound) {l : Location} (h : fs.node? l = some .directory) :
    fs.node? (fs.real l).dropLast = some .directory := by
  have hdir : fs.entryAt? (fs.real l).dropLast = some .directory := by
    by_cases hl : fs.real l = []
    · rw [hl]
      rfl
    · exact (hs.hasRoom (by simp [h]) hl).folder
  unfold node?
  rw [hs.real_of_entry (by simp [hdir]), hdir]

/-- What something stands in is a directory. -/
theorem parent (hs : fs.IsSound) {l : Location} {s : Bytes} (h : fs.node? (l ++ [s]) ≠ none) :
    fs.node? l = some .directory := by
  cases hlink : fs.isLink (fs.real l ++ [s]) with
  | true => exact hs.linked _ s hlink
  | false =>
    unfold node? at h
    rw [real_of_not_isLink hlink] at h
    exact hs.parents _ s h

/-- Whatever something stands below is a directory. -/
theorem above (hs : fs.IsSound) {l m : Location} (hm : m ≠ []) (h : fs.node? (l ++ m) ≠ none) :
    fs.node? l = some .directory := by
  induction m generalizing l with
  | nil => exact absurd rfl hm
  | cons s m ih =>
    refine hs.parent (s := s) ?_
    cases m with
    | nil => exact h
    | cons s' m =>
      rw [ih (List.cons_ne_nil s' m) (by rwa [List.append_assoc, List.singleton_append])]
      exact Option.some_ne_none _

theorem follow_folder (hs : fs.IsSound) {slash : Bool} {l : Location} {ss : List Bytes}
    {place : Place} (hl : fs.node? l = some .directory)
    (h : fs.follow slash l ss = .ok place) : fs.node? place.folder = some .directory := by
  induction ss generalizing l with
  | nil =>
    cases h
    exact hl
  | cons s rest ih =>
    unfold follow at h
    split at h
    · exact ih hl h
    split at h
    · exact ih (hs.up hl) h
    split at h
    · cases h
    split at h
    · cases h
      exact hl
    split at h
    next hnode => exact ih hnode h
    · cases h
    · cases h

/-- Entries are looked for in directories. -/
theorem folder (hs : fs.IsSound) {p : Path} {place : Place} (h : fs.locate p = .ok place) :
    fs.node? place.folder = some .directory := by
  refine hs.follow_folder ?_ (follow_of_locate h)
  split
  · rfl
  · exact hs.here

theorem put (hs : fs.IsSound) {l : Location} {n : Node} (hroom : fs.HasRoom l)
    (hn : fs.node? l ≠ some .directory) : (fs.put l n).IsSound := by
  have hne := real_ne_nil hn
  have hkept {m : Location} (hm : fs.entryAt? m = some .directory) :
      (fs.put l n).entryAt? m = some .directory := by
    rw [entryAt?_put fs hne, if_neg, hm]
    rintro rfl
    exact hn hm
  refine ⟨hkept hs.current, fun m s h => ?_, fun m s h => hkept (hs.linked m s h),
    fun m h => ?_⟩
  · rw [entryAt?_put fs hne] at h
    split at h
    next hms =>
      have hfolder := hroom.folder
      rw [← hms, List.dropLast_concat] at hfolder
      exact hkept hfolder
    · exact hkept (hs.parents m s h)
  · rw [entryAt?_put fs hne, if_neg]
    · exact hs.apart m h
    · rintro rfl
      rw [isLink_put, hroom.free] at h
      cases h

end IsSound

/-- A name that is no link's, in a directory, has room for an entry. -/
theorem hasRoom_of_folder {folder : Location} {name : Bytes}
    (hf : fs.node? folder = some .directory)
    (hfree : fs.isLink (fs.real folder ++ [name]) = false) : fs.HasRoom (folder ++ [name]) := by
  refine ⟨?_, ?_⟩
  · rw [real_of_not_isLink hfree, List.dropLast_concat]
    exact hf
  · rwa [real_of_not_isLink hfree]

/-! ## Sparing a file -/

/-- If the path leads to a file, it still does, and the file is the same. -/
structure Spares (p : Path) (fs fs' : FileSystem) : Prop where
  file : ∀ l c x, fs.status p = .ok (l, .file c x) → fs'.status p = .ok (l, .file c x)
  current : fs'.current = fs.current
  links : fs'.links = fs.links
  sound : fs.IsSound → fs'.IsSound

namespace Spares

variable {p : Path}

theorem refl (p : Path) (fs : FileSystem) : Spares p fs fs := ⟨fun _ _ _ h => h, rfl, rfl, id⟩

theorem trans {fs₁ fs₂ fs₃ : FileSystem} (h : Spares p fs₁ fs₂) (h' : Spares p fs₂ fs₃) :
    Spares p fs₁ fs₃ :=
  ⟨fun l c x hl => h'.file l c x (h.file l c x hl), h'.current.trans h.current,
    h'.links.trans h.links, fun hs => h'.sound (h.sound hs)⟩

theorem tree (h : Spares p fs fs') (ht : fs.IsTree) : fs'.IsTree :=
  ⟨h.sound ht.toIsSound, (congrArg Links.names h.links).trans ht.plain⟩

theorem target (h : Spares p fs fs') (q : Path) : fs'.target q = fs.target q :=
  target_congr h.current h.links q

theorem real (h : Spares p fs fs') (l : Location) : fs'.real l = fs.real l :=
  real_congr h.links l

end Spares

/-- What a path that leads to a file looks like. -/
theorem status_file {p : Path} {l : Location} {c : Bytes} {x : Bool}
    (h : fs.status p = .ok (l, .file c x)) :
    ∃ folder name, fs.locate p = .ok (.entry folder name false) ∧ l = folder ++ [name] ∧
      fs.node? l = some (.file c x) := by
  unfold status at h
  cases hloc : fs.locate p with
  | error e =>
    rw [hloc] at h
    cases h
  | ok place =>
    rw [hloc] at h
    cases place with
    | directory l' => cases h
    | entry folder name slash =>
      simp only [bind, Except.bind] at h
      split at h
      · cases h
      next c' x' hnode =>
        split at h
        · cases h
        next hslash =>
          cases h
          exact ⟨folder, name, by rw [Bool.eq_false_iff.2 hslash], rfl, hnode⟩
      · cases h

theorem status_of_entry {p : Path} {folder : Location} {name : Bytes} {c : Bytes} {x : Bool}
    (hloc : fs.locate p = .ok (.entry folder name false))
    (hnode : fs.node? (folder ++ [name]) = some (.file c x)) :
    fs.status p = .ok (folder ++ [name], .file c x) := by
  unfold status
  rw [hloc]
  simp only [bind, Except.bind, hnode]
  rfl

theorem status_location {p : Path} {l : Location} {c : Bytes} {x : Bool}
    (h : fs.status p = .ok (l, .file c x)) : l = fs.target p := by
  obtain ⟨folder, name, hloc, rfl, -⟩ := status_file h
  exact locate_location hloc

theorem fileAt?_eq_some {p : Path} {c : Bytes} :
    fs.fileAt? p = some c ↔ ∃ l x, fs.status p = .ok (l, .file c x) := by
  unfold fileAt?
  constructor
  · intro h
    split at h
    next l c' x hstatus =>
      cases h
      exact ⟨l, x, hstatus⟩
    · cases h
  · rintro ⟨l, x, hstatus⟩
    rw [hstatus]

/-- A file is found again where no directory has gone. -/
theorem status_of_spares {p : Path} {l : Location} {c : Bytes} {x : Bool}
    (hd : ∀ m, fs.node? m = some .directory → fs'.node? m = some .directory)
    (hcur : fs'.current = fs.current) (hlinks : fs'.links = fs.links)
    (hl : fs'.node? l = fs.node? l) (h : fs.status p = .ok (l, .file c x)) :
    fs'.status p = .ok (l, .file c x) := by
  obtain ⟨folder, name, hloc, rfl, hnode⟩ := status_file h
  exact status_of_entry (locate_mono hd hcur hlinks hloc) (hl.trans hnode)

/-- A change where no directory was spares the files that it does not lead to. -/
theorem Spares.put {p : Path} {l : Location} {n : Node} (hroom : fs.IsSound → fs.HasRoom l)
    (hn : fs.node? l ≠ some .directory)
    (hp : ∀ c x, fs.node? (fs.target p) = some (.file c x) →
      fs.real l ≠ fs.real (fs.target p)) :
    Spares p fs (fs.put l n) := by
  refine ⟨fun m c x h => ?_, rfl, rfl, fun hs => hs.put (hroom hs) hn⟩
  obtain ⟨-, -, -, -, hnode⟩ := status_file h
  rw [status_location h] at hnode
  refine status_of_spares (fun _ => directory_put hn n) rfl rfl ?_ h
  rw [status_location h, node?_put_ne _ (hp c x hnode).symm]

end ExportDesk.FileSystem
