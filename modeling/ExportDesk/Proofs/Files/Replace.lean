import ExportDesk.Proofs.Files.Beside
import ExportDesk.Proofs.Files.Changes
import ExportDesk.Proofs.Files.Moved

/-!
# A file in the place of another

`fileAt?_rename`: a file that is renamed is found under the new path, and its bytes are those that
were written to it before (`status_append_create`).
-/

namespace ExportDesk

open Text

namespace FileSystem

variable {fs fs' : FileSystem} {p q : Path}

/-! ## Renaming -/

/-- The location of the name itself that a location ends with. -/
def own (fs : FileSystem) (l : Location) : Location := fs.real l.dropLast ++ l.getLast?.toList

theorem own_concat (fs : FileSystem) (l : Location) (x : Bytes) :
    fs.own (l ++ [x]) = fs.real l ++ [x] := by
  simp [own]

theorem real_concat (fs : FileSystem) (l : Location) (x : Bytes) :
    fs.real (l ++ [x]) = Links.hop fs.links.names fs.links.maxDepth (fs.real l ++ [x]) :=
  Links.resolve_concat fs.links l x

theorem itself_entry (fs : FileSystem) (folder : Location) (name : Bytes) :
    fs.itself (.entry folder name false) = (fs.real folder ++ [name],
      if fs.isLink (fs.real folder ++ [name]) then some (.file [] false)
      else fs.node? (folder ++ [name])) := by
  unfold itself
  cases hlink : fs.isLink (fs.real folder ++ [name]) with
  | true => simp [hlink]
  | false => simp [hlink, real_of_not_isLink hlink]

/-- A file that was given another path has gone there, unless both are names of one file. -/
theorem rename_ok {folder : Location} {name : Bytes} {c : Bytes} {x : Bool}
    (h : fs.rename p q = .ok fs') (hloc : fs.locate p = .ok (.entry folder name false))
    (hnode : fs.node? (folder ++ [name]) = some (.file c x)) :
    ∃ place, fs.locate q = .ok place ∧ place.slash = false ∧
      (fs.itself place).2 ≠ some .directory ∧
      ((fs.real folder ++ [name] = (fs.itself place).1 ∨
          fs.areNames (fs.real folder ++ [name]) (fs.itself place).1 = true) ∧ fs' = fs ∨
        fs' = fs.move (fs.real folder ++ [name]) (fs.itself place).1) := by
  have hsource : ∃ c' x', fs.itself (.entry folder name false) =
      (fs.real folder ++ [name], some (.file c' x')) := by
    rw [itself_entry]
    split
    · exact ⟨[], false, rfl⟩
    · exact ⟨c, x, by rw [hnode]⟩
  obtain ⟨c', x', hsource⟩ := hsource
  unfold rename at h
  rw [hloc] at h
  simp only [bind, Except.bind] at h
  split at h
  · cases h
  rw [hsource] at h
  simp only at h
  rw [if_neg (by simp [Place.slash])] at h
  cases hplace : fs.locate q with
  | error e =>
    rw [hplace] at h
    cases h
  | ok place =>
    rw [hplace] at h
    simp only at h
    split at h
    · cases h
    next hslash =>
      have hslash : place.slash = false := by simpa using hslash
      split at h
      · cases h
      · next heq _ => cases heq
      · next heq _ => cases heq
      · next hd =>
          refine ⟨place, rfl, hslash, fun hdir => hd hdir, ?_⟩
          split at h
          next hsame =>
            cases h
            rw [Bool.or_eq_true, beq_iff_eq] at hsame
            exact .inl ⟨hsame, rfl⟩
          · cases h
            exact .inr rfl
      · next heq _ => cases heq

section

variable {folder : Location} {name : Bytes}
  (hd : (fs.itself (.entry folder name false)).2 ≠ some .directory)

include hd in
/-- The name itself is no directory, though it may lead to one. -/
theorem not_directory_of_itself (hs : fs.IsSound) :
    fs.entryAt? (fs.real folder ++ [name]) ≠ some .directory := by
  rw [itself_entry] at hd
  cases hlink : fs.isLink (fs.real folder ++ [name]) with
  | true => simp [hs.apart _ hlink]
  | false =>
    have hnot : fs.node? (folder ++ [name]) ≠ some .directory := by simpa [hlink] using hd
    unfold node? at hnot
    rwa [real_of_not_isLink hlink] at hnot

include hd in
/-- A name that is no directory itself but leads to one is a link. -/
theorem isLink_of_itself (hdir : fs.node? (folder ++ [name]) = some .directory) :
    fs.isLink (fs.real folder ++ [name]) = true := by
  rw [itself_entry] at hd
  by_contra hlink
  rw [if_neg hlink] at hd
  exact hd hdir

end

/-- What a rename moves: a file, or a link to one, into a directory. -/
theorem moves_of_rename (hs : fs.IsSound) {folder folder' : Location} {name name' : Bytes}
    {c : Bytes} {x : Bool} (hnode : fs.node? (folder ++ [name]) = some (.file c x))
    (hfolder : fs.node? folder' = some .directory)
    (hfree : fs.entryAt? (fs.real folder' ++ [name']) ≠ some .directory)
    (hne : fs.real (folder ++ [name]) ≠ fs.real (folder' ++ [name'])) :
    fs.Moves (fs.real folder ++ [name]) (fs.real folder' ++ [name']) := by
  refine ⟨?_, hfree, by rwa [List.dropLast_concat], fun heq => hne ?_⟩
  · cases hlink : fs.isLink (fs.real folder ++ [name]) with
    | true => simp [hs.apart _ hlink]
    | false =>
      unfold node? at hnode
      rw [real_of_not_isLink hlink] at hnode
      simp [hnode]
  · rw [real_concat, real_concat, heq]

/-- Two names of one file lead to the same location. -/
theorem hop_of_areNames (hs : fs.IsSound) {s t : Location} (h : fs.areNames s t = true)
    (hentry : fs.entryAt? (Links.hop fs.links.names fs.links.maxDepth s) ≠ none) :
    Links.hop fs.links.names fs.links.maxDepth s =
      Links.hop fs.links.names fs.links.maxDepth t := by
  unfold areNames at h
  split at h
  next f g hf hg =>
    obtain rfl := beq_iff_eq.1 h
    cases hdepth : fs.links.maxDepth with
    | zero =>
      rw [hdepth] at hentry
      exact absurd (hs.apart s (by simp [isLink, hf])) hentry
    | succ depth => rw [Links.hop, Links.hop, hf, hg]
  · cases h

section

variable (hs : fs.IsSound) {folder' : Location} {name' : Bytes} {s : Location}
  (hm : fs.Moves s (fs.real folder' ++ [name'])) {c : Bytes} {x : Bool}
  (hsource : fs.entryAt? (Links.hop fs.links.names fs.links.maxDepth s) = some (.file c x))
  (hloc : fs.locate q = .ok (.entry folder' name' false))

include hs hm hsource hloc in
/-- What was moved is found under the path to its new name. -/
theorem status_move (hfree : fs.node? (folder' ++ [name']) ≠ some .directory)
    (hne : fs.real (folder' ++ [name']) ≠ Links.hop fs.links.names fs.links.maxDepth s) :
    (fs.move s (fs.real folder' ++ [name'])).status q =
      .ok (folder' ++ [name'], .file c x) := by
  have hfile : fs.entryAt? (Links.hop fs.links.names fs.links.maxDepth s) ≠ some .directory := by
    simp [hsource]
  unfold node? at hfree
  rw [real_concat] at hfree hne
  have ho := otherwiseSame_move hs hm
  have ha := hs.leadsApart hfile hfree
  have hreal := real_otherwise (l := folder') hs ho ha (hs.folder hloc)
  refine status_of_entry (locate_otherwise hs ho ha rfl (fun _ => directory_move hs hm) hloc) ?_
  unfold node?
  rw [real_concat, hreal]
  exact entryAt?_move_self hs hm hfile hfree hsource hne

include hs hm hsource hloc in
/-- Nothing else is found there. -/
theorem status_of_moved {l : Location} {c' : Bytes} {x' : Bool}
    (h : (fs.move s (fs.real folder' ++ [name'])).status q = .ok (l, .file c' x')) : c' = c := by
  have hfile : fs.entryAt? (Links.hop fs.links.names fs.links.maxDepth s) ≠ some .directory := by
    simp [hsource]
  have hs' := isSound_move hs hm
  have ho := (otherwiseSame_move hs hm).symm
  have ha := leadsApart_move hs hm hfile
  obtain ⟨folder, name, hloc', rfl, hnode⟩ := status_file h
  have hsame := locate_otherwise hs' ho ha rfl (fun _ => directory_of_moved hs hm) hloc'
  rw [hloc] at hsame
  cases hsame
  have hreal := real_otherwise (l := folder') hs' ho ha (hs'.folder hloc')
  unfold node? at hnode
  rw [real_concat, ← hreal] at hnode
  have hback := entryAt?_of_moved hs hm hfile hnode
  rw [hsource] at hback
  cases hback
  rfl

end

/-- The path ends with the name of a link to a directory. -/
def LinksToFolder (fs : FileSystem) (p : Path) : Prop :=
  fs.isLink (fs.own (fs.target p)) = true ∧ fs.node? (fs.target p) = some .directory

/-- **A file with another path in its place.** It is found there; only a path that went through the
link to a folder whose place was taken finds nothing any more. -/
theorem fileAt?_rename {l : Location} {c : Bytes} {x : Bool} (hs : fs.IsSound)
    (h : fs.rename p q = .ok fs') (hp : fs.status p = .ok (l, .file c x))
    (hpq : fs.reached p ≠ fs.reached q) :
    (fs'.fileAt? q = some c ∨ fs.LinksToFolder q ∧ fs'.fileAt? q = none) ∧ fs'.IsSound ∧
      fs'.current = fs.current ∧ fs'.refuses = fs.refuses ∧
      (fs.links.names = [] → fs'.links = fs.links) := by
  obtain ⟨folder, name, hploc, rfl, hnode⟩ := status_file hp
  obtain ⟨place, hqloc, hslash, hd, hmoved⟩ := rename_ok h hploc hnode
  have hptarget := locate_location hploc
  have hqtarget := locate_location hqloc
  cases place with
  | directory l =>
    -- an existing directory is not taken for a file's place
    exact absurd (hs.folder hqloc) hd
  | entry folder' name' slash =>
    obtain rfl : slash = false := hslash
    rw [itself_entry] at hmoved
    unfold reached at hpq
    rw [← hptarget, ← hqtarget] at hpq
    simp only [Place.location] at hpq
    have hsource := hnode
    unfold node? at hsource
    rw [real_concat] at hsource
    have hm := moves_of_rename hs hnode (hs.folder hqloc) (not_directory_of_itself hd hs) hpq
    obtain ⟨hsame, -⟩ | rfl := hmoved
    · -- both are names of one file
      rw [real_concat, real_concat] at hpq
      obtain hsame | hsame := hsame
      · exact absurd hsame hm.ne
      · exact absurd (hop_of_areNames hs hsame (by simp [hsource])) hpq
    refine ⟨?_, isSound_move hs hm, rfl, rfl, fun hplain => ?_⟩
    · by_cases hdir : fs.node? (folder' ++ [name']) = some .directory
      · cases hc : (fs.move (fs.real folder ++ [name]) (fs.real folder' ++ [name'])).fileAt? q with
        | none =>
          refine .inr ⟨?_, rfl⟩
          unfold LinksToFolder
          rw [← hqtarget, Place.location, own_concat]
          exact ⟨isLink_of_itself hd hdir, hdir⟩
        | some c' =>
          obtain ⟨l, x', hstatus⟩ := fileAt?_eq_some.1 hc
          exact .inl (congrArg some (status_of_moved hs hm hsource hqloc hstatus))
      · refine .inl (fileAt?_eq_some.2 ⟨_, x, status_move hs hm hsource hqloc hdir ?_⟩)
        rw [← real_concat]
        exact hpq.symm
    · have hnone (s t : Location) : moved s t fs.links.names = fs.links.names := by
        rw [hplain]
        rfl
      unfold move
      rw [hnone]

/-! ## The new content -/

section

variable {fs₁ fs₂ : FileSystem} {content : Bytes}

/-- A temporary file that was made and filled is there. -/
theorem status_append_create (hcreate : fs.create p = .ok fs₁)
    (happend : fs₁.append p content = .ok fs₂) :
    ∃ l x, fs₂.status p = .ok (l, .file content x) := by
  obtain ⟨folder, name, x, hloc, hdir, -, rfl⟩ := create_ok hcreate
  obtain ⟨l, c, x', hstatus, rfl⟩ := append_ok happend
  obtain ⟨folder', name', hloc', rfl, hnode⟩ := status_file hstatus
  have htarget : (fs.put (folder ++ [name]) (.file [] x)).target p = fs.target p :=
    @target_congr fs (fs.put _ _) rfl rfl p
  have hsame : folder' ++ [name'] = folder ++ [name] :=
    (locate_location hloc').trans (htarget.trans (locate_location hloc).symm)
  have hempty := hnode
  rw [hsame, node?_put_self _ (real_ne_nil hdir)] at hempty
  cases hempty
  have hfile : (fs.put (folder ++ [name]) (.file [] x)).node? (folder' ++ [name']) ≠
      some .directory := by
    rw [hnode]
    simp
  refine ⟨folder' ++ [name'], x, status_of_entry
    (locate_mono (fun _ => directory_put hfile _) rfl rfl hloc') ?_⟩
  rw [node?_put_self _ (real_ne_nil hfile), List.nil_append]

end

end FileSystem

end ExportDesk
