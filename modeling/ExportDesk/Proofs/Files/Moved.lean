import Mathlib.Data.Nat.Find
import ExportDesk.Proofs.Files.Tree

/-!
# A name that has moved

`isSound_move`: a name below which nothing stands, a file's or a link's, can take another's place.
Directories are found where they were (`real_otherwise`), because the way to a directory leads
neither through a file's name nor through that of a link to a file; and what the moved name led to
is found under the new one (`entryAt?_move_self`), and nothing else is (`entryAt?_of_moved`).
-/

namespace ExportDesk

open Text

/-! ## Names -/

namespace FileSystem

section

variable {α : Type} {es : List (Location × α)} {s t : Location}

theorem lookup_map_const (hes : ∀ e ∈ es, e.1 = s) (m : Location) :
    (es.map fun e => (t, e.2)).lookup m = if m = t then es.lookup s else none := by
  induction es with
  | nil => simp
  | cons e es ih =>
    obtain ⟨k, n⟩ := e
    obtain rfl : k = s := hes (k, n) List.mem_cons_self
    have ih := ih fun d hd => hes d (List.mem_cons_of_mem _ hd)
    by_cases hm : m = t
    · simp [hm]
    · have hb : (m == t) = false := by simpa using hm
      rw [List.map_cons, List.lookup_cons, hb, if_neg hm]
      exact ih.trans (if_neg hm)

theorem lookup_filter_prefix (hes : ∀ e ∈ es, s <+: e.1 → e.1 = s) :
    (es.filter fun e => s.isPrefixOf e.1).lookup s = es.lookup s := by
  induction es with
  | nil => rfl
  | cons e es ih =>
    obtain ⟨k, n⟩ := e
    have ih := ih fun d hd => hes d (List.mem_cons_of_mem _ hd)
    by_cases hk : k = s
    · simp [hk]
    · have hpre : ¬ s <+: k := fun h => hk (hes (k, n) List.mem_cons_self h)
      have hb : (s == k) = false := by simpa using Ne.symm hk
      simp [hpre, List.lookup_cons, hb, ih]

theorem lookup_filter_self (es : List (Location × α)) (l : Location) :
    (es.filter fun e => e.1 != l).lookup l = none := by
  induction es with
  | nil => rfl
  | cons e es ih =>
    rcases e with ⟨k, n⟩
    by_cases hk : k = l
    · simp [hk, ih]
    · have : (l == k) = false := by simpa using Ne.symm hk
      simp [hk, List.lookup_cons, ih, this]

/-- What is under which name after one has been moved that has no names below it. -/
theorem lookup_moved (hes : ∀ e ∈ es, s <+: e.1 → e.1 = s) (m : Location) :
    (moved s t es).lookup m =
      if m = t then es.lookup s else if m = s then none else es.lookup m := by
  have hinside : (es.filter fun e => s.isPrefixOf e.1).map
      (fun e => (t ++ e.1.drop s.length, e.2)) =
        (es.filter fun e => s.isPrefixOf e.1).map fun e => (t, e.2) := by
    refine List.map_congr_left fun e he => ?_
    rw [List.mem_filter, List.isPrefixOf_iff_prefix] at he
    rw [hes e he.1 he.2, List.drop_length, List.append_nil]
  have houtside : (es.filter fun e => !s.isPrefixOf e.1 && e.1 != t) =
      (es.filter fun e => e.1 != s).filter fun e => e.1 != t := by
    rw [List.filter_filter]
    refine List.filter_congr fun e he => ?_
    by_cases hse : e.1 = s
    · have hpre : s.isPrefixOf e.1 = true := by
        refine List.isPrefixOf_iff_prefix.2 ?_
        exact hse ▸ List.prefix_rfl
      have hself : (e.1 != s) = false := by simpa using hse
      rw [hpre, hself, Bool.not_true, Bool.false_and, Bool.and_false]
    · have hpre : s.isPrefixOf e.1 = false := by
        rw [Bool.eq_false_iff, ne_eq, List.isPrefixOf_iff_prefix]
        exact fun h => hse (hes e he h)
      simp [hse, hpre]
  unfold moved
  simp only [hinside, houtside]
  rw [List.lookup_append, lookup_map_const fun e he => by
    rw [List.mem_filter, List.isPrefixOf_iff_prefix] at he
    exact hes e he.1 he.2]
  by_cases hmt : m = t
  · rw [if_pos hmt, if_pos hmt, lookup_filter_prefix hes, hmt, lookup_filter_self, Option.or_none]
  · rw [if_neg hmt, if_neg hmt, Option.none_or, lookup_filter_ne _ hmt]
    by_cases hms : m = s
    · rw [if_pos hms, hms, lookup_filter_self]
    · rw [if_neg hms, lookup_filter_ne _ hms]

end

variable {fs : FileSystem} {s t m : Location}

theorem lookup_ne_none {α : Type} {es : List (Location × α)} {e : Location × α} (he : e ∈ es) :
    es.lookup e.1 ≠ none := by
  induction es with
  | nil => exact absurd he List.not_mem_nil
  | cons d es ih =>
    rw [List.lookup_cons]
    split
    · exact Option.some_ne_none _
    next hne =>
      rcases List.mem_cons.1 he with rfl | he
      · simp at hne
      · exact ih he

/-- Only below a directory there are names. -/
theorem IsSound.eq_of_prefix (hs : fs.IsSound) (hd : fs.entryAt? s ≠ some .directory)
    (hm : fs.entryAt? m ≠ none ∨ fs.isLink m = true) (h : s <+: m) : m = s := by
  obtain ⟨rest, rfl⟩ := h
  induction rest using List.reverseRecOn with
  | nil => exact List.append_nil s
  | append_singleton rest x ih =>
    have hfolder : fs.entryAt? (s ++ rest) = some .directory := by
      rw [← List.append_assoc] at hm
      obtain hm | hm := hm
      · exact hs.parents _ x hm
      · exact hs.linked _ x hm
    rw [ih (.inl (by simp [hfolder]))] at hfolder
    exact absurd hfolder hd

/-- What is moved: a name that is no directory's, onto one in a directory that is no directory's
either. -/
structure Moves (fs : FileSystem) (s t : Location) : Prop where
  source : fs.entryAt? s ≠ some .directory
  free : fs.entryAt? t ≠ some .directory
  folder : fs.entryAt? t.dropLast = some .directory
  ne : s ≠ t

namespace Moves

theorem source_ne_nil (hm : fs.Moves s t) : s ≠ [] := by
  rintro rfl
  exact hm.source rfl

theorem target_ne_nil (hm : fs.Moves s t) : t ≠ [] := by
  rintro rfl
  exact hm.free rfl

end Moves

variable (hs : fs.IsSound) (hm : fs.Moves s t)

include hs hm in
theorem entryAt?_move (m : Location) : (fs.move s t).entryAt? m =
    if m = t then fs.entryAt? s else if m = s then none else fs.entryAt? m := by
  have hbelow : ∀ e ∈ fs.entries, s <+: e.1 → e.1 = s := by
    intro e he hpre
    refine hs.eq_of_prefix hm.source (.inl ?_) hpre
    unfold entryAt?
    split
    · exact Option.some_ne_none _
    · exact lookup_ne_none he
  by_cases hnil : m = []
  · rw [hnil, if_neg hm.target_ne_nil.symm, if_neg hm.source_ne_nil.symm]
    rfl
  · have hentries : (fs.move s t).entryAt? m = (moved s t fs.entries).lookup m := by
      simp [entryAt?, hnil, move]
    rw [hentries, lookup_moved hbelow]
    simp [entryAt?, hnil, hm.source_ne_nil]

include hs hm in
theorem lookup_move (m : Location) : (fs.move s t).links.names.lookup m =
    if m = t then fs.links.names.lookup s
    else if m = s then none else fs.links.names.lookup m := by
  refine lookup_moved (fun e he hpre => hs.eq_of_prefix hm.source (.inr ?_) hpre) m
  exact Option.isSome_iff_ne_none.2 (lookup_ne_none he)

include hs hm in
theorem directory_move {m : Location} (h : fs.entryAt? m = some .directory) :
    (fs.move s t).entryAt? m = some .directory := by
  rw [entryAt?_move hs hm, if_neg (by rintro rfl; exact hm.free h),
    if_neg (by rintro rfl; exact hm.source h), h]

include hs hm in
theorem directory_of_moved {m : Location} (h : (fs.move s t).entryAt? m = some .directory) :
    fs.entryAt? m = some .directory := by
  rw [entryAt?_move hs hm] at h
  split at h
  · exact absurd h hm.source
  split at h
  · cases h
  · exact h

end FileSystem

/-! ## The way to an entry -/

namespace FileSystem

open Links (hop)

variable {fs : FileSystem}

/-- Names on the way to an entry are looked for in directories. -/
theorem IsSound.stage (hs : fs.IsSound) {d : Nat} {l : Location} {x : Bytes}
    (h : fs.entryAt? (hop fs.links.names d (l ++ [x])) ≠ none) :
    fs.entryAt? l = some .directory := by
  cases hlink : fs.links.names.lookup (l ++ [x]) with
  | none =>
    rw [Links.hop_of_lookup hlink] at h
    exact hs.parents l x h
  | some k => exact hs.linked l x (by simp [isLink, hlink])

/-- Two ways of following single names lead to the same entry by the same names, if they do so for
directories and for the last name. -/
theorem foldl_eq {f g : Location → Location} {r : Location}
    (hstage : ∀ l x, fs.entryAt? (f (l ++ [x])) ≠ none → fs.entryAt? l = some .directory)
    (hdir : ∀ l, fs.entryAt? (f l) = some .directory → g l = f l)
    (hlast : ∀ l, f l = r → g l = r) (hr : fs.entryAt? r ≠ none) {goal : Location}
    (h : goal.foldl (fun m x => f (m ++ [x])) [] = r) :
    goal.foldl (fun m x => g (m ++ [x])) [] = r := by
  induction goal using List.reverseRecOn generalizing r with
  | nil => exact h
  | append_singleton goal x ih =>
    rw [List.foldl_append, List.foldl_cons, List.foldl_nil] at h ⊢
    have hfolder := hstage _ x (h ▸ hr)
    rw [ih (fun l hl => by rw [hdir l (hl ▸ hfolder), hl]) (by simp [hfolder]) rfl]
    exact hlast _ h

/-- What leads to an entry leads there however deep links may be nested beyond that. -/
theorem IsSound.hop_succ (hs : fs.IsSound) {d : Nat} {l : Location}
    (h : fs.entryAt? (hop fs.links.names d l) ≠ none) :
    hop fs.links.names (d + 1) l = hop fs.links.names d l := by
  induction d generalizing l with
  | zero =>
    have hfree := hs.isLink_of_entry h
    have hnone : fs.links.names.lookup l = none := by
      unfold isLink at hfree
      exact Option.not_isSome_iff_eq_none.1 (Bool.eq_false_iff.1 hfree)
    exact Links.hop_of_lookup hnone 1
  | succ d ih =>
    rw [hop] at h ⊢
    rw [hop]
    cases hlink : fs.links.names.lookup l with
    | none => rfl
    | some k =>
      cases k with
      | hard file => rfl
      | symbolic goal =>
        rw [hlink] at h
        exact foldl_eq (f := hop fs.links.names d) (fun _ _ => hs.stage)
          (fun l hl => ih (by simp [hl])) (fun l hl => by rw [ih (hl ▸ h), hl]) h rfl

theorem IsSound.hop_mono (hs : fs.IsSound) {d e : Nat} (hde : d ≤ e) {l : Location}
    (h : fs.entryAt? (hop fs.links.names d l) ≠ none) :
    hop fs.links.names e l = hop fs.links.names d l := by
  induction hde with
  | refl => rfl
  | step _ ih => rw [hs.hop_succ (by rwa [ih]), ih]

/-! ## The way past two names -/

/-- From one file system to another, nothing is different under other names than these two. -/
structure OtherwiseSame (s t : Location) (fs fs' : FileSystem) : Prop where
  entry : ∀ l, l ≠ s → l ≠ t → fs'.entryAt? l = fs.entryAt? l
  lookup : ∀ l, l ≠ s → l ≠ t → fs'.links.names.lookup l = fs.links.names.lookup l
  depth : fs'.links.maxDepth = fs.links.maxDepth

theorem OtherwiseSame.symm {s t : Location} {fs' : FileSystem} (h : OtherwiseSame s t fs fs') :
    OtherwiseSame t s fs' fs :=
  ⟨fun l hs ht => (h.entry l ht hs).symm, fun l hs ht => (h.lookup l ht hs).symm, h.depth.symm⟩

/-- Neither name leads to a directory if links are nested no deeper than that. -/
def LeadsApart (fs : FileSystem) (s t : Location) (depth : Nat) : Prop :=
  ∀ d ≤ depth, fs.entryAt? (hop fs.links.names d s) ≠ some .directory ∧
    fs.entryAt? (hop fs.links.names d t) ≠ some .directory

theorem LeadsApart.mono {s t : Location} {d e : Nat} (h : fs.LeadsApart s t e) (hde : d ≤ e) :
    fs.LeadsApart s t d := fun d' hd' => h d' (le_trans hd' hde)

theorem IsSound.leadsApart (hs : fs.IsSound) {s t : Location}
    (hsource : fs.entryAt? (hop fs.links.names fs.links.maxDepth s) ≠ some .directory)
    (htarget : fs.entryAt? (hop fs.links.names fs.links.maxDepth t) ≠ some .directory) :
    fs.LeadsApart s t fs.links.maxDepth := by
  have hmore {l : Location} {d : Nat} (hd : d ≤ fs.links.maxDepth)
      (h : fs.entryAt? (hop fs.links.names d l) = some .directory) :
      fs.entryAt? (hop fs.links.names fs.links.maxDepth l) = some .directory := by
    rw [hs.hop_mono hd (by simp [h]), h]
  exact fun d hd => ⟨fun h => hsource (hmore hd h), fun h => htarget (hmore hd h)⟩

section

variable {fs' : FileSystem} {s t : Location} (hs : fs.IsSound) (ho : OtherwiseSame s t fs fs')

include hs ho in
/-- The way to a directory goes past both names. -/
theorem hop_otherwise {d : Nat} (ha : fs.LeadsApart s t d) {l : Location}
    (h : fs.entryAt? (hop fs.links.names d l) = some .directory) :
    hop fs'.links.names d l = hop fs.links.names d l := by
  induction d generalizing l with
  | zero => rfl
  | succ d ih =>
    have ih {l : Location} := ih (ha.mono (Nat.le_succ d)) (l := l)
    have hls : l ≠ s := by
      rintro rfl
      exact (ha _ le_rfl).1 h
    have hlt : l ≠ t := by
      rintro rfl
      exact (ha _ le_rfl).2 h
    rw [hop, hop, ho.lookup l hls hlt]
    rw [hop] at h
    cases hlink : fs.links.names.lookup l with
    | none => rfl
    | some k =>
      cases k with
      | hard file => rfl
      | symbolic goal =>
        rw [hlink] at h
        exact foldl_eq (f := hop fs.links.names d) (fun _ _ => hs.stage) (fun _ => ih)
          (fun l hl => by rw [ih (hl ▸ h), hl]) (by simp [h]) rfl

include hs ho in
/-- So does the way to an entry that neither of them leads to. -/
theorem hop_of_avoids {d : Nat} (ha : fs.LeadsApart s t d) {r l : Location}
    (hr : fs.entryAt? r ≠ none)
    (havoid : ∀ e ≤ d, hop fs.links.names e s ≠ r ∧ hop fs.links.names e t ≠ r)
    (h : hop fs.links.names d l = r) : hop fs'.links.names d l = r := by
  induction d generalizing l with
  | zero => exact h
  | succ d ih =>
    have hls : l ≠ s := by
      rintro rfl
      exact (havoid _ le_rfl).1 h
    have hlt : l ≠ t := by
      rintro rfl
      exact (havoid _ le_rfl).2 h
    have ha := ha.mono (Nat.le_succ d)
    rw [hop, ho.lookup l hls hlt]
    rw [hop] at h
    cases hlink : fs.links.names.lookup l with
    | none => rwa [hlink] at h
    | some k =>
      rw [hlink] at h
      cases k with
      | hard file => exact h
      | symbolic goal =>
        exact foldl_eq (fun _ _ => hs.stage) (fun _ => hop_otherwise hs ho ha)
          (fun l => ih ha fun e he => havoid e (by omega)) hr h

include hs ho in
/-- A link leads to the same entry from both names, if it does not pass them on its way. -/
theorem hop_relinked {d : Nat} (ha : fs.LeadsApart s t d) {k : Link}
    (hk : fs.links.names.lookup s = some k) (hk' : fs'.links.names.lookup t = some k)
    {r : Location} (hr : fs.entryAt? r ≠ none)
    (havoid : ∀ e ≤ d, hop fs.links.names e s ≠ r ∧ hop fs.links.names e t ≠ r)
    (h : hop fs.links.names (d + 1) s = r) : hop fs'.links.names (d + 1) t = r := by
  rw [hop, hk] at h
  rw [hop, hk']
  cases k with
  | hard file => exact h
  | symbolic goal =>
    exact foldl_eq (fun _ _ => hs.stage) (fun _ => hop_otherwise hs ho ha)
      (fun l => hop_of_avoids hs ho ha hr havoid) hr h

include hs ho in
/-- The location of a directory is as it was. -/
theorem real_otherwise (ha : fs.LeadsApart s t fs.links.maxDepth) {l : Location}
    (h : fs.node? l = some .directory) : fs'.real l = fs.real l := by
  unfold real Links.resolve
  rw [ho.depth]
  exact foldl_eq (f := hop fs.links.names fs.links.maxDepth) (fun _ _ => hs.stage)
    (fun _ => hop_otherwise hs ho ha)
    (fun l hl => by rw [hop_otherwise hs ho ha (by rw [hl]; exact h), hl])
    (by rw [← Links.resolve, ← real, ← node?, h]; simp) rfl

include hs ho in
/-- A path leads to the same place if all directories are still there. -/
theorem locate_otherwise (ha : fs.LeadsApart s t fs.links.maxDepth)
    (hcurrent : fs'.current = fs.current)
    (hkept : ∀ m, fs.entryAt? m = some .directory → fs'.entryAt? m = some .directory)
    {q : Path} {place : Place} (hloc : fs.locate q = .ok place) : fs'.locate q = .ok place := by
  have hreal {m : Location} (hm : fs.node? m = some .directory) := real_otherwise hs ho ha hm
  have hfollow := follow_mono (I := fun m => fs.node? m = some .directory)
    (fun m hm => ⟨by
      unfold node?
      rw [hreal hm]
      exact hkept _ hm, hm⟩)
    (fun m hm => ⟨hreal hm, hs.up hm⟩)
    (by split <;> first | rfl | exact hs.here) (follow_of_locate hloc)
  rw [← hcurrent] at hfollow
  exact locate_of_follow hloc hfollow

end

/-! ## The way after a move -/

section

variable {s t : Location} (hs : fs.IsSound) (hm : fs.Moves s t)

include hs hm in
theorem otherwiseSame_move : OtherwiseSame s t fs (fs.move s t) := by
  refine ⟨fun l hls hlt => ?_, fun l hls hlt => ?_, rfl⟩
  · rw [entryAt?_move hs hm, if_neg hlt, if_neg hls]
  · rw [lookup_move hs hm, if_neg hlt, if_neg hls]

include hs hm in
theorem isSound_move : (fs.move s t).IsSound := by
  have hkept {m : Location} := directory_move hs hm (m := m)
  have hfolder {m : Location} {x : Bytes} (h : m ++ [x] = t) :
      fs.entryAt? m = some .directory := by
    have hf := hm.folder
    rwa [← h, List.dropLast_concat] at hf
  refine ⟨hkept hs.current, fun m x h => hkept ?_, fun m x h => hkept ?_, fun m h => ?_⟩
  · rw [entryAt?_move hs hm] at h
    split at h
    next hmt => exact hfolder hmt
    next =>
      split at h
      · exact absurd rfl h
      · exact hs.parents m x h
  · unfold isLink at h
    rw [lookup_move hs hm] at h
    split at h
    next hmt => exact hfolder hmt
    next =>
      split at h
      · cases h
      · exact hs.linked m x h
  · unfold isLink at h
    rw [lookup_move hs hm] at h
    rw [entryAt?_move hs hm]
    by_cases hmt : m = t
    · rw [if_pos hmt] at h ⊢
      exact hs.apart s h
    · rw [if_neg hmt] at h ⊢
      by_cases hms : m = s
      · rw [if_pos hms]
      · rw [if_neg hms] at h ⊢
        exact hs.apart m h

include hs hm in
/-- Nothing is left under the old name. -/
theorem hop_move_old (d : Nat) : hop (fs.move s t).links.names d s = s ∧
    (fs.move s t).entryAt? s = none := by
  refine ⟨Links.hop_of_lookup ?_ d, ?_⟩
  · rw [lookup_move hs hm, if_neg hm.ne, if_pos rfl]
  · rw [entryAt?_move hs hm, if_neg hm.ne, if_pos rfl]

include hs hm in
theorem lookup_move_new : (fs.move s t).links.names.lookup t = fs.links.names.lookup s := by
  rw [lookup_move hs hm, if_pos rfl]

include hs hm in
/-- What a moved link leads to it led to before, if no shorter way leads there. -/
theorem hop_of_moved {k : Link} (hk : fs.links.names.lookup s = some k) {r : Location} {d : Nat}
    (hr : (fs.move s t).entryAt? r ≠ none) (h : hop (fs.move s t).links.names d t = r)
    (hleast : ∀ e < d, hop (fs.move s t).links.names e t ≠ r)
    (ha : ∀ e < d, (fs.move s t).entryAt? (hop (fs.move s t).links.names e t) ≠ some .directory) :
    hop fs.links.names d s = r ∧ fs.entryAt? r = (fs.move s t).entryAt? r := by
  have hs' := isSound_move hs hm
  have hk' := (lookup_move_new hs hm).trans hk
  have hrs : r ≠ s := by
    rintro rfl
    exact hr (hop_move_old hs hm 0).2
  have hrt : r ≠ t := by
    rintro rfl
    exact hr (hs'.apart r (by simp [isLink, hk']))
  refine ⟨?_, ((otherwiseSame_move hs hm).entry r hrs hrt).symm⟩
  cases d with
  | zero => exact absurd h.symm hrt
  | succ d =>
    refine hop_relinked hs' (otherwiseSame_move hs hm).symm (fun e he => ?_) hk' hk hr
      (fun e he => ?_) h
    · obtain ⟨hold, hnone⟩ := hop_move_old hs hm e
      exact ⟨ha e (by omega), by simp [hold, hnone]⟩
    · rw [(hop_move_old hs hm e).1]
      exact ⟨hleast e (by omega), hrs.symm⟩

variable (hsource : fs.entryAt? (hop fs.links.names fs.links.maxDepth s) ≠ some .directory)

include hs hm hsource in
theorem leadsApart_move : (fs.move s t).LeadsApart t s fs.links.maxDepth := by
  intro d hd
  obtain ⟨hold, hnone⟩ := hop_move_old hs hm d
  refine ⟨?_, by simp [hold, hnone]⟩
  induction d using Nat.strong_induction_on with
  | _ d ih =>
    have ih (e : Nat) (he : e < d) := ih e he (by omega) (hop_move_old hs hm e).1
    intro hdir
    cases hk : fs.links.names.lookup s with
    | none =>
      rw [Links.hop_of_lookup ((lookup_move_new hs hm).trans hk), entryAt?_move hs hm,
        if_pos rfl] at hdir
      exact hm.source hdir
    | some k =>
      obtain ⟨hback, hentry⟩ := hop_of_moved hs hm hk (by simp [hdir]) rfl
        (fun e he heq => ih e he (heq ▸ hdir)) ih
      rw [hdir, ← hback] at hentry
      exact hsource (by rw [hs.hop_mono hd (by simp [hentry]), hentry])

include hs hm hsource in
/-- What is found under the new name was found under the old one. -/
theorem entryAt?_of_moved {n : Node}
    (hn : (fs.move s t).entryAt? (hop (fs.move s t).links.names fs.links.maxDepth t) = some n) :
    fs.entryAt? (hop fs.links.names fs.links.maxDepth s) = some n := by
  cases hk : fs.links.names.lookup s with
  | none =>
    rw [Links.hop_of_lookup ((lookup_move_new hs hm).trans hk), entryAt?_move hs hm,
      if_pos rfl] at hn
    rwa [Links.hop_of_lookup hk]
  | some k =>
    generalize hr : hop (fs.move s t).links.names fs.links.maxDepth t = r at hn
    have hreaches : ∃ d, hop (fs.move s t).links.names d t = r := ⟨_, hr⟩
    have hleast (e : Nat) (he : e < Nat.find hreaches) := Nat.find_min hreaches he
    have hdepth : Nat.find hreaches ≤ fs.links.maxDepth := Nat.find_min' hreaches hr
    obtain ⟨hback, hentry⟩ := hop_of_moved hs hm hk (by simp [hn]) (Nat.find_spec hreaches) hleast
      fun e he => (leadsApart_move hs hm hsource e (by omega)).1
    rw [hs.hop_mono hdepth (by rw [hback, hentry, hn]; simp), hback, hentry, hn]

include hs hm hsource in
/-- **What a name led to is found under its new name**, unless a folder was behind that one. -/
theorem entryAt?_move_self {n : Node}
    (htarget : fs.entryAt? (hop fs.links.names fs.links.maxDepth t) ≠ some .directory)
    (hn : fs.entryAt? (hop fs.links.names fs.links.maxDepth s) = some n)
    (hne : hop fs.links.names fs.links.maxDepth t ≠ hop fs.links.names fs.links.maxDepth s) :
    (fs.move s t).entryAt? (hop (fs.move s t).links.names fs.links.maxDepth t) = some n := by
  have hs' := isSound_move hs hm
  cases hk : fs.links.names.lookup s with
  | none =>
    rw [Links.hop_of_lookup hk] at hn
    rw [Links.hop_of_lookup ((lookup_move_new hs hm).trans hk), entryAt?_move hs hm, if_pos rfl, hn]
  | some k =>
    generalize hr : hop fs.links.names fs.links.maxDepth s = r at hn hne
    have hentry : fs.entryAt? r ≠ none := by simp [hn]
    have hrs : r ≠ s := by
      rintro rfl
      exact hentry (hs.apart r (by simp [isLink, hk]))
    have hrt : r ≠ t := by
      rintro rfl
      have hfree := hs.isLink_of_entry hentry
      exact hne (Links.hop_of_lookup (by simpa [isLink] using hfree) _)
    -- the nesting that is just enough: deeper down, the way does not go through the link again
    have hreaches : ∃ d, hop fs.links.names d s = r := ⟨_, hr⟩
    have hdepth : Nat.find hreaches ≤ fs.links.maxDepth := Nat.find_min' hreaches hr
    have hleast (e : Nat) (he : e < Nat.find hreaches) := Nat.find_min hreaches he
    have hmoved : hop (fs.move s t).links.names (Nat.find hreaches) t = r := by
      have hfound := Nat.find_spec hreaches
      generalize Nat.find hreaches = d at hdepth hleast hfound ⊢
      cases d with
      | zero => exact absurd hfound.symm hrs
      | succ d =>
        refine hop_relinked hs (otherwiseSame_move hs hm)
          ((hs.leadsApart hsource htarget).mono (by omega)) hk
          ((lookup_move_new hs hm).trans hk) hentry (fun e he => ⟨hleast e (by omega), ?_⟩) hfound
        intro heq
        exact hne ((hs.hop_mono (by omega) (by rwa [heq])).trans heq)
    have hkept := (otherwiseSame_move hs hm).entry r hrs hrt
    rw [hs'.hop_mono hdepth (by rw [hmoved, hkept]; exact hentry), hmoved, hkept, hn]

end

end FileSystem

end ExportDesk
