import ExportDesk.Files.Disk
import ExportDesk.Proofs.Files.Tree
import Mathlib.Data.List.TakeWhile

/-!
# The temporary file stands beside the file

`target_temporary`: for every path with a file name, the temporary path names another entry of the
same folder. A path keeps what it names when separators and `.` steps go from its end
(`target_body`), so only the last name counts.
-/

namespace ExportDesk

open Text

namespace Path

/-! ## Cutting at separators -/

theorem splitAtSeparators_ne_nil (bs : Bytes) : splitAtSeparators bs ≠ [] := by
  fun_cases splitAtSeparators bs with
  | case1 => exact List.cons_ne_nil _ _
  | case2 b bs hb => exact List.cons_ne_nil _ _
  | case3 b bs hb hnil => exact List.cons_ne_nil _ _
  | case4 b bs hb s ss hcons => exact List.cons_ne_nil _ _

theorem splitAtSeparators_append (bs cs : Bytes) :
    splitAtSeparators (bs ++ separator :: cs) = splitAtSeparators bs ++ splitAtSeparators cs := by
  induction bs with
  | nil => simp [splitAtSeparators]
  | cons b bs ih =>
    rw [List.cons_append, splitAtSeparators, splitAtSeparators, ih]
    split
    · rfl
    · cases hbs : splitAtSeparators bs with
      | nil => exact absurd hbs (splitAtSeparators_ne_nil bs)
      | cons s ss => rfl

theorem splitAtSeparators_of_not_mem {bs : Bytes} (h : separator ∉ bs) :
    splitAtSeparators bs = [bs] := by
  induction bs with
  | nil => rfl
  | cons b bs ih =>
    rw [List.mem_cons, not_or] at h
    rw [splitAtSeparators, if_neg (by simpa using Ne.symm h.1), ih h.2]

theorem segments_append_separator (bs cs : Bytes) :
    (⟨bs ++ separator :: cs⟩ : Path).segments =
      (⟨bs⟩ : Path).segments ++ (⟨cs⟩ : Path).segments := by
  unfold segments
  rw [splitAtSeparators_append, List.filter_append]

theorem segments_of_not_mem {bs : Bytes} (h : separator ∉ bs) (hne : bs ≠ []) :
    (⟨bs⟩ : Path).segments = [bs] := by
  unfold segments
  rw [splitAtSeparators_of_not_mem h]
  simpa using hne

theorem segments_nil : (⟨[]⟩ : Path).segments = [] := rfl

theorem segments_append_slash (bs : Bytes) :
    (⟨bs ++ [separator]⟩ : Path).segments = (⟨bs⟩ : Path).segments := by
  rw [segments_append_separator, segments_nil, List.append_nil]

theorem segments_append_dot (bs : Bytes) :
    (⟨bs ++ [separator, dot]⟩ : Path).segments = (⟨bs⟩ : Path).segments ++ [[dot]] := by
  rw [segments_append_separator]
  rfl

theorem isAbsolute_append {bs : Bytes} (h : bs ≠ []) (cs : Bytes) :
    (⟨bs ++ cs⟩ : Path).isAbsolute = (⟨bs⟩ : Path).isAbsolute := by
  cases bs with
  | nil => exact absurd rfl h
  | cons b bs => rfl

theorem isAbsolute_append_dot (bs : Bytes) :
    (⟨bs ++ [separator, dot]⟩ : Path).isAbsolute = (⟨bs ++ [separator]⟩ : Path).isAbsolute := by
  cases bs <;> rfl

/-- What counts neither a separator at the end nor a `.` behind one does not count anything that is
dropped from the end of a path. -/
theorem body_congr {α : Type} (f : Path → α)
    (hslash : ∀ bs, bs ≠ [] → f ⟨bs ++ [separator]⟩ = f ⟨bs⟩)
    (hdot : ∀ bs, f ⟨bs ++ [separator, dot]⟩ = f ⟨bs ++ [separator]⟩) (p : Path) :
    f ⟨p.body⟩ = f p := by
  have hstrip (bs : Bytes) : f ⟨(stripEndReversed bs).reverse⟩ = f ⟨bs.reverse⟩ := by
    fun_induction stripEndReversed bs with
    | case1 => rfl
    | case2 b bs hb hnil => rw [List.isEmpty_iff.1 hnil]
    | case3 b bs hb hne ih =>
      obtain rfl : b = separator := beq_iff_eq.1 hb
      rw [ih, List.reverse_cons, hslash _ (by simpa using hne)]
    | case4 b bs hb hcut ih =>
      rw [Bool.and_eq_true, beq_iff_eq, beq_iff_eq] at hcut
      obtain ⟨rfl, hsep⟩ := hcut
      obtain ⟨cs, rfl⟩ := List.head?_eq_some_iff.1 hsep
      rw [ih, List.reverse_cons, ← hdot]
      simp
    | case5 => rfl
  unfold body
  rw [hstrip, List.reverse_reverse]

/-- Does a name that follows the bytes start afresh? -/
def EndsFolder (bs : Bytes) : Prop := bs = [] ∨ ∃ cs, bs = cs ++ [separator]

theorem segments_append_name {bs name : Bytes} (hbs : EndsFolder bs) (hsep : separator ∉ name)
    (hne : name ≠ []) :
    (⟨bs ++ name⟩ : Path).segments = (⟨bs⟩ : Path).segments ++ [name] := by
  obtain rfl | ⟨cs, rfl⟩ := hbs
  · exact segments_of_not_mem hsep hne
  · rw [List.append_assoc, List.singleton_append, segments_append_separator,
      segments_append_separator, segments_of_not_mem hsep hne, segments_nil, List.append_nil]

/-- Bytes are a folder's and what follows the last separator. -/
theorem exists_last_name (bs : Bytes) :
    ∃ pre, bs = pre ++ (bs.reverse.takeWhile (· != separator)).reverse ∧ EndsFolder pre ∧
      separator ∉ (bs.reverse.takeWhile (· != separator)).reverse := by
  refine ⟨(bs.reverse.dropWhile (· != separator)).reverse, ?_, ?_, ?_⟩
  · rw [← List.reverse_append, List.takeWhile_append_dropWhile, List.reverse_reverse]
  · cases hd : bs.reverse.dropWhile (· != separator) with
    | nil => exact .inl rfl
    | cons b cs =>
      have hb := List.head?_dropWhile_not (· != separator) bs.reverse
      rw [hd] at hb
      refine .inr ⟨cs.reverse, ?_⟩
      have hsep : b = separator := by simpa using hb
      rw [List.reverse_cons, hsep]
  · intro hmem
    have hall := List.mem_takeWhile_imp (List.mem_reverse.1 hmem)
    simp at hall

end Path

namespace FileSystem

open ExportDesk.Path

/-! ## The last name of a path -/

theorem walk_append (fs : FileSystem) (l : Location) (ss ts : List Bytes) :
    fs.walk l (ss ++ ts) = fs.walk (fs.walk l ss) ts := by
  induction ss generalizing l with
  | nil => rfl
  | cons s ss ih =>
    rw [List.cons_append, walk, walk]
    split
    · exact ih l
    split
    · exact ih (fs.real l).dropLast
    · exact ih (l ++ [s])

theorem walk_name (fs : FileSystem) (l : Location) {name : Bytes} (hdot : name ≠ [dot])
    (hup : name ≠ [dot, dot]) : fs.walk l [name] = l ++ [name] := by
  rw [walk, if_neg (by simpa using hdot), if_neg (by simpa using hup)]
  rfl

theorem walk_dot (fs : FileSystem) (l : Location) : fs.walk l [[dot]] = l := rfl

/-- What is dropped from the end of a path does not change what it names. -/
theorem target_body (fs : FileSystem) (p : Path) : fs.target ⟨p.body⟩ = fs.target p := by
  refine body_congr fs.target (fun bs hbs => ?_) (fun bs => ?_) p
  · unfold target
    rw [isAbsolute_append hbs, segments_append_slash]
  · unfold target
    rw [isAbsolute_append_dot, segments_append_dot, segments_append_slash, walk_append, walk_dot]

theorem fileName_some {p : Path} {name : Bytes} (h : p.fileName = some name) :
    ∃ pre, p.body = pre ++ name ∧ EndsFolder pre ∧ separator ∉ name ∧
      name ≠ [] ∧ name ≠ [dot] ∧ name ≠ [dot, dot] := by
  unfold fileName at h
  simp only at h
  split at h
  · cases h
  next hn =>
    cases h
    simp only [Bool.or_eq_true, not_or, List.isEmpty_iff, beq_iff_eq] at hn
    obtain ⟨pre, hpre, hends, hsep⟩ := exists_last_name p.body
    exact ⟨pre, hpre, hends, hsep, hn.1.1, hn.1.2, hn.2⟩

/-- A path that leads to an entry ends with its name. -/
theorem follow_entry {fs : FileSystem} {slash sl : Bool} {l folder : Location}
    {ss : List Bytes} {name : Bytes} (h : fs.follow slash l ss = .ok (.entry folder name sl)) :
    sl = slash ∧ name ≠ [dot] ∧ name ≠ [dot, dot] ∧ ∃ before, ss = before ++ [name] := by
  induction ss generalizing l with
  | nil => cases h
  | cons s rest ih =>
    have hmore (h : ∃ before, rest = before ++ [name]) : ∃ before, s :: rest = before ++ [name] := by
      obtain ⟨before, rfl⟩ := h
      exact ⟨s :: before, rfl⟩
    unfold follow at h
    split at h
    · obtain ⟨hsl, hdot, hup, hss⟩ := ih h
      exact ⟨hsl, hdot, hup, hmore hss⟩
    next hdot =>
      split at h
      · obtain ⟨hsl, hdot, hup, hss⟩ := ih h
        exact ⟨hsl, hdot, hup, hmore hss⟩
      next hup =>
        split at h
        · cases h
        split at h
        next hrest =>
          cases h
          refine ⟨rfl, by simpa using hdot, by simpa using hup, [], ?_⟩
          rw [List.isEmpty_iff.1 hrest]
          rfl
        next =>
          split at h
          · obtain ⟨hsl, hdot, hup, hss⟩ := ih h
            exact ⟨hsl, hdot, hup, hmore hss⟩
          · cases h
          · cases h

/-- Nothing is dropped from the end of a path that ends with a name. -/
theorem stripEndReversed_name {pre name : Bytes} (hsep : separator ∉ name) (hne : name ≠ [])
    (hdot : name ≠ [dot]) :
    stripEndReversed (pre ++ name).reverse = (pre ++ name).reverse := by
  have hsep' : separator ∉ name.reverse := by rwa [List.mem_reverse]
  rw [List.reverse_append]
  cases hr : name.reverse with
  | nil => exact absurd (List.reverse_eq_nil_iff.1 hr) hne
  | cons b r =>
    rw [hr, List.mem_cons, not_or] at hsep'
    rw [List.cons_append, stripEndReversed, if_neg (by simpa using Ne.symm hsep'.1), if_neg]
    intro hcut
    rw [Bool.and_eq_true] at hcut
    have hb : b = dot := by simpa using hcut.1
    cases r with
    | nil =>
      rw [hb] at hr
      exact hdot (List.reverse_eq_iff.1 hr)
    | cons d r =>
      have hd : d = separator := by simpa using hcut.2
      exact hsep'.2 (hd ▸ List.mem_cons_self)

/-- A path that leads to an entry, and not only to a directory, has a file name. -/
theorem fileName_of_entry {fs : FileSystem} {p : Path} {folder : Location} {name : Bytes}
    (hloc : fs.locate p = .ok (.entry folder name false)) : ∃ name, p.fileName = some name := by
  obtain ⟨hslash, hdot, hup, before, hsegments⟩ := follow_entry (follow_of_locate hloc)
  obtain ⟨pre, hbytes, hpre, hsep⟩ := exists_last_name p.bytes
  generalize hn : (p.bytes.reverse.takeWhile (· != separator)).reverse = last at hbytes hsep
  have hne : last ≠ [] := by
    rintro rfl
    rw [List.append_nil] at hbytes
    obtain rfl | ⟨cs, rfl⟩ := hpre
    · have hnil : p.segments = [] := by
        unfold segments
        rw [hbytes]
        rfl
      rw [hnil] at hsegments
      simp at hsegments
    · rw [hbytes] at hslash
      simp at hslash
  have hlast : last = name := by
    have hsame : (⟨pre ++ last⟩ : Path).segments = before ++ [name] := by
      rw [← hbytes]
      exact hsegments
    rw [segments_append_name hpre hsep hne] at hsame
    have hlist := (List.append_inj' hsame rfl).2
    simpa using hlist
  subst hlast
  have hbody : p.body = p.bytes := by
    unfold body
    rw [hbytes, stripEndReversed_name hsep hne hdot, List.reverse_reverse]
  refine ⟨last, ?_⟩
  unfold fileName lastSegment
  rw [hbody, hn]
  simp [hne, hdot, hup]

/-- A name put in the place of a path's last name. -/
theorem target_append_name (fs : FileSystem) {pre name : Bytes} (hpre : EndsFolder pre)
    (hsep : separator ∉ name) (hne : name ≠ []) (hdot : name ≠ [dot])
    (hup : name ≠ [dot, dot]) :
    fs.target ⟨pre ++ name⟩ = fs.target ⟨pre⟩ ++ [name] := by
  have habs : (⟨pre ++ name⟩ : Path).isAbsolute = (⟨pre⟩ : Path).isAbsolute := by
    cases pre with
    | nil =>
      cases name with
      | nil => exact absurd rfl hne
      | cons b bs =>
        rw [List.mem_cons, not_or] at hsep
        simpa [isAbsolute] using Ne.symm hsep.1
    | cons b bs => rfl
  unfold target
  rw [habs, segments_append_name hpre hsep hne, walk_append, walk_name _ _ hdot hup]

end FileSystem

namespace Path

/-! ## Another extension -/

theorem splitExtension_append (name : Bytes) :
    (splitExtension name).2 = none ∧ (splitExtension name).1 = name ∨
      ∃ after, dot ∉ after ∧ name = (splitExtension name).1 ++ dot :: after := by
  unfold splitExtension
  simp only
  split
  · exact .inl ⟨rfl, rfl⟩
  next h =>
    refine .inr ⟨(name.reverse.takeWhile (· != dot)).reverse, ?_, ?_⟩
    · intro hmem
      have := List.mem_takeWhile_imp (List.mem_reverse.1 hmem)
      simp at this
    · rw [Bool.or_eq_true, not_or] at h
      have hlen : (name.reverse.takeWhile (· != dot)).reverse.length ≠ name.length := by
        simpa using h.1
      have hsplit : name = (name.reverse.dropWhile (· != dot)).reverse ++
          (name.reverse.takeWhile (· != dot)).reverse := by
        rw [← List.reverse_append, List.takeWhile_append_dropWhile, List.reverse_reverse]
      cases hd : name.reverse.dropWhile (· != dot) with
      | nil =>
        rw [hd] at hsplit
        exact absurd (congrArg List.length hsplit).symm hlen
      | cons b cs =>
        have hb := List.head?_dropWhile_not (· != dot) name.reverse
        rw [hd] at hb
        have hbdot : b = dot := by simpa using hb
        rw [hd, List.reverse_cons, hbdot, List.append_assoc, List.singleton_append] at hsplit
        have htake : name.take (name.length -
            (name.reverse.takeWhile (· != dot)).reverse.length - 1) = cs.reverse := by
          generalize (name.reverse.takeWhile (· != dot)).reverse = after at hsplit ⊢
          rw [hsplit]
          have : (cs.reverse ++ dot :: after).length - after.length - 1 = cs.reverse.length := by
            simp only [List.length_append, List.length_cons]
            omega
          rw [this, List.take_left]
        rw [htake]
        exact hsplit

end Path

open ExportDesk.Path

/-- **The temporary file is another entry of the same folder.** -/
theorem target_temporary (fs : FileSystem) {p : Path} {name : Bytes}
    (h : p.fileName = some name) :
    ∃ folder other, other ≠ name ∧ fs.target p = folder ++ [name] ∧
      fs.target (ReplaceStep.temporary p) = folder ++ [other] := by
  obtain ⟨pre, hbody, hpre, hsep, hne, hdot, hup⟩ := FileSystem.fileName_some h
  have htemp : ReplaceStep.temporary p =
      ⟨pre ++ ((splitExtension name).1 ++ dot :: encode "toml.tmp")⟩ := by
    unfold ReplaceStep.temporary withExtension
    rw [h]
    simp only
    rw [hbody, List.length_append, Nat.add_sub_cancel, List.take_left, List.append_assoc]
  have hext : encode "toml.tmp" = [0x74, 0x6F, 0x6D, 0x6C, 0x2E, 0x74, 0x6D, 0x70] := by
    decide +kernel
  refine ⟨fs.target ⟨pre⟩, (splitExtension name).1 ++ dot :: encode "toml.tmp", ?_, ?_, ?_⟩
  · -- what follows the last dot of a name holds no dot, and `toml.tmp` does
    intro hsame
    obtain ⟨-, hstem⟩ | ⟨after, hafter, hname⟩ := splitExtension_append name
    · have hlen := congrArg List.length hsame
      rw [hstem, List.length_append, List.length_cons] at hlen
      omega
    · have hcut := List.append_cancel_left (hsame.trans hname)
      rw [List.cons.injEq] at hcut
      rw [← hcut.2, hext] at hafter
      exact hafter (by decide)
  · rw [← FileSystem.target_body, hbody, FileSystem.target_append_name fs hpre hsep hne hdot hup]
  · have hstem : separator ∉ (splitExtension name).1 := by
      obtain ⟨-, hstem⟩ | ⟨after, -, hname⟩ := splitExtension_append name
      · rwa [hstem]
      · intro hmem
        rw [hname] at hsep
        exact hsep (List.mem_append_left _ hmem)
    have hlen : ∀ bs : Bytes, 9 ≤ (bs ++ dot :: encode "toml.tmp").length := by
      intro bs
      rw [hext]
      simp
    rw [htemp, FileSystem.target_append_name fs hpre]
    · rw [List.mem_append, not_or, hext]
      exact ⟨hstem, by decide⟩
    · simp
    · intro heq
      have := hlen (splitExtension name).1
      rw [heq] at this
      simp at this
    · intro heq
      have := hlen (splitExtension name).1
      rw [heq] at this
      simp at this

end ExportDesk
