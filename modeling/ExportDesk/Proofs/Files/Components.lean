import ExportDesk.Proofs.Files.Beside
import ExportDesk.Proofs.Text.Utf8

/-!
# The components of a path

A path that consists of a folder's bytes and a name has a parent with the folder's components
(`parent_append_name`), as nothing that is dropped from the end of a path is one
(`components_body`). So a name that is joined to a folder is an entry of that folder
(`isChildOf_join`).
-/

namespace ExportDesk.Path

open Text

/-- The components depend on the names and on where they start. -/
theorem components_congr {p q : Path} (habs : p.isAbsolute = q.isAbsolute)
    (hseg : p.segments = q.segments) : p.components = q.components := by
  unfold components
  rw [habs, hseg]

/-- The location depends on the names and on where they start. -/
theorem target_congr {p q : Path} (habs : p.isAbsolute = q.isAbsolute)
    (hseg : p.segments = q.segments) (fs : FileSystem) : fs.target p = fs.target q := by
  unfold FileSystem.target
  rw [habs, hseg]

/-- A relative path that is not empty has a name. -/
theorem segments_ne_nil {b : UInt8} {bs : Bytes} (h : (⟨b :: bs⟩ : Path).isAbsolute = false) :
    (⟨b :: bs⟩ : Path).segments ≠ [] := by
  have hb : (b == separator) = false := by simpa [isAbsolute] using h
  unfold segments
  rw [splitAtSeparators, hb, if_neg Bool.false_ne_true]
  cases hcut : splitAtSeparators bs with
  | nil => exact absurd hcut (splitAtSeparators_ne_nil bs)
  | cons s ss => simp

/-- A `.` behind a separator is no component. -/
theorem components_append_dot (bs : Bytes) :
    (⟨bs ++ [separator, dot]⟩ : Path).components = (⟨bs ++ [separator]⟩ : Path).components := by
  unfold components
  rw [isAbsolute_append_dot, segments_append_dot, segments_append_slash, List.filterMap_append]
  cases bs with
  | nil => rfl
  | cons b bs =>
    rw [isAbsolute_append (List.cons_ne_nil b bs)]
    cases hrel : (⟨b :: bs⟩ : Path).isAbsolute with
    | true => simp
    | false =>
      obtain ⟨s, ss, hnames⟩ := List.exists_cons_of_ne_nil (segments_ne_nil hrel)
      rw [hnames]
      simp

/-- What is dropped from the end of a path is no component. -/
theorem components_body (p : Path) : (⟨p.body⟩ : Path).components = p.components :=
  body_congr components
    (fun _ hbs => components_congr (isAbsolute_append hbs _) (segments_append_slash _))
    components_append_dot p

/-! ## Paths that end with a name -/

section

variable {pre name : Bytes} (hpre : EndsFolder pre) (hsep : separator ∉ name) (hne : name ≠ [])
  (hdot : name ≠ [dot])

include hsep hne hdot

theorem body_append_name : (⟨pre ++ name⟩ : Path).body = pre ++ name := by
  unfold body
  rw [FileSystem.stripEndReversed_name hsep hne hdot, List.reverse_reverse]

include hpre

theorem lastSegment_append_name : (⟨pre ++ name⟩ : Path).lastSegment = name := by
  have hname : ∀ b ∈ name.reverse, (b != separator) = true := by
    intro b hb
    rw [bne_iff_ne]
    rintro rfl
    exact hsep (List.mem_reverse.1 hb)
  have hpre' : pre.reverse.takeWhile (· != separator) = [] := by
    obtain rfl | ⟨cs, rfl⟩ := hpre
    · rfl
    · simp
  unfold lastSegment
  rw [body_append_name hsep hne hdot, List.reverse_append, List.takeWhile_append_of_pos hname,
    hpre', List.append_nil, List.reverse_reverse]

theorem fileName_append_name (hup : name ≠ [dot, dot]) :
    (⟨pre ++ name⟩ : Path).fileName = some name := by
  unfold fileName
  rw [lastSegment_append_name hpre hsep hne hdot]
  simp [hne, hdot, hup]

/-- **The parent of a path that ends with a name** has the components of what stands before. -/
theorem parent_append_name :
    ∃ folder : Path, (⟨pre ++ name⟩ : Path).parent = some folder ∧
      folder.components = (⟨pre⟩ : Path).components := by
  have hnot : ¬ ((pre ++ name).isEmpty || pre ++ name == [separator]) = true := by
    rw [Bool.or_eq_true, List.isEmpty_iff, beq_iff_eq]
    rintro (h | h)
    · exact hne (List.append_eq_nil_iff.1 h).2
    · have hmem : name ⊆ [separator] := h ▸ List.subset_append_right pre name
      obtain ⟨b, bs, rfl⟩ := List.exists_cons_of_ne_nil hne
      exact hsep (List.mem_singleton.1 (hmem List.mem_cons_self) ▸ List.mem_cons_self)
  refine ⟨⟨(⟨pre⟩ : Path).body⟩, ?_, components_body ⟨pre⟩⟩
  unfold parent
  simp only [body_append_name hsep hne hdot, lastSegment_append_name hpre hsep hne hdot]
  rw [if_neg hnot, List.length_append, Nat.add_sub_cancel, List.take_left]
  rfl

end

/-- Separators at the end are no names. -/
theorem segments_append_slashes (bs : Bytes) (n : Nat) :
    (⟨bs ++ List.replicate n separator⟩ : Path).segments = (⟨bs⟩ : Path).segments := by
  induction n with
  | zero => rw [List.replicate_zero, List.append_nil]
  | succ n ih => rw [List.replicate_succ', ← List.append_assoc, segments_append_slash, ih]

/-- Separators alone are the root, however many there are. -/
theorem isAbsolute_append_slashes {bs : Bytes} {n : Nat}
    (h : bs ++ List.replicate n separator ≠ []) :
    (⟨bs ++ [separator]⟩ : Path).isAbsolute =
      (⟨bs ++ List.replicate n separator⟩ : Path).isAbsolute := by
  cases bs with
  | cons b bs => rfl
  | nil =>
    cases n with
    | zero => exact absurd rfl h
    | succ n => rfl

/-! ## Entries of a folder -/

/-- A name that stands for an entry of a folder, and neither for a step nor for several names. -/
structure IsName (name : Bytes) : Prop where
  plain : separator ∉ name
  ne_nil : name ≠ []
  ne_here : name ≠ [dot]
  ne_up : name ≠ [dot, dot]

theorem isName_encode {name : String} (hplain : '/' ∉ name.toList) (hempty : name ≠ "")
    (hhere : name ≠ ".") (hup : name ≠ "..") : IsName (encode name) where
  plain hmem := hplain (mem_of_mem_encode (by decide) hmem)
  ne_nil h := hempty (eq_empty_of_encode h)
  ne_here h := hhere (encode_injective h)
  ne_up h := hup (encode_injective h)

/-- The path leads to the entry of this name, directly in the folder. -/
structure IsChildOf (p folder : Path) (name : Bytes) : Prop where
  fileName : p.fileName = some name
  parent : ∃ q, p.parent = some q ∧ q.components = folder.components
  target : ∀ fs : FileSystem, fs.target p = fs.target folder ++ [name]

/-- A name follows the bytes of its folder, with a separator in between if there is none. -/
theorem exists_join_name (folder : Path) {name : Bytes} (h : IsName name) :
    ∃ pre, EndsFolder pre ∧ (⟨pre⟩ : Path).isAbsolute = folder.isAbsolute ∧
      (⟨pre⟩ : Path).segments = folder.segments ∧ folder.join ⟨name⟩ = ⟨pre ++ name⟩ := by
  have hrel : (⟨name⟩ : Path).isAbsolute = false := by
    obtain ⟨b, bs, rfl⟩ := List.exists_cons_of_ne_nil h.ne_nil
    simpa [isAbsolute] using fun hb : b = separator => h.plain (hb ▸ List.mem_cons_self)
  unfold join
  rw [if_neg (by rw [hrel]; exact Bool.false_ne_true)]
  split
  next hends =>
    refine ⟨folder.bytes, ?_, rfl, rfl, rfl⟩
    rw [Bool.or_eq_true, beq_iff_eq] at hends
    obtain hempty | hlast := hends
    · exact .inl (List.isEmpty_iff.1 hempty)
    · exact .inr (List.getLast?_eq_some_iff.1 hlast)
  next hopen =>
    have hne : folder.bytes ≠ [] := fun hnil => hopen (by simp [isEmpty, hnil])
    exact ⟨folder.bytes ++ [separator], .inr ⟨_, rfl⟩, isAbsolute_append hne _,
      segments_append_slash _, by rw [List.append_assoc]; rfl⟩

/-- **A name joined to a folder** is an entry of it, whatever the bytes of the folder end with. -/
theorem isChildOf_join (folder : Path) {name : Bytes} (h : IsName name) :
    (folder.join ⟨name⟩).IsChildOf folder name := by
  obtain ⟨pre, hpre, habs, hseg, hjoin⟩ := exists_join_name folder h
  obtain ⟨hsep, hne, hdot, hup⟩ := h
  obtain ⟨q, hparent, hcomponents⟩ := parent_append_name hpre hsep hne hdot
  rw [hjoin]
  refine ⟨fileName_append_name hpre hsep hne hdot hup,
    ⟨q, hparent, hcomponents.trans (components_congr habs hseg)⟩, fun fs => ?_⟩
  rw [FileSystem.target_append_name fs hpre hsep hne hdot hup, target_congr habs hseg]

end ExportDesk.Path
