import ExportDesk.Proofs.Command.Unambiguous

/-!
# One option per line

`pretty_breaks`: a command that is shown with one option per line is the command on one line, but
for what stands between some of its tokens. Where the breaks are depends on the tokens alone: there
is one way to cut them into options with their values and single tokens (`IsCut.eq_groups`).
-/

namespace ExportDesk.Command

/-! ## The cut -/

/-- Tokens cut into groups of one or two. Two are together exactly if the first is the name of an
option and the second is not; `after` holds the groups that come later. -/
structure IsCut (tokens : List String) (gs : List (List String)) : Prop where
  flatten : gs.flatten = tokens
  sizes : ∀ g ∈ gs, g.length = 1 ∨ g.length = 2
  pair_iff : ∀ before t ts after, gs = before ++ (t :: ts) :: after →
    (ts.length = 1 ↔
      isOptionName t = true ∧ ∃ v, (ts ++ after.flatten).head? = some v ∧ isOptionName v = false)

theorem isCut_nil : IsCut [] [] := ⟨rfl, by simp, by simp⟩

/-- A cut by its first group and the others. -/
theorem isCut_cons (t : String) (ts : List String) (gs : List (List String)) :
    IsCut (t :: (ts ++ gs.flatten)) ((t :: ts) :: gs) ↔
      ts.length ≤ 1 ∧
      (ts.length = 1 ↔
        isOptionName t = true ∧ ∃ v, (ts ++ gs.flatten).head? = some v ∧ isOptionName v = false) ∧
      IsCut gs.flatten gs := by
  constructor
  · intro h
    refine ⟨?_, h.pair_iff [] t ts gs rfl, rfl, fun g hg => ?_, fun before u us after hgs => ?_⟩
    · have hsize := h.sizes (t :: ts) List.mem_cons_self
      rw [List.length_cons] at hsize
      omega
    · exact h.sizes g (List.mem_cons_of_mem _ hg)
    · exact h.pair_iff ((t :: ts) :: before) u us after (congrArg _ hgs)
  · rintro ⟨hlen, hpair, hgs⟩
    refine ⟨rfl, fun g hg => ?_, fun before u us after hcut => ?_⟩
    · rcases List.mem_cons.1 hg with rfl | hg
      · rw [List.length_cons]
        omega
      · exact hgs.sizes g hg
    · cases before with
      | nil =>
        rw [List.nil_append, List.cons.injEq, List.cons.injEq] at hcut
        obtain ⟨⟨rfl, rfl⟩, rfl⟩ := hcut
        exact hpair
      | cons g before =>
        rw [List.cons_append, List.cons.injEq] at hcut
        exact hgs.pair_iff before u us after hcut.2

theorem takesValue_iff (t v : String) :
    takesValue t v = true ↔ isOptionName t = true ∧ isOptionName v = false := by
  rw [takesValue, Bool.and_eq_true, Bool.not_eq_true']

theorem isCut_groups (tokens : List String) : IsCut tokens (groups tokens) := by
  fun_induction groups tokens with
  | case1 => exact isCut_nil
  | case2 t =>
    have hcut := isCut_cons t [] []
    exact hcut.2 ⟨Nat.zero_le 1, by simp, isCut_nil⟩
  | case3 t v rest htakes ih =>
    have hcut := isCut_cons t [v] (groups rest)
    rw [flatten_groups] at hcut
    refine hcut.2 ⟨Nat.le_refl 1, ?_, ih⟩
    simpa using (takesValue_iff t v).1 htakes
  | case4 t v rest htakes ih =>
    have hcut := isCut_cons t [] (groups (v :: rest))
    rw [flatten_groups] at hcut
    refine hcut.2 ⟨Nat.zero_le 1, ?_, ih⟩
    rw [takesValue_iff] at htakes
    simpa using htakes

/-- **There is one cut.** -/
theorem IsCut.eq_groups {tokens : List String} {gs : List (List String)} (h : IsCut tokens gs) :
    gs = groups tokens := by
  induction gs generalizing tokens with
  | nil =>
    obtain rfl : [] = tokens := h.flatten
    rfl
  | cons g gs ih =>
    cases g with
    | nil => simpa using h.sizes [] List.mem_cons_self
    | cons t ts =>
      obtain rfl : t :: (ts ++ gs.flatten) = tokens := h.flatten
      obtain ⟨hlen, hpair, hrest⟩ := (isCut_cons t ts gs).1 h
      have hgs := ih hrest
      cases ts with
      | nil =>
        rw [List.nil_append] at hpair ⊢
        cases hnext : gs.flatten with
        | nil =>
          rw [hnext] at hgs
          rw [hgs]
          rfl
        | cons v rest =>
          rw [hnext] at hgs hpair
          have hsingle : ¬ takesValue t v = true := by
            rw [takesValue_iff]
            intro htakes
            exact absurd (hpair.2 ⟨htakes.1, v, rfl, htakes.2⟩) (by simp)
          rw [groups, if_neg hsingle, ← hgs]
      | cons v ts =>
        obtain rfl : ts = [] := by
          rw [List.length_cons] at hlen
          exact List.eq_nil_of_length_eq_zero (by omega)
        obtain ⟨hname, v', hv', hvalue⟩ := hpair.1 rfl
        obtain rfl : v = v' := Option.some_inj.1 hv'
        show _ = groups (t :: v :: gs.flatten)
        rw [groups, if_pos ((takesValue_iff t v).2 ⟨hname, hvalue⟩), ← hgs]

/-! ## The texts -/

/-- On one line, groups are parted as tokens are. -/
theorem preview_flatten {gs : List (List String)} (hgs : ∀ g ∈ gs, g ≠ []) :
    preview gs.flatten = " ".intercalate (gs.map preview) := by
  induction gs with
  | nil => rfl
  | cons g gs ih =>
    have hg : g ≠ [] := hgs g List.mem_cons_self
    have hrest := ih fun g' hg' => hgs g' (List.mem_cons_of_mem _ hg')
    cases gs with
    | nil => simp
    | cons g' gs =>
      have hflat : (g' :: gs).flatten ≠ [] := by
        intro hnil
        exact hgs g' (by simp) (List.flatten_eq_nil_iff.1 hnil g' List.mem_cons_self)
      rw [List.flatten_cons, List.map_cons, List.map_cons, String.intercalate_cons_cons,
        ← List.map_cons, ← hrest, preview, List.map_append,
        String.intercalate_append_of_ne_nil (by simpa using hg) (by simpa using hflat)]
      rfl

/-- Groups as lines: each is set in by two blanks, but for a single token that opens the list. -/
def setIn : List (List String) → List String
  | [] => []
  | g :: gs => ((if g.length = 1 then "" else "  ") ++ preview g) :: gs.map ("  " ++ preview ·)

theorem groupLine_false (g : List String) : groupLine false g = "  " ++ preview g := by
  simp [groupLine]

/-- The mark that the command goes on is between the lines and not behind the last. -/
theorem groupLines_cons (isFirst : Bool) (g : List String) (gs : List (List String)) :
    groupLines isFirst (g :: gs) =
      " \\\n".intercalate (groupLine isFirst g :: gs.map ("  " ++ preview ·)) ++ "\n" := by
  induction gs generalizing isFirst g with
  | nil => simp [groupLines]
  | cons g' gs ih =>
    rw [groupLines, ih, groupLine_false, List.map_cons, String.intercalate_cons_cons]
    · simp only [String.append_assoc]
    · exact List.cons_ne_nil g' gs

theorem pretty_eq (tokens : List String) :
    pretty tokens =
      if tokens = [] then "" else " \\\n".intercalate (setIn (groups tokens)) ++ "\n" := by
  cases tokens with
  | nil => rfl
  | cons t ts =>
    obtain ⟨g, gs, hgroups, -⟩ := pretty_toList t ts
    rw [if_neg (List.cons_ne_nil t ts), pretty_eq_groupLines, hgroups, groupLines_cons]
    simp [setIn, groupLine]

/-- **A command with one option per line** is the command on one line with other gaps. The tokens
have one cut into options with their values and single tokens, and both texts show its groups: the
one with blanks between them, the other as lines, with a mark behind each line but the last. No
tokens at all give no line. Every token is shown as it is, whatever it contains: no other tokens are
shown alike. -/
theorem pretty_breaks (tokens : List String) :
    ∃ gs, (∀ gs', IsCut tokens gs' ↔ gs' = gs) ∧
      preview tokens = " ".intercalate (gs.map preview) ∧
      pretty tokens =
        (if tokens = [] then "" else " \\\n".intercalate (setIn gs) ++ "\n") ∧
      ∀ others, pretty others = pretty tokens ↔ others = tokens := by
  refine ⟨groups tokens, fun gs' => ⟨IsCut.eq_groups, ?_⟩, ?_, pretty_eq tokens,
    fun others => pretty_injective.eq_iff⟩
  · rintro rfl
    exact isCut_groups tokens
  · have hne : ∀ g ∈ groups tokens, g ≠ [] := fun g hg => ne_nil_of_mem_groups hg
    have hflat := preview_flatten hne
    rwa [flatten_groups] at hflat

/-- An option without a value, and a value that looks like a mark. -/
example : pretty ["cut", "--quiet", "--join", "\\", "a\nb"] =
    "cut \\\n  --quiet \\\n  --join \\ \\\n  \"a\nb\"\n" := by decide +kernel

end ExportDesk.Command
