import ExportDesk.Proofs.Toml.Scalars
import ExportDesk.Proofs.Toml.Strings

/-!
# Written values read back

`ReadsBack` says of a value that its spelling is read as its datum, whatever else follows on the
line. Every kind of value in the settings file does (`readsBack_valuesOf`).
-/

namespace ExportDesk.Toml.Reader

open Scalar (EndsScalar Means isScalarChar)
open Quoted (EndsString)

theorem isGap_iff {c : Char} : isGap c = true ↔ c = ' ' ∨ c = '\t' := by
  unfold isGap
  rw [Bool.or_eq_true, beq_iff_eq, beq_iff_eq]

/-- A class of characters with neither blank in it has nothing that is skipped inside a line. -/
theorem not_isGap_of_class {p : Char → Bool} {c : Char} (h : p c = true) (hblank : p ' ' = false)
    (htab : p '\t' = false) : isGap c = false := by
  rw [Bool.eq_false_iff]
  intro hgap
  obtain rfl | rfl := isGap_iff.1 hgap
  · exact Bool.false_ne_true (hblank.symm.trans h)
  · exact Bool.false_ne_true (htab.symm.trans h)

theorem taken_append (w rest : List Char) : taken (w ++ rest) rest = w := by
  unfold taken
  rw [List.length_append, Nat.add_sub_cancel, List.take_left]

/-! ## Single values -/

theorem value_scalar {w rest : List Char} {d : Datum} (h : Means w d) (hrest : EndsScalar rest)
    (depth fuel : Nat) : value depth (fuel + 1) (w ++ rest) = some (d, w, rest) := by
  have hread := h.read_append hrest
  obtain ⟨c, w', rfl⟩ := List.exists_cons_of_ne_nil h.ne_nil
  have hc := h.chars c List.mem_cons_self
  have htaken := taken_append (c :: w') rest
  rw [List.cons_append] at hread htaken ⊢
  unfold value
  split
  next heq =>
    rw [(List.cons.inj heq).1] at hc
    exact absurd hc (by decide)
  next heq =>
    rw [(List.cons.inj heq).1] at hc
    exact absurd hc (by decide)
  next heq =>
    rw [(List.cons.inj heq).1] at hc
    exact absurd hc (by decide)
  next heq =>
    rw [(List.cons.inj heq).1] at hc
    exact absurd hc (by decide)
  · rw [hread]
    simp [htaken]

theorem write_head (s : String) :
    ∃ cs, (Quoted.write s).toList = '"' :: cs ∨ (Quoted.write s).toList = '\'' :: cs := by
  unfold Quoted.write
  simp only [String.toList_ofList]
  split
  · exact ⟨_, .inl rfl⟩
  · exact ⟨_, .inr rfl⟩
  · exact ⟨_, .inl rfl⟩
  · exact ⟨_, .inr rfl⟩

theorem value_text (s : String) {rest : List Char} (hrest : EndsString rest) (depth fuel : Nat) :
    value depth (fuel + 1) ((Quoted.write s).toList ++ rest) =
      some (.text s, (Quoted.write s).toList, rest) := by
  have hread := Quoted.read_write s hrest
  have htaken := taken_append (Quoted.write s).toList rest
  obtain ⟨cs, h | h⟩ := write_head s
  all_goals
    rw [h, List.cons_append] at hread htaken ⊢
    unfold value
    simp [hread, htaken]

/-! ## Lists of texts -/

theorem trivia_stop {c : Char} (hn : c ≠ '\n') (hr : c ≠ '\r') (hg : isGap c = false)
    (hc : c ≠ '#') (cs : List Char) : trivia false (c :: cs) = some ([], c :: cs) := by
  rw [trivia]
  · rw [if_neg Bool.false_ne_true, hg, if_neg Bool.false_ne_true, if_neg (by simpa using hc)]
  · exact hn
  · intro _ h
    exact absurd h hr

theorem trivia_gap {c : Char} (hg : isGap c = true) (cs : List Char) :
    trivia false (c :: cs) = Quoted.push c (trivia false cs) := by
  have hne {d : Char} (hd : isGap d = false) : c ≠ d := by
    rintro rfl
    rw [hg] at hd
    cases hd
  rw [trivia]
  · rw [if_neg Bool.false_ne_true, if_pos hg]
  · exact hne (by decide)
  · intro _ h
    exact absurd h (hne (by decide))

theorem trivia_write (s : String) (rest : List Char) :
    trivia false ((Quoted.write s).toList ++ rest) =
      some ([], (Quoted.write s).toList ++ rest) := by
  obtain ⟨cs, h | h⟩ := write_head s
  · rw [h]
    exact trivia_stop (by decide) (by decide) (by decide) (by decide) _
  · rw [h]
    exact trivia_stop (by decide) (by decide) (by decide) (by decide) _

theorem endsString_cons {c : Char} (hq : c ≠ '"') (ha : c ≠ '\'') (rest : List Char) :
    EndsString (c :: rest) := by
  constructor
  · intro h
    exact hq (Option.some.inj h)
  · intro h
    exact ha (Option.some.inj h)

theorem elements_single (s : String) (rest : List Char) (depth fuel : Nat) :
    elements depth (fuel + 2) ((Quoted.write s).toList ++ ']' :: rest) =
      some ([.text s], (Quoted.write s).toList ++ [']'], rest) := by
  have hrest : EndsString (']' :: rest) := endsString_cons (by decide) (by decide) _
  have hstop : trivia false (']' :: rest) = some ([], ']' :: rest) :=
    trivia_stop (by decide) (by decide) (by decide) (by decide) _
  have hvalue := value_text s hrest depth fuel
  have htrivia := trivia_write s (']' :: rest)
  unfold elements
  rw [htrivia]
  obtain ⟨cs, h | h⟩ := write_head s
  all_goals
    rw [h, List.cons_append] at hvalue ⊢
    simp [hvalue, hstop, plainEnds]

/-- A text on a line of its own in a list. -/
def listLine (s : String) : List Char :=
  ' ' :: ' ' :: ' ' :: ' ' :: ((Quoted.write s).toList ++ [',', '\n'])

theorem elements_lines (ss : List String) (rest : List Char) (depth : Nat) {fuel : Nat}
    (hfuel : ss.length < fuel) :
    elements depth fuel ('\n' :: (ss.flatMap listLine ++ ']' :: rest)) =
      some (ss.map .text, '\n' :: (ss.flatMap listLine ++ [']']), rest) := by
  induction ss generalizing fuel with
  | nil =>
    obtain ⟨fuel, rfl⟩ : ∃ k, fuel = k + 1 := ⟨fuel - 1, by omega⟩
    have hstop : trivia false (']' :: rest) = some ([], ']' :: rest) :=
      trivia_stop (by decide) (by decide) (by decide) (by decide) _
    have htrivia : trivia false ('\n' :: ']' :: rest) = some (['\n'], ']' :: rest) := by
      rw [trivia, hstop]
      rfl
    show elements depth (fuel + 1) ('\n' :: ']' :: rest) = _
    unfold elements
    rw [htrivia]
    rfl
  | cons s ss ih =>
    obtain ⟨fuel, rfl⟩ : ∃ k, fuel = k + 2 := ⟨fuel - 2, by simp at hfuel; omega⟩
    have ih := ih (show ss.length < fuel + 1 by simp at hfuel; omega)
    generalize hmore : '\n' :: (ss.flatMap listLine ++ ']' :: rest) = more at ih
    have htext : '\n' :: ((s :: ss).flatMap listLine ++ ']' :: rest) =
        '\n' :: ' ' :: ' ' :: ' ' :: ' ' :: ((Quoted.write s).toList ++ ',' :: more) := by
      rw [← hmore, List.flatMap_cons]
      simp [listLine]
    have hrest : EndsString (',' :: more) := endsString_cons (by decide) (by decide) _
    have hvalue := value_text s hrest depth fuel
    have hstop : trivia false (',' :: more) = some ([], ',' :: more) :=
      trivia_stop (by decide) (by decide) (by decide) (by decide) _
    have htrivia : trivia false
        ('\n' :: ' ' :: ' ' :: ' ' :: ' ' :: ((Quoted.write s).toList ++ ',' :: more)) =
          some (['\n', ' ', ' ', ' ', ' '], (Quoted.write s).toList ++ ',' :: more) := by
      rw [trivia]
      iterate 4 rw [trivia_gap (by decide)]
      rw [trivia_write]
      rfl
    rw [htext]
    unfold elements
    rw [htrivia]
    obtain ⟨cs, h | h⟩ := write_head s
    all_goals
      rw [h, List.cons_append] at hvalue ⊢
      simp [hvalue, hstop, ih, plainEnds, listLine, h]

theorem length_le_flatMap_listLine (ss : List String) :
    ss.length ≤ (ss.flatMap listLine).length := by
  induction ss with
  | nil => exact Nat.le_refl 0
  | cons s ss ih =>
    rw [List.flatMap_cons, List.length_append, List.length_cons]
    have : 0 < (listLine s).length := Nat.succ_pos _
    omega

theorem value_list {cs w rest : List Char} {ds : List Datum} {fuel depth : Nat}
    (h : elements depth fuel cs = some (ds, w, rest)) :
    value (depth + 1) (fuel + 1) ('[' :: cs) = some (.list ds, '[' :: w, rest) := by
  unfold value
  simp [h]

end ExportDesk.Toml.Reader

namespace ExportDesk.SettingsText

open Toml Reader

/-! ## The values of the settings file -/

/-- A spelling that does not start with a blank and is read as its datum when the line ends behind
it. -/
structure ReadsBack (v : Value) : Prop where
  start : ∀ c ∈ v.written.toList.head?, isGap c = false
  reads : ∀ rest, Reader.value maxDepth (2 * (v.written.toList ++ '\n' :: rest).length + 2)
    (v.written.toList ++ '\n' :: rest) = some (v.datum, v.written.toList, '\n' :: rest)

theorem readsBack_scalar {d : Datum} {w : String} (h : Scalar.Means w.toList d) :
    ReadsBack (SettingsText.value d w) := by
  constructor
  · intro c hc
    exact not_isGap_of_class (h.chars c (List.mem_of_mem_head? hc)) (by decide) (by decide)
  · intro rest
    refine value_scalar h ?_ _ _
    rintro c ⟨rfl⟩
    decide

theorem readsBack_text (s : String) : ReadsBack (textValue s) := by
  constructor
  · show ∀ c ∈ (Quoted.write s).toList.head?, isGap c = false
    obtain ⟨cs, h | h⟩ := write_head s
    all_goals
      rw [h]
      rintro c ⟨rfl⟩
      decide
  · intro rest
    exact value_text s (endsString_cons (by decide) (by decide) _) _ _

theorem readsBack_truth (b : Bool) : ReadsBack (truthValue b) :=
  readsBack_scalar (Scalar.means_truth b)

theorem readsBack_count (n : UInt32) : ReadsBack (countValue n) :=
  readsBack_scalar (Scalar.means_count n.toNat)

theorem readsBack_number (x : Binary64) : ReadsBack (numberValue x) :=
  readsBack_scalar (Scalar.means_number x)

theorem toList_join_listLine (ss : List String) :
    (String.join (ss.map fun s => "    " ++ Quoted.write s ++ ",\n")).toList =
      ss.flatMap listLine := by
  rw [String.toList_join, List.flatMap_map]
  refine List.flatMap_congr fun s _ => ?_
  rw [String.toList_append, String.toList_append]
  rfl

theorem toList_textsValue (ss : List String) :
    ∃ cs, (textsValue ss).written.toList = '[' :: cs ∧ ∀ rest depth fuel, 2 * cs.length < fuel →
      elements depth fuel (cs ++ rest) = some (ss.map .text, cs, rest) := by
  match ss with
  | [] =>
    refine ⟨[']'], rfl, fun rest depth fuel hfuel => ?_⟩
    obtain ⟨fuel, rfl⟩ : ∃ k, fuel = k + 1 := ⟨fuel - 1, by omega⟩
    have hstop : trivia false (']' :: rest) = some ([], ']' :: rest) :=
      trivia_stop (by decide) (by decide) (by decide) (by decide) _
    show elements depth (fuel + 1) (']' :: rest) = _
    unfold elements
    rw [hstop]
    rfl
  | [s] =>
    refine ⟨(Quoted.write s).toList ++ [']'], ?_, fun rest depth fuel hfuel => ?_⟩
    · show ("[" ++ Quoted.write s ++ "]").toList = _
      rw [String.toList_append, String.toList_append]
      rfl
    · rw [List.length_append, List.length_singleton] at hfuel
      obtain ⟨fuel, rfl⟩ : ∃ k, fuel = k + 2 := ⟨fuel - 2, by omega⟩
      rw [List.append_assoc]
      exact elements_single s rest depth fuel
  | s :: s' :: ss =>
    refine ⟨'\n' :: ((s :: s' :: ss).flatMap listLine ++ [']']), ?_,
      fun rest depth fuel hfuel => ?_⟩
    · show ("[\n" ++ String.join ((s :: s' :: ss).map fun s => "    " ++ Quoted.write s ++ ",\n") ++
        "]").toList = _
      rw [String.toList_append, String.toList_append, toList_join_listLine]
      rfl
    · have hlength := length_le_flatMap_listLine (s :: s' :: ss)
      rw [List.length_cons, List.length_append] at hfuel
      rw [List.cons_append, List.append_assoc]
      exact elements_lines _ rest depth (by omega)

theorem readsBack_texts (ss : List String) : ReadsBack (textsValue ss) := by
  obtain ⟨cs, hwritten, helements⟩ := toList_textsValue ss
  have hdatum : (textsValue ss).datum = .list (ss.map .text) := rfl
  constructor
  · rw [hwritten]
    rintro c ⟨rfl⟩
    decide
  · intro rest
    rw [hwritten, hdatum]
    refine value_list (helements _ _ _ ?_)
    simp only [List.length_cons, List.length_append]
    omega

theorem readsBack_valuesOf (s : Settings) (part : SettingsSection) :
    ∀ f ∈ valuesOf s part, ReadsBack f.2 := by
  cases part <;> simp only [valuesOf, List.mem_cons, List.not_mem_nil, or_false]
  · rintro f (rfl | rfl | rfl)
    · exact readsBack_text _
    · exact readsBack_text _
    · exact readsBack_text _
  · rintro f (rfl | rfl)
    · exact readsBack_text _
    · exact readsBack_texts _
  · rintro f (rfl | rfl | rfl)
    · exact readsBack_text _
    · exact readsBack_number _
    · exact readsBack_number _
  · rintro f (rfl | rfl | rfl | rfl)
    · exact readsBack_truth _
    · exact readsBack_count _
    · exact readsBack_truth _
    · exact readsBack_truth _

end ExportDesk.SettingsText
