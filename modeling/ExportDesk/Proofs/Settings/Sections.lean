import ExportDesk.Proofs.Settings.Layout
import ExportDesk.Proofs.Text.Lines
import ExportDesk.Settings.Store

/-!
# The text of one section

A section is printed without a header, and the text is used in three ways: line by line below the
header in a file that is written anew, read again to see which names it has, and read again for the
entries of a table that replaces another. `writeSection_eq` and `bodyDocument_eq` say that nothing
is lost in any of them; so a file is complete if it has the known names (`isComplete_iff`), and a
section is replaced by its own entries (`revise_eq`).
-/

namespace ExportDesk

open Toml Reader

/-! ## No carriage returns -/

theorem Toml.Quoted.hexDigit_ne_return {n : Nat} (h : n < 16) : hexDigit n ≠ '\r' :=
  (by decide : ∀ n : Fin 16, hexDigit n ≠ '\r') ⟨n, h⟩

theorem Toml.Quoted.no_return_escapeChar (multiline : Bool) (run : Nat) (c : Char) :
    '\r' ∉ escapeChar multiline run c := by
  unfold escapeChar
  split
  · repeat' split
    all_goals decide
  split
  · decide
  split
  · decide
  split
  · split <;> decide
  split
  · decide
  next hreturn =>
    have hne : '\r' ≠ c := by
      rintro rfl
      exact hreturn rfl
    split
    · decide
    split
    · decide
    split
    next hcontrol =>
      have hlow : c.toNat ≤ 127 := by
        simp only [isControl, Bool.or_eq_true, Bool.and_eq_true, decide_eq_true_eq,
          beq_iff_eq] at hcontrol
        omega
      have hhigh := hexDigit_ne_return (n := c.toNat / 16) (by omega)
      have hlast := hexDigit_ne_return (n := c.toNat % 16) (by omega)
      simp [hhigh.symm, hlast.symm]
    next => simpa using hne

theorem Toml.Quoted.no_return_escape (multiline : Bool) (run : Nat) (cs : List Char) :
    '\r' ∉ escape multiline run cs := by
  induction cs generalizing run with
  | nil => exact List.not_mem_nil
  | cons c cs ih =>
    rw [escape, List.mem_append, not_or]
    exact ⟨no_return_escapeChar multiline run c, ih _⟩

/-- A carriage return is escaped, in whatever way a text is written. -/
theorem Toml.Quoted.no_return_write (s : String) : '\r' ∉ (write s).toList := by
  have hplain {cs : List Char} (h : ∀ c ∈ cs, isControl c = false) : '\r' ∉ cs := fun hmem =>
    absurd (h _ hmem) (by decide)
  have hline (cs : List Char) : '\r' ∉ (if cs.contains '\n' then ['\n'] else []) := by
    split <;> decide
  unfold write
  simp only [String.toList_ofList]
  cases hstyle : chooseStyle s.toList with
  | basic => simp [no_return_escape]
  | literal => simp [hplain fun c hc => ((of_chooseStyle_literal hstyle).2 c hc).2.2]
  | multilineBasic =>
    simp only [List.mem_append, not_or]
    exact ⟨⟨⟨by decide, hline _⟩, no_return_escape true 0 _⟩, by decide⟩
  | multilineLiteral =>
    simp only [List.mem_append, not_or]
    exact ⟨⟨⟨by decide, hline _⟩, hplain (of_chooseStyle_multilineLiteral hstyle).2⟩, by decide⟩

namespace SettingsText

theorem no_return_scalar {d : Datum} {w : String} (h : Scalar.Means w.toList d) :
    '\r' ∉ w.toList := fun hmem => absurd (h.chars _ hmem) (by decide)

theorem no_return_texts (ss : List String) : '\r' ∉ (textsValue ss).written.toList := by
  match ss with
  | [] => decide
  | [s] =>
    show '\r' ∉ ("[" ++ Quoted.write s ++ "]").toList
    simp [Quoted.no_return_write]
  | s :: s' :: ss =>
    show '\r' ∉ ("[\n" ++ String.join ((s :: s' :: ss).map fun s =>
      "    " ++ Quoted.write s ++ ",\n") ++ "]").toList
    have hlines : '\r' ∉ (s :: s' :: ss).flatMap listLine := by
      intro hmem
      obtain ⟨t, -, ht⟩ := List.mem_flatMap.1 hmem
      simp [listLine, Quoted.no_return_write] at ht
    rw [String.toList_append, String.toList_append, toList_join_listLine]
    simp only [List.mem_append, not_or]
    exact ⟨⟨by decide, hlines⟩, by decide⟩

theorem no_return_valuesOf (s : Settings) (part : SettingsSection) :
    ∀ f ∈ valuesOf s part, '\r' ∉ f.2.written.toList := by
  cases part <;> simp only [valuesOf, List.mem_cons, List.not_mem_nil, or_false]
  · rintro f (rfl | rfl | rfl)
    · exact Quoted.no_return_write _
    · exact Quoted.no_return_write _
    · exact Quoted.no_return_write _
  · rintro f (rfl | rfl)
    · exact Quoted.no_return_write _
    · exact no_return_texts _
  · rintro f (rfl | rfl | rfl)
    · exact Quoted.no_return_write _
    · exact no_return_scalar (Scalar.means_number _)
    · exact no_return_scalar (Scalar.means_number _)
  · rintro f (rfl | rfl | rfl | rfl)
    · exact no_return_scalar (Scalar.means_truth _)
    · exact no_return_scalar (Scalar.means_count _)
    · exact no_return_scalar (Scalar.means_truth _)
    · exact no_return_scalar (Scalar.means_truth _)

namespace Layout

/-! ## The text -/

theorem toList_printPair (name : String) (v : Value) :
    (printPair [lineKey [] name.toList [' ']] (lineValue v)).toList =
      pairLine name.toList v := by
  have hkey : (lineKey [] name.toList [' ']).written = name := String.ofList_toList
  have hnone : (dropReturns "").toList = [] := by decide
  have hblank : (dropReturns " ").toList = [' '] := by decide
  show (dropReturns "" ++ (lineKey [] name.toList [' ']).written ++ dropReturns " " ++ "=" ++
    dropReturns " " ++ v.written ++ dropReturns "" ++ "\n").toList = _
  simp only [String.toList_append, hkey, hnone, hblank, pairLine]
  simp

theorem bodyOf_lineEntries (fs : List (String × Value)) :
    bodyOf [] (lineEntries fs) =
      fs.map fun f => ([lineKey [] f.1.toList [' ']], lineValue f.2) := by
  induction fs with
  | nil => simp [lineEntries, bodyOf]
  | cons f fs ih =>
    unfold lineEntries at ih ⊢
    rw [List.map_cons, bodyOf, bodyOfItem, ih, List.map_cons]
    rfl

theorem toList_bodyText (s : Settings) (part : SettingsSection) :
    (bodyText s part).toList = pairLines (valuesOf s part) := by
  unfold bodyText pairLines
  rw [← lineEntries_valuesOf, bodyOf_lineEntries, String.toList_join, List.flatMap_map,
    List.flatMap_map]
  exact List.flatMap_congr fun f _ => toList_printPair f.1 f.2

theorem no_return_bodyText (s : Settings) (part : SettingsSection) :
    '\r' ∉ (bodyText s part).toList := by
  rw [toList_bodyText]
  intro hmem
  obtain ⟨f, hf, hline⟩ := List.mem_flatMap.1 hmem
  have hname : '\r' ∉ f.1.toList := fun h =>
    absurd ((readsBack_fields s part f hf).1.2 _ h) (by decide)
  simp [pairLine, hname, no_return_valuesOf s part f hf] at hline

theorem endsLine_bodyText (s : Settings) (part : SettingsSection) :
    Text.EndsLine (bodyText s part).toList := by
  rw [toList_bodyText]
  refine Text.endsLine_flatMap fun f _ c hc => ?_
  have hline : pairLine f.1.toList f.2 =
      (f.1.toList ++ ' ' :: '=' :: ' ' :: f.2.written.toList) ++ ['\n'] := by
    simp [pairLine]
  rw [hline, List.getLast?_concat] at hc
  exact (Option.some.inj hc).symm

/-- **A section is written as it is printed**: nothing of it is lost by taking it line by line. -/
theorem writeSection_eq (s : Settings) (part : SettingsSection) :
    writeSection s part = bodyText s part :=
  Text.join_lines (no_return_bodyText s part) (endsLine_bodyText s part)

/-! ## The data of the text -/

theorem fieldsOf_lineEntries (fs : List (String × Value)) :
    fieldsOf (lineEntries fs) = fs.map fun f => (f.1, f.2.datum) := by
  induction fs with
  | nil => simp [lineEntries, fieldsOf]
  | cons f fs ih =>
    have hname : (lineKey [] f.1.toList [' ']).name = f.1 := String.ofList_toList
    unfold lineEntries at ih ⊢
    rw [List.map_cons, fieldsOf, ih, hname, Item.datum]
    rfl

theorem fieldsOf_entriesOf (s : Settings) (part : SettingsSection) :
    fieldsOf (entriesOf s part) = (valuesOf s part).map fun f => (f.1, f.2.datum) := by
  rw [← lineEntries_valuesOf, fieldsOf_lineEntries]

theorem isNarrow_valuesOf (s : Settings) (part : SettingsSection) :
    ∀ f ∈ valuesOf s part, f.2.datum.isNarrow = true := by
  have htexts (ss : List String) : allNarrow (ss.map Datum.text) = true := by
    induction ss with
    | nil => simp [allNarrow]
    | cons s ss ih => simp [allNarrow, Datum.isNarrow, ih]
  have hcount (n : UInt32) : fitsSigned 64 (n.toNat : Int) = true := by
    have hlt : n.toNat < 4294967296 := n.toNat_lt
    have hp : power 2 63 = 9223372036854775808 := rfl
    unfold fitsSigned
    rw [show 64 - 1 = 63 from rfl, hp, Bool.and_eq_true, decide_eq_true_eq, decide_eq_true_eq]
    omega
  cases part <;> simp [valuesOf, textValue, textsValue, numberValue, truthValue, countValue,
    SettingsText.value, Datum.isNarrow, htexts, hcount]

theorem fieldsNarrow_of_all {fs : List (String × Datum)} (h : ∀ f ∈ fs, f.2.isNarrow = true) :
    fieldsNarrow fs = true := by
  induction fs with
  | nil => simp [fieldsNarrow]
  | cons f fs ih =>
    obtain ⟨name, d⟩ := f
    rw [fieldsNarrow, h _ List.mem_cons_self, ih fun g hg => h g (List.mem_cons_of_mem _ hg)]
    rfl

theorem isNarrow_entriesOf (s : Settings) (part : SettingsSection) :
    fieldsNarrow (fieldsOf (entriesOf s part)) = true := by
  rw [fieldsOf_entriesOf]
  refine fieldsNarrow_of_all fun f hf => ?_
  obtain ⟨v, hv, rfl⟩ := List.mem_map.1 hf
  exact isNarrow_valuesOf s part v hv

/-! ## The document of the text -/

/-- The first line of a text begins with a key. -/
theorem head_pairLines {fs : List (String × Value)} (h : ∀ f ∈ fs, IsBare f.1.toList) :
    ∀ c ∈ (pairLines fs).head?, isKeyChar c = true := by
  intro c hc
  cases fs with
  | nil => cases hc
  | cons f fs =>
    obtain ⟨d, cs, htext, hd⟩ := (h f List.mem_cons_self).head
      (' ' :: '=' :: ' ' :: (f.2.written.toList ++ ['\n']) ++ pairLines fs)
    have hline : pairLines (f :: fs) = d :: cs := by
      rw [← htext]
      simp [pairLines, pairLine]
    rw [hline] at hc
    rwa [← Option.some.inj hc]

/-- **A section's text is read as its entries.** -/
theorem bodyDocument_eq (s : Settings) (part : SettingsSection) :
    bodyDocument s part = some { entries := entriesOf s part } := by
  let fs := valuesOf s part
  have hmark : dropMark (pairLines fs) = pairLines fs := by
    refine dropMark_of_head fun c hc hmark => ?_
    have hkey := head_pairLines (fun f hf => (readsBack_fields s part f hf).1) c hc
    rw [hmark] at hkey
    exact absurd hkey (by decide)
  have hstatements : statements ((pairLines fs).length + 1) (pairLines fs) =
      some (fs.map fun f => .pair [lineKey [] f.1.toList [' ']] (lineValue f.2), []) := by
    obtain ⟨k, hk⟩ : ∃ k, (pairLines fs).length = k + fs.length :=
      ⟨_, (Nat.sub_add_cancel (length_le_pairLines fs)).symm⟩
    have hpairs := statements_pairs (readsBack_fields s part) (k + 1) []
    rw [List.append_nil, statements_nil, Nat.add_right_comm, ← hk, Option.map_some,
      List.append_nil] at hpairs
    exact hpairs
  have hassemble : Assembly.ofStatements
      (fs.map fun f => .pair [lineKey [] f.1.toList [' ']] (lineValue f.2)) "" =
        some { entries := entriesOf s part } := by
    have hnodup : (fs.map (·.1)).Nodup := by
      rw [names_valuesOf]
      exact nodup_fieldNames part
    have hfold := foldlM_pairs hnodup (a := {}) fun _ _ => rfl
    unfold Assembly.ofStatements
    rw [hfold, lineEntries_valuesOf]
    rfl
  have hread : Document.read (bodyText s part) = some { entries := entriesOf s part } := by
    unfold Document.read
    rw [toList_bodyText, hmark]
    simp only [Option.bind_eq_bind, hstatements, Option.bind_some]
    exact hassemble
  unfold bodyDocument Document.readForEditing
  rw [hread]
  exact Option.filter_some_pos (isNarrow_entriesOf s part)

end Layout

end SettingsText

/-- A section is replaced by the entries that it has. -/
theorem SettingsStore.revise_eq (text : String) (s : Settings) (part : SettingsSection) :
    revise text s part =
      match (if text.isEmpty then some {} else Document.readForEditing text) with
      | none => .error .notEditable
      | some doc => .ok (doc.setTable part.tableName (SettingsText.entriesOf s part)).print := by
  unfold revise
  cases (if text.isEmpty then some {} else Document.readForEditing text) with
  | none => rfl
  | some doc =>
    simp only
    rw [SettingsText.Layout.bodyDocument_eq]

end ExportDesk
