import ExportDesk.Proofs.Toml.Statements

/-!
# The layout of the settings file

The four sections one after another, each under its header. `read_text` says what document such a
text writes.
-/

namespace ExportDesk.SettingsText

open Toml Reader

/-- The names of a section's fields. -/
def fieldNames : SettingsSection → List String
  | .paths => ["output_folder", "logs_folder", "last_input_path"]
  | .tool => ["program", "prefix_args"]
  | .exporting => ["format", "loudness_db", "margin_seconds"]
  | .logging => ["compact", "error_tail", "show_options_pretty", "show_options_json"]

theorem names_valuesOf (s : Settings) (part : SettingsSection) :
    (valuesOf s part).map (·.1) = fieldNames part := by
  cases part <;> rfl

/-- The four sections under their headers: what stands before each header, and the settings that
each section is taken from. -/
structure Layout where
  lead : SettingsSection → List Char
  source : SettingsSection → Settings

namespace Layout

variable (l : Layout)

/-- A section with its header. -/
def sectionText (part : SettingsSection) : List Char :=
  headerLine (l.lead part) part.tableName.toList ++ pairLines (valuesOf (l.source part) part)

/-- The statements of a section. -/
def statementsOf (part : SettingsSection) : List Statement :=
  .header false [lineKey [] part.tableName.toList []] ⟨String.ofList (l.lead part), ""⟩ ::
    (valuesOf (l.source part) part).map fun f =>
      .pair [lineKey [] f.1.toList [' ']] (lineValue f.2)

/-- The whole text. -/
def text : List Char := SettingsSection.all.flatMap l.sectionText

/-- A section's table in the document, by the rank of its header. -/
def table (rank : Nat) (part : SettingsSection) : Key × Item :=
  (lineKey [] part.tableName.toList [],
    .table { decor := some ⟨String.ofList (l.lead part), ""⟩, position := some rank }
      (entriesOf (l.source part) part))

/-- The tables of some sections, by the rank of the first. -/
def tables (rank : Nat) : List SettingsSection → Entries
  | [] => []
  | part :: parts => l.table rank part :: tables (rank + 1) parts

/-- The document that the text writes. -/
def document : Document where
  entries := l.tables 1 SettingsSection.all

theorem isBare_tableName (part : SettingsSection) : IsBare part.tableName.toList := by
  cases part <;> exact ⟨by decide, List.all_eq_true.1 (by decide)⟩

theorem isBare_fieldName {part : SettingsSection} {name : String} (h : name ∈ fieldNames part) :
    IsBare name.toList := by
  have hall : (fieldNames part).all
      (fun name => !name.toList.isEmpty && name.toList.all isKeyChar) = true := by
    cases part <;> decide
  obtain ⟨hne, hchars⟩ := Bool.and_eq_true_iff.1 (List.all_eq_true.1 hall name h)
  refine ⟨fun hnil => ?_, List.all_eq_true.1 hchars⟩
  rw [hnil] at hne
  cases hne

theorem readsBack_fields (s : Settings) (part : SettingsSection) :
    ∀ f ∈ valuesOf s part, IsBare f.1.toList ∧ ReadsBack f.2 := by
  intro f hf
  have hname : f.1 ∈ fieldNames part := by
    rw [← names_valuesOf s part]
    exact List.mem_map_of_mem hf
  exact ⟨isBare_fieldName hname, readsBack_valuesOf s part f hf⟩

variable {l}

theorem statements_sections (hlead : ∀ part, IsLead (l.lead part)) (parts : List SettingsSection)
    (fuel : Nat) (rest : List Char) :
    statements (fuel + (parts.flatMap l.statementsOf).length)
      (parts.flatMap l.sectionText ++ rest) =
        (statements fuel rest).map fun r => (parts.flatMap l.statementsOf ++ r.1, r.2) := by
  induction parts with
  | nil => simp
  | cons part parts ih =>
    have hfields := readsBack_fields (l.source part) part
    have hfuel : fuel + ((part :: parts).flatMap l.statementsOf).length =
        fuel + (parts.flatMap l.statementsOf).length + (valuesOf (l.source part) part).length +
          1 := by
      rw [List.flatMap_cons, List.length_append, statementsOf, List.length_cons, List.length_map]
      omega
    have htext : (part :: parts).flatMap l.sectionText ++ rest =
        headerLine (l.lead part) part.tableName.toList ++
          (pairLines (valuesOf (l.source part) part) ++
            (parts.flatMap l.sectionText ++ rest)) := by
      rw [List.flatMap_cons, sectionText]
      simp only [List.append_assoc]
    rw [hfuel, htext, statements_header (isBare_tableName part) (hlead part),
      statements_pairs hfields, ih, Option.map_map, Option.map_map]
    congr 1
    funext r
    simp [statementsOf]

theorem length_le_pairLines (fs : List (String × Value)) : fs.length ≤ (pairLines fs).length := by
  induction fs with
  | nil => exact Nat.le_refl 0
  | cons f fs ih =>
    unfold pairLines at ih ⊢
    rw [List.flatMap_cons, List.length_append, List.length_cons]
    have : 0 < (pairLine f.1.toList f.2).length := by simp [pairLine]
    omega

theorem length_statements_le (parts : List SettingsSection) :
    (parts.flatMap l.statementsOf).length ≤ (parts.flatMap l.sectionText).length := by
  induction parts with
  | nil => exact Nat.le_refl 0
  | cons part parts ih =>
    have hfields := length_le_pairLines (valuesOf (l.source part) part)
    have hheader : 0 < (headerLine (l.lead part) part.tableName.toList).length := by
      simp [headerLine]
    rw [List.flatMap_cons, List.flatMap_cons, List.length_append, List.length_append, sectionText,
      statementsOf, List.length_cons, List.length_map, List.length_append]
    omega

/-! ## Assembling the sections -/

theorem has_append (es fs : Entries) (name : String) :
    Entries.has (es ++ fs) name = (Entries.has es name || Entries.has fs name) :=
  List.any_append

theorem setPair_new {es : Entries} {k : Key} (h : es.has k.name = false) (v : Value) :
    es.setPair [k] v = some (es ++ [(k, .value v)]) := by
  show Entries.add es k (.value v) = _
  unfold Entries.add
  rw [h, if_neg Bool.false_ne_true]

/-- The entries of a table whose lines are given. -/
def lineEntries (fs : List (String × Value)) : Entries :=
  fs.map fun f => (lineKey [] f.1.toList [' '], .value (lineValue f.2))

/-- Pairs with new names are added to the open table one after another. -/
theorem foldlM_pairs {fs : List (String × Value)} (hnodup : (fs.map (·.1)).Nodup) {a : Assembly}
    (hnew : ∀ f ∈ fs, a.current.has f.1 = false) :
    (fs.map fun f => Statement.pair [lineKey [] f.1.toList [' ']] (lineValue f.2)).foldlM
      Assembly.step a = some { a with current := a.current ++ lineEntries fs } := by
  induction fs generalizing a with
  | nil => simp [lineEntries]
  | cons f fs ih =>
    have hname : (lineKey [] f.1.toList [' ']).name = f.1 := String.ofList_toList
    obtain ⟨hnot, hnodup⟩ := List.nodup_cons.1 hnodup
    have hstep : a.step (.pair [lineKey [] f.1.toList [' ']] (lineValue f.2)) =
        some { a with current := a.current ++ lineEntries [f] } := by
      have hset := setPair_new (v := lineValue f.2)
        (show a.current.has (lineKey [] f.1.toList [' ']).name = false by
          rw [hname]
          exact hnew f List.mem_cons_self)
      show (a.current.setPair _ _).bind _ = _
      rw [hset]
      rfl
    rw [List.map_cons, List.foldlM_cons, hstep, Option.bind_eq_bind, Option.bind_some, ih hnodup]
    · simp [lineEntries]
    · intro g hg
      rw [has_append, hnew g (List.mem_cons_of_mem _ hg), Bool.false_or]
      have hne : f.1 ≠ g.1 := by
        intro heq
        refine hnot ?_
        show f.1 ∈ fs.map (·.1)
        rw [heq]
        exact List.mem_map_of_mem hg
      simpa [Entries.has, lineEntries, hname] using hne

theorem lineEntries_valuesOf (s : Settings) (part : SettingsSection) :
    lineEntries (valuesOf s part) = entriesOf s part := by
  unfold entriesOf lineEntries
  refine List.map_congr_left fun f hf => ?_
  have hvalue : lineValue f.2 = f.2 := by
    cases part <;> simp only [valuesOf, List.mem_cons, List.not_mem_nil, or_false] at hf
    all_goals rcases hf with rfl | rfl | rfl | rfl <;> rfl
  rw [hvalue, lineKey, String.ofList_toList]

theorem nodup_fieldNames (part : SettingsSection) : (fieldNames part).Nodup := by
  cases part <;> decide

/-- A section whose table is new becomes the next table. -/
theorem foldlM_section {a : Assembly} {root : Entries} (hclose : a.close = some root)
    {part : SettingsSection} (hnew : root.has part.tableName = false) :
    ∃ b, (l.statementsOf part).foldlM Assembly.step a = some b ∧
      b.close = some (root ++ [l.table (a.headers + 1) part]) ∧ b.headers = a.headers + 1 := by
  have hname : (lineKey [] part.tableName.toList []).name = part.tableName := String.ofList_toList
  have hitem : root.item? part.tableName = none := by
    unfold Entries.has at hnew
    unfold Entries.item?
    rw [List.any_eq_false] at hnew
    rw [Option.map_eq_none_iff, List.find?_eq_none]
    exact hnew
  let opened : Assembly :=
    { root, headers := a.headers + 1,
      opened := some (false, [lineKey [] part.tableName.toList []],
        ⟨String.ofList (l.lead part), ""⟩) }
  have hopen : a.step (.header false [lineKey [] part.tableName.toList []]
      ⟨String.ofList (l.lead part), ""⟩) = some opened := by
    unfold Assembly.step
    rw [hclose]
    simp [Assembly.openTable, Assembly.openTable.contents, Entries.modifyAt, hname, hitem, opened]
  have hnodup : ((valuesOf (l.source part) part).map (·.1)).Nodup := by
    rw [names_valuesOf]
    exact nodup_fieldNames part
  have hpairs := foldlM_pairs hnodup (a := opened) fun f _ => rfl
  rw [lineEntries_valuesOf] at hpairs
  refine ⟨{ opened with current := entriesOf (l.source part) part }, ?_, ?_, rfl⟩
  · unfold statementsOf
    rw [List.foldlM_cons, hopen, Option.bind_eq_bind, Option.bind_some, hpairs]
    rfl
  · show Entries.add root (lineKey [] part.tableName.toList []) _ = _
    unfold Entries.add
    rw [hname, hnew, if_neg Bool.false_ne_true]
    rfl

theorem foldlM_sections {parts : List SettingsSection} (hnodup : parts.Nodup) {a : Assembly}
    {root : Entries} (hclose : a.close = some root)
    (hnew : ∀ part ∈ parts, root.has part.tableName = false) :
    ∃ b, (parts.flatMap l.statementsOf).foldlM Assembly.step a = some b ∧
      b.close = some (root ++ l.tables (a.headers + 1) parts) := by
  induction parts generalizing a root with
  | nil => exact ⟨a, rfl, by rw [hclose, tables, List.append_nil]⟩
  | cons part parts ih =>
    obtain ⟨hnot, hnodup⟩ := List.nodup_cons.1 hnodup
    obtain ⟨b, hb, hbclose, hheaders⟩ := foldlM_section (l := l) hclose
      (hnew part List.mem_cons_self)
    have hnext : ∀ other ∈ parts,
        Entries.has (root ++ [l.table (a.headers + 1) part]) other.tableName = false := by
      intro other hother
      rw [has_append, hnew other (List.mem_cons_of_mem _ hother), Bool.false_or]
      have hne : part.tableName ≠ other.tableName := by
        intro heq
        rw [SettingsSection.tableName_injective heq] at hnot
        exact hnot hother
      simpa [Entries.has, table, lineKey, Key.plain] using hne
    obtain ⟨c, hc, hcclose⟩ := ih hnodup hbclose hnext
    refine ⟨c, ?_, ?_⟩
    · rw [List.flatMap_cons, List.foldlM_append, hb]
      exact hc
    · rw [hcclose, hheaders, tables, List.append_assoc]
      rfl

theorem ofStatements_sections :
    Assembly.ofStatements (SettingsSection.all.flatMap l.statementsOf) "" = some l.document := by
  have hstart : ({} : Assembly).close = some [] := rfl
  have hnodup : SettingsSection.all.Nodup := by decide
  obtain ⟨b, hb, hclose⟩ := foldlM_sections (l := l) hnodup hstart fun _ _ => rfl
  unfold Assembly.ofStatements
  rw [hb]
  show b.close.bind _ = _
  rw [hclose]
  rfl

/-! ## Reading the text -/

theorem dropMark_text (hlead : IsLead (l.lead .paths)) : dropMark l.text = l.text := by
  refine dropMark_of_head fun c hc hmark => ?_
  have htext : l.text = l.lead .paths ++ '[' :: (l.text.drop ((l.lead .paths).length + 1)) := by
    simp [text, SettingsSection.all, sectionText, headerLine]
  subst hmark
  rw [htext] at hc
  cases hl : l.lead .paths with
  | nil =>
    rw [hl] at hc
    exact absurd (Option.some.inj hc) (by decide)
  | cons c lead =>
    rw [hl] at hc
    obtain rfl := Option.some.inj hc
    have hread := hlead []
    rw [hl, List.cons_append, trivia_stop (by decide) (by decide) (by decide) (by decide)] at hread
    cases hread

/-- **What such a text writes.** -/
theorem read_text (hlead : ∀ part, IsLead (l.lead part)) :
    Document.read (String.ofList l.text) = some l.document := by
  have hle := length_statements_le (l := l) SettingsSection.all
  obtain ⟨k, hk⟩ : ∃ k, l.text.length = k + (SettingsSection.all.flatMap l.statementsOf).length :=
    ⟨_, (Nat.sub_add_cancel hle).symm⟩
  have hstatements := statements_sections hlead SettingsSection.all (k + 1) []
  rw [List.append_nil, statements_nil, Nat.add_right_comm, ← hk] at hstatements
  have hassemble := ofStatements_sections (l := l)
  unfold Document.read
  rw [String.toList_ofList, dropMark_text (hlead .paths)]
  show (statements (l.text.length + 1) l.text).bind _ = _
  rw [show l.text = SettingsSection.all.flatMap l.sectionText from rfl] at hstatements ⊢
  rw [hstatements]
  simp only [Option.map_some, Option.bind_some, List.append_nil]
  exact hassemble

end Layout

end ExportDesk.SettingsText
