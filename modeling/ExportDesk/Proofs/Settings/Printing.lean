import ExportDesk.Proofs.Settings.Sections

/-!
# Printing the settings file

A section that is written alone is printed under a new header and everything else as it was:
`toList_print_setTable`. `read_write` and `readForEditing_write` say that a file that is written
anew is read as the document of its sections.
-/

namespace ExportDesk.SettingsText.Layout

open Toml Reader

variable {l : Layout}

/-! ## Printing the sections -/

/-- A section on its own, as it is printed. -/
def printed (rank : Nat) (head : Head) (s : Settings) (part : SettingsSection) : Section :=
  ⟨rank, [lineKey [] part.tableName.toList []], head, entriesOf s part, false⟩

theorem isVisible_printed {head : Head} (himplicit : head.implicit = false) (rank : Nat)
    (s : Settings) (part : SettingsSection) : (printed rank head s part).isVisible = true := by
  unfold Section.isVisible printed
  rw [himplicit]
  rfl

theorem toList_print_printed {rank : Nat} {head : Head} (himplicit : head.implicit = false)
    {lead : List Char} (hlead : '\r' ∉ lead) {isFirst : Bool}
    (hdecor : head.decor.getD ⟨if isFirst then "" else "\n", ""⟩ = ⟨String.ofList lead, ""⟩)
    (s : Settings) (part : SettingsSection) :
    ((printed rank head s part).print isFirst).toList =
      headerLine lead part.tableName.toList ++ pairLines (valuesOf s part) := by
  have hvisible := isVisible_printed himplicit rank s part
  have hbefore : (dropReturns (String.ofList lead)).toList = lead := by
    rw [toList_dropReturns, String.toList_ofList, plainEnds_of_not_mem hlead]
  have hheader : (printPath ⟨"", ""⟩ [lineKey [] part.tableName.toList []]).toList =
      part.tableName.toList := by
    have hnone : (dropReturns "").toList = [] := by decide
    show (dropReturns "" ++ String.ofList part.tableName.toList ++ dropReturns "").toList = _
    rw [String.toList_append, String.toList_append, String.toList_ofList, hnone, List.nil_append,
      List.append_nil]
  have hbody : (String.join ((bodyOf [] (entriesOf s part)).map
      fun p => printPair p.1 p.2)).toList = pairLines (valuesOf s part) :=
    toList_bodyText s part
  unfold Section.print
  rw [hvisible]
  simp only [printed, hdecor, if_true, Bool.false_eq_true, if_false, String.toList_append, hbefore,
    hheader, hbody]
  simp [headerLine, dropReturns]

/-- The rank of a section's header. -/
def rank : SettingsSection → Nat
  | .paths => 1
  | .tool => 2
  | .exporting => 3
  | .logging => 4

/-- The four tables with given heads. -/
def tabled (head : SettingsSection → Head) (source : SettingsSection → Settings) : Entries :=
  SettingsSection.all.map fun part =>
    (lineKey [] part.tableName.toList [], .table (head part) (entriesOf (source part) part))

variable (l) in
/-- The head of a section's table. -/
def head (part : SettingsSection) : Head :=
  { decor := some ⟨String.ofList (l.lead part), ""⟩, position := some (rank part) }

theorem document_entries : l.document.entries = tabled l.head l.source := rfl

/-- The heads with that of one section made new. -/
def newHead (h : SettingsSection → Head) (part other : SettingsSection) : Head :=
  if other = part then {} else h other

/-- The settings of the sections with one section taken from others. -/
def newSource (source : SettingsSection → Settings) (s : Settings)
    (part other : SettingsSection) : Settings :=
  if other = part then s else source other

theorem set_tabled (h : SettingsSection → Head) (source : SettingsSection → Settings)
    (s : Settings) (part : SettingsSection) :
    (tabled h source).set part.tableName (.table {} (entriesOf s part)) =
      tabled (newHead h part) (newSource source s part) := by
  have hname (other : SettingsSection) :
      (lineKey [] other.tableName.toList []).name = other.tableName := String.ofList_toList
  have hhas : (tabled h source).has part.tableName = true := by
    unfold Entries.has tabled
    rw [List.any_map, List.any_eq_true]
    refine ⟨part, part.mem_all, ?_⟩
    show ((lineKey [] part.tableName.toList []).name == part.tableName) = true
    rw [hname, beq_self_eq_true]
  unfold Entries.set
  rw [if_pos hhas]
  unfold Entries.replace tabled
  rw [List.map_map]
  refine List.map_congr_left fun other _ => ?_
  show (if (lineKey [] other.tableName.toList []).name == part.tableName then _ else _) = _
  rw [hname]
  unfold newHead newSource
  by_cases heq : other = part
  · subst heq
    simp
  · have hne : other.tableName ≠ part.tableName := fun h => heq (SettingsSection.tableName_injective h)
    simp [heq, hne]

theorem sectionsOf_lineEntries (path : List Key) (rank : Nat) (fs : List (String × Value)) :
    sectionsOf path rank (lineEntries fs) = ([], rank) := by
  induction fs with
  | nil => simp [lineEntries, sectionsOf]
  | cons f fs ih =>
    unfold lineEntries at ih ⊢
    rw [List.map_cons, sectionsOf, sectionsOfItem]
    simp only
    rw [ih]
    rfl

theorem sectionsOf_entriesOf (path : List Key) (rank : Nat) (s : Settings)
    (part : SettingsSection) : sectionsOf path rank (entriesOf s part) = ([], rank) := by
  rw [← lineEntries_valuesOf, sectionsOf_lineEntries]


/-- The heads of tables with headers of their own. -/
def Plain (h : SettingsSection → Head) : Prop :=
  ∀ part, (h part).implicit = false ∧ (h part).dotted = false

theorem bodyOf_tabled {h : SettingsSection → Head} (hh : Plain h)
    (source : SettingsSection → Settings) : bodyOf [] (tabled h source) = [] := by
  simp [tabled, SettingsSection.all, bodyOf, bodyOfItem, (hh _).2]

/-- The sections of some tables, where `rank` is that of the table before them. -/
def sectionsFrom (h : SettingsSection → Head) (source : SettingsSection → Settings) :
    Nat → List SettingsSection → List Section
  | _, [] => []
  | rank, part :: parts =>
    printed ((h part).position.getD rank) (h part) (source part) part ::
      sectionsFrom h source ((h part).position.getD rank) parts

theorem sectionsOf_tabled {h : SettingsSection → Head} (hh : Plain h)
    (source : SettingsSection → Settings) :
    (sectionsOf [] 0 (tabled h source)).1 = sectionsFrom h source 0 SettingsSection.all := by
  simp [tabled, SettingsSection.all, sectionsOf, sectionsOfItem, (hh _).2, sectionsOf_entriesOf,
    sectionsFrom, printed]

/-- What stands before a header that is printed without decor. -/
def newLead (part : SettingsSection) : List Char := if part = .paths then [] else ['\n']

/-- The layout with one section taken from other settings and its header made new. -/
def revised (l : Layout) (s : Settings) (part : SettingsSection) : Layout where
  lead other := if other = part then newLead part else l.lead other
  source := newSource l.source s part

theorem decor_newHead (l : Layout) (s : Settings) (part other : SettingsSection) :
    (newHead l.head part other).decor.getD
      ⟨if decide (other = .paths) then "" else "\n", ""⟩ =
        ⟨String.ofList ((l.revised s part).lead other), ""⟩ := by
  unfold newHead revised
  by_cases heq : other = part
  · rw [if_pos heq]
    simp only
    rw [if_pos heq, ← heq]
    cases other <;> rfl
  · rw [if_neg heq]
    simp only
    rw [if_neg heq]
    rfl

theorem entries_setTable (s : Settings) (part : SettingsSection) :
    (l.document.setTable part.tableName (entriesOf s part)).entries =
      tabled (newHead l.head part) (newSource l.source s part) := by
  show Entries.set l.document.entries _ _ = _
  rw [document_entries]
  exact set_tabled _ _ s part

theorem insertByRank_last {s : Section} {ts : List Section} (h : ∀ t ∈ ts, t.rank ≤ s.rank) :
    insertByRank s ts = ts ++ [s] := by
  induction ts with
  | nil => rfl
  | cons t ts ih =>
    have ht := h t List.mem_cons_self
    rw [insertByRank, if_neg (by omega), ih fun u hu => h u (List.mem_cons_of_mem _ hu)]
    rfl

theorem sortByRank_of_pairwise {ss : List Section}
    (h : ss.Pairwise fun a b => a.rank ≤ b.rank) : sortByRank ss = ss := by
  have hfold (sorted ss : List Section)
      (h : (sorted ++ ss).Pairwise fun a b => a.rank ≤ b.rank) :
      ss.foldl (fun sorted s => insertByRank s sorted) sorted = sorted ++ ss := by
    induction ss generalizing sorted with
    | nil => exact (List.append_nil sorted).symm
    | cons s ss ih =>
      have hlast : insertByRank s sorted = sorted ++ [s] :=
        insertByRank_last fun t ht =>
          (List.pairwise_append.1 h).2.2 t ht s List.mem_cons_self
      rw [List.append_cons] at h
      rw [List.foldl_cons, hlast, ih _ h, ← List.append_cons]
  exact hfold [] ss h

theorem toList_print_setTable (hlead : ∀ other, '\r' ∉ l.lead other) (s : Settings)
    (part : SettingsSection) :
    ((l.document.setTable part.tableName (entriesOf s part)).print).toList =
      (l.revised s part).text := by
  have hplain : Plain (newHead l.head part) := by
    intro other
    unfold newHead
    split <;> exact ⟨rfl, rfl⟩
  have hsorted : (sectionsFrom (newHead l.head part) (newSource l.source s part) 0
      SettingsSection.all).Pairwise fun a b => a.rank ≤ b.rank := by
    cases part <;> simp [sectionsFrom, SettingsSection.all, newHead, head, rank, printed]
  have hno : ∀ other, '\r' ∉ (l.revised s part).lead other := by
    intro other
    unfold revised newLead
    simp only
    split
    · split <;> decide
    · exact hlead other
  have hprint (isFirst : Bool) (rank : Nat) (other : SettingsSection)
      (hfirst : isFirst = decide (other = .paths)) :
      ((printed rank (newHead l.head part other) (newSource l.source s part other) other).print
        isFirst).toList = (l.revised s part).sectionText other := by
    refine toList_print_printed (hplain other).1 (hno other) ?_ _ other
    rw [hfirst]
    exact decor_newHead l s part other
  have htrailing : (l.document.setTable part.tableName (entriesOf s part)).trailing = "" := rfl
  unfold Document.print
  rw [htrailing, entries_setTable, bodyOf_tabled hplain, sectionsOf_tabled hplain,
    sortByRank_of_pairwise hsorted]
  simp only [sectionsFrom, SettingsSection.all, printSections, isVisible_printed (hplain _).1,
    List.isEmpty_nil, Bool.not_true, Bool.and_false, String.toList_append]
  rw [hprint true _ .paths rfl, hprint false _ .tool rfl, hprint false _ .exporting rfl,
    hprint false _ .logging rfl]
  simp [text, SettingsSection.all, dropReturns]

/-! ## The data of the sections -/

theorem fieldsOf_tabled (h : SettingsSection → Head) (source : SettingsSection → Settings) :
    fieldsOf (tabled h source) = SettingsSection.all.map fun part =>
      (part.tableName, .table (fieldsOf (entriesOf (source part) part))) := by
  have hname (part : SettingsSection) :
      (lineKey [] part.tableName.toList []).name = part.tableName := String.ofList_toList
  simp [tabled, SettingsSection.all, fieldsOf, Item.datum, hname]

theorem fields_document : l.document.fields =
    SettingsSection.all.map fun part =>
      (part.tableName, .table (fieldsOf (entriesOf (l.source part) part))) :=
  fieldsOf_tabled l.head l.source

/-- What the printed text of a changed document says is what the document says. -/
theorem fields_revised (s : Settings) (part : SettingsSection) :
    (l.revised s part).document.fields =
      (l.document.setTable part.tableName (entriesOf s part)).fields := by
  unfold Document.fields
  rw [entries_setTable, document_entries, fieldsOf_tabled, fieldsOf_tabled]
  rfl

theorem lookup_fields_document (part : SettingsSection) :
    l.document.fields.lookup part.tableName =
      some (.table (fieldsOf (entriesOf (l.source part) part))) := by
  rw [fields_document]
  cases part <;> rfl

theorem fieldsNarrow_document : fieldsNarrow l.document.fields = true := by
  rw [fields_document]
  refine fieldsNarrow_of_all fun f hf => ?_
  obtain ⟨part, -, rfl⟩ := List.mem_map.1 hf
  rw [Datum.isNarrow, fieldsOf_entriesOf]
  refine fieldsNarrow_of_all fun g hg => ?_
  obtain ⟨v, hv, rfl⟩ := List.mem_map.1 hg
  exact isNarrow_valuesOf _ part v hv

theorem readForEditing_text (hlead : ∀ part, IsLead (l.lead part)) :
    Document.readForEditing (String.ofList l.text) = some l.document := by
  unfold Document.readForEditing
  rw [read_text hlead, Option.filter_some, fieldsNarrow_document, if_pos rfl]

/-! ## The file as it is written -/

/-- What stands before a section's header in a file that is written anew. -/
def freshLead (part : SettingsSection) : List Char :=
  ((if part = .paths then
    "# Auto Editor GUI Configuration\n" ++
    "# This file is auto-generated. Comments may be preserved on section updates.\n" else "") ++
  "\n# " ++ part.comment ++ "\n").toList

/-- The layout of a file that is written anew. -/
def fresh (s : Settings) : Layout := ⟨freshLead, fun _ => s⟩

theorem isBlankLines_freshLead (part : SettingsSection) :
    isBlankLines false (freshLead part) = true := by
  cases part <;> decide +kernel

theorem isLead_freshLead (part : SettingsSection) : IsLead (freshLead part) :=
  isLead_of_isBlankLines (isBlankLines_freshLead part)

theorem isLead_newLead (part : SettingsSection) : IsLead (newLead part) :=
  isLead_of_isBlankLines (by cases part <;> decide)

theorem toList_write (s : Settings) : (write s).toList = (fresh s).text := by
  have hnone : "".toList = [] := rfl
  have hline : "\n".toList = ['\n'] := rfl
  have hopen : "\n[".toList = ['\n', '['] := rfl
  have hclose : "]\n".toList = [']', '\n'] := rfl
  unfold write
  -- the comments stay as they are: their characters do not matter here
  simp only [SettingsSection.all, List.map_cons, List.map_nil, String.toList_append,
    String.toList_join, List.flatMap_cons, List.flatMap_nil, writeSection_eq, toList_bodyText, text,
    sectionText, headerLine, fresh, freshLead, hnone, hline, hopen, hclose, reduceCtorEq, if_true,
    if_false, List.append_assoc, List.cons_append, List.nil_append, List.append_nil]

theorem read_write (s : Settings) : Document.read (write s) = some (fresh s).document := by
  have h := read_text (l := fresh s) isLead_freshLead
  rwa [← toList_write, String.ofList_toList] at h

theorem readForEditing_write (s : Settings) :
    Document.readForEditing (write s) = some (fresh s).document := by
  have h := readForEditing_text (l := fresh s) isLead_freshLead
  rwa [← toList_write, String.ofList_toList] at h

theorem no_return_freshLead (part : SettingsSection) : '\r' ∉ freshLead part :=
  no_return_of_isBlankLines (isBlankLines_freshLead part)

theorem readForEditing_revised (s s' : Settings) (part : SettingsSection) :
    Document.readForEditing
      ((fresh s).document.setTable part.tableName (entriesOf s' part)).print =
        some ((fresh s).revised s' part).document := by
  have hlead (other : SettingsSection) : IsLead (((fresh s).revised s' part).lead other) := by
    unfold revised
    simp only
    split
    · exact isLead_newLead part
    · exact isLead_freshLead other
  have h := readForEditing_text hlead
  rwa [← toList_print_setTable no_return_freshLead s' part, String.ofList_toList] at h

end ExportDesk.SettingsText.Layout
