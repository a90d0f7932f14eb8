import ExportDesk.Proofs.Toml.Around

/-!
# One table in the place of another

The text with a new table is read as the document with that table, if the table's key fits into a
header, and not at all if it does not: `read_print_setTable` and `read_print_setTable_none`.
-/

namespace ExportDesk.Toml

open Entries Reader Assembly

variable {d : Document} {name : String} {inner : Entries}

/-- Nothing but blanks stands before the key of a name, where there is one. -/
def Document.FitsHeader (d : Document) (name : String) : Prop :=
  ∀ e ∈ d.entries, e.1.name = name → ∀ decor ∈ e.1.line, '\n' ∉ decor.before.toList

/-- A table of values is made by its lines. -/
theorem setPairs_plain (hinner : IsPlain inner) (hnames : (inner.map fun e => e.1.name).Nodup)
    {es : Entries} (hnew : ∀ e ∈ inner, es.has e.1.name = false) :
    setPairs es (bareBody inner) = some (es ++ bareOf inner) := by
  induction inner generalizing es with
  | nil => simp [bareBody, bodyOf, bareOf, setPairs]
  | cons e es' ih =>
    obtain ⟨k, i⟩ := e
    obtain ⟨⟨v, rfl⟩, hes⟩ := List.forall_mem_cons.1 hinner
    obtain ⟨hk, hes'⟩ := List.forall_mem_cons.1 hnew
    rw [List.map_cons, List.nodup_cons] at hnames
    have hbody : bareBody ((k, .value v) :: es') = ([k.bare], v.bare) :: bareBody es' := by
      unfold bareBody
      rw [bodyOf, bodyOfItem, List.map_append]
      rfl
    have hset : es.setPair [k.bare] v.bare = some (es ++ [(k.bare, .value v.bare)]) := by
      show es.add k.bare (.value v.bare) = _
      unfold Entries.add
      rw [Key.bare_name, show es.has k.name = false from hk, if_neg Bool.false_ne_true]
    have hmore : setPairs (es ++ [(k.bare, .value v.bare)]) (bareBody es') = _ :=
      ih hes hnames.2 fun e he => by
        have hne : k.name ≠ e.1.name := fun heq =>
          hnames.1 (List.mem_map.2 ⟨e, he, heq.symm⟩)
        unfold Entries.has
        rw [List.any_append, ← Entries.has, hes' e he]
        simpa using hne
    rw [List.append_assoc] at hmore
    rw [hbody, setPairs, List.foldlM_cons, hset, bareOf, Item.bare]
    exact hmore

/-- Where no table of its name is, the new table is put behind the others. -/
theorem act_newSection (rank : Nat) {k : Key} (hinner : IsPlain inner)
    (hnames : (inner.map fun e => e.1.name).Nodup) {es : Entries}
    (hnew : es.has k.name = false) :
    (newSection rank k inner).block.act es =
      some (es ++ [(k.bare, .table {} (bareOf inner))]) := by
  have hitem : es.item? k.bare.name = none := item?_eq_none.2 hnew
  have hbegin : (newSection rank k inner).block.begin es = some (es, []) := by
    show openTable es [k.bare] = _
    rw [openTable_eq, List.getLast?_singleton, Option.bind_some]
    show (takeOut k.bare es).map _ = _
    unfold takeOut
    rw [hitem, openTable.contents, hitem]
    rfl
  have hpairs : setPairs [] (bareBody inner) = _ := setPairs_plain hinner hnames fun _ _ => rfl
  unfold Block.act
  rw [hbegin, Option.bind_some]
  show (setPairs [] (bareBody inner)).bind _ = _
  rw [hpairs, Option.bind_some, List.nil_append]
  show es.add k.bare (.table {} (bareOf inner)) = _
  unfold Entries.add
  rw [Key.bare_name, hnew, if_neg Bool.false_ne_true]

theorem isTight_of_isLeading {decor : Decor} (h : Decor.IsLeading decor)
    (hn : '\n' ∉ decor.before.toList) : Decor.IsTight decor :=
  ⟨isGap_of_isBlankLines h.before fun hmem => hn (List.mem_filter.1 hmem).1, h.after⟩

theorem not_mem_of_isTight {decor : Decor} (h : Decor.IsTight decor) :
    '\n' ∉ decor.before.toList := fun hmem =>
  absurd (h.before '\n' (List.mem_filter.2 ⟨hmem, by decide⟩)) (by decide)

/-- A key of which nothing but the name is known to the document. -/
theorem isKey_plain {name : String} (h : IsBare name.toList) : IsKey (Key.plain name) := by
  have hnone : ∀ c ∈ "".toList, isGap c = true := fun _ hc => absurd hc List.not_mem_nil
  refine ⟨?_, fun rest hrest => ?_, hnone, hnone⟩
  · obtain ⟨c, w, heq⟩ := List.exists_cons_of_ne_nil h.ne_nil
    refine ⟨c, w, heq, ?_⟩
    unfold startsKey
    rw [h.chars c (by rw [heq]; exact List.mem_cons_self)]
    rfl
  · have hread := simpleKey_bare h hrest
    rw [String.ofList_toList] at hread
    exact hread

section

variable {before old after : Entries} {k : Key}

/-- What the key of the new table has around it. -/
theorem Around.line (ha : Around d.entries name before old after k) (hlaid : Laid d.entries) :
    k.line = none ∨ ∃ decor, k.line = some decor ∧
      (Decor.IsLeading decor ∨ Decor.IsTight decor) := by
  cases hline : k.line with
  | none => exact .inl rfl
  | some decor =>
    refine .inr ⟨decor, rfl, ?_⟩
    obtain ⟨-, rfl⟩ | ⟨i, rfl⟩ := ha.found
    · cases hline
    · have hitem := hlaid.items (k, i) (by rw [ha.entries]; simp)
      cases hitem with
      | value hleading =>
        rw [hline] at hleading
        exact .inl hleading
      | table htight =>
        rw [hline] at htight
        exact .inr htight
      | tables htight =>
        rw [hline] at htight
        exact .inr htight

theorem Around.isKey (ha : Around d.entries name before old after k) (hlaid : Laid d.entries)
    (hname : IsBare name.toList) : IsKey k := by
  obtain ⟨-, rfl⟩ | ⟨i, rfl⟩ := ha.found
  · exact isKey_plain hname
  · exact hlaid.keys (k, i) (by rw [ha.entries]; simp)

theorem Around.fits_iff (ha : Around d.entries name before old after k) :
    d.FitsHeader name ↔ ∀ decor ∈ k.line, '\n' ∉ decor.before.toList := by
  constructor
  · intro hfits decor hdecor
    obtain ⟨-, rfl⟩ | ⟨i, rfl⟩ := ha.found
    · cases hdecor
    · exact hfits (k, i) (by rw [ha.entries]; simp) ha.key decor hdecor
  · intro hk e he hname decor hdecor
    rw [ha.entries, List.mem_append, List.mem_append] at he
    obtain he | he | he := he
    · exact absurd hname (ha.before e he)
    · obtain ⟨rfl, -⟩ | ⟨i, rfl⟩ := ha.found
      · cases he
      · obtain rfl := List.mem_singleton.1 he
        exact hk decor hdecor
    · exact absurd hname (ha.after e he)

theorem Around.isTight (ha : Around d.entries name before old after k) (hlaid : Laid d.entries)
    (hfits : d.FitsHeader name) : Decor.IsTight (k.line.getD ⟨"", ""⟩) := by
  obtain hline | ⟨decor, hline, hleading | htight⟩ := ha.line hlaid
  · rw [hline]
    exact isTight_none
  · rw [hline]
    exact isTight_of_isLeading hleading (ha.fits_iff.1 hfits decor hline)
  · rw [hline]
    exact htight

theorem Laid.insert {i : Item} (hothers : Laid (before ++ after)) (hk : IsKey k)
    (hi : LaidItem k i) (hne : ∀ e ∈ before ++ after, e.1.name ≠ k.name) :
    Laid (before ++ (k, i) :: after) := by
  have hmem {e : Key × Item} (he : e ∈ before ++ (k, i) :: after) :
      e = (k, i) ∨ e ∈ before ++ after := by
    rw [List.mem_append, List.mem_cons] at he
    rw [List.mem_append]
    exact or_left_comm.1 he
  refine ⟨fun e he => ?_, ?_, fun e he => ?_⟩
  · obtain rfl | he := hmem he
    · exact hk
    · exact hothers.keys e he
  · rw [List.map_append, List.map_cons, List.nodup_middle, List.nodup_cons, ← List.map_append]
    refine ⟨fun hmem => ?_, hothers.names⟩
    obtain ⟨e, he, heq⟩ := List.mem_map.1 hmem
    exact hne e he heq
  · obtain rfl | he := hmem he
    · exact hi
    · exact hothers.items e he

theorem laid_setTable (ha : Around d.entries name before old after k) (hlaid : Laid d.entries)
    (hname : IsBare name.toList) (hinner : Laid inner) (hfits : d.FitsHeader name) :
    Laid (d.setTable name inner).entries := by
  have hset : (d.setTable name inner).entries = before ++ (k, .table {} inner) :: after :=
    ha.set (.table {} inner)
  have hothers : Laid (before ++ after) := hlaid.subset (by
    rw [ha.entries]
    exact (List.Sublist.refl _).append (List.sublist_append_right _ _))
  rw [hset]
  refine hothers.insert (ha.isKey hlaid hname)
    (laidItem_table.2 ⟨ha.isTight hlaid hfits, nofun, hinner⟩) ?_
  rw [ha.key, List.forall_mem_append]
  exact ⟨ha.before, ha.after⟩

theorem actions_setTable (hd : d.Kept) (hinner : IsPlain inner)
    (ha : Around d.entries name before old after k) :
    ∃ bs rank cs, (d.setTable name inner).actions =
        bs ++ Action.block (newSection rank k inner).block :: cs ∧
      (d.actions.filter fun a => a.name != name) = bs ++ cs := by
  obtain ⟨rank, first, second, hprinted, hothers⟩ :=
    printed_setTable hd.laid hd.steady hinner ha
  have hpairs (ps : List (List Key × Value)) :
      (((ps.map fun p => (p.1.map Key.bare, p.2.bare)).map fun p => Action.pair p.1 p.2).filter
        fun a => a.name != name) = ((ps.filter fun p => isOther name p.1).map
          fun p => (p.1.map Key.bare, p.2.bare)).map fun p => Action.pair p.1 p.2 := by
    rw [List.map_map, List.filter_map, List.map_map]
    refine congrArg (List.map _) (List.filter_congr fun p _ => ?_)
    show (pathName (p.1.map Key.bare) != name) = _
    rw [pathName_bare]
    rfl
  have hblocks (ss : List Section) :
      ((ss.map fun s => Action.block s.block).filter fun a => a.name != name) =
        (ss.filter fun s => isOther name s.path).map fun s => Action.block s.block := by
    rw [List.filter_map]
    refine congrArg (List.map _) (List.filter_congr fun s _ => ?_)
    show (pathName (s.path.map Key.bare) != name) = _
    rw [pathName_bare]
    rfl
  refine ⟨(((bodyOf [] d.entries).filter fun p => isOther name p.1).map
    fun p => (p.1.map Key.bare, p.2.bare)).map (fun p => Action.pair p.1 p.2) ++
      first.map (fun s => Action.block s.block), rank, second.map fun s => Action.block s.block,
      ?_, ?_⟩
  · unfold Document.actions bareBody
    rw [hprinted.body, show List.filter Section.isVisible _ = _ from hprinted.sections,
      List.map_append, List.map_cons, List.append_assoc]
  · unfold Document.actions bareBody
    rw [List.filter_append, hpairs, hblocks, show List.filter _ (List.filter _ _) = _ from hothers,
      List.map_append, List.append_assoc]

end

/-- **The new text is read as the document with the new table**, if its key fits into a header:
the entries of other names are those that the document's own text has. -/
theorem read_print_setTable (hd : d.Kept) (hname : IsBare name.toList) (hplain : IsPlain inner)
    (hinner : Laid inner) (hfits : d.FitsHeader name) {e : Document}
    (hback : Document.read d.print = some e) :
    ∃ e' k, Document.read (d.setTable name inner).print = some e' ∧ k.name = name ∧
      Entries.only (· != name) (bareOf e'.entries) = Entries.only (· != name) (bareOf e.entries) ∧
      Entries.only (· == name) (bareOf e'.entries) = [(k, .table {} (bareOf inner))] := by
  obtain ⟨before, old, after, k, ha⟩ := exists_around hd.laid.names name
  obtain ⟨bs, rank, cs, hactions, hrest⟩ := actions_setTable hd hplain ha
  have hrun := read_print hd.laid hd.trailing
  rw [hback, Option.map_some] at hrun
  have hnew (es : Entries) (hes : es.has name = false) :
      (Action.block (newSection rank k inner).block).act es =
        some (es ++ [(k.bare, .table {} (bareOf inner))]) :=
    act_newSection rank hplain hinner.names (by rw [ha.key]; exact hes)
  have hkey : k.bare.name = name := ha.key
  obtain ⟨es, hes, hother, hown⟩ := foldlM_instead Action.actsOn hkey hnew hrest hrun.symm
  have hread := read_print (laid_setTable ha hd.laid hname hinner hfits) hd.trailing
  rw [hactions, hes] at hread
  obtain ⟨e', he', rfl⟩ := Option.map_eq_some_iff.1 hread
  exact ⟨e', k.bare, he', ha.key, hother, hown⟩

/-- Lines, and a header that is broken by line ends before its key, are not read. -/
theorem read_headerText_split {text : List Char} {ss : List Statement} (htext : ReadsAll text ss)
    {decor line : Decor} (hdecor : Decor.IsLoose decor) {k : Key} (hline : k.line = some line)
    (hlead : Decor.IsLeading line) (hn : '\n' ∈ line.before.toList) (more : List Char) :
    Document.read (String.ofList (text ++ ((headerText false decor [k]).toList ++ more))) =
      none := by
  have hfuel : text.length < (text ++ ((headerText false decor [k]).toList ++ more)).length + 1 := by
    rw [List.length_append]
    omega
  obtain ⟨ss, fuel, -, -, hread⟩ :=
    statements_readsAll htext ((headerText false decor [k]).toList ++ more) hfuel
  rw [statements_headerText_split hdecor hline hlead hn] at hread
  have hhead : ∀ c ∈ ((headerText false decor [k]).toList ++ more).head?, c ≠ mark := by
    obtain ⟨c, w, hc, hne⟩ := start_headerText false hdecor [k]
    rw [hc]
    rintro _ ⟨rfl⟩
    exact hne
  unfold Document.read
  rw [String.toList_ofList, dropMark_of_head (htext.head hhead)]
  simp only [hread]
  rfl

/-- What is printed up to the header of the new table. -/
theorem print_setTable_header (hd : d.Kept) (hplain : IsPlain inner)
    {before old after : Entries} {k : Key} (ha : Around d.entries name before old after k) :
    ∃ text ss decor more, ReadsAll text ss ∧ Decor.IsLoose decor ∧
      (d.setTable name inner).print.toList =
        text ++ ((headerText false decor [k]).toList ++ more) := by
  obtain ⟨rank, first, second, hprinted, hothers⟩ :=
    printed_setTable hd.laid hd.steady hplain ha
  have hbody : ∀ p ∈ (bodyOf [] d.entries).filter (fun p => isOther name p.1), IsPair p :=
    fun p hp => isPair_of_bodyOf hd.laid p (List.mem_filter.1 hp).1
  have hfirst : ∀ s ∈ first, s.IsLaid := by
    intro s hs
    have hmem : s ∈ first ++ second := List.mem_append_left _ hs
    rw [← hothers] at hmem
    have hsorted := (List.mem_filter.1 (List.mem_filter.1 hmem).1).1
    exact isLaid_of_sectionsOf hd.laid 0 s (mem_sortByRank.1 hsorted)
  obtain ⟨isFirst, hsections⟩ := printSections_append
    ((bodyOf [] d.entries).filter fun p => isOther name p.1).isEmpty first
    (newSection rank k inner :: second)
  have hprint : (newSection rank k inner).print isFirst =
      headerText false ⟨if isFirst then "" else "\n", ""⟩ [k] ++
        String.join ((bodyOf [] inner).map fun p => printPair p.1 p.2) := rfl
  have htext := (readsAll_pairs hbody).append (readsAll_sections hfirst
    ((bodyOf [] d.entries).filter fun p => isOther name p.1).isEmpty)
  have hloose : Decor.IsLoose ⟨if isFirst then "" else "\n", ""⟩ := by
    cases isFirst <;> exact ⟨by decide, by decide⟩
  refine ⟨_, _, _, (String.join ((bodyOf [] inner).map fun p => printPair p.1 p.2)).toList ++
    ((printSections (isFirst && !(newSection rank k inner).isVisible) second).toList ++
      plainEnds d.trailing.toList), htext, hloose, ?_⟩
  rw [toList_print_printed hprinted, hsections, printSections, hprint]
  simp only [String.toList_append, List.append_assoc]
  rfl

/-- **The new text is not read at all** if lines stand before the key: they come to stand inside
the brackets of the header. -/
theorem read_print_setTable_none (hd : d.Kept) (hplain : IsPlain inner)
    (hfits : ¬ d.FitsHeader name) : Document.read (d.setTable name inner).print = none := by
  obtain ⟨before, old, after, k, ha⟩ := exists_around hd.laid.names name
  rw [ha.fits_iff] at hfits
  push Not at hfits
  obtain ⟨line, hline, hn⟩ := hfits
  have hlead : Decor.IsLeading line := by
    obtain hnone | ⟨line', hline', h⟩ := ha.line hd.laid
    · rw [hnone] at hline
      cases hline
    · rw [hline'] at hline
      cases hline
      exact h.resolve_right fun htight => not_mem_of_isTight htight hn
  obtain ⟨text, ss, decor, more, htext, hdecor, hprint⟩ := print_setTable_header hd hplain ha
  rw [← String.ofList_toList (s := (d.setTable name inner).print), hprint]
  exact read_headerText_split htext hdecor hline hlead hn more

end ExportDesk.Toml
