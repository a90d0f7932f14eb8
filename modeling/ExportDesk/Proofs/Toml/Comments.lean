import ExportDesk.Proofs.Toml.Around
import ExportDesk.Proofs.Toml.Lossless
import ExportDesk.Proofs.Toml.Remarks

/-!
# Comments that stay

Where a table of a document is replaced, all that stood above, in and behind the other statements of
its text is printed again: `keepsComments_setTable`.
-/

namespace ExportDesk.Toml

open Entries Reader Assembly

/-! ## Comments of a document in its text -/

theorem mem_bodyOf_of {parents : List Key} {es : Entries} {e : Key × Item} (he : e ∈ es)
    {p : List Key × Value} (hp : p ∈ bodyOfItem (parents ++ [e.1]) e.2) :
    p ∈ bodyOf parents es := by
  induction es with
  | nil => cases he
  | cons e' es ih =>
    obtain ⟨k, i⟩ := e'
    rw [bodyOf, List.mem_append]
    obtain rfl | he := List.mem_cons.1 he
    · exact .inl hp
    · exact .inr (ih he)

theorem exists_mem_sectionsOf (parents : List Key) {es : Entries} {e : Key × Item} (he : e ∈ es)
    {q : Section → Prop}
    (h : ∀ rank, ∃ s ∈ (sectionsOfItem (parents ++ [e.1]) rank e.2).1, q s) (rank : Nat) :
    ∃ s ∈ (sectionsOf parents rank es).1, q s := by
  induction es generalizing rank with
  | nil => cases he
  | cons e' es ih =>
    obtain ⟨k, i⟩ := e'
    rw [sectionsOf_cons]
    obtain rfl | he := List.mem_cons.1 he
    · obtain ⟨s, hs, hq⟩ := h rank
      exact ⟨s, List.mem_append_left _ hs, hq⟩
    · obtain ⟨s, hs, hq⟩ := ih he (sectionsOfItem (parents ++ [k]) rank i).2
      exact ⟨s, List.mem_append_right _ hs, hq⟩

theorem sectionsOfElements_of_mem (path : List Key) {ts : List (Head × Entries)}
    {t : Head × Entries} (ht : t ∈ ts) (rank : Nat) :
    ∃ rank', ⟨rank', path, t.1, t.2, true⟩ ∈ (sectionsOfElements path rank ts).1 ∧
      ∀ s ∈ (sectionsOf path rank' t.2).1, s ∈ (sectionsOfElements path rank ts).1 := by
  induction ts generalizing rank with
  | nil => cases ht
  | cons t' ts ih =>
    obtain ⟨h, es⟩ := t'
    rw [sectionsOfElements]
    obtain rfl | ht := List.mem_cons.1 ht
    · exact ⟨_, List.mem_cons_self, fun s hs =>
        List.mem_cons_of_mem _ (List.mem_append_left _ hs)⟩
    · obtain ⟨rank', hself, hinner⟩ := ih ht _
      exact ⟨rank', List.mem_cons_of_mem _ (List.mem_append_right _ hself), fun s hs =>
        List.mem_cons_of_mem _ (List.mem_append_right _ (hinner s hs))⟩

/-- The text stands at the header of a section or at a line below it. -/
def Section.Shows (s : Section) (r : List Char) : Prop :=
  (∃ decor, s.head.decor = some decor ∧ r ∈ decor.remarks) ∨
    ∃ p ∈ bodyOf [] s.entries, r ∈ pairRemarks p.1 p.2

theorem isVisible_of_mem {s : Section} {p : List Key × Value} (hp : p ∈ bodyOf [] s.entries) :
    s.isVisible = true := by
  by_contra hhidden
  rw [bodyOf_of_not_visible (Bool.eq_false_iff.2 hhidden)] at hp
  cases hp

/-- What stands at an item is printed in a line, or in a section of its own. -/
theorem BearsItem.printed {r : List Char} {k : Key} {i : Item} (h : BearsItem r k i) :
    (∀ parents, ∃ p ∈ bodyOfItem (parents ++ [k]) i, r ∈ pairRemarks p.1 p.2) ∨
      ∀ parents rank, ∃ s ∈ (sectionsOfItem (parents ++ [k]) rank i).1,
        s.isVisible = true ∧ s.Shows r := by
  induction h with
  | @value k v hr =>
    refine .inl fun parents => ⟨(parents ++ [k], v), ?_, ?_⟩
    · rw [bodyOfItem]
      exact List.mem_singleton_self _
    · rwa [pairRemarks_of_getLast? List.getLast?_concat]
  | @head k h es decor hdecor himplicit hdotted hr =>
    refine .inr fun parents rank => ⟨⟨h.position.getD rank, parents ++ [k], h, es, false⟩, ?_, ?_,
      .inl ⟨decor, hdecor, hr⟩⟩
    · rw [sectionsOfItem, hdotted]
      exact List.mem_cons_self
    · unfold Section.isVisible
      rw [himplicit]
      rfl
  | @inside k h es e he hr ih =>
    obtain hbody | hsections := ih
    · cases hdotted : h.dotted with
      | true =>
        refine .inl fun parents => ?_
        obtain ⟨p, hp, hr⟩ := hbody (parents ++ [k])
        rw [bodyOfItem, hdotted, if_pos rfl]
        exact ⟨p, mem_bodyOf_of he hp, hr⟩
      | false =>
        -- the values are in the body of the table's own section
        obtain ⟨p, hp, hr⟩ := hbody []
        have hmem := mem_bodyOf_of he hp
        refine .inr fun parents rank => ⟨⟨h.position.getD rank, parents ++ [k], h, es, false⟩, ?_,
          isVisible_of_mem hmem, .inr ⟨p, hmem, hr⟩⟩
        rw [sectionsOfItem, hdotted]
        exact List.mem_cons_self
    · refine .inr fun parents rank => ?_
      rw [sectionsOfItem]
      simp only
      split
      · exact exists_mem_sectionsOf _ he (hsections _) _
      · obtain ⟨s, hs, hq⟩ := exists_mem_sectionsOf _ he (hsections (parents ++ [k])) _
        exact ⟨s, List.mem_cons_of_mem _ hs, hq⟩
  | @element k ts t decor ht hdecor hr =>
    refine .inr fun parents rank => ?_
    obtain ⟨rank', hself, -⟩ := sectionsOfElements_of_mem (parents ++ [k]) ht rank
    rw [sectionsOfItem]
    exact ⟨_, hself, rfl, .inl ⟨decor, hdecor, hr⟩⟩
  | @insideElement k ts t e ht he hr ih =>
    refine .inr fun parents rank => ?_
    obtain ⟨rank', hself, hinner⟩ := sectionsOfElements_of_mem (parents ++ [k]) ht rank
    rw [sectionsOfItem]
    obtain hbody | hsections := ih
    · obtain ⟨p, hp, hr⟩ := hbody []
      exact ⟨_, hself, rfl, .inr ⟨p, mem_bodyOf_of he hp, hr⟩⟩
    · obtain ⟨s, hs, hq⟩ := exists_mem_sectionsOf _ he (hsections (parents ++ [k])) rank'
      exact ⟨s, hinner s hs, hq⟩

theorem infix_printPair {r : List Char} {path : List Key} {v : Value}
    (h : r ∈ pairRemarks path v) : r <:+: (printPair path v).toList := by
  have hsplit : (printPair path v).toList =
      plainEnds ((path.getLast?.bind (·.line)).getD ⟨"", " "⟩).before.toList ++
        ((printKeys path).toList ++ ((plainEnds
            ((path.getLast?.bind (·.line)).getD ⟨"", " "⟩).after.toList) ++ ('=' ::
          (plainEnds v.decor.before.toList ++ (v.written.toList ++
            (plainEnds v.decor.after.toList ++ ['\n'])))))) := by
    rw [toList_pairLine]
    unfold printPath
    simp only [String.toList_append, toList_dropReturns, List.append_assoc]
  rw [hsplit]
  obtain rfl | h := List.mem_cons.1 h
  · exact (List.prefix_append _ _).isInfix
  refine List.infix_append_of_infix_right ?_
  refine List.infix_append_of_infix_right ?_
  refine List.infix_append_of_infix_right ?_
  refine List.infix_cons ?_
  refine List.infix_append_of_infix_right ?_
  obtain rfl | h := List.mem_cons.1 h
  · exact (List.prefix_append _ _).isInfix
  · refine List.infix_append_of_infix_right ?_
    rw [List.mem_singleton.1 h]
    exact (List.prefix_append _ _).isInfix

theorem infix_headerText {r : List Char} {decor : Decor} (h : r ∈ decor.remarks)
    (inArray : Bool) (path : List Key) : r <:+: (headerText inArray decor path).toList := by
  rw [toList_headerLine]
  obtain rfl | h := List.mem_cons.1 h
  · exact (List.prefix_append _ _).isInfix
  · rw [List.mem_singleton.1 h]
    refine List.infix_append_of_infix_right ?_
    refine List.infix_append_of_infix_right ?_
    refine List.infix_append_of_infix_right ?_
    refine List.infix_append_of_infix_right ?_
    exact (List.prefix_append _ _).isInfix

theorem infix_print {r : List Char} {s : Section} (hvisible : s.isVisible = true)
    (h : s.Shows r) (isFirst : Bool) : r <:+: (s.print isFirst).toList := by
  have hprint : s.print isFirst = (if s.isVisible then headerText s.inArray
      (s.head.decor.getD ⟨if isFirst then "" else "\n", ""⟩) s.path else "") ++
        String.join ((bodyOf [] s.entries).map fun p => printPair p.1 p.2) := rfl
  rw [hprint, if_pos hvisible, String.toList_append]
  obtain ⟨decor, hdecor, hr⟩ | ⟨p, hp, hr⟩ := h
  · rw [hdecor, Option.getD_some]
    exact (infix_headerText hr s.inArray s.path).trans (List.prefix_append _ _).isInfix
  · exact ((infix_printPair hr).trans (infix_pair hp)).trans (List.suffix_append _ _).isInfix

/-- What stands at a name of the document is in a text that keeps the other names. -/
theorem Bears.infix {r : List Char} {d : Document} {n name text : String} (hlaid : Laid d.entries)
    (h : Bears r n d.entries) (hne : n ≠ name) (hkeeps : KeepsOthers d name text) :
    r <:+: text.toList := by
  obtain ⟨e, he, rfl, hr⟩ := h
  have hnone : ∀ k ∈ ([] : List Key), IsKey k := fun _ hk => absurd hk List.not_mem_nil
  have hother : (e.1.name != name) = true := bne_iff_ne.2 hne
  obtain hbody | hsections := hr.printed
  · obtain ⟨p, hp, hr⟩ := hbody []
    have hname := pathName_of_prefix
      (isPair_of_bodyOfItem (hlaid.items e he) (hlaid.keys e he) hnone p hp).2
    refine (infix_printPair hr).trans (hkeeps.pairs p (mem_bodyOf_of he hp) ?_)
    rw [isOther, hname]
    exact hother
  · obtain ⟨s, hs, hvisible, hr⟩ := exists_mem_sectionsOf [] he
      (q := fun s => s.isVisible = true ∧ s.Shows r ∧ pathName s.path = e.1.name)
      (fun rank => by
        obtain ⟨s, hs, hvisible, hr⟩ := hsections [] rank
        exact ⟨s, hs, hvisible, hr, pathName_of_prefix (isLaid_of_sectionsOfItem
          (hlaid.items e he) (hlaid.keys e he) hnone rank s hs).2⟩) 0
    obtain ⟨isFirst, htext⟩ := hkeeps.tables s hs hvisible (by rw [isOther, hr.2]; exact hother)
    exact (infix_print hvisible hr.1 isFirst).trans htext

/-! ## From one text to the next -/

/-- The statements of a text, and what follows the last of them. -/
def statementsOf (text : String) : Option (List Statement × List Char) :=
  statements ((dropMark text.toList).length + 1) (dropMark text.toList)

/-- The old text is the lines of some statements, up to carriage returns and its last line end. What
stands above a line of another name, the spelling of its value and what follows it are in the new
text, which ends with what follows the last line. -/
structure KeepsComments (old name new : String) (ss : List Statement) (trailing : List Char) :
    Prop where
  read : statementsOf old = some (ss, trailing)
  whole : ∃ ending, (ending = [] ∨ ending = ['\n']) ∧
    plainEnds (dropMark old.toList ++ ending) = plainEnds (ss.flatMap Statement.text ++ trailing)
  lines : ∀ x ∈ owned none ss, x.1 ≠ name → ∀ r ∈ x.2.remarks, r <:+: new.toList
  trailing : plainEnds trailing <:+ new.toList

/-- **The comments at all other names stay** where a table of the document is replaced. -/
theorem keepsComments_setTable {old : String} {d : Document} (hread : Document.read old = some d)
    {inner : Entries} (hinner : IsPlain inner) (name : String) :
    ∃ ss trailing, KeepsComments old name (d.setTable name inner).print ss trailing := by
  have hkept := kept_of_read hread
  have hothers := keepsOthers_setTable hkept hinner name
  obtain ⟨⟨ss, trailing⟩, hstatements, hassemble⟩ := Option.bind_eq_some_iff.1 hread
  refine ⟨ss, trailing, hstatements, text_of_statements hstatements, fun x hx hne r hr => ?_, ?_⟩
  · have hbears := bears_ofStatements (laidStatement_of_statements hstatements).1 hassemble x hx hr
    exact hbears.infix hkept.laid hne hothers
  · have htrailing : d.trailing = String.ofList trailing := by
      obtain ⟨a, -, h⟩ := Option.bind_eq_some_iff.1 hassemble
      obtain ⟨es, -, heq⟩ := Option.bind_eq_some_iff.1 h
      cases heq
      rfl
    have hend := hothers.trailing
    rwa [htrailing, toList_dropReturns, String.toList_ofList] at hend

end ExportDesk.Toml
