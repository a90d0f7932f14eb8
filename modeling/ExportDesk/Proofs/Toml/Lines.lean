import ExportDesk.Proofs.Toml.Bare
import ExportDesk.Proofs.Toml.Spellings

/-!
# Printed lines are read back

A printed line is read as the statement it was printed from, up to layout, and nothing of what
follows it is touched: `readsAs_pair` and `readsAs_header`. Only a header whose key comes with line
ends before it is no line (`statements_split_header`).
-/

namespace ExportDesk.Toml.Reader

/-- A line that is read as one statement, whatever follows it. -/
structure ReadsAs (line : List Char) (s : Statement) : Prop where
  start : ∃ c w, line = c :: w ∧ c ≠ mark
  reads : ∀ fuel rest, ∃ s', s'.bare = s.bare ∧
    statements (fuel + 1) (line ++ rest) = (statements fuel rest).map fun r => (s' :: r.1, r.2)

/-- One statement, with what stands before it. -/
def statement (lead cs : List Char) : Option (Statement × List Char) :=
  match cs with
  | '[' :: '[' :: cs => header true lead cs
  | '[' :: cs => header false lead cs
  | cs => pair lead cs

theorem statements_succ {lead : List Char} {c : Char} {cs : List Char}
    (hlead : isBlankLines false lead = true)
    (hstop : trivia false (c :: cs) = some ([], c :: cs)) (fuel : Nat) :
    statements (fuel + 1) (lead ++ c :: cs) =
      (statement lead (c :: cs)).bind fun r =>
        (statements fuel r.2).map fun t => (r.1 :: t.1, t.2) := by
  rw [statements, trivia_of_isBlankLines hlead hstop]
  simp only [Option.bind_eq_bind, Option.bind_some]
  have hmore (r : Option (Statement × List Char)) :
      (r.bind fun x => (statements fuel x.2).bind fun t => pure (x.1 :: t.1, t.2)) =
        r.bind fun x => (statements fuel x.2).map fun t => (x.1 :: t.1, t.2) := by
    simp only [Option.map_eq_bind]
    rfl
  unfold statement
  rw [← hmore]
  split
  next heq =>
    cases heq
    simp
  next heq =>
    cases heq
    simp
  next => simp

theorem statement_pair {c : Char} (hc : startsKey c = true) (lead cs : List Char) :
    statement lead (c :: cs) = pair lead (c :: cs) := by
  have hbracket : c ≠ '[' := by
    rintro rfl
    exact absurd hc (by decide)
  unfold statement
  split
  next heq => exact absurd (List.cons.inj heq).1 hbracket
  next heq => exact absurd (List.cons.inj heq).1 hbracket
  · rfl

theorem statement_header {cs : List Char} (hcs : ∀ c ∈ cs.head?, c ≠ '[') (lead : List Char) :
    statement lead ('[' :: cs) = header false lead cs := by
  unfold statement
  split
  next heq =>
    obtain rfl := (List.cons.inj heq).2
    exact absurd rfl (hcs '[' rfl)
  next heq =>
    obtain rfl := (List.cons.inj heq).2
    rfl
  next hnot => exact absurd rfl (hnot cs)

/-! ## What surrounds the parts of a line -/

/-- Blanks and comments before and after a line's own text. -/
structure Decor.IsLoose (decor : Decor) : Prop where
  before : isBlankLines false (plainEnds decor.before.toList) = true
  after : isRemark false decor.after.toList = true

/-- Nothing but blanks before and after a path. -/
structure Decor.IsTight (decor : Decor) : Prop where
  before : ∀ c ∈ plainEnds decor.before.toList, isGap c = true
  after : ∀ c ∈ decor.after.toList, isGap c = true

/-- Blanks and comments before a path, and blanks after it. -/
structure Decor.IsLeading (decor : Decor) : Prop where
  before : isBlankLines false (plainEnds decor.before.toList) = true
  after : ∀ c ∈ decor.after.toList, isGap c = true

/-- A value with its spelling and what surrounds it on its line. -/
structure IsWritten (v : Value) : Prop where
  before : ∀ c ∈ v.decor.before.toList, isGap c = true
  after : isRemark false v.decor.after.toList = true
  spells : Spells maxDepth v.written.toList v.datum

/-- A path of keys that were read; the decor of the whole is of a kind. -/
structure IsPath (usual : Decor) (p : Decor → Prop) (path : List Key) : Prop where
  ne_nil : path ≠ []
  keys : ∀ k ∈ path, IsKey k
  line : p ((path.getLast?.bind (·.line)).getD usual)

theorem toList_dropReturns_remark {s : String} (h : isRemark false s.toList = true) :
    (dropReturns s).toList = s.toList := by
  rw [toList_dropReturns, plainEnds_of_not_mem (no_return_of_isRemark h)]

theorem ne_mark_of_startsKey {c : Char} (h : startsKey c = true) : c ≠ mark := by
  rintro rfl
  exact absurd h (by decide)

/-- No line begins with a mark. -/
theorem start_of_isBlankLines {lead rest : List Char} (h : isBlankLines false lead = true)
    (hrest : ∃ c w, rest = c :: w ∧ c ≠ mark) : ∃ c w, lead ++ rest = c :: w ∧ c ≠ mark := by
  cases lead with
  | nil => exact hrest
  | cons c lead =>
    refine ⟨c, lead ++ rest, rfl, ?_⟩
    rintro rfl
    exact absurd h (by simp [isBlankLines, mark, isGap])

theorem startsKey_printKeys {path : List Key} (hne : path ≠ []) (hpath : ∀ k ∈ path, IsKey k) :
    ∃ c w, (printKeys path).toList = c :: w ∧ startsKey c = true := by
  obtain ⟨k, path, rfl⟩ := List.exists_cons_of_ne_nil hne
  obtain ⟨c, w, hw, hc⟩ := (hpath k List.mem_cons_self).start
  cases path with
  | nil => exact ⟨c, w, hw, hc⟩
  | cons k' path =>
    obtain ⟨t, ht⟩ : ∃ t, (printKeys (k :: k' :: path)).toList = k.written.toList ++ t := by
      simp only [printKeys, String.toList_append, List.append_assoc]
      exact ⟨_, rfl⟩
    exact ⟨c, w ++ t, by rw [ht, hw, List.cons_append], hc⟩

theorem keyPath_printKeys {path : List Key} (hne : path ≠ []) (hpath : ∀ k ∈ path, IsKey k)
    (lead : List Char) {before after : List Char} (hbefore : ∀ c ∈ before, isGap c = true)
    (hafter : ∀ c ∈ after, isGap c = true) {c : Char} (hkey : isKeyChar c = false)
    (hgap : isGap c = false) (hdot : c ≠ '.') (rest : List Char) :
    ∃ ks, keyPath lead (before ++ ((printKeys path).toList ++ (after ++ c :: rest))) =
      some (ks, c :: rest) ∧ ks.map Key.bare = path.map Key.bare := by
  have hfuel : path.length ≤
      (before ++ ((printKeys path).toList ++ (after ++ c :: rest))).length + 1 := by
    have := length_le_printKeys hpath
    simp only [List.length_append]
    omega
  obtain ⟨ks, hks, hnames⟩ :=
    dottedKeys_printKeys hne hpath hbefore hafter hkey hgap hdot rest hfuel
  refine ⟨framed lead ks, by unfold keyPath; rw [hks]; rfl, ?_⟩
  have hbare (l : List Key) : l.map Key.bare = (l.map (·.name)).map Key.plain := by
    rw [List.map_map]
    rfl
  rw [hbare, hbare, names_framed, hnames]

/-! ## Pairs -/

theorem toList_printPair {path : List Key} {v : Value}
    (hpath : IsPath ⟨"", " "⟩ Decor.IsLeading path) (hv : IsWritten v) (rest : List Char) :
    let line := (path.getLast?.bind (·.line)).getD ⟨"", " "⟩
    (printPair path v).toList ++ rest = plainEnds line.before.toList ++
      ((printKeys path).toList ++ (line.after.toList ++ '=' :: (v.decor.before.toList ++
        (v.written.toList ++ (v.decor.after.toList ++ '\n' :: rest))))) := by
  have hequals : "=".toList = ['='] := rfl
  have hend : "\n".toList = ['\n'] := rfl
  have hlead := toList_dropReturns ((path.getLast?.bind (·.line)).getD ⟨"", " "⟩).before
  simp only [printPair, printPath, String.toList_append, hlead, hequals, hend,
    toList_dropReturns_gap hpath.line.after, toList_dropReturns_gap hv.before,
    toList_dropReturns_remark hv.after]
  simp

theorem readsAs_pair {path : List Key} {v : Value}
    (hpath : IsPath ⟨"", " "⟩ Decor.IsLeading path) (hv : IsWritten v) :
    ReadsAs (printPair path v).toList (.pair path v) := by
  obtain ⟨d, w, hprinted, hd⟩ := startsKey_printKeys hpath.ne_nil hpath.keys
  have htext := toList_printPair hpath hv
  simp only at htext
  have hlead := hpath.line.before
  generalize plainEnds ((path.getLast?.bind (·.line)).getD ⟨"", " "⟩).before.toList = lead
    at htext hlead
  constructor
  · rw [← List.append_nil (printPair path v).toList, htext, hprinted]
    exact start_of_isBlankLines hlead ⟨d, _, rfl, ne_mark_of_startsKey hd⟩
  intro fuel rest
  have hnone : ∀ c ∈ ([] : List Char), isGap c = true := fun _ hc => absurd hc List.not_mem_nil
  obtain ⟨ks, hks, hnames⟩ := keyPath_printKeys hpath.ne_nil hpath.keys lead hnone
    hpath.line.after (c := '=') (by decide) (by decide) (by decide) (v.decor.before.toList ++
      (v.written.toList ++ (v.decor.after.toList ++ '\n' :: rest)))
  rw [List.nil_append] at hks
  have hgap := hv.spells.gap_before hv.before (v.decor.after.toList ++ '\n' :: rest)
  have hvalue := hv.spells.reads (v.decor.after.toList ++ '\n' :: rest)
    (2 * (v.written.toList ++ (v.decor.after.toList ++ '\n' :: rest)).length + 2)
    (endsValue_of_isRemark hv.after rest) (by rw [List.length_append]; omega)
  have hend := lineEnd_of_isRemark hv.after rest
  obtain ⟨s', hs', hpair⟩ : ∃ s' : Statement, s'.bare = (Statement.pair path v).bare ∧
      pair lead ((printKeys path).toList ++
        (((path.getLast?.bind (·.line)).getD ⟨"", " "⟩).after.toList ++ '=' ::
          (v.decor.before.toList ++
            (v.written.toList ++ (v.decor.after.toList ++ '\n' :: rest))))) = some (s', rest) := by
    refine ⟨.pair ks ⟨v.datum, String.ofList v.written.toList,
      ⟨String.ofList v.decor.before.toList, String.ofList v.decor.after.toList⟩⟩, ?_, ?_⟩
    · simp only [Statement.bare, hnames, Value.bare]
    · unfold pair
      rw [hks]
      simp only [Option.bind_eq_bind, Option.bind_some]
      rw [hgap]
      simp only
      rw [hvalue]
      simp only [Option.bind_some]
      rw [hend]
      rfl
  refine ⟨s', hs', ?_⟩
  rw [htext]
  rw [hprinted, List.cons_append] at hpair ⊢
  rw [statements_succ hlead (trivia_startsKey hd _), statement_pair hd, hpair, Option.bind_some]

/-! ## Headers -/

/-- The opening brackets of a header. -/
def opening (inArray : Bool) : List Char := if inArray then ['[', '['] else ['[']

/-- The closing brackets of a header. -/
def closing (inArray : Bool) : List Char := if inArray then [']', ']'] else [']']

/-- The line of a header. -/
def headerText (inArray : Bool) (decor : Decor) (path : List Key) : String :=
  dropReturns decor.before ++
    (if inArray then "[[" ++ printPath ⟨"", ""⟩ path ++ "]]"
      else "[" ++ printPath ⟨"", ""⟩ path ++ "]") ++ dropReturns decor.after ++ "\n"

theorem toList_headerText (inArray : Bool) {decor : Decor} (hdecor : Decor.IsLoose decor)
    (path : List Key) (rest : List Char) :
    let line := (path.getLast?.bind (·.line)).getD ⟨"", ""⟩
    (headerText inArray decor path).toList ++ rest = plainEnds decor.before.toList ++
      (opening inArray ++ (plainEnds line.before.toList ++ ((printKeys path).toList ++
        (plainEnds line.after.toList ++ (closing inArray ++
          (decor.after.toList ++ '\n' :: rest)))))) := by
  have hend : "\n".toList = ['\n'] := rfl
  have hopen : "[".toList = ['['] := rfl
  have hopen' : "[[".toList = ['[', '['] := rfl
  have hclose : "]".toList = [']'] := rfl
  have hclose' : "]]".toList = [']', ']'] := rfl
  have hlead := toList_dropReturns decor.before
  have hbefore := toList_dropReturns ((path.getLast?.bind (·.line)).getD ⟨"", ""⟩).before
  have hafter := toList_dropReturns ((path.getLast?.bind (·.line)).getD ⟨"", ""⟩).after
  cases inArray <;>
    simp [headerText, printPath, String.toList_append, hlead, hbefore, hafter, hend, hopen, hopen',
      hclose, hclose', toList_dropReturns_remark hdecor.after, opening, closing]

theorem statements_opening {lead cs : List Char} (hlead : isBlankLines false lead = true)
    (hcs : ∀ c ∈ cs.head?, c ≠ '[') (inArray : Bool) (fuel : Nat) :
    statements (fuel + 1) (lead ++ (opening inArray ++ cs)) =
      (header inArray lead cs).bind fun r =>
        (statements fuel r.2).map fun t => (r.1 :: t.1, t.2) := by
  have hstop (cs : List Char) : trivia false ('[' :: cs) = some ([], '[' :: cs) :=
    trivia_stop (by decide) (by decide) (by decide) (by decide) cs
  cases inArray with
  | false =>
    show statements (fuel + 1) (lead ++ '[' :: cs) = _
    rw [statements_succ hlead (hstop cs), statement_header hcs]
  | true => exact statements_succ hlead (hstop ('[' :: cs)) fuel

theorem headerEnd_closing (inArray : Bool) (rest : List Char) :
    headerEnd inArray (closing inArray ++ rest) = some rest := by
  cases inArray <;> rfl

theorem plainEnds_of_gap {g : List Char} (h : ∀ c ∈ g, isGap c = true) : plainEnds g = g :=
  plainEnds_of_not_mem fun hmem => ne_return_of_isGap (h _ hmem) rfl

theorem start_headerText (inArray : Bool) {decor : Decor} (hdecor : Decor.IsLoose decor)
    (path : List Key) : ∃ c w, (headerText inArray decor path).toList = c :: w ∧ c ≠ mark := by
  have htext := toList_headerText inArray hdecor path []
  simp only at htext
  rw [← List.append_nil (headerText inArray decor path).toList, htext]
  refine start_of_isBlankLines hdecor.before ?_
  cases inArray
  · exact ⟨'[', _, rfl, by decide⟩
  · exact ⟨'[', _, rfl, by decide⟩

theorem readsAs_header (inArray : Bool) {decor : Decor} (hdecor : Decor.IsLoose decor)
    {path : List Key} (hpath : IsPath ⟨"", ""⟩ Decor.IsTight path) :
    ReadsAs (headerText inArray decor path).toList (.header inArray path decor) := by
  refine ⟨start_headerText inArray hdecor path, fun fuel rest => ?_⟩
  have htext := toList_headerText inArray hdecor path rest
  simp only at htext
  rw [plainEnds_of_gap hpath.line.after] at htext
  have hhead : ∀ c ∈ (plainEnds ((path.getLast?.bind (·.line)).getD ⟨"", ""⟩).before.toList ++
      ((printKeys path).toList ++ (((path.getLast?.bind (·.line)).getD ⟨"", ""⟩).after.toList ++
        (closing inArray ++ (decor.after.toList ++ '\n' :: rest))))).head?, c ≠ '[' := by
    obtain ⟨d, w, hprinted, hd⟩ := startsKey_printKeys hpath.ne_nil hpath.keys
    rw [hprinted]
    cases hbefore : plainEnds ((path.getLast?.bind (·.line)).getD ⟨"", ""⟩).before.toList with
    | nil =>
      rintro _ ⟨rfl⟩ rfl
      exact absurd hd (by decide)
    | cons e before =>
      rintro _ ⟨rfl⟩ rfl
      have hgap := hpath.line.before '[' (by rw [hbefore]; exact List.mem_cons_self)
      exact absurd hgap (by decide)
  obtain ⟨ks, hks, hnames⟩ : ∃ ks, keyPath []
      (plainEnds ((path.getLast?.bind (·.line)).getD ⟨"", ""⟩).before.toList ++
        ((printKeys path).toList ++ (((path.getLast?.bind (·.line)).getD ⟨"", ""⟩).after.toList ++
          (closing inArray ++ (decor.after.toList ++ '\n' :: rest))))) =
      some (ks, closing inArray ++ (decor.after.toList ++ '\n' :: rest)) ∧
        ks.map Key.bare = path.map Key.bare := by
    cases inArray <;>
      exact keyPath_printKeys hpath.ne_nil hpath.keys [] hpath.line.before hpath.line.after
        (by decide) (by decide) (by decide) _
  refine ⟨.header inArray ks ⟨String.ofList (plainEnds decor.before.toList),
    String.ofList decor.after.toList⟩, by simp only [Statement.bare, hnames], ?_⟩
  rw [htext, statements_opening hdecor.before hhead]
  unfold header
  rw [hks]
  simp only [Option.bind_eq_bind, Option.bind_some]
  rw [headerEnd_closing]
  simp only [Option.bind_some]
  rw [lineEnd_of_isRemark hdecor.after]
  rfl

/-! ## A header that is no line -/

theorem simpleKey_eq_none {c : Char} (hc : startsKey c = false) (cs : List Char) :
    simpleKey (c :: cs) = none := by
  unfold startsKey at hc
  rw [Bool.or_eq_false_iff, Bool.or_eq_false_iff] at hc
  unfold simpleKey
  split
  next heq =>
    obtain rfl := (List.cons.inj heq).1
    exact absurd hc.1.2 (by decide)
  next heq =>
    obtain rfl := (List.cons.inj heq).1
    exact absurd hc.2 (by decide)
  · rw [List.takeWhile_cons_of_neg (by rw [hc.1.1]; exact Bool.false_ne_true)]
    rfl

/-- In lines before a key there is a line end or a comment. -/
theorem split_of_isBlankLines {t : List Char} (h : isBlankLines false t = true) (hn : '\n' ∈ t) :
    ∃ g c u, t = g ++ c :: u ∧ (∀ d ∈ g, isGap d = true) ∧ isGap c = false ∧ startsKey c = false ∧
      c ≠ '[' := by
  induction t with
  | nil => cases hn
  | cons c t ih =>
    by_cases hgap : isGap c = true
    · have hc := ne_line_of_isGap hgap
      rw [isBlankLines, if_neg (by simpa using hc), if_neg Bool.false_ne_true, if_pos hgap] at h
      obtain ⟨g, d, u, rfl, hg, hd⟩ := ih h ((List.mem_cons.1 hn).resolve_left (Ne.symm hc))
      exact ⟨c :: g, d, u, rfl, List.forall_mem_cons.2 ⟨hgap, hg⟩, hd⟩
    · refine ⟨[], c, t, rfl, fun _ hd => absurd hd List.not_mem_nil, by simpa using hgap, ?_⟩
      rw [isBlankLines] at h
      split at h
      next hline =>
        obtain rfl := beq_iff_eq.1 hline
        decide
      · simp only [Bool.false_eq_true, if_false, Bool.and_eq_true, beq_iff_eq] at h
        obtain ⟨rfl, -⟩ := h
        decide

/-- A header cannot hold a line end. -/
theorem statements_headerText_split {decor : Decor} (hdecor : Decor.IsLoose decor) {k : Key}
    {line : Decor} (hline : k.line = some line) (hlead : Decor.IsLeading line)
    (hn : '\n' ∈ line.before.toList) (fuel : Nat) (rest : List Char) :
    statements fuel ((headerText false decor [k]).toList ++ rest) = none := by
  have htext := toList_headerText false hdecor [k] rest
  have hgetD : ([k].getLast?.bind (·.line)).getD ⟨"", ""⟩ = line := by
    rw [List.getLast?_singleton, Option.bind_some, hline, Option.getD_some]
  simp only [hgetD] at htext
  have hn' : '\n' ∈ plainEnds line.before.toList := List.mem_filter.2 ⟨hn, by decide⟩
  obtain ⟨g, c, u, hbefore, hg, hgap, hc, hbracket⟩ := split_of_isBlankLines hlead.before hn'
  cases fuel with
  | zero => rfl
  | succ fuel =>
    rw [htext, hbefore, List.append_assoc, List.cons_append, statements_opening hdecor.before]
    · have hread (more : List Char) (fuel : Nat) : dottedKeys fuel (g ++ c :: more) = none := by
        have hstop : gap (g ++ c :: more) = (g, c :: more) := by
          refine gap_append hg ?_
          rintro _ ⟨rfl⟩
          exact hgap
        cases fuel with
        | zero => rfl
        | succ fuel =>
          unfold dottedKeys
          rw [hstop]
          simp only [Option.bind_eq_bind]
          rw [simpleKey_eq_none hc]
          rfl
      unfold header keyPath
      rw [hread]
      rfl
    · cases g with
      | nil =>
        rintro _ ⟨rfl⟩
        exact hbracket
      | cons d g =>
        rintro _ ⟨rfl⟩ rfl
        exact absurd (hg _ List.mem_cons_self) (by decide)

/-! ## Lines one after another -/

/-- Lines that are read as statements are taken off the front of a text. -/
theorem statements_lines {ls : List (List Char × Statement)} (h : ∀ l ∈ ls, ReadsAs l.1 l.2)
    (fuel : Nat) (rest : List Char) :
    ∃ ss, ss.map Statement.bare = ls.map (fun l => l.2.bare) ∧
      statements (fuel + ls.length) (ls.flatMap (fun l => l.1) ++ rest) =
        (statements fuel rest).map fun r => (ss ++ r.1, r.2) := by
  induction ls with
  | nil => exact ⟨[], rfl, by simp⟩
  | cons l ls ih =>
    obtain ⟨hl, hls⟩ := List.forall_mem_cons.1 h
    obtain ⟨ss, hss, hread⟩ := ih hls
    obtain ⟨s, hs, hline⟩ := hl.reads (fuel + ls.length) (ls.flatMap (fun l => l.1) ++ rest)
    refine ⟨s :: ss, by rw [List.map_cons, List.map_cons, hs, hss], ?_⟩
    rw [List.length_cons, ← Nat.add_assoc, List.flatMap_cons, List.append_assoc, hline, hread,
      Option.map_map]
    rfl

theorem length_le_lines {ls : List (List Char × Statement)} (h : ∀ l ∈ ls, ReadsAs l.1 l.2) :
    ls.length ≤ (ls.flatMap fun l => l.1).length := by
  induction ls with
  | nil => exact Nat.le_refl 0
  | cons l ls ih =>
    obtain ⟨hl, hls⟩ := List.forall_mem_cons.1 h
    obtain ⟨c, w, hline, -⟩ := hl.start
    have ih := ih hls
    rw [List.flatMap_cons, List.length_append, List.length_cons, hline, List.length_cons]
    omega

end ExportDesk.Toml.Reader
