import ExportDesk.Proofs.Toml.Lines

/-!
# Nothing of a text is left out

The statements that a text is read as, printed one after another, are the text again, up to carriage
returns and the end of the last line: `text_of_statements`.
-/

namespace ExportDesk.Toml

namespace Reader

/-! ## What a reader took -/

theorem plainEnds_append (cs ds : List Char) :
    plainEnds (cs ++ ds) = plainEnds cs ++ plainEnds ds := List.filter_append _ _

theorem plainEnds_plainEnds (cs : List Char) : plainEnds (plainEnds cs) = plainEnds cs := by
  unfold plainEnds
  rw [List.filter_filter]
  simp only [Bool.and_self]

/-- What stands in the text before the rest is `w`, but for carriage returns. -/
def Takes (cs rest w : List Char) : Prop :=
  ∃ raw, cs = raw ++ rest ∧ plainEnds raw = plainEnds w

section

variable {cs ds rest rest' w w' : List Char}

theorem takes_append (w rest : List Char) : Takes (w ++ rest) rest w := ⟨w, rfl, rfl⟩

theorem Takes.trans (h : Takes cs rest w) (h' : Takes rest rest' w') :
    Takes cs rest' (w ++ w') := by
  obtain ⟨raw, rfl, hraw⟩ := h
  obtain ⟨raw', rfl, hraw'⟩ := h'
  refine ⟨raw ++ raw', (List.append_assoc _ _ _).symm, ?_⟩
  rw [plainEnds_append, plainEnds_append, hraw, hraw']

theorem Takes.cons (h : Takes cs rest w) (c : Char) : Takes (c :: cs) rest (c :: w) :=
  (takes_append [c] cs).trans h

theorem Takes.congr (h : Takes cs rest w) (hw : plainEnds w = plainEnds w') :
    Takes cs rest w' := by
  obtain ⟨raw, hcs, hraw⟩ := h
  exact ⟨raw, hcs, hraw.trans hw⟩

theorem Takes.plain (h : Takes cs rest w) : Takes cs rest (plainEnds w) :=
  h.congr (plainEnds_plainEnds w).symm

theorem takes_trivia {inComment : Bool} (h : trivia inComment cs = some (w, rest)) :
    Takes cs rest w := by
  obtain ⟨rfl, -⟩ := trivia_eq_some h
  exact takes_append w rest

theorem takes_gap (h : gap cs = (w, rest)) : Takes cs rest w := by
  obtain ⟨rfl, -⟩ := gap_eq h
  exact takes_append w rest

/-- A line ends with a line end, or with the text. -/
theorem takes_lineEnd {inComment : Bool} (h : lineEnd inComment cs = some (w, rest)) :
    Takes cs rest (w ++ ['\n']) ∨ rest = [] ∧ Takes cs [] w := by
  have hmore {c : Char} {cs : List Char} {w : List Char}
      (hw : Takes cs rest (w ++ ['\n']) ∨ rest = [] ∧ Takes cs [] w) :
      Takes (c :: cs) rest (c :: w ++ ['\n']) ∨ rest = [] ∧ Takes (c :: cs) [] (c :: w) :=
    hw.imp (fun h => h.cons c) fun h => ⟨h.1, h.2.cons c⟩
  fun_induction lineEnd inComment cs generalizing w with
  | case1 =>
    cases h
    exact .inr ⟨rfl, takes_append [] []⟩
  | case2 b cs =>
    cases h
    exact .inl (takes_append ['\n'] _)
  | case3 b cs =>
    cases h
    exact .inl ⟨['\r', '\n'], rfl, rfl⟩
  | case4 => cases h
  | case5 c cs hn hreturn hcontrol ih =>
    obtain ⟨w, hr, rfl⟩ := push_eq_some h
    exact hmore (ih hr)
  | case6 b c cs hn hreturn hcomment hgap ih =>
    obtain ⟨w, hr, rfl⟩ := push_eq_some h
    exact hmore (ih hr)
  | case7 b c cs hn hreturn hcomment hgap hhash ih =>
    obtain ⟨w, hr, rfl⟩ := push_eq_some h
    exact hmore (ih hr)
  | case8 => cases h

end

/-! ## Paths -/

/-- A path with its blanks, as it was read. -/
def pathText : List Key → List Char
  | [] => []
  | [k] => k.around.before.toList ++ (k.written.toList ++ k.around.after.toList)
  | k :: k' :: ks =>
    k.around.before.toList ++ (k.written.toList ++ (k.around.after.toList ++
      '.' :: pathText (k' :: ks)))

theorem text_of_dottedKeys {fuel : Nat} {cs rest : List Char} {ks : List Key}
    (h : dottedKeys fuel cs = some (ks, rest)) : cs = pathText ks ++ rest := by
  induction fuel generalizing cs ks with
  | zero => cases h
  | succ fuel ih =>
    unfold dottedKeys at h
    rcases hbefore : gap cs with ⟨before, cs₁⟩
    obtain ⟨rfl, -⟩ := gap_eq hbefore
    rw [hbefore] at h
    obtain ⟨⟨k, cs₂⟩, hkey, hmore⟩ := Option.bind_eq_some_iff.1 h
    obtain ⟨hcs₁, -⟩ := simpleKey_taken hkey
    rcases hafter : gap cs₂ with ⟨after, cs₃⟩
    obtain ⟨hcs₂, -⟩ := gap_eq hafter
    simp only [hafter] at hmore
    rw [hcs₁, hcs₂]
    split at hmore
    next cs₄ =>
      obtain ⟨⟨ks', rest'⟩, hks, heq⟩ := Option.bind_eq_some_iff.1 hmore
      cases heq
      obtain ⟨k', ks'', rfl⟩ := List.exists_cons_of_ne_nil (dottedKeys_taken hks).1
      rw [ih hks, pathText]
      simp
    · cases hmore
      rw [pathText]
      simp

theorem text_of_keyPath {lead cs rest : List Char} {path : List Key}
    (h : keyPath lead cs = some (path, rest)) :
    ∃ ks, ks ≠ [] ∧ path = framed lead ks ∧ cs = pathText ks ++ rest := by
  obtain ⟨⟨ks, rest'⟩, hkeys, heq⟩ := Option.map_eq_some_iff.1 h
  cases heq
  exact ⟨ks, (dottedKeys_taken hkeys).1, rfl, text_of_dottedKeys hkeys⟩

/-- The keys of a path are printed as they were written, whatever frames them. -/
theorem printKeys_framed (x k : Key) (ks : List Key) {last : Key}
    (hlast : (k :: ks).getLast? = some last) (line : Option Decor) :
    plainEnds ((printKeys (x :: ((k :: ks).dropLast ++
        [{ last with around := ⟨last.around.before, ""⟩, line }]))).toList ++
          last.around.after.toList) =
      plainEnds (x.written.toList ++ (x.around.after.toList ++ '.' :: pathText (k :: ks))) := by
  have hdot (ds : List Char) : plainEnds ('.' :: ds) = '.' :: plainEnds ds :=
    plainEnds_cons (by decide) ds
  induction ks generalizing x k with
  | nil =>
    obtain rfl := Option.some.inj hlast
    simp [printKeys, pathText, toList_dropReturns, plainEnds_append, plainEnds_plainEnds, hdot]
  | cons k' ks ih =>
    have ih := ih k k' (by simpa using hlast)
    have hprint (ys : List Key) : (printKeys (x :: k :: ys)).toList =
        x.written.toList ++ (plainEnds x.around.after.toList ++ ('.' ::
          (plainEnds k.around.before.toList ++ (printKeys (k :: ys)).toList))) := by
      rw [printKeys]
      simp [toList_dropReturns]
    rw [List.dropLast_cons_cons, List.cons_append, hprint, pathText]
    simp only [plainEnds_append, plainEnds_plainEnds, List.append_assoc, List.cons_append,
      hdot] at ih ⊢
    rw [ih]

theorem printPath_framed (lead : List Char) {ks : List Key} (hne : ks ≠ []) (usual : Decor) :
    plainEnds (printPath usual (framed lead ks)).toList = plainEnds (lead ++ pathText ks) := by
  match ks with
  | [] => exact absurd rfl hne
  | [k] =>
    simp [printPath, framed, printKeys, pathText, toList_dropReturns, plainEnds_append,
      plainEnds_plainEnds]
  | k :: k' :: ks =>
    obtain ⟨last, hlast⟩ : ∃ last, (k' :: ks).getLast? = some last :=
      ⟨_, List.getLast?_eq_some_getLast (List.cons_ne_nil _ _)⟩
    have hkeys := printKeys_framed { k with around := ⟨"", k.around.after⟩ } k' ks hlast
      (some ⟨String.ofList lead ++ k.around.before, last.around.after⟩)
    rw [plainEnds_append] at hkeys
    rw [framed, hlast, pathText]
    · unfold printPath
      simp only [← List.cons_append, List.getLast?_concat, Option.bind_some, Option.getD_some,
        String.toList_append, toList_dropReturns, plainEnds_append, plainEnds_plainEnds,
        String.toList_ofList, List.append_assoc]
      simp only [List.cons_append] at hkeys ⊢
      rw [hkeys]
      simp only [plainEnds_append]
    · exact List.cons_ne_nil _ _

/-! ## Values -/

/-- The readers of values write down what they take. -/
structure Lossless (fuel : Nat) : Prop where
  value : ∀ {depth : Nat} {cs w rest : List Char} {d : Datum},
    Reader.value depth fuel cs = some (d, w, rest) → Takes cs rest w
  elements : ∀ {depth : Nat} {cs w rest : List Char} {ds : List Datum},
    Reader.elements depth fuel cs = some (ds, w, rest) → Takes cs rest w
  fields : ∀ {depth : Nat} {es es' : Entries} {cs w rest : List Char},
    Reader.fields depth fuel es cs = some (es', w, rest) → Takes cs rest w

theorem Lossless.value_succ {fuel : Nat} (ih : Lossless fuel) {depth : Nat}
    {cs w rest : List Char} {d : Datum}
    (h : Reader.value depth (fuel + 1) cs = some (d, w, rest)) : Takes cs rest w := by
  have hstring {cs s rest : List Char} (hread : Quoted.read cs = some (s, rest)) :
      Takes cs rest (taken cs rest) := by
    obtain ⟨c, w, rfl, -, -⟩ := Quoted.read_taken hread
    rw [taken_append]
    exact takes_append _ rest
  unfold Reader.value at h
  split at h
  next cs =>
    split at h
    · cases h
    · obtain ⟨⟨ds, w, rest⟩, helements, heq⟩ := Option.bind_eq_some_iff.1 h
      cases heq
      exact (ih.elements helements).cons '['
  next cs =>
    split at h
    · cases h
    · obtain ⟨⟨es, w, rest⟩, hfields, heq⟩ := Option.bind_eq_some_iff.1 h
      cases heq
      exact (ih.fields hfields).cons '{'
  · obtain ⟨⟨s, rest⟩, hread, heq⟩ := Option.bind_eq_some_iff.1 h
    cases heq
    exact hstring hread
  · obtain ⟨⟨s, rest⟩, hread, heq⟩ := Option.bind_eq_some_iff.1 h
    cases heq
    exact hstring hread
  · obtain ⟨⟨d, rest⟩, hread, heq⟩ := Option.bind_eq_some_iff.1 h
    cases heq
    obtain ⟨c, w, rfl, -, -⟩ := Scalar.read_taken hread
    rw [taken_append]
    exact takes_append _ _

theorem Lossless.elements_succ {fuel : Nat} (ih : Lossless fuel) {depth : Nat}
    {cs w rest : List Char} {ds : List Datum}
    (h : Reader.elements depth (fuel + 1) cs = some (ds, w, rest)) : Takes cs rest w := by
  unfold Reader.elements at h
  obtain ⟨⟨before, cs₁⟩, hbefore, h⟩ := Option.bind_eq_some_iff.1 h
  have hbefore := (takes_trivia hbefore).plain
  simp only at h
  split at h
  next =>
    cases h
    exact hbefore.trans (takes_append [']'] _)
  obtain ⟨⟨d, v, cs₂⟩, hvalue, h⟩ := Option.bind_eq_some_iff.1 h
  obtain ⟨⟨after, cs₃⟩, hafter, h⟩ := Option.bind_eq_some_iff.1 h
  have hhere := (hbefore.trans (ih.value hvalue)).trans (takes_trivia hafter).plain
  simp only at h
  split at h
  next cs₄ =>
    obtain ⟨⟨ds, more, rest⟩, hmore, heq⟩ := Option.bind_eq_some_iff.1 h
    cases heq
    exact hhere.trans ((ih.elements hmore).cons ',')
  next cs₄ =>
    cases h
    exact hhere.trans (takes_append [']'] _)
  · cases h

theorem Lossless.fields_succ {fuel : Nat} (ih : Lossless fuel) {depth : Nat} {es es' : Entries}
    {cs w rest : List Char}
    (h : Reader.fields depth (fuel + 1) es cs = some (es', w, rest)) : Takes cs rest w := by
  unfold Reader.fields at h
  obtain ⟨⟨before, cs₁⟩, hbefore, h⟩ := Option.bind_eq_some_iff.1 h
  have hbefore := (takes_trivia hbefore).plain
  simp only at h
  split at h
  next =>
    cases h
    exact hbefore.trans (takes_append ['}'] _)
  obtain ⟨⟨path, afterKey⟩, hkey, h⟩ := Option.bind_eq_some_iff.1 h
  have hpath : Takes cs₁ afterKey (taken cs₁ afterKey) := by
    obtain ⟨ks, -, -, hcs⟩ := text_of_keyPath hkey
    rw [hcs, taken_append]
    exact takes_append _ _
  simp only at h
  split at h
  next cs₂ =>
    rcases hgap : gap cs₂ with ⟨blank, cs₃⟩
    rw [hgap] at h
    obtain ⟨⟨d, v, cs₄⟩, hvalue, h⟩ := Option.bind_eq_some_iff.1 h
    obtain ⟨es₁, -, h⟩ := Option.bind_eq_some_iff.1 h
    obtain ⟨⟨after, cs₅⟩, hafter, h⟩ := Option.bind_eq_some_iff.1 h
    have hhere := ((hbefore.trans hpath).trans
      (((takes_gap hgap).trans (ih.value hvalue)).cons '=')).trans (takes_trivia hafter).plain
    simp only at h
    split at h
    next cs₆ =>
      obtain ⟨⟨es₂, more, rest⟩, hmore, heq⟩ := Option.bind_eq_some_iff.1 h
      cases heq
      exact hhere.trans ((ih.fields hmore).cons ',')
    next cs₆ =>
      cases h
      exact hhere.trans (takes_append ['}'] _)
    · cases h
  · cases h

theorem lossless (fuel : Nat) : Lossless fuel := by
  induction fuel with
  | zero => exact ⟨nofun, nofun, nofun⟩
  | succ fuel ih => exact ⟨ih.value_succ, ih.elements_succ, ih.fields_succ⟩

/-! ## Statements -/

end Reader

open Reader

/-- The line of a statement, as it is printed. -/
def Statement.text : Statement → List Char
  | .header inArray path decor => (headerText inArray decor path).toList
  | .pair path v => (printPair path v).toList

/-- A statement was read up to the rest of the text: with its line end, or as the end of the text. -/
def TakesLine (cs rest line : List Char) : Prop :=
  Takes cs rest line ∨ rest = [] ∧ Takes (cs ++ ['\n']) [] line

theorem Reader.Takes.lineEnd {cs cs' rest w line line' : List Char} (h : Takes cs cs' w)
    (h' : TakesLine cs' rest line) (hline : plainEnds (w ++ line) = plainEnds line') :
    TakesLine cs rest line' := by
  refine h'.imp (fun h' => (h.trans h').congr hline) fun h' => ⟨h'.1, ?_⟩
  obtain ⟨raw, rfl, hraw⟩ := h
  have hstart : Takes (raw ++ cs' ++ ['\n']) (cs' ++ ['\n']) w := ⟨raw, by simp, hraw⟩
  exact (hstart.trans h'.2).congr hline

theorem takesLine_lineEnd {cs w rest : List Char} (h : lineEnd false cs = some (w, rest)) :
    TakesLine cs rest (w ++ ['\n']) := by
  refine (takes_lineEnd h).imp id fun hend => ⟨hend.1, ?_⟩
  obtain ⟨raw, rfl, hraw⟩ := hend.2
  refine ⟨raw ++ ['\n'], by simp, ?_⟩
  rw [plainEnds_append, plainEnds_append, hraw]

theorem toList_headerLine (inArray : Bool) (decor : Decor) (path : List Key) :
    (headerText inArray decor path).toList = plainEnds decor.before.toList ++
      (opening inArray ++ ((printPath ⟨"", ""⟩ path).toList ++ (closing inArray ++
        (plainEnds decor.after.toList ++ ['\n'])))) := by
  unfold headerText
  cases inArray <;> simp [opening, closing, String.toList_append, toList_dropReturns]

theorem toList_pairLine (path : List Key) (v : Value) :
    (printPair path v).toList = (printPath ⟨"", " "⟩ path).toList ++ ('=' ::
      (plainEnds v.decor.before.toList ++ (v.written.toList ++
        (plainEnds v.decor.after.toList ++ ['\n'])))) := by
  unfold printPair
  simp [String.toList_append, toList_dropReturns]

theorem text_of_headerEnd {inArray : Bool} {cs rest : List Char}
    (h : headerEnd inArray cs = some rest) : cs = closing inArray ++ rest := by
  unfold headerEnd at h
  split at h
  · split at h
    next harray =>
      rw [harray]
      split at h
      · cases h
        rfl
      · cases h
    next harray =>
      cases h
      rw [Bool.eq_false_iff.2 harray]
      rfl
  · cases h

theorem takesLine_header {inArray : Bool} {lead cs rest : List Char} {s : Statement}
    (h : header inArray lead cs = some (s, rest)) :
    TakesLine (lead ++ (opening inArray ++ cs)) rest s.text := by
  obtain ⟨⟨path, cs₁⟩, hpath, h⟩ := Option.bind_eq_some_iff.1 h
  obtain ⟨cs₂, hclosing, h⟩ := Option.bind_eq_some_iff.1 h
  obtain ⟨⟨after, cs₃⟩, hend, heq⟩ := Option.bind_eq_some_iff.1 h
  cases heq
  obtain ⟨ks, hne, rfl, hcs⟩ := text_of_keyPath hpath
  rw [hcs, text_of_headerEnd hclosing]
  have hbegin : Takes (lead ++ (opening inArray ++ (pathText ks ++ (closing inArray ++ cs₂)))) cs₂
      (lead ++ (opening inArray ++ (pathText ks ++ closing inArray))) :=
    ⟨lead ++ (opening inArray ++ (pathText ks ++ closing inArray)), by simp, rfl⟩
  refine hbegin.lineEnd (takesLine_lineEnd hend) ?_
  rw [Statement.text, toList_headerLine]
  have hframed := printPath_framed [] hne ⟨"", ""⟩
  simp only [plainEnds_append, plainEnds_plainEnds, String.toList_ofList, hframed,
    List.nil_append, List.append_assoc]

theorem takesLine_pair {lead cs rest : List Char} {s : Statement}
    (h : pair lead cs = some (s, rest)) : TakesLine (lead ++ cs) rest s.text := by
  obtain ⟨⟨path, cs₁⟩, hpath, h⟩ := Option.bind_eq_some_iff.1 h
  obtain ⟨ks, hne, rfl, hcs⟩ := text_of_keyPath hpath
  simp only at h
  split at h
  next cs₂ =>
    rcases hgap : gap cs₂ with ⟨before, cs₃⟩
    rw [hgap] at h
    obtain ⟨⟨d, w, cs₄⟩, hvalue, h⟩ := Option.bind_eq_some_iff.1 h
    obtain ⟨⟨after, cs₅⟩, hend, heq⟩ := Option.bind_eq_some_iff.1 h
    cases heq
    have hbegin : Takes (lead ++ (pathText ks ++ '=' :: cs₂)) ('=' :: cs₂) (lead ++ pathText ks) :=
      ⟨lead ++ pathText ks, by simp, rfl⟩
    have hvalue := ((takes_gap hgap).trans ((lossless _).value hvalue)).cons '='
    rw [hcs]
    refine (hbegin.trans hvalue).lineEnd (takesLine_lineEnd hend) ?_
    rw [Statement.text, toList_pairLine]
    have hframed := printPath_framed lead hne ⟨"", " "⟩
    have hequals (ds : List Char) : plainEnds ('=' :: ds) = '=' :: plainEnds ds :=
      plainEnds_cons (by decide) ds
    simp only [plainEnds_append, plainEnds_plainEnds, String.toList_ofList, hframed, hequals,
      List.append_assoc, List.cons_append]
  · cases h

/-- **The statements of a text are the text**, up to carriage returns and its last line end. -/
theorem text_of_statements {fuel : Nat} {cs trailing : List Char} {ss : List Statement}
    (h : statements fuel cs = some (ss, trailing)) :
    ∃ ending, (ending = [] ∨ ending = ['\n']) ∧
      plainEnds (cs ++ ending) = plainEnds (ss.flatMap Statement.text ++ trailing) := by
  induction fuel generalizing cs ss with
  | zero => cases h
  | succ fuel ih =>
    unfold statements at h
    obtain ⟨⟨lead, cs₁⟩, htrivia, h⟩ := Option.bind_eq_some_iff.1 h
    obtain ⟨hcs, -⟩ := trivia_eq_some htrivia
    simp only at h
    have hmore {r : Option (Statement × List Char)}
        (hr : ∀ s rest, r = some (s, rest) → TakesLine (lead ++ cs₁) rest s.text)
        (h : (r.bind fun x => (statements fuel x.2).bind fun t =>
          some (x.1 :: t.1, t.2)) = some (ss, trailing)) :
        ∃ ending, (ending = [] ∨ ending = ['\n']) ∧ plainEnds (lead ++ cs₁ ++ ending) =
          plainEnds (ss.flatMap Statement.text ++ trailing) := by
      obtain ⟨⟨s, cs₂⟩, hs, h⟩ := Option.bind_eq_some_iff.1 h
      obtain ⟨⟨ss', t⟩, hss, heq⟩ := Option.bind_eq_some_iff.1 h
      cases heq
      rw [List.flatMap_cons, List.append_assoc, plainEnds_append s.text]
      obtain ⟨raw, hraw, htext⟩ | ⟨rfl, raw, hraw, htext⟩ := hr s cs₂ hs
      · obtain ⟨ending, hending, hrest⟩ := ih hss
        refine ⟨ending, hending, ?_⟩
        rw [hraw, List.append_assoc, plainEnds_append, htext, hrest]
      · -- the statement is the last one of the text
        have hlast : ss' = [] ∧ t = [] := by
          cases fuel with
          | zero => cases hss
          | succ fuel =>
            cases hss
            exact ⟨rfl, rfl⟩
        obtain ⟨rfl, rfl⟩ := hlast
        refine ⟨['\n'], .inr rfl, ?_⟩
        rw [hraw, List.append_nil, htext]
        exact (List.append_nil _).symm
    rw [hcs]
    split at h
    next =>
      cases h
      exact ⟨[], .inl rfl, by simp⟩
    next hne =>
      split at h
      · exact hmore (fun _ _ hs => takesLine_header hs) h
      · exact hmore (fun _ _ hs => takesLine_header hs) h
      · exact hmore (fun _ _ hs => takesLine_pair hs) h

end ExportDesk.Toml
