import ExportDesk.Proofs.Toml.Keys

/-!
# Values are read from their spelling

The spelling that a document keeps of a value is the text it was read from, less the carriage
returns between the elements of lists and tables. `value_taken` says that it is read as the same
value, before anything that does not go on with it.
-/

namespace ExportDesk.Toml.Reader

open Scalar (EndsScalar EndsMoment isScalarChar)
open Quoted (EndsString)

/-! ## What may follow a value -/

/-- May the character stand behind a value? -/
def isSeparator (c : Char) : Bool :=
  isGap c || c == '#' || c == '\n' || c == ',' || c == ']' || c == '}'

/-- The text does not go on with a value before it. -/
structure EndsValue (rest : List Char) : Prop where
  head : ∀ c ∈ rest.head?, isSeparator c = true
  second : ∀ c more, rest = ' ' :: c :: more → isSeparator c = true

theorem isSeparator_iff {c : Char} : isSeparator c = true ↔
    c = ' ' ∨ c = '\t' ∨ c = '#' ∨ c = '\n' ∨ c = ',' ∨ c = ']' ∨ c = '}' := by
  unfold isSeparator isGap
  simp only [Bool.or_eq_true, beq_iff_eq, or_assoc]

theorem EndsValue.endsMoment {rest : List Char} (h : EndsValue rest) : EndsMoment rest := by
  constructor
  · intro c hc
    obtain rfl | rfl | rfl | rfl | rfl | rfl | rfl := isSeparator_iff.1 (h.head c hc) <;> decide
  · intro c more heq
    obtain rfl | rfl | rfl | rfl | rfl | rfl | rfl :=
      isSeparator_iff.1 (h.second c more heq) <;> decide

theorem EndsValue.endsString {rest : List Char} (h : EndsValue rest) : EndsString rest :=
  ⟨fun hq => absurd (h.head _ hq) (by decide), fun ha => absurd (h.head _ ha) (by decide)⟩

theorem endsValue_cons {c : Char} {rest : List Char} (hc : isSeparator c = true)
    (hrest : c = ' ' → ∀ d ∈ rest.head?, isSeparator d = true) : EndsValue (c :: rest) := by
  constructor
  · rintro _ ⟨rfl⟩
    exact hc
  · rintro d more ⟨rfl, rfl⟩
    exact hrest rfl d rfl

theorem isSeparator_of_isGap {c : Char} (h : isGap c = true) : isSeparator c = true := by
  obtain rfl | rfl := isGap_iff.1 h <;> decide

/-- What is made of blanks up to a separator ends a value. -/
theorem endsValue_append {p : List Char → Bool} {t : List Char} {stop : Char} {rest : List Char}
    (hp : ∀ c cs, p (c :: cs) = true →
      isSeparator c = true ∧ (c = ' ' → p cs = true))
    (ht : p t = true) (hstop : isSeparator stop = true) (hblank : stop ≠ ' ') :
    EndsValue (t ++ stop :: rest) := by
  have hhead {t : List Char} (ht : p t = true) :
      ∀ c ∈ (t ++ stop :: rest).head?, isSeparator c = true := by
    cases t with
    | nil =>
      rintro _ ⟨rfl⟩
      exact hstop
    | cons c t =>
      rintro _ ⟨rfl⟩
      exact (hp _ _ ht).1
  cases t with
  | nil => exact endsValue_cons hstop fun heq => absurd heq hblank
  | cons c t => exact endsValue_cons (hp c t ht).1 fun heq => hhead ((hp c t ht).2 heq)

theorem endsValue_of_isRemark {after : List Char} (h : isRemark false after = true)
    (rest : List Char) : EndsValue (after ++ '\n' :: rest) := by
  refine endsValue_append (fun c cs hc => ?_) h (by decide) (by decide)
  rw [isRemark, if_neg Bool.false_ne_true] at hc
  split at hc
  next hgap => exact ⟨isSeparator_of_isGap hgap, fun _ => hc⟩
  next hgap =>
    rw [Bool.and_eq_true, beq_iff_eq] at hc
    obtain ⟨rfl, -⟩ := hc
    exact ⟨by decide, fun heq => absurd heq (by decide)⟩

theorem endsValue_of_isBlankLines {t : List Char} (h : isBlankLines false t = true) {stop : Char}
    (hstop : stop = ',' ∨ stop = ']' ∨ stop = '}') (rest : List Char) :
    EndsValue (t ++ stop :: rest) := by
  have hsep : isSeparator stop = true ∧ stop ≠ ' ' := by
    obtain rfl | rfl | rfl := hstop <;> decide
  refine endsValue_append (fun c cs hc => ?_) h hsep.1 hsep.2
  rw [isBlankLines] at hc
  split at hc
  next hn =>
    obtain rfl := beq_iff_eq.1 hn
    exact ⟨by decide, fun heq => absurd heq (by decide)⟩
  rw [if_neg Bool.false_ne_true] at hc
  split at hc
  next hgap => exact ⟨isSeparator_of_isGap hgap, fun _ => hc⟩
  next hgap =>
    rw [Bool.and_eq_true, beq_iff_eq] at hc
    obtain ⟨rfl, -⟩ := hc
    exact ⟨by decide, fun heq => absurd heq (by decide)⟩

/-! ## What a value begins with -/

/-- May the character begin a value? -/
def startsValue (c : Char) : Bool :=
  isScalarChar c || c == '"' || c == '\'' || c == '[' || c == '{'

theorem startsValue_stop {c : Char} (h : startsValue c = true) :
    c ≠ '\n' ∧ c ≠ '\r' ∧ isGap c = false ∧ c ≠ '#' ∧ c ≠ ']' ∧ c ≠ '}' := by
  refine ⟨?_, ?_, not_isGap_of_class h (by decide) (by decide), ?_, ?_, ?_⟩
  all_goals
    rintro rfl
    exact absurd h (by decide)

theorem trivia_startsValue {c : Char} (h : startsValue c = true) (cs : List Char) :
    trivia false (c :: cs) = some ([], c :: cs) := by
  obtain ⟨hn, hr, hgap, hhash, -, -⟩ := startsValue_stop h
  exact trivia_stop hn hr hgap hhash cs

/-- A text that is read as a value, before whatever may follow a value. -/
structure Spells (depth : Nat) (w : List Char) (d : Datum) : Prop where
  start : ∃ c w', w = c :: w' ∧ startsValue c = true
  reads : ∀ rest fuel, EndsValue rest → 2 * w.length < fuel →
    value depth fuel (w ++ rest) = some (d, w, rest)

theorem value_nil (depth fuel : Nat) : value depth fuel [] = none := by
  cases fuel with
  | zero => rfl
  | succ fuel => rfl

theorem spells_string {cs s rest : List Char} (h : Quoted.read cs = some (s, rest))
    (depth : Nat) : Spells depth (taken cs rest) (.text (String.ofList s)) := by
  obtain ⟨c, w, rfl, hc, hw⟩ := Quoted.read_taken h
  rw [taken_append]
  refine ⟨⟨c, w, rfl, by obtain rfl | rfl := hc <;> decide⟩, fun rest' fuel hrest hfuel => ?_⟩
  obtain ⟨fuel, rfl⟩ : ∃ n, fuel = n + 1 := ⟨fuel - 1, by omega⟩
  have hread := hw rest' hrest.endsString
  have htaken := taken_append (c :: w) rest'
  obtain rfl | rfl := hc
  all_goals
    simp only [List.cons_append] at hread htaken ⊢
    unfold value
    simp [hread, htaken]

theorem spells_scalar {cs rest : List Char} {d : Datum} (h : Scalar.read cs = some (d, rest))
    (depth : Nat) : Spells depth (taken cs rest) d := by
  obtain ⟨c, w, rfl, hc, hw⟩ := Scalar.read_taken h
  rw [taken_append]
  refine ⟨⟨c, w, rfl, by simp [startsValue, hc]⟩, fun rest' fuel hrest hfuel => ?_⟩
  obtain ⟨fuel, rfl⟩ : ∃ n, fuel = n + 1 := ⟨fuel - 1, by omega⟩
  have hread := hw rest' hrest.endsMoment
  have htaken := taken_append (c :: w) rest'
  rw [List.cons_append] at hread htaken ⊢
  have hne {e : Char} (he : isScalarChar e = false) : c ≠ e := by
    rintro rfl
    rw [he] at hc
    cases hc
  unfold value
  split
  next heq => exact absurd (List.cons.inj heq).1 (hne (by decide))
  next heq => exact absurd (List.cons.inj heq).1 (hne (by decide))
  next heq => exact absurd (List.cons.inj heq).1 (hne (by decide))
  next heq => exact absurd (List.cons.inj heq).1 (hne (by decide))
  · rw [hread]
    simp [htaken]

/-! ## Lists -/

section

variable {depth fuel : Nat} {before after w : List Char} {d : Datum}

theorem Spells.reads_before (hw : Spells depth w d) (hfuel : 2 * w.length < fuel)
    (hafter : isBlankLines false after = true) {stop : Char}
    (hstop : stop = ',' ∨ stop = ']' ∨ stop = '}') (rest : List Char) :
    value depth fuel (w ++ (after ++ stop :: rest)) = some (d, w, after ++ stop :: rest) ∧
      trivia false (after ++ stop :: rest) = some (after, stop :: rest) := by
  refine ⟨hw.reads _ _ (endsValue_of_isBlankLines hafter hstop rest) hfuel,
    trivia_of_isBlankLines hafter ?_⟩
  obtain rfl | rfl | rfl := hstop <;>
    exact trivia_stop (by decide) (by decide) (by decide) (by decide) rest

theorem elements_end (hbefore : isBlankLines false before = true) (rest : List Char) :
    elements depth (fuel + 1) (before ++ ']' :: rest) = some ([], before ++ [']'], rest) := by
  have htrivia : trivia false (before ++ ']' :: rest) = some (before, ']' :: rest) :=
    trivia_of_isBlankLines hbefore
      (trivia_stop (by decide) (by decide) (by decide) (by decide) rest)
  unfold elements
  rw [htrivia]
  simp [plainEnds_of_not_mem (no_return_of_isBlankLines hbefore)]

/-- Before a value the readers pass over blank lines. -/
theorem Spells.trivia_before (hw : Spells depth w d) (hbefore : isBlankLines false before = true)
    (rest : List Char) : trivia false (before ++ (w ++ rest)) = some (before, w ++ rest) := by
  obtain ⟨c, w', rfl, hc⟩ := hw.start
  exact trivia_of_isBlankLines hbefore (trivia_startsValue hc _)

theorem elements_last (hbefore : isBlankLines false before = true) (hw : Spells depth w d)
    (hfuel : 2 * w.length < fuel) (hafter : isBlankLines false after = true) (rest : List Char) :
    elements depth (fuel + 1) (before ++ (w ++ (after ++ ']' :: rest))) =
      some ([d], before ++ (w ++ (after ++ [']'])), rest) := by
  have htrivia := hw.trivia_before hbefore (after ++ ']' :: rest)
  obtain ⟨hvalue, hend⟩ := hw.reads_before hfuel hafter (.inr (.inl rfl)) rest
  obtain ⟨c, w', rfl, hc⟩ := hw.start
  obtain ⟨-, -, -, -, hne, -⟩ := startsValue_stop hc
  rw [List.cons_append] at htrivia hvalue ⊢
  unfold elements
  rw [htrivia]
  simp [hne, hvalue, hend, plainEnds_of_not_mem (no_return_of_isBlankLines hbefore),
    plainEnds_of_not_mem (no_return_of_isBlankLines hafter)]

theorem elements_more {ds : List Datum} {more more' rest : List Char}
    (hbefore : isBlankLines false before = true) (hw : Spells depth w d)
    (hfuel : 2 * w.length < fuel) (hafter : isBlankLines false after = true)
    (hmore : elements depth fuel more' = some (ds, more, rest)) :
    elements depth (fuel + 1) (before ++ (w ++ (after ++ ',' :: more'))) =
      some (d :: ds, before ++ (w ++ (after ++ ',' :: more)), rest) := by
  have htrivia := hw.trivia_before hbefore (after ++ ',' :: more')
  obtain ⟨hvalue, hend⟩ := hw.reads_before hfuel hafter (.inl rfl) more'
  obtain ⟨c, w', rfl, hc⟩ := hw.start
  obtain ⟨-, -, -, -, hne, -⟩ := startsValue_stop hc
  rw [List.cons_append] at htrivia hvalue ⊢
  unfold elements
  rw [htrivia]
  simp [hne, hvalue, hend, hmore, plainEnds_of_not_mem (no_return_of_isBlankLines hbefore),
    plainEnds_of_not_mem (no_return_of_isBlankLines hafter)]

/-! ## Inline tables -/

/-- A text that is read as a key path before an equals sign. -/
structure SpellsPath (w : List Char) (path : List Key) : Prop where
  start : ∃ c w', w = c :: w' ∧ startsKey c = true
  reads : ∀ rest, keyPath [] (w ++ '=' :: rest) = some (path, '=' :: rest)

theorem trivia_startsKey {c : Char} (h : startsKey c = true) (cs : List Char) :
    trivia false (c :: cs) = some ([], c :: cs) := by
  refine trivia_stop ?_ ?_ (not_isGap_of_startsKey h) ?_ cs
  all_goals
    rintro rfl
    exact absurd h (by decide)

theorem spellsPath_of_keyPath {cs rest : List Char} {path : List Key}
    (htrivia : trivia false cs = some ([], cs)) (h : keyPath [] cs = some (path, '=' :: rest)) :
    SpellsPath (taken cs ('=' :: rest)) path := by
  obtain ⟨⟨ks, rest'⟩, hkeys, heq⟩ := Option.map_eq_some_iff.1 h
  cases heq
  obtain ⟨-, -, w, rfl, ⟨c, w', rfl, hc⟩, hw⟩ := dottedKeys_taken hkeys
  rw [taken_append]
  refine ⟨⟨c, w', rfl, hc.resolve_left fun hgap => ?_⟩, fun rest' => ?_⟩
  · rw [List.cons_append, trivia_gap hgap] at htrivia
    obtain ⟨t, -, heq⟩ := push_eq_some htrivia
    cases heq
  · unfold keyPath
    have hfuel : (c :: w').length < ((c :: w') ++ '=' :: rest').length + 1 := by
      rw [List.length_append]
      omega
    rw [hw '=' rest' _ (by decide) (by decide) (by decide) hfuel]
    rfl

variable {path : List Key} {blank pw : List Char} {es es' : Entries}

theorem fields_end (hbefore : isBlankLines false before = true) (rest : List Char) :
    fields depth (fuel + 1) es (before ++ '}' :: rest) = some (es, before ++ ['}'], rest) := by
  have htrivia : trivia false (before ++ '}' :: rest) = some (before, '}' :: rest) :=
    trivia_of_isBlankLines hbefore
      (trivia_stop (by decide) (by decide) (by decide) (by decide) rest)
  unfold fields
  rw [htrivia]
  simp [plainEnds_of_not_mem (no_return_of_isBlankLines hbefore)]

/-- Blanks before a value are passed over. -/
theorem Spells.gap_before (hw : Spells depth w d) (hblank : ∀ c ∈ blank, isGap c = true)
    (rest : List Char) : gap (blank ++ (w ++ rest)) = (blank, w ++ rest) := by
  obtain ⟨c, w', rfl, hc⟩ := hw.start
  refine gap_append hblank ?_
  rintro _ ⟨rfl⟩
  exact (startsValue_stop hc).2.2.1

theorem fields_pair (hbefore : isBlankLines false before = true) (hpath : SpellsPath pw path)
    (hblank : ∀ c ∈ blank, isGap c = true) (hw : Spells depth w d) (hfuel : 2 * w.length < fuel)
    (hset : es.setPair path { datum := d, written := String.ofList w } = some es')
    (hafter : isBlankLines false after = true) {stop : Char}
    (hstop : stop = ',' ∨ stop = ']' ∨ stop = '}') (rest : List Char) :
    fields depth (fuel + 1) es
        (before ++ (pw ++ '=' :: (blank ++ (w ++ (after ++ stop :: rest))))) =
      let here := before ++ pw ++ '=' :: (blank ++ w) ++ after
      match stop :: rest with
      | ',' :: rest =>
        (fields depth fuel es' rest).map fun r => (r.1, here ++ ',' :: r.2.1, r.2.2)
      | '}' :: rest => some (es', here ++ ['}'], rest)
      | _ => none := by
  obtain ⟨c, pw', rfl, hc⟩ := hpath.start
  have hne : c ≠ '}' := by
    rintro rfl
    exact absurd hc (by decide)
  have hread := hpath.reads (blank ++ (w ++ (after ++ stop :: rest)))
  have htaken := taken_append (c :: pw') ('=' :: (blank ++ (w ++ (after ++ stop :: rest))))
  have htrivia : trivia false
      (before ++ (c :: pw' ++ '=' :: (blank ++ (w ++ (after ++ stop :: rest))))) =
        some (before, c :: pw' ++ '=' :: (blank ++ (w ++ (after ++ stop :: rest)))) :=
    trivia_of_isBlankLines hbefore (trivia_startsKey hc _)
  obtain ⟨hvalue, hend⟩ := hw.reads_before hfuel hafter hstop rest
  rw [List.cons_append] at hread htaken htrivia ⊢
  conv_lhs => unfold fields
  rw [htrivia]
  simp only [Option.bind_eq_bind, Option.bind_some, hread, htaken]
  rw [hw.gap_before hblank]
  simp only
  rw [hvalue]
  simp only [Option.bind_some]
  rw [hset]
  simp only [Option.bind_some]
  rw [hend]
  simp only [Option.bind_some, plainEnds_of_not_mem (no_return_of_isBlankLines hbefore),
    plainEnds_of_not_mem (no_return_of_isBlankLines hafter)]
  obtain rfl | rfl | rfl := hstop
  · simp [hne, Option.map_eq_bind]
  · simp [hne]
  · simp [hne]

end

/-! ## All values -/

theorem blank_of_trivia {cs t rest : List Char} (h : trivia false cs = some (t, rest))
    (hrest : rest ≠ []) : isBlankLines false (plainEnds t) = true :=
  (trivia_eq_some h).2.2 hrest

/-- What `value` gives is a spelling, and what `elements` and `fields` give is read as the same
elements and fields. -/
structure Rereads (fuel : Nat) : Prop where
  value : ∀ {depth : Nat} {cs w rest : List Char} {d : Datum},
    Reader.value depth fuel cs = some (d, w, rest) → Spells depth w d
  elements : ∀ {depth : Nat} {cs w rest : List Char} {ds : List Datum},
    Reader.elements depth fuel cs = some (ds, w, rest) → 0 < w.length ∧
      ∀ rest' fuel', 2 * w.length ≤ fuel' →
        Reader.elements depth fuel' (w ++ rest') = some (ds, w, rest')
  fields : ∀ {depth : Nat} {es es' : Entries} {cs w rest : List Char},
    Reader.fields depth fuel es cs = some (es', w, rest) → 0 < w.length ∧
      ∀ rest' fuel', 2 * w.length ≤ fuel' →
        Reader.fields depth fuel' es (w ++ rest') = some (es', w, rest')

theorem Rereads.value_succ {fuel : Nat} (ih : Rereads fuel) {depth : Nat}
    {cs w rest : List Char} {d : Datum}
    (h : Reader.value depth (fuel + 1) cs = some (d, w, rest)) : Spells depth w d := by
  unfold Reader.value at h
  split at h
  next cs =>
    split at h
    · cases h
    next hdepth =>
      obtain ⟨⟨ds, w, rest⟩, helements, heq⟩ := Option.bind_eq_some_iff.1 h
      cases heq
      obtain ⟨-, hw⟩ := ih.elements helements
      refine ⟨⟨'[', w, rfl, by decide⟩, fun rest' fuel' _ hfuel => ?_⟩
      rw [List.length_cons] at hfuel
      obtain ⟨fuel', rfl⟩ : ∃ n, fuel' = n + 1 := ⟨fuel' - 1, by omega⟩
      rw [List.cons_append, Reader.value, if_neg hdepth, hw rest' fuel' (by omega)]
      rfl
  next cs =>
    split at h
    · cases h
    next hdepth =>
      obtain ⟨⟨es, w, rest⟩, hfields, heq⟩ := Option.bind_eq_some_iff.1 h
      cases heq
      obtain ⟨-, hw⟩ := ih.fields hfields
      refine ⟨⟨'{', w, rfl, by decide⟩, fun rest' fuel' _ hfuel => ?_⟩
      rw [List.length_cons] at hfuel
      obtain ⟨fuel', rfl⟩ : ∃ n, fuel' = n + 1 := ⟨fuel' - 1, by omega⟩
      rw [List.cons_append, Reader.value, if_neg hdepth, hw rest' fuel' (by omega)]
      rfl
  · obtain ⟨⟨s, rest⟩, hread, heq⟩ := Option.bind_eq_some_iff.1 h
    cases heq
    exact spells_string hread depth
  · obtain ⟨⟨s, rest⟩, hread, heq⟩ := Option.bind_eq_some_iff.1 h
    cases heq
    exact spells_string hread depth
  · obtain ⟨⟨d, rest⟩, hread, heq⟩ := Option.bind_eq_some_iff.1 h
    cases heq
    exact spells_scalar hread depth

theorem Rereads.elements_succ {fuel : Nat} (ih : Rereads fuel) {depth : Nat}
    {cs w rest : List Char} {ds : List Datum}
    (h : Reader.elements depth (fuel + 1) cs = some (ds, w, rest)) : 0 < w.length ∧
      ∀ rest' fuel', 2 * w.length ≤ fuel' →
        Reader.elements depth fuel' (w ++ rest') = some (ds, w, rest') := by
  unfold Reader.elements at h
  obtain ⟨⟨before, cs₁⟩, hbefore, h⟩ := Option.bind_eq_some_iff.1 h
  simp only at h
  split at h
  next =>
    cases h
    have hblank := blank_of_trivia hbefore (List.cons_ne_nil _ _)
    refine ⟨by simp, fun rest' fuel' hfuel => ?_⟩
    obtain ⟨fuel', rfl⟩ : ∃ n, fuel' = n + 1 := ⟨fuel' - 1, by simp at hfuel; omega⟩
    rw [List.append_assoc]
    exact elements_end hblank rest'
  obtain ⟨⟨d, v, cs₂⟩, hvalue, h⟩ := Option.bind_eq_some_iff.1 h
  have hblank : isBlankLines false (plainEnds before) = true := by
    refine blank_of_trivia hbefore ?_
    rintro rfl
    rw [value_nil] at hvalue
    cases hvalue
  have hv := ih.value hvalue
  obtain ⟨⟨after, cs₃⟩, hafter, h⟩ := Option.bind_eq_some_iff.1 h
  simp only at h
  split at h
  next cs₄ =>
    have hblank' := blank_of_trivia hafter (List.cons_ne_nil _ _)
    obtain ⟨⟨ds, more, rest⟩, hmore, heq⟩ := Option.bind_eq_some_iff.1 h
    cases heq
    obtain ⟨-, hmore⟩ := ih.elements hmore
    refine ⟨by simp, fun rest' fuel' hfuel => ?_⟩
    simp only [List.length_append, List.length_cons] at hfuel
    obtain ⟨fuel', rfl⟩ : ∃ n, fuel' = n + 1 := ⟨fuel' - 1, by omega⟩
    have hread := elements_more hblank hv (by omega) hblank'
      (hmore rest' fuel' (by omega))
    simpa using hread
  next cs₄ =>
    have hblank' := blank_of_trivia hafter (List.cons_ne_nil _ _)
    cases h
    refine ⟨by simp, fun rest' fuel' hfuel => ?_⟩
    simp only [List.length_append, List.length_cons] at hfuel
    obtain ⟨fuel', rfl⟩ : ∃ n, fuel' = n + 1 := ⟨fuel' - 1, by omega⟩
    have hfuel : 2 * v.length < fuel' := by omega
    have hread := elements_last hblank hv hfuel hblank' rest'
    simpa using hread
  · cases h

theorem Rereads.fields_succ {fuel : Nat} (ih : Rereads fuel) {depth : Nat} {es es' : Entries}
    {cs w rest : List Char}
    (h : Reader.fields depth (fuel + 1) es cs = some (es', w, rest)) : 0 < w.length ∧
      ∀ rest' fuel', 2 * w.length ≤ fuel' →
        Reader.fields depth fuel' es (w ++ rest') = some (es', w, rest') := by
  unfold Reader.fields at h
  obtain ⟨⟨before, cs₁⟩, hbefore, h⟩ := Option.bind_eq_some_iff.1 h
  simp only at h
  split at h
  next =>
    cases h
    have hblank := blank_of_trivia hbefore (List.cons_ne_nil _ _)
    refine ⟨by simp, fun rest' fuel' hfuel => ?_⟩
    obtain ⟨fuel', rfl⟩ : ∃ n, fuel' = n + 1 := ⟨fuel' - 1, by simp at hfuel; omega⟩
    rw [List.append_assoc]
    exact fields_end hblank rest'
  obtain ⟨⟨path, afterKey⟩, hkey, h⟩ := Option.bind_eq_some_iff.1 h
  simp only at h
  split at h
  next cs₂ =>
    obtain ⟨-, hstop, hlines⟩ := trivia_eq_some hbefore
    have hpath := spellsPath_of_keyPath hstop hkey
    have hblank := hlines (by rintro rfl; cases hkey)
    rcases hgap : gap cs₂ with ⟨blank, cs₃⟩
    obtain ⟨-, hgaps, -⟩ := gap_eq hgap
    rw [hgap] at h
    obtain ⟨⟨d, v, cs₄⟩, hvalue, h⟩ := Option.bind_eq_some_iff.1 h
    have hv := ih.value hvalue
    obtain ⟨es₁, hset, h⟩ := Option.bind_eq_some_iff.1 h
    obtain ⟨⟨after, cs₅⟩, hafter, h⟩ := Option.bind_eq_some_iff.1 h
    simp only at h
    split at h
    next cs₆ =>
      have hblank' := blank_of_trivia hafter (List.cons_ne_nil _ _)
      obtain ⟨⟨es₂, more, rest⟩, hmore, heq⟩ := Option.bind_eq_some_iff.1 h
      cases heq
      obtain ⟨-, hmore⟩ := ih.fields hmore
      refine ⟨by simp, fun rest' fuel' hfuel => ?_⟩
      simp only [List.length_append, List.length_cons] at hfuel
      obtain ⟨fuel', rfl⟩ : ∃ n, fuel' = n + 1 := ⟨fuel' - 1, by omega⟩
      have hlength : 2 * v.length < fuel' := by omega
      have hread := fields_pair hblank hpath hgaps hv hlength hset hblank' (.inl rfl)
        (more ++ rest')
      simp only [hmore rest' fuel' (by omega)] at hread
      simpa using hread
    next cs₆ =>
      have hblank' := blank_of_trivia hafter (List.cons_ne_nil _ _)
      cases h
      refine ⟨by simp, fun rest' fuel' hfuel => ?_⟩
      simp only [List.length_append, List.length_cons] at hfuel
      obtain ⟨fuel', rfl⟩ : ∃ n, fuel' = n + 1 := ⟨fuel' - 1, by omega⟩
      have hlength : 2 * v.length < fuel' := by omega
      have hread := fields_pair hblank hpath hgaps hv hlength hset hblank' (.inr (.inr rfl))
        rest'
      simpa using hread
    · cases h
  · cases h

theorem rereads (fuel : Nat) : Rereads fuel := by
  induction fuel with
  | zero => exact ⟨nofun, nofun, nofun⟩
  | succ fuel ih => exact ⟨ih.value_succ, ih.elements_succ, ih.fields_succ⟩

/-- **A value is read again from its spelling.** -/
theorem value_taken {depth fuel : Nat} {cs w rest : List Char} {d : Datum}
    (h : value depth fuel cs = some (d, w, rest)) : Spells depth w d :=
  (rereads fuel).value h

end ExportDesk.Toml.Reader
