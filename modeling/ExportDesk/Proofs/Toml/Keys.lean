import ExportDesk.Proofs.Toml.Spans
import ExportDesk.Proofs.Toml.Statements

/-!
# Keys are read back

`keyText` is how a path of keys was written, `IsKey` what holds of every key that was read.
`dottedKeys_taken` says that a path is read from its text, and `dottedKeys_keyText` that this text
is always read so.
-/

namespace ExportDesk.Toml.Reader

open Scalar (takeWhile_append_of_all dropWhile_append_of_all)

/-- May the character begin a key? -/
def startsKey (c : Char) : Bool := isKeyChar c || c == '"' || c == '\''

/-- A key that is read from its spelling, with nothing but blanks around it. -/
structure IsKey (k : Key) : Prop where
  start : ∃ c w, k.written.toList = c :: w ∧ startsKey c = true
  reads : ∀ rest : List Char, (∀ c ∈ rest.head?, isKeyChar c = false) →
    simpleKey (k.written.toList ++ rest) = some ({ name := k.name, written := k.written }, rest)
  before : ∀ c ∈ k.around.before.toList, isGap c = true
  after : ∀ c ∈ k.around.after.toList, isGap c = true

theorem not_isGap_of_startsKey {c : Char} (h : startsKey c = true) : isGap c = false :=
  not_isGap_of_class h (by decide) (by decide)

theorem simpleKey_taken {cs rest : List Char} {k : Key} (h : simpleKey cs = some (k, rest)) :
    cs = k.written.toList ++ rest ∧ k = { name := k.name, written := k.written } ∧ IsKey k := by
  have hnone {c : Char} (hc : c ∈ "".toList) : isGap c = true := absurd hc List.not_mem_nil
  unfold simpleKey at h
  have hquoted (cs : List Char) (name rest' : List Char)
      (hread : Quoted.readOneLine cs = some (name, rest')) :
      IsKey { name := String.ofList name, written := String.ofList (taken cs rest') } ∧
        cs = taken cs rest' ++ rest' := by
    obtain ⟨c, w, rfl, hc, hw⟩ := Quoted.readOneLine_taken hread
    rw [taken_append]
    refine ⟨⟨⟨c, w, String.toList_ofList, ?_⟩, fun rest _ => ?_, fun _ => hnone,
      fun _ => hnone⟩, rfl⟩
    · obtain rfl | rfl := hc <;> decide
    · have hread' := hw rest
      have htaken := taken_append (c :: w) rest
      rw [String.toList_ofList]
      obtain rfl | rfl := hc
      all_goals
        simp only [List.cons_append] at hread' htaken ⊢
        unfold simpleKey
        rw [hread']
        simp [htaken]
  split at h
  · obtain ⟨⟨name, rest'⟩, hread, heq⟩ := Option.bind_eq_some_iff.1 h
    cases heq
    obtain ⟨hkey, htext⟩ := hquoted _ _ _ hread
    exact ⟨by rw [String.toList_ofList]; exact htext, rfl, hkey⟩
  · obtain ⟨⟨name, rest'⟩, hread, heq⟩ := Option.bind_eq_some_iff.1 h
    cases heq
    obtain ⟨hkey, htext⟩ := hquoted _ _ _ hread
    exact ⟨by rw [String.toList_ofList]; exact htext, rfl, hkey⟩
  · simp only at h
    split at h
    · cases h
    next hne =>
      cases h
      have hbare : IsBare (cs.takeWhile isKeyChar) :=
        ⟨fun hnil => hne (by rw [hnil]; rfl), fun c hc => List.mem_takeWhile_imp hc⟩
      refine ⟨?_, rfl, ⟨?_, fun rest hrest => ?_, fun _ => hnone, fun _ => hnone⟩⟩
      · rw [Key.plain, String.toList_ofList, List.takeWhile_append_dropWhile]
      · obtain ⟨c, w, heq⟩ := List.exists_cons_of_ne_nil hbare.ne_nil
        refine ⟨c, w, by rw [Key.plain, String.toList_ofList, heq], ?_⟩
        unfold startsKey
        rw [hbare.chars c (by rw [heq]; exact List.mem_cons_self)]
        rfl
      · rw [Key.plain, String.toList_ofList]
        exact simpleKey_bare hbare hrest

/-! ## Paths -/

theorem not_isKeyChar_of_isGap {c : Char} (h : isGap c = true) : isKeyChar c = false := by
  obtain rfl | rfl := isGap_iff.1 h <;> decide

/-- The key at the front of a path, with the blanks around it. -/
theorem simpleKey_between {k : Key} (hk : IsKey k) {before after : List Char}
    (hbefore : ∀ c ∈ before, isGap c = true) (hafter : ∀ c ∈ after, isGap c = true) {c : Char}
    (hkey : isKeyChar c = false) (hgap : isGap c = false) (rest : List Char) :
    gap (before ++ (k.written.toList ++ (after ++ c :: rest))) =
        (before, k.written.toList ++ (after ++ c :: rest)) ∧
      simpleKey (k.written.toList ++ (after ++ c :: rest)) =
        some ({ name := k.name, written := k.written }, after ++ c :: rest) ∧
      gap (after ++ c :: rest) = (after, c :: rest) := by
  refine ⟨gap_append hbefore ?_, hk.reads _ ?_, gap_append hafter ?_⟩
  · obtain ⟨d, w, hw, hd⟩ := hk.start
    rw [hw]
    rintro _ ⟨rfl⟩
    exact not_isGap_of_startsKey hd
  · cases after with
    | nil =>
      rintro _ ⟨rfl⟩
      exact hkey
    | cons d after =>
      rintro _ ⟨rfl⟩
      exact not_isKeyChar_of_isGap (hafter _ List.mem_cons_self)
  · rintro _ ⟨rfl⟩
    exact hgap

theorem dottedKeys_last {k : Key} (hk : IsKey k) {before after : List Char}
    (hbefore : ∀ c ∈ before, isGap c = true) (hafter : ∀ c ∈ after, isGap c = true) {c : Char}
    (hkey : isKeyChar c = false) (hgap : isGap c = false) (hdot : c ≠ '.') (rest : List Char)
    (fuel : Nat) :
    dottedKeys (fuel + 1) (before ++ (k.written.toList ++ (after ++ c :: rest))) =
      some ([{ name := k.name, written := k.written,
               around := ⟨String.ofList before, String.ofList after⟩ }], c :: rest) := by
  obtain ⟨h₁, h₂, h₃⟩ := simpleKey_between hk hbefore hafter hkey hgap rest
  unfold dottedKeys
  rw [h₁]
  simp only [Option.bind_eq_bind]
  rw [h₂]
  simp only [Option.bind_some]
  rw [h₃]
  split
  next heq => exact absurd (List.cons.inj heq).1 hdot
  · rfl

theorem dottedKeys_dot {k : Key} (hk : IsKey k) {before after : List Char}
    (hbefore : ∀ c ∈ before, isGap c = true) (hafter : ∀ c ∈ after, isGap c = true)
    (rest : List Char) (fuel : Nat) :
    dottedKeys (fuel + 1) (before ++ (k.written.toList ++ (after ++ '.' :: rest))) =
      (dottedKeys fuel rest).map fun r =>
        ({ name := k.name, written := k.written,
           around := ⟨String.ofList before, String.ofList after⟩ } :: r.1, r.2) := by
  obtain ⟨h₁, h₂, h₃⟩ :=
    simpleKey_between hk hbefore hafter (c := '.') (by decide) (by decide) rest
  conv_lhs => unfold dottedKeys
  rw [h₁]
  simp only [Option.bind_eq_bind]
  rw [h₂]
  simp only [Option.bind_some]
  rw [h₃]
  simp only
  cases dottedKeys fuel rest <;> rfl

/-- Does the text begin with a blank or a key? -/
def StartsPath (w : List Char) : Prop :=
  ∃ c w', w = c :: w' ∧ (isGap c = true ∨ startsKey c = true)

theorem IsKey.startsPath {k : Key} (hk : IsKey k) {before : List Char}
    (hbefore : ∀ c ∈ before, isGap c = true) (rest : List Char) :
    StartsPath (before ++ (k.written.toList ++ rest)) := by
  obtain ⟨c, w, hw, hc⟩ := hk.start
  rw [hw]
  cases before with
  | nil => exact ⟨c, w ++ rest, rfl, .inr hc⟩
  | cons d before => exact ⟨d, _, rfl, .inl (hbefore d List.mem_cons_self)⟩

/-- A path is read again from its own text, whatever else follows it. -/
theorem dottedKeys_taken {fuel : Nat} {cs rest : List Char} {ks : List Key}
    (h : dottedKeys fuel cs = some (ks, rest)) :
    ks ≠ [] ∧ (∀ k ∈ ks, IsKey k ∧ k.line = none) ∧ ∃ w, cs = w ++ rest ∧ StartsPath w ∧
      ∀ c rest' fuel', isKeyChar c = false → isGap c = false → c ≠ '.' → w.length < fuel' →
        dottedKeys fuel' (w ++ c :: rest') = some (ks, c :: rest') := by
  induction fuel generalizing cs ks with
  | zero => cases h
  | succ fuel ih =>
    unfold dottedKeys at h
    rcases hbefore : gap cs with ⟨before, cs₁⟩
    obtain ⟨hcs, hbefore', -⟩ := gap_eq hbefore
    rw [hbefore] at h
    obtain ⟨⟨k, cs₂⟩, hkey, hmore⟩ := Option.bind_eq_some_iff.1 h
    obtain ⟨hcs₁, hplain, hk⟩ := simpleKey_taken hkey
    rcases hafter : gap cs₂ with ⟨after, cs₃⟩
    obtain ⟨hcs₂, hafter', -⟩ := gap_eq hafter
    simp only [hafter] at hmore
    have hwhole : IsKey { k with around := ⟨String.ofList before, String.ofList after⟩ } := by
      refine ⟨hk.start, hk.reads, ?_, ?_⟩
      · rwa [String.toList_ofList]
      · rwa [String.toList_ofList]
    have hline : k.line = none := by rw [hplain]
    have hsame : Key.mk k.name k.written ⟨String.ofList before, String.ofList after⟩ none =
        Key.mk k.name k.written ⟨String.ofList before, String.ofList after⟩ k.line := by
      rw [hline]
    rw [hcs, hcs₁, hcs₂]
    split at hmore
    next cs₄ =>
      obtain ⟨⟨ks', cs₅⟩, hks, heq⟩ := Option.bind_eq_some_iff.1 hmore
      cases heq
      obtain ⟨-, hall, w, rfl, -, hw⟩ := ih hks
      refine ⟨List.cons_ne_nil _ _, List.forall_mem_cons.2 ⟨⟨hwhole, hline⟩, hall⟩,
        before ++ (k.written.toList ++ (after ++ '.' :: w)), by simp, hk.startsPath hbefore' _, ?_⟩
      intro c rest' fuel' hc hgap hdot hfuel
      simp only [List.length_append, List.length_cons] at hfuel
      obtain ⟨fuel', rfl⟩ : ∃ n, fuel' = n + 1 := ⟨fuel' - 1, by omega⟩
      simp only [List.append_assoc, List.cons_append]
      rw [dottedKeys_dot hk hbefore' hafter', hw c rest' fuel' hc hgap hdot (by omega), hsame]
      rfl
    next =>
      cases hmore
      refine ⟨List.cons_ne_nil _ _, List.forall_mem_singleton.2 ⟨hwhole, hline⟩,
        before ++ (k.written.toList ++ after), by simp, hk.startsPath hbefore' _, ?_⟩
      intro c rest' fuel' hc hgap hdot hfuel
      obtain ⟨fuel', rfl⟩ : ∃ n, fuel' = n + 1 := ⟨fuel' - 1, by omega⟩
      simp only [List.append_assoc]
      rw [dottedKeys_last hk hbefore' hafter' hc hgap hdot, hsame]

/-! ## Printed paths -/

theorem toList_dropReturns_gap {s : String} (h : ∀ c ∈ s.toList, isGap c = true) :
    (dropReturns s).toList = s.toList := by
  unfold dropReturns
  rw [String.toList_ofList]
  exact plainEnds_of_not_mem fun hmem => ne_return_of_isGap (h _ hmem) rfl

/-- The names in a printed path are read back. -/
theorem dottedKeys_printKeys {path : List Key} (hne : path ≠ []) (hpath : ∀ k ∈ path, IsKey k)
    {before after : List Char} (hbefore : ∀ c ∈ before, isGap c = true)
    (hafter : ∀ c ∈ after, isGap c = true) {c : Char} (hkey : isKeyChar c = false)
    (hgap : isGap c = false) (hdot : c ≠ '.') (rest : List Char) {fuel : Nat}
    (hfuel : path.length ≤ fuel) :
    ∃ ks, dottedKeys fuel (before ++ ((printKeys path).toList ++ (after ++ c :: rest))) =
      some (ks, c :: rest) ∧ ks.map (·.name) = path.map (·.name) := by
  induction path generalizing before fuel with
  | nil => exact absurd rfl hne
  | cons k path ih =>
    obtain ⟨hk, hpath⟩ := List.forall_mem_cons.1 hpath
    rw [List.length_cons] at hfuel
    obtain ⟨fuel, rfl⟩ : ∃ n, fuel = n + 1 := ⟨fuel - 1, by omega⟩
    cases path with
    | nil =>
      exact ⟨_, dottedKeys_last hk hbefore hafter hkey hgap hdot rest fuel, rfl⟩
    | cons k' path =>
      have hk' := hpath k' List.mem_cons_self
      have hlength : (k' :: path).length ≤ fuel := by omega
      obtain ⟨ks, hks, hnames⟩ := ih (List.cons_ne_nil _ _) hpath hk'.before hlength
      have htext : (printKeys (k :: k' :: path)).toList =
          k.written.toList ++ (k.around.after.toList ++ '.' ::
            (k'.around.before.toList ++ (printKeys (k' :: path)).toList)) := by
        have hdot : ".".toList = ['.'] := rfl
        simp [printKeys, toList_dropReturns_gap hk.after, toList_dropReturns_gap hk'.before, hdot]
      have hread := dottedKeys_dot hk hbefore hk.after
        (k'.around.before.toList ++ ((printKeys (k' :: path)).toList ++ (after ++ c :: rest))) fuel
      rw [hks] at hread
      rw [htext]
      simp only [List.append_assoc, List.cons_append]
      exact ⟨_, hread, congrArg (k.name :: ·) hnames⟩

theorem length_le_printKeys {path : List Key} (hpath : ∀ k ∈ path, IsKey k) :
    path.length ≤ (printKeys path).toList.length := by
  induction path with
  | nil => exact Nat.zero_le _
  | cons k path ih =>
    obtain ⟨hk, hpath⟩ := List.forall_mem_cons.1 hpath
    obtain ⟨c, w, hw, -⟩ := hk.start
    have ih := ih hpath
    cases path with
    | nil => simp [printKeys, hw]
    | cons k' path =>
      simp only [printKeys, String.toList_append, List.length_append, hw, List.length_cons] at ih ⊢
      omega

theorem names_framed (lead : List Char) (ks : List Key) :
    (framed lead ks).map (·.name) = ks.map (·.name) := by
  match ks with
  | [] | [_] => rfl
  | k :: k' :: ks =>
    have hlast := List.dropLast_concat_getLast (List.cons_ne_nil k' ks)
    rw [framed, List.getLast?_eq_some_getLast (List.cons_ne_nil k' ks)]
    · conv_rhs => rw [← hlast]
      simp
    · exact List.cons_ne_nil _ _

end ExportDesk.Toml.Reader
