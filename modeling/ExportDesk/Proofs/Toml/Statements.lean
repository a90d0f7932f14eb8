import ExportDesk.Proofs.Toml.Blanks

/-!
# Plain statements read back

A header of one bare key, and a pair of a bare key and a value that reads back. `statements_header`
and `statements_pairs` take them off the front of a text.
-/

namespace ExportDesk.Toml.Reader

open Scalar (takeWhile_append_of_all dropWhile_append_of_all)
open SettingsText (ReadsBack)

/-! ## Bare keys -/

/-- A name that may stand as a key without quotes. -/
structure IsBare (name : List Char) : Prop where
  ne_nil : name ≠ []
  chars : ∀ c ∈ name, isKeyChar c = true

/-- The key of a line: a bare name with what stands before and after it. -/
def lineKey (lead name after : List Char) : Key :=
  { Key.plain (String.ofList name) with line := some ⟨String.ofList lead, String.ofList after⟩ }

theorem isGap_of_isKeyChar {c : Char} (h : isKeyChar c = true) : isGap c = false :=
  not_isGap_of_class h (by decide) (by decide)

theorem gap_append {g rest : List Char} (hg : ∀ c ∈ g, isGap c = true)
    (hrest : ∀ c ∈ rest.head?, isGap c = false) : gap (g ++ rest) = (g, rest) := by
  unfold gap
  rw [takeWhile_append_of_all hg hrest, dropWhile_append_of_all hg hrest]

theorem gap_nil {rest : List Char} (hrest : ∀ c ∈ rest.head?, isGap c = false) :
    gap rest = ([], rest) :=
  gap_append (fun _ h => absurd h List.not_mem_nil) hrest

section

variable {name : List Char}

theorem IsBare.head (h : IsBare name) (rest : List Char) :
    ∃ c cs, name ++ rest = c :: cs ∧ isKeyChar c = true := by
  obtain ⟨c, cs, rfl⟩ := List.exists_cons_of_ne_nil h.ne_nil
  exact ⟨c, cs ++ rest, rfl, h.chars c List.mem_cons_self⟩

theorem IsBare.head_ne (h : IsBare name) {d : Char} (hd : isKeyChar d = false)
    (rest cs : List Char) : name ++ rest ≠ d :: cs := by
  obtain ⟨c, cs', heq, hc⟩ := h.head rest
  rw [heq]
  intro hcons
  rw [(List.cons.inj hcons).1, hd] at hc
  cases hc

theorem simpleKey_bare (h : IsBare name) {rest : List Char}
    (hrest : ∀ c ∈ rest.head?, isKeyChar c = false) :
    simpleKey (name ++ rest) = some (Key.plain (String.ofList name), rest) := by
  unfold simpleKey
  split
  next heq => exact absurd heq (h.head_ne (by decide) rest _)
  next heq => exact absurd heq (h.head_ne (by decide) rest _)
  · rw [takeWhile_append_of_all h.chars hrest, dropWhile_append_of_all h.chars hrest]
    simp [h.ne_nil]

theorem keyPath_bare (h : IsBare name) (lead after : List Char)
    (hafter : ∀ c ∈ after, isGap c = true) {c : Char} (hkey : isKeyChar c = false)
    (hgap : isGap c = false) (hdot : c ≠ '.') (rest : List Char) :
    keyPath lead (name ++ (after ++ c :: rest)) =
      some ([lineKey lead name after], c :: rest) := by
  have hbefore : gap (name ++ (after ++ c :: rest)) = ([], name ++ (after ++ c :: rest)) := by
    obtain ⟨d, cs, heq, hd⟩ := h.head (after ++ c :: rest)
    rw [heq]
    refine gap_nil ?_
    rintro e ⟨rfl⟩
    exact isGap_of_isKeyChar hd
  have hstop : ∀ d ∈ (after ++ c :: rest).head?, isKeyChar d = false := by
    intro d hd
    cases after with
    | nil =>
      obtain rfl := Option.some.inj hd
      exact hkey
    | cons e after =>
      obtain rfl := Option.some.inj hd
      rw [Bool.eq_false_iff]
      intro hkey
      have := isGap_of_isKeyChar hkey
      rw [hafter e List.mem_cons_self] at this
      cases this
  have hend : gap (after ++ c :: rest) = (after, c :: rest) := by
    refine gap_append hafter ?_
    rintro d ⟨rfl⟩
    exact hgap
  have hkeys (fuel : Nat) : dottedKeys (fuel + 1) (name ++ (after ++ c :: rest)) =
      some ([{ Key.plain (String.ofList name) with around := ⟨"", String.ofList after⟩ }],
        c :: rest) := by
    unfold dottedKeys
    rw [hbefore]
    simp only [Option.bind_eq_bind]
    rw [simpleKey_bare h hstop]
    simp only [Option.bind_some]
    rw [hend]
    split
    next heq => exact absurd (List.cons.inj heq).1 hdot
    · rfl
  unfold keyPath
  rw [hkeys]
  simp [framed, lineKey]
  rfl

/-! ## Headers and pairs -/

theorem header_bare (h : IsBare name) (lead rest : List Char) :
    header false lead (name ++ ']' :: '\n' :: rest) =
      some (.header false [lineKey [] name []] ⟨String.ofList lead, ""⟩, rest) := by
  have hpath := keyPath_bare h [] [] (fun _ hc => absurd hc List.not_mem_nil)
    (c := ']') (by decide) (by decide) (by decide) ('\n' :: rest)
  rw [List.nil_append] at hpath
  unfold header
  rw [hpath]
  rfl

/-- The line of a pair. -/
def pairLine (name : List Char) (v : Value) : List Char :=
  name ++ ' ' :: '=' :: ' ' :: (v.written.toList ++ ['\n'])

/-- The value of a line, with what surrounds it there. -/
def lineValue (v : Value) : Value := { v with decor := ⟨" ", ""⟩ }

theorem pair_bare (h : IsBare name) {v : Value} (hv : ReadsBack v) (lead rest : List Char) :
    pair lead (pairLine name v ++ rest) =
      some (.pair [lineKey lead name [' ']] (lineValue v), rest) := by
  have htext : pairLine name v ++ rest =
      name ++ ([' '] ++ '=' :: ' ' :: (v.written.toList ++ '\n' :: rest)) := by
    simp [pairLine]
  have hpath := keyPath_bare h lead [' '] (List.all_eq_true.1 (by decide)) (c := '=')
    (by decide) (by decide) (by decide) (' ' :: (v.written.toList ++ '\n' :: rest))
  have hgap : gap (' ' :: (v.written.toList ++ '\n' :: rest)) =
      ([' '], v.written.toList ++ '\n' :: rest) := by
    refine gap_append (g := [' ']) (List.all_eq_true.1 (by decide)) ?_
    intro c hc
    cases hw : v.written.toList with
    | nil =>
      rw [hw] at hc
      obtain rfl := Option.some.inj hc
      decide
    | cons d ds =>
      rw [hw] at hc
      obtain rfl := Option.some.inj hc
      exact hv.start d (by rw [hw]; rfl)
  rw [htext]
  unfold pair
  rw [hpath]
  simp only [Option.bind_eq_bind, Option.bind_some]
  rw [hgap]
  simp only
  rw [hv.reads]
  simp [lineEnd, lineValue]

/-! ## Statements one after another -/

theorem statements_pair (h : IsBare name) {v : Value} (hv : ReadsBack v) (fuel : Nat)
    (rest : List Char) :
    statements (fuel + 1) (pairLine name v ++ rest) =
      (statements fuel rest).map fun r =>
        (.pair [lineKey [] name [' ']] (lineValue v) :: r.1, r.2) := by
  have hpair := pair_bare h hv [] rest
  obtain ⟨c, cs, heq, hc⟩ := h.head (' ' :: '=' :: ' ' :: (v.written.toList ++ ['\n']) ++ rest)
  have htext : pairLine name v ++ rest = c :: cs := by
    rw [← heq, pairLine, List.append_assoc]
  rw [htext] at hpair ⊢
  have hne {d : Char} (hd : isKeyChar d = false) : c ≠ d := by
    rintro rfl
    rw [hd] at hc
    cases hc
  have htrivia : trivia false (c :: cs) = some ([], c :: cs) :=
    trivia_stop (hne (by decide)) (hne (by decide)) (isGap_of_isKeyChar hc) (hne (by decide)) cs
  rw [statements]
  rw [htrivia]
  simp only [Option.bind_eq_bind, Option.bind_some]
  have hbracket : c ≠ '[' := hne (by decide)
  split
  next heq => exact absurd (List.cons.inj heq).1 hbracket
  next heq => exact absurd (List.cons.inj heq).1 hbracket
  · rw [hpair, Option.bind_some]
    cases statements fuel rest <;> rfl

/-- Trivia before which a reader of trivia stops at a bracket. -/
def IsLead (lead : List Char) : Prop :=
  ∀ rest, trivia false (lead ++ '[' :: rest) = some (lead, '[' :: rest)

theorem isLead_of_isBlankLines {lead : List Char} (h : isBlankLines false lead = true) :
    IsLead lead := fun rest =>
  trivia_of_isBlankLines h (trivia_stop (by decide) (by decide) (by decide) (by decide) rest)

/-- The line of a header, with what stands before it. -/
def headerLine (lead name : List Char) : List Char := lead ++ '[' :: (name ++ [']', '\n'])

theorem statements_header (h : IsBare name) {lead : List Char} (hlead : IsLead lead) (fuel : Nat)
    (rest : List Char) :
    statements (fuel + 1) (headerLine lead name ++ rest) =
      (statements fuel rest).map fun r =>
        (.header false [lineKey [] name []] ⟨String.ofList lead, ""⟩ :: r.1, r.2) := by
  have hheader := header_bare h lead rest
  have htext : headerLine lead name ++ rest = lead ++ '[' :: (name ++ ']' :: '\n' :: rest) := by
    simp [headerLine]
  obtain ⟨c, cs, heq, hc⟩ := h.head (']' :: '\n' :: rest)
  have hbracket : c ≠ '[' := by
    rintro rfl
    exact absurd hc (by decide)
  rw [htext]
  rw [heq] at hheader ⊢
  rw [statements]
  rw [hlead]
  simp only [Option.bind_eq_bind, Option.bind_some]
  split
  next heq => exact absurd (List.cons.inj (List.cons.inj heq).2).1 hbracket
  next heq =>
    obtain rfl := (List.cons.inj heq).2
    rw [hheader, Option.bind_some]
    cases statements fuel rest <;> rfl
  next hnot => exact absurd rfl (hnot _)

end

/-- The lines of pairs. -/
def pairLines (fs : List (String × Value)) : List Char :=
  fs.flatMap fun f => pairLine f.1.toList f.2

theorem statements_pairs {fs : List (String × Value)}
    (h : ∀ f ∈ fs, IsBare f.1.toList ∧ ReadsBack f.2) (fuel : Nat) (rest : List Char) :
    statements (fuel + fs.length) (pairLines fs ++ rest) =
      (statements fuel rest).map fun r =>
        (fs.map (fun f => .pair [lineKey [] f.1.toList [' ']] (lineValue f.2)) ++ r.1, r.2) := by
  induction fs with
  | nil => simp [pairLines]
  | cons f fs ih =>
    obtain ⟨hbare, hback⟩ := h f List.mem_cons_self
    have ih := ih fun g hg => h g (List.mem_cons_of_mem _ hg)
    have htext : pairLines (f :: fs) ++ rest =
        pairLine f.1.toList f.2 ++ (pairLines fs ++ rest) := by
      rw [pairLines, List.flatMap_cons, List.append_assoc]
      rfl
    rw [htext, List.length_cons, ← Nat.add_assoc, statements_pair hbare hback, ih]
    cases statements fuel rest <;> rfl

theorem statements_nil (fuel : Nat) : statements (fuel + 1) [] = some ([], []) := rfl

end ExportDesk.Toml.Reader
