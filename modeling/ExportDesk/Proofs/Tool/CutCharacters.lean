import ExportDesk.Proofs.Tool.BlankLines

/-!
# Characters that are cut

Each chunk is read on its own, so a character that stands across the end of a full chunk is cut,
and both parts read as something else. `readLines_text_iff`: the lines of a text are the text
without its line ends exactly if no character is cut (`CutsCharacter`). A character that is cut
reads as two at least (`PendsBehind.character`), so the lines are too long then, whatever the text
is (`PendsBehind.characters`).
-/

namespace ExportDesk

open Text

/-- Behind the bytes `before`, does a character stand across the end of a full chunk of its run? -/
def StandsAcross (before : Bytes) (c : Char) : Prop :=
  ∃ k, openRun before < k * maxChunk ∧ k * maxChunk < openRun before + c.utf8Size

/-- Behind the bytes `before`, is a character of the text cut? -/
def CutsBehind (before : Bytes) (cs : List Char) : Prop :=
  ∃ front c back, cs = front ++ c :: back ∧
    StandsAcross (before ++ front.flatMap String.utf8EncodeChar) c

theorem cutsBehind_nil (before : Bytes) : ¬ CutsBehind before [] := by
  rintro ⟨front, c, back, h, -⟩
  simp at h

theorem cutsBehind_cons (before : Bytes) (c : Char) (cs : List Char) :
    CutsBehind before (c :: cs) ↔
      StandsAcross before c ∨ CutsBehind (before ++ String.utf8EncodeChar c) cs := by
  constructor
  · rintro ⟨front, d, back, h, hacross⟩
    cases front with
    | nil =>
      obtain ⟨rfl, rfl⟩ := List.cons_eq_cons.1 h
      exact .inl (by simpa using hacross)
    | cons e front =>
      obtain ⟨rfl, rfl⟩ := List.cons_eq_cons.1 h
      exact .inr ⟨front, d, back, rfl, by simpa [List.append_assoc] using hacross⟩
  · rintro (hacross | ⟨front, d, back, rfl, hacross⟩)
    · exact ⟨[], c, cs, rfl, by simpa using hacross⟩
    · exact ⟨c :: front, d, back, rfl, by simpa [List.append_assoc] using hacross⟩

/-- A character stands across the end of a chunk if the chunk that is pending has no room for all
of its bytes. -/
theorem standsAcross_iff {before pending : Bytes} (h : pending.length = openRun before % maxChunk)
    (c : Char) : StandsAcross before c ↔ maxChunk < pending.length + c.utf8Size := by
  have hsize := c.utf8Size_le_four
  unfold StandsAcross
  unfold maxChunk at h ⊢
  constructor
  · rintro ⟨k, hlow, hhigh⟩
    omega
  · intro hlt
    exact ⟨openRun before / 8192 + 1, by omega, by omega⟩

/-! ## The bytes of a character -/

/-- Is the character no line end? -/
def isShown (c : Char) : Bool := c != '\n' && c != '\r'

theorem not_endsChunk_of_isShown {c : Char} (h : isShown c = true) :
    ∀ b ∈ String.utf8EncodeChar c, endsChunk b = false := by
  intro b hb
  have hself {n : UInt8} (hn : n.toNat < 128) (hbn : b = n) : c = Char.ofNat n.toNat := by
    have hmem : Char.ofNat n.toNat ∈ (String.singleton c).toList :=
      mem_of_mem_encode hn (by simpa [encode] using hbn ▸ hb)
    exact (List.mem_singleton.1 (String.toList_singleton c ▸ hmem)).symm
  obtain rfl | rfl | hplain := byte_cases b
  · rw [hself (by decide) rfl] at h
    cases h
  · rw [hself (by decide) rfl] at h
    cases h
  · exact hplain

theorem encodeChar_of_not_isShown {c : Char} (h : isShown c = false) :
    String.utf8EncodeChar c = [lineFeed] ∨ String.utf8EncodeChar c = [carriageReturn] := by
  obtain rfl | rfl : c = '\n' ∨ c = '\r' := by
    simpa [isShown, Decidable.or_iff_not_imp_left] using h
  · exact .inl rfl
  · exact .inr rfl

theorem utf8Size_of_not_isShown {c : Char} (h : isShown c = false) : c.utf8Size = 1 := by
  rw [← String.length_utf8EncodeChar]
  obtain h | h := encodeChar_of_not_isShown h <;> rw [h] <;> rfl

theorem openRun_append_end {c : Char} (h : isShown c = false) (before : Bytes) :
    openRun (before ++ String.utf8EncodeChar c) = 0 := by
  obtain h | h := encodeChar_of_not_isShown h <;> rw [h, openRun_concat] <;> rfl

/-! ## What is read -/

/-- What is read of chunks, one after the other. -/
def readOf (chunks : List Bytes) : List Char := chunks.flatMap decodeLossyChars

@[simp] theorem readOf_nil : readOf [] = [] := rfl

@[simp] theorem readOf_cons (chunk : Bytes) (chunks : List Bytes) :
    readOf (chunk :: chunks) = decodeLossyChars chunk ++ readOf chunks := List.flatMap_cons

@[simp] theorem readOf_append (chunks chunks' : List Bytes) :
    readOf (chunks ++ chunks') = readOf chunks ++ readOf chunks' := List.flatMap_append

/-- What was said is what was asked for, unless something was cut; then it is longer. -/
structure Tells (cut : Prop) (said asked : List Char) : Prop where
  longer : cut → asked.length < said.length
  same : ¬ cut → said = asked

theorem Tells.length_le {cut : Prop} {said asked : List Char} (h : Tells cut said asked) :
    asked.length ≤ said.length := by
  by_cases hcut : cut
  · exact Nat.le_of_lt (h.longer hcut)
  · rw [h.same hcut]

/-- What is said now and what is said later, where `mid` is asked for later than it was said. -/
theorem Tells.trans {cut cut' : Prop} {now mid asked said more : List Char}
    (h : Tells cut (now ++ mid) asked) (h' : Tells cut' said (mid ++ more)) :
    Tells (cut ∨ cut') (now ++ said) (asked ++ more) where
  longer hcut := by
    have hle := h.length_le
    have hle' := h'.length_le
    simp only [List.length_append] at hle hle' ⊢
    rcases hcut with hcut | hcut
    · have hlt := h.longer hcut
      simp only [List.length_append] at hlt
      omega
    · have hlt := h'.longer hcut
      simp only [List.length_append] at hlt
      omega
  same hno := by
    rw [not_or] at hno
    rw [h'.same hno.2, ← h.same hno.1, List.append_assoc]

theorem Tells.eq_iff {cut : Prop} {said asked : List Char} (h : Tells cut said asked) :
    said = asked ↔ ¬ cut := by
  refine ⟨fun heq hcut => ?_, h.same⟩
  have hlonger := h.longer hcut
  rw [heq] at hlonger
  exact Nat.lt_irrefl _ hlonger

/-- A line end hands on what is pending, or there is nothing pending. -/
theorem wholeChunksFrom_end {c : Char} (hc : isShown c = false) {pending : Bytes}
    {previous : Option UInt8} (hprev : previous = some carriageReturn → pending = [])
    (rest : Bytes) :
    ∃ now previous', readOf now = decodeLossyChars pending ∧
      wholeChunksFrom pending previous (String.utf8EncodeChar c ++ rest) =
        now ++ wholeChunksFrom [] previous' rest := by
  obtain hfeed | hreturn := encodeChar_of_not_isShown hc
  · rw [hfeed, List.singleton_append, wholeChunksFrom_feed]
    refine ⟨_, _, ?_, rfl⟩
    split
    next h => rw [hprev h, readOf_nil, decodeLossyChars_nil]
    next => simp
  · rw [hreturn, List.singleton_append, wholeChunksFrom_return]
    refine ⟨_, _, ?_, rfl⟩
    split
    next h => rw [h, readOf_nil, decodeLossyChars_nil]
    next => simp

/-- A character that is no line end joins what is pending, or fills it up, or is cut. -/
theorem wholeChunksFrom_shown {c : Char} (hc : isShown c = true) {pending : Bytes}
    (hlt : pending.length < maxChunk) (previous : Option UInt8) (rest : Bytes) :
    (pending.length + c.utf8Size < maxChunk ∧
      wholeChunksFrom pending previous (String.utf8EncodeChar c ++ rest) =
        wholeChunksFrom (pending ++ String.utf8EncodeChar c) none rest) ∨
    (pending.length + c.utf8Size = maxChunk ∧
      wholeChunksFrom pending previous (String.utf8EncodeChar c ++ rest) =
        (pending ++ String.utf8EncodeChar c) :: wholeChunksFrom [] none rest) ∨
    ∃ front back, front ≠ [] ∧ back ≠ [] ∧ String.utf8EncodeChar c = front ++ back ∧
      pending.length + front.length = maxChunk ∧ back.length < maxChunk ∧
      wholeChunksFrom pending previous (String.utf8EncodeChar c ++ rest) =
        (pending ++ front) :: wholeChunksFrom back none rest := by
  have hsize : (String.utf8EncodeChar c).length = c.utf8Size := String.length_utf8EncodeChar c
  have hplain := not_endsChunk_of_isShown hc
  have hne : String.utf8EncodeChar c ≠ [] := String.utf8EncodeChar_ne_nil
  obtain hroom | hfull | hcut := Nat.lt_trichotomy (pending.length + c.utf8Size) maxChunk
  · refine .inl ⟨hroom, ?_⟩
    rw [wholeChunksFrom_run hplain (by rwa [hsize])]
    simp [previousAfter, hne]
  · refine .inr (.inl ⟨hfull, ?_⟩)
    rw [wholeChunksFrom_run_full hplain hne (by rwa [hsize])]
  · have hbytes := List.take_append_drop (maxChunk - pending.length) (String.utf8EncodeChar c)
    have hfront : ((String.utf8EncodeChar c).take (maxChunk - pending.length)).length =
        maxChunk - pending.length := by rw [List.length_take]; omega
    have hback : ((String.utf8EncodeChar c).drop (maxChunk - pending.length)).length =
        c.utf8Size - (maxChunk - pending.length) := by rw [List.length_drop, hsize]
    generalize (String.utf8EncodeChar c).take (maxChunk - pending.length) = front at *
    generalize (String.utf8EncodeChar c).drop (maxChunk - pending.length) = back at *
    have hfour := c.utf8Size_le_four
    have hlarge : 4 < maxChunk := by decide
    have hfront_ne : front ≠ [] := List.ne_nil_of_length_pos (by omega)
    have hback_ne : back ≠ [] := List.ne_nil_of_length_pos (by omega)
    rw [← hbytes] at hplain
    refine .inr (.inr ⟨front, back, hfront_ne, hback_ne, hbytes.symm, by omega, by omega, ?_⟩)
    rw [← hbytes, List.append_assoc, wholeChunksFrom_run_full
      (fun b hb => hplain b (List.mem_append_left _ hb)) hfront_ne (by omega),
      wholeChunksFrom_run (fun b hb => hplain b (List.mem_append_right _ hb))
        (by simpa using by omega)]
    simp [previousAfter]

/-- What is pending behind the bytes `before` of a text. -/
structure PendsBehind (before pending : Bytes) (previous : Option UInt8) : Prop where
  length : pending.length = openRun before % maxChunk
  apart : ReadsApart pending
  returned : previous = some carriageReturn → pending = []

theorem pendsBehind_nil {before : Bytes} (h : openRun before % maxChunk = 0)
    (previous : Option UInt8) : PendsBehind before [] previous :=
  ⟨h.symm, readsApart_nil, fun _ => rfl⟩

theorem PendsBehind.length_lt {before pending : Bytes} {previous : Option UInt8}
    (h : PendsBehind before pending previous) : pending.length < maxChunk :=
  h.length ▸ Nat.mod_lt _ (by decide)

/-- **One character.** What it hands on and leaves pending tells the character, unless it is
cut. -/
theorem PendsBehind.character {before pending : Bytes} {previous : Option UInt8}
    (h : PendsBehind before pending previous) (c : Char) (rest : Bytes) :
    ∃ now pending' previous',
      PendsBehind (before ++ String.utf8EncodeChar c) pending' previous' ∧
      wholeChunksFrom pending previous (String.utf8EncodeChar c ++ rest) =
        now ++ wholeChunksFrom pending' previous' rest ∧
      Tells (StandsAcross before c) (readOf now ++ decodeLossyChars pending')
        (decodeLossyChars pending ++ [c].filter isShown) := by
  have hlt := h.length_lt
  rw [standsAcross_iff h.length]
  cases hc : isShown c with
  | false =>
    obtain ⟨now, previous', hnow, hchunks⟩ := wholeChunksFrom_end hc h.returned rest
    refine ⟨now, [], previous', pendsBehind_nil (by rw [openRun_append_end hc]; rfl) _, hchunks,
      fun hcut => ?_, fun _ => ?_⟩
    · rw [utf8Size_of_not_isShown hc] at hcut
      omega
    · simp [hnow, hc]
  | true =>
    have hmod : openRun (before ++ String.utf8EncodeChar c) % maxChunk =
        (pending.length + c.utf8Size) % maxChunk := by
      rw [openRun_append (not_endsChunk_of_isShown hc), String.length_utf8EncodeChar, h.length,
        Nat.mod_add_mod]
    have hread : decodeLossyChars (pending ++ String.utf8EncodeChar c) =
        decodeLossyChars pending ++ [c].filter isShown := by
      rw [h.apart.decodeLossyChars, decodeLossyChars_encodeChar, List.filter_singleton, hc]
      rfl
    obtain ⟨hroom, hchunks⟩ | ⟨hfull, hchunks⟩ |
        ⟨front, back, hfront, hback, hbytes, hfull, hsmall, hchunks⟩ :=
      wholeChunksFrom_shown hc hlt previous rest
    · -- the character joins what is pending
      refine ⟨[], _, none, ⟨?_, h.apart.append (readsApart_encodeChar c), nofun⟩, hchunks,
        fun hcut => by omega, fun _ => ?_⟩
      · rw [hmod, Nat.mod_eq_of_lt hroom, List.length_append, String.length_utf8EncodeChar]
      · rw [readOf_nil, List.nil_append, hread]
    · -- the character fills the chunk up
      refine ⟨[_], [], none, pendsBehind_nil (by rw [hmod, hfull, Nat.mod_self]) _, hchunks,
        fun hcut => by omega, fun _ => ?_⟩
      rw [readOf_cons, readOf_nil, decodeLossyChars_nil, hread]
      simp
    · -- both parts of the character read as something, where one character is asked for
      have hsize : c.utf8Size = front.length + back.length := by
        rw [← String.length_utf8EncodeChar, hbytes, List.length_append]
      have hlong := List.length_pos_iff.2 hback
      refine ⟨[_], back, none, ⟨?_, readsApart_of_cut hfront hbytes, nofun⟩, hchunks,
        fun _ => ?_, fun hno => absurd (by omega) hno⟩
      · rw [hmod, hsize, ← Nat.add_assoc, hfull, Nat.add_mod_left, Nat.mod_eq_of_lt hsmall]
      · have hfront' := List.length_pos_iff.2 (decodeLossyChars_ne_nil hfront)
        have hback' := List.length_pos_iff.2 (decodeLossyChars_ne_nil hback)
        have hasked : ([c].filter isShown).length = 1 := by simp [hc]
        rw [readOf_cons, readOf_nil, List.append_nil, h.apart.decodeLossyChars]
        simp only [List.length_append, hasked]
        omega

/-- **Any number of characters.** What they hand on and the end of the stream tell them, unless one
is cut. -/
theorem PendsBehind.characters {before pending : Bytes} {previous : Option UInt8}
    (h : PendsBehind before pending previous) (cs : List Char) :
    Tells (CutsBehind before cs)
      (readOf (wholeChunksFrom pending previous (cs.flatMap String.utf8EncodeChar)))
      (decodeLossyChars pending ++ cs.filter isShown) := by
  induction cs generalizing before pending previous with
  | nil =>
    refine ⟨fun hcut => absurd hcut (cutsBehind_nil before), fun _ => ?_⟩
    cases pending <;> simp [wholeChunksFrom]
  | cons c cs ih =>
    obtain ⟨now, pending', previous', hnext, hchunks, htells⟩ :=
      h.character c (cs.flatMap String.utf8EncodeChar)
    rw [List.flatMap_cons, cutsBehind_cons, hchunks, readOf_append,
      show c :: cs = [c] ++ cs from rfl, List.filter_append, ← List.append_assoc]
    exact htells.trans (ih hnext)

/-! ## A whole text -/

/-- Is a character of the text cut? -/
def CutsCharacter (text : String) : Prop := CutsBehind [] text.toList

/-- No run of the data is longer than a chunk. -/
def ShortRuns (data : Bytes) : Prop :=
  ∀ run, run <:+: data → (∀ b ∈ run, endsChunk b = false) → run.length ≤ maxChunk

/-- The text without its line ends. -/
def withoutEnds (text : String) : String := String.ofList (text.toList.filter isShown)

/-- The texts of lines, one after the other. -/
def joinedText (lines : List OutputLine) : String := String.join (lines.map (·.text))

theorem joinedText_asLines (stream : OutputStream) (chunks : List Bytes) :
    joinedText (Streams.asLines stream chunks) = String.ofList (readOf chunks) := by
  apply String.toList_inj.1
  rw [joinedText, String.toList_join, Streams.asLines, List.map_map, List.flatMap_map,
    String.toList_ofList, readOf]
  refine List.flatMap_congr fun chunk _ => ?_
  exact String.toList_ofList

/-- The run that a character joins ends in this character. -/
theorem openRun_le_of_shortRuns {front back : List Char} {c : Char} (hc : isShown c = true)
    (h : ShortRuns ((front ++ c :: back).flatMap String.utf8EncodeChar)) :
    openRun (front.flatMap String.utf8EncodeChar) + c.utf8Size ≤ maxChunk := by
  have hplain := not_endsChunk_of_isShown hc
  have hsuffix := List.rtakeWhile_suffix (!endsChunk ·) (front.flatMap String.utf8EncodeChar)
  have hmem : ∀ b ∈ (front.flatMap String.utf8EncodeChar).rtakeWhile (!endsChunk ·),
      endsChunk b = false := by
    intro b hb
    simpa using List.mem_rtakeWhile_imp hb
  unfold openRun
  generalize (front.flatMap String.utf8EncodeChar).rtakeWhile (!endsChunk ·) = run at *
  obtain ⟨start, hstart⟩ := hsuffix
  have hrun := h (run ++ String.utf8EncodeChar c)
    ⟨start, back.flatMap String.utf8EncodeChar, by simp [← hstart]⟩
    fun b hb => (List.mem_append.1 hb).elim (hmem b) (hplain b)
  rwa [List.length_append, String.length_utf8EncodeChar] at hrun

/-- A character of one byte is never cut. -/
theorem one_lt_of_standsAcross {before : Bytes} {c : Char} (h : StandsAcross before c) :
    1 < c.utf8Size := by
  obtain ⟨k, hlow, hhigh⟩ := h
  omega

theorem not_cutsCharacter_of_shortRuns {text : String} (h : ShortRuns (encode text)) :
    ¬ CutsCharacter text := by
  rintro ⟨front, c, back, htext, hacross⟩
  rw [List.nil_append] at hacross
  have hc : isShown c = true := by
    have hsize := one_lt_of_standsAcross hacross
    cases hc : isShown c with
    | true => rfl
    | false => rw [utf8Size_of_not_isShown hc] at hsize; omega
  rw [encode, htext] at h
  have hle := openRun_le_of_shortRuns hc h
  obtain ⟨k, hlow, hhigh⟩ := hacross
  have hk : 1 * maxChunk ≤ k * maxChunk := Nat.mul_le_mul_right _ (by
    cases k with
    | zero => omega
    | succ k => omega)
  omega

theorem not_cutsCharacter_of_ascii {text : String} (h : ∀ c ∈ text.toList, c.toNat < 128) :
    ¬ CutsCharacter text := by
  rintro ⟨front, c, back, htext, hacross⟩
  have hsize := one_lt_of_standsAcross hacross
  have hc : c.toNat < 128 := h c (by rw [htext]; simp)
  have hone : c.utf8Size = 1 := Char.utf8Size_eq_one_iff.2 (by
    rw [UInt32.le_iff_toNat_le]
    exact Nat.le_of_lt_succ hc)
  omega

/-- **The lines of a text.** Whatever the reader shows on each turn, and however the stream ends,
the lines are the text without its line ends exactly if no character stands across the end of a
full chunk. So they are if all runs are short, or if the text is ASCII, and then hold no
replacement character that the text does not hold. -/
theorem readLines_text_iff (text : String) (stream : OutputStream) (shown : Nat → Nat)
    (ending : StreamEnd) (host : Host) :
    let told := joinedText ((readLines stream ⟨encode text, shown, ending⟩).run host).1
    (told = withoutEnds text ↔ ¬ CutsCharacter text) ∧
      (ShortRuns (encode text) ∨ (∀ c ∈ text.toList, c.toNat < 128) →
        told = withoutEnds text ∧
          told.toList.count replacement = text.toList.count replacement) := by
  intro told
  have htold : told = String.ofList (readOf (wholeChunks (encode text))) := by
    rw [← joinedText_asLines stream, ← readLines_run stream ⟨encode text, shown, ending⟩ host]
  have htells := (pendsBehind_nil (rfl : openRun [] % maxChunk = 0) none).characters text.toList
  rw [decodeLossyChars_nil, List.nil_append] at htells
  have hiff : told = withoutEnds text ↔ ¬ CutsCharacter text := by
    rw [htold, withoutEnds, String.ofList_inj]
    exact htells.eq_iff
  refine ⟨hiff, fun h => ?_⟩
  have hsame : told = withoutEnds text :=
    hiff.2 (h.elim not_cutsCharacter_of_shortRuns not_cutsCharacter_of_ascii)
  refine ⟨hsame, ?_⟩
  rw [hsame, withoutEnds, String.toList_ofList, List.count_filter (by decide)]

/-- A text with characters of every length, one of them the replacement character itself. -/
def mixedText : String := "café \uFFFD\r\n50%\r100% €\n\n𝄞"

/-- A character of two bytes with room for one of them in the chunk. -/
def cutText : String := String.ofList (List.replicate 8191 'x' ++ ['é'])

theorem cutsCharacter_cutText : CutsCharacter cutText := by
  refine ⟨List.replicate 8191 'x', 'é', [], String.toList_ofList, 1, ?_⟩
  have hplain : ∀ b ∈ (List.replicate 8191 'x').flatMap String.utf8EncodeChar,
      endsChunk b = false := by
    intro b hb
    obtain ⟨c, hc, hb⟩ := List.mem_flatMap.1 hb
    rw [List.eq_of_mem_replicate hc] at hb
    exact not_endsChunk_of_isShown (by decide) b hb
  have hsize : ('é').utf8Size = 2 := by decide
  have hx : (String.utf8EncodeChar 'x').length = 1 := by decide
  rw [openRun_append hplain, hsize, List.length_flatMap, List.map_replicate, hx,
    List.sum_replicate_nat, openRun_nil]
  decide

theorem readLines_text_mixed :
    ShortRuns (encode mixedText) ∧ CutsCharacter cutText ∧
      ∀ (stream : OutputStream) (shown : Nat → Nat) (ending : StreamEnd) (host : Host),
        joinedText ((readLines stream ⟨encode mixedText, shown, ending⟩).run host).1 =
            withoutEnds mixedText ∧
          joinedText ((readLines stream ⟨encode cutText, shown, ending⟩).run host).1 ≠
            withoutEnds cutText := by
  have hshort : ShortRuns (encode mixedText) := fun run hrun _ =>
    Nat.le_trans hrun.length_le (by decide +kernel)
  refine ⟨hshort, cutsCharacter_cutText, fun stream shown ending host => ⟨?_, fun htold => ?_⟩⟩
  · exact ((readLines_text_iff mixedText stream shown ending host).2 (.inl hshort)).1
  · exact (readLines_text_iff cutText stream shown ending host).1.1 htold cutsCharacter_cutText

end ExportDesk
