import ExportDesk.Proofs.Text.Utf8

/-!
# Texts that are cut

Bytes are read apart from what follows them (`ReadsApart`) if they begin anywhere in a character
but end where one does. Cut inside a character, both parts still read as something
(`decodeLossyChars_ne_nil`), so a character that is cut reads as two at least.
-/

namespace ExportDesk.Text

/-! ## Something is read of any bytes -/

theorem decodeLossyChars_ne_nil {bs : Bytes} (h : bs ≠ []) : decodeLossyChars bs ≠ [] := by
  cases bs with
  | nil => exact absurd rfl h
  | cons b bs =>
    rw [decodeLossyChars, pieces_cons, List.map_cons]
    exact List.cons_ne_nil _ _

@[simp] theorem decodeLossyChars_nil : decodeLossyChars [] = [] := by simp [decodeLossyChars]

theorem decodeLossy_eq_empty_iff {bs : Bytes} : decodeLossy bs = "" ↔ bs = [] := by
  constructor
  · intro h
    have hchars : decodeLossyChars bs = [] := by
      rw [← String.toList_ofList (l := decodeLossyChars bs)]
      exact congrArg String.toList h
    exact Decidable.not_not.1 fun hne => decodeLossyChars_ne_nil hne hchars
  · rintro rfl
    rw [decodeLossy, decodeLossyChars_nil]

/-! ## Bytes that are read apart from what follows -/

/-- Bytes are read in the same way whatever follows, and what follows is read as if they were not
there. -/
def ReadsApart (bs : Bytes) : Prop := ∀ rest, pieces (bs ++ rest) = pieces bs ++ pieces rest

theorem readsApart_nil : ReadsApart [] := by
  intro rest
  rw [List.nil_append, pieces_nil, List.nil_append]

theorem ReadsApart.append {bs cs : Bytes} (hbs : ReadsApart bs) (hcs : ReadsApart cs) :
    ReadsApart (bs ++ cs) := by
  intro rest
  rw [List.append_assoc, hbs, hcs, hbs, List.append_assoc]

theorem pieces_encodeChar (c : Char) : pieces (String.utf8EncodeChar c) = [some c] := by
  have h := pieces_character c []
  rwa [List.append_nil, pieces_nil] at h

theorem readsApart_encodeChar (c : Char) : ReadsApart (String.utf8EncodeChar c) := by
  intro rest
  rw [pieces_character, pieces_encodeChar, List.singleton_append]

/-- A byte that only continues a character begins none. -/
theorem nextPiece_continuation {b : UInt8} (h : isContinuation b = true) (rest : Bytes) :
    nextPiece b rest = (none, 0) := by
  obtain ⟨hlow, hhigh⟩ := (isContinuation_iff b).1 h
  have hone : ¬ b < 0x80 := by
    rw [UInt8.lt_iff_toNat_lt]
    show ¬ b.toNat < 0x80
    omega
  have hmore (low high : UInt8) (hlow : 0xBF < low.toNat) : ¬ (low ≤ b && b ≤ high) = true := by
    rw [between_iff]
    omega
  unfold nextPiece
  rw [if_neg hone, if_neg (hmore 0xC2 0xDF (by decide)), if_neg (hmore 0xE0 0xEF (by decide)),
    if_neg (hmore 0xF0 0xF4 (by decide))]

theorem pieces_continuation {b : UInt8} (h : isContinuation b = true) (rest : Bytes) :
    pieces (b :: rest) = none :: pieces rest := by
  rw [pieces_cons, nextPiece_continuation h, List.drop_zero]

theorem readsApart_continuations {bs : Bytes} (h : ∀ b ∈ bs, isContinuation b = true) :
    ReadsApart bs := by
  induction bs with
  | nil => exact readsApart_nil
  | cons b bs ih =>
    intro rest
    have hb := h b List.mem_cons_self
    have hbs := ih fun c hc => h c (List.mem_cons_of_mem b hc)
    rw [List.cons_append, pieces_continuation hb, pieces_continuation hb, hbs, List.cons_append]

/-- All bytes of a character but the first only continue it. -/
theorem isContinuation_of_mem_tail {c : Char} {b : UInt8}
    (h : b ∈ (String.utf8EncodeChar c).tail) : isContinuation b = true := by
  have hlow {n : Nat} : isContinuation (UInt8.ofNat (n % 64 + 128)) = true := by
    rw [isContinuation_iff, toNat_byte (by omega)]
    omega
  unfold String.utf8EncodeChar at h
  dsimp only at h
  split at h
  · simp at h
  split at h
  · simp only [List.tail_cons, List.mem_singleton] at h
    exact h ▸ hlow
  split at h
  · simp only [List.tail_cons, List.mem_cons, List.not_mem_nil, or_false] at h
    obtain rfl | rfl := h <;> exact hlow
  · simp only [List.tail_cons, List.mem_cons, List.not_mem_nil, or_false] at h
    obtain rfl | rfl | rfl := h <;> exact hlow

/-- What is left of a character behind a cut is read apart from what follows. -/
theorem readsApart_of_cut {c : Char} {front back : Bytes} (hfront : front ≠ [])
    (h : String.utf8EncodeChar c = front ++ back) : ReadsApart back := by
  refine readsApart_continuations fun b hb => isContinuation_of_mem_tail (c := c) ?_
  rw [h, List.tail_append_of_ne_nil hfront]
  exact List.mem_append_right _ hb

theorem ReadsApart.decodeLossyChars {bs : Bytes} (h : ReadsApart bs) (rest : Bytes) :
    decodeLossyChars (bs ++ rest) = decodeLossyChars bs ++ decodeLossyChars rest := by
  unfold Text.decodeLossyChars
  rw [h, List.map_append]

theorem decodeLossyChars_encodeChar (c : Char) :
    decodeLossyChars (String.utf8EncodeChar c) = [c] := by
  rw [decodeLossyChars, pieces_encodeChar, List.map_singleton, Option.getD_some]

end ExportDesk.Text
