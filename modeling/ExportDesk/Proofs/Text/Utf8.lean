import ExportDesk.Text.Utf8

/-!
# The bytes of a text are read as that text

`decode?_encode`, from one character at a time (`pieces_character`). Other bytes than those of a
text are not read as one (`encode_of_decode?`), so what people read of some bytes gives them back
only if they are a text (`encode_decodeLossy_iff`).
-/

namespace ExportDesk.Text

/-! ## Bytes by their numbers -/

theorem between_iff (low high b : UInt8) :
    (low ≤ b && b ≤ high) = true ↔ low.toNat ≤ b.toNat ∧ b.toNat ≤ high.toNat := by
  rw [Bool.and_eq_true, decide_eq_true_eq, decide_eq_true_eq, UInt8.le_iff_toNat_le,
    UInt8.le_iff_toNat_le]

theorem not_ascii {b : UInt8} (h : 0x80 ≤ b.toNat) : ¬ b < 0x80 := by
  rw [UInt8.lt_iff_toNat_lt]
  exact Nat.not_lt.2 h

theorem not_between {low high b : UInt8} (h : high.toNat < b.toNat) :
    ¬ (low ≤ b && b ≤ high) = true := by
  rw [between_iff]
  exact fun hb => Nat.not_lt.2 hb.2 h

theorem isContinuation_iff (b : UInt8) :
    isContinuation b = true ↔ 0x80 ≤ b.toNat ∧ b.toNat ≤ 0xBF := between_iff 0x80 0xBF b

theorem secondOfThree_of {lead b : UInt8} (hb : 0x80 ≤ b.toNat ∧ b.toNat ≤ 0xBF)
    (hlow : lead.toNat = 0xE0 → 0xA0 ≤ b.toNat) (hhigh : lead.toNat = 0xED → b.toNat ≤ 0x9F) :
    secondOfThree lead b = true := by
  unfold secondOfThree
  split
  next h =>
    rw [beq_iff_eq] at h
    have := hlow (by rw [h]; rfl)
    exact (between_iff _ _ b).2 ⟨this, hb.2⟩
  · split
    next h =>
      rw [beq_iff_eq] at h
      have := hhigh (by rw [h]; rfl)
      exact (between_iff _ _ b).2 ⟨hb.1, this⟩
    · exact (isContinuation_iff b).2 hb

theorem secondOfFour_of {lead b : UInt8} (hb : 0x80 ≤ b.toNat ∧ b.toNat ≤ 0xBF)
    (hlow : lead.toNat = 0xF0 → 0x90 ≤ b.toNat) (hhigh : lead.toNat = 0xF4 → b.toNat ≤ 0x8F) :
    secondOfFour lead b = true := by
  unfold secondOfFour
  split
  next h =>
    rw [beq_iff_eq] at h
    have := hlow (by rw [h]; rfl)
    exact (between_iff _ _ b).2 ⟨this, hb.2⟩
  · split
    next h =>
      rw [beq_iff_eq] at h
      have := hhigh (by rw [h]; rfl)
      exact (between_iff _ _ b).2 ⟨hb.1, this⟩
    · exact (isContinuation_iff b).2 hb

theorem toNat_byte {n : Nat} (h : n < 256) : (UInt8.ofNat n).toNat = n := by
  rw [UInt8.toNat_ofNat', Nat.mod_eq_of_lt h]

/-- The numbers that are characters. -/
theorem isValid_toNat (c : Char) :
    c.toNat < 0xD800 ∨ 0xDFFF < c.toNat ∧ c.toNat < 0x110000 := c.valid

/-! ## One character -/

theorem nextPiece_one {lead : UInt8} (h : lead.toNat < 0x80) (rest : Bytes) :
    nextPiece lead rest = (some (Char.ofNat lead.toNat), 0) := by
  unfold nextPiece
  rw [if_pos (UInt8.lt_iff_toNat_lt.2 h)]

theorem nextPiece_two {lead b : UInt8} (hlead : 0xC2 ≤ lead.toNat ∧ lead.toNat ≤ 0xDF)
    (hb : 0x80 ≤ b.toNat ∧ b.toNat ≤ 0xBF) (rest : Bytes) :
    nextPiece lead (b :: rest) =
      (some (Char.ofNat (lead.toNat % 32 * 64 + payload b)), 1) := by
  have h₁ : ¬ lead < 0x80 := not_ascii (by omega)
  have h₂ : (0xC2 ≤ lead && lead ≤ 0xDF) = true := (between_iff _ _ lead).2 hlead
  unfold nextPiece
  rw [if_neg h₁, if_pos h₂]
  simp only
  rw [if_pos ((isContinuation_iff b).2 hb)]

theorem nextPiece_three {lead b c : UInt8} (hlead : 0xE0 ≤ lead.toNat ∧ lead.toNat ≤ 0xEF)
    (hb : secondOfThree lead b = true) (hc : 0x80 ≤ c.toNat ∧ c.toNat ≤ 0xBF) (rest : Bytes) :
    nextPiece lead (b :: c :: rest) =
      (some (Char.ofNat (lead.toNat % 16 * 4096 + payload b * 64 + payload c)), 2) := by
  have h₁ : ¬ lead < 0x80 := not_ascii (by omega)
  have h₂ : ¬ (0xC2 ≤ lead && lead ≤ 0xDF) = true :=
    not_between (Nat.lt_of_lt_of_le (by decide) hlead.1)
  have h₃ : (0xE0 ≤ lead && lead ≤ 0xEF) = true := (between_iff _ _ lead).2 hlead
  unfold nextPiece
  rw [if_neg h₁, if_neg h₂, if_pos h₃]
  simp only
  rw [hb, Bool.not_true, if_neg Bool.false_ne_true, if_pos ((isContinuation_iff c).2 hc)]

theorem nextPiece_four {lead b c d : UInt8} (hlead : 0xF0 ≤ lead.toNat ∧ lead.toNat ≤ 0xF4)
    (hb : secondOfFour lead b = true) (hc : 0x80 ≤ c.toNat ∧ c.toNat ≤ 0xBF)
    (hd : 0x80 ≤ d.toNat ∧ d.toNat ≤ 0xBF) (rest : Bytes) :
    nextPiece lead (b :: c :: d :: rest) =
      (some (Char.ofNat
        (lead.toNat % 8 * 262144 + payload b * 4096 + payload c * 64 + payload d)), 3) := by
  have h₁ : ¬ lead < 0x80 := not_ascii (by omega)
  have h₂ : ¬ (0xC2 ≤ lead && lead ≤ 0xDF) = true :=
    not_between (Nat.lt_of_lt_of_le (by decide) hlead.1)
  have h₃ : ¬ (0xE0 ≤ lead && lead ≤ 0xEF) = true :=
    not_between (Nat.lt_of_lt_of_le (by decide) hlead.1)
  have h₄ : (0xF0 ≤ lead && lead ≤ 0xF4) = true := (between_iff _ _ lead).2 hlead
  unfold nextPiece
  rw [if_neg h₁, if_neg h₂, if_neg h₃, if_pos h₄]
  simp only
  rw [hb, Bool.not_true, if_neg Bool.false_ne_true, (isContinuation_iff c).2 hc, Bool.not_true,
    if_neg Bool.false_ne_true, if_pos ((isContinuation_iff d).2 hd)]

theorem pieces_character (c : Char) (rest : Bytes) :
    pieces (String.utf8EncodeChar c ++ rest) = some c :: pieces rest := by
  have hvalid := isValid_toNat c
  have hself : Char.ofNat c.toNat = c := Char.ofNat_toNat c
  unfold String.utf8EncodeChar
  rw [show c.val.toNat = c.toNat from rfl]
  generalize c.toNat = v at hvalid hself
  simp only
  -- by the length of the character in bytes
  split
  · have hlead := toNat_byte (show v < 256 by omega)
    rw [List.singleton_append, pieces_cons, nextPiece_one (by omega), hlead, hself]
    rfl
  split
  · have hlead := toNat_byte (show v / 64 % 32 + 192 < 256 by omega)
    have hb := toNat_byte (show v % 64 + 128 < 256 by omega)
    rw [List.cons_append, List.singleton_append, pieces_cons,
      nextPiece_two (by omega) (by omega)]
    unfold payload
    rw [hlead, hb, show (v / 64 % 32 + 192) % 32 * 64 + (v % 64 + 128) % 64 = v by omega, hself]
    rfl
  split
  · have hlead := toNat_byte (show v / 4096 % 16 + 224 < 256 by omega)
    have hb := toNat_byte (show v / 64 % 64 + 128 < 256 by omega)
    have hc := toNat_byte (show v % 64 + 128 < 256 by omega)
    rw [List.cons_append, List.cons_append, List.singleton_append, pieces_cons,
      nextPiece_three (by omega) (secondOfThree_of (by omega) (by omega) (by omega)) (by omega)]
    unfold payload
    rw [hlead, hb, hc, show (v / 4096 % 16 + 224) % 16 * 4096 + (v / 64 % 64 + 128) % 64 * 64 +
      (v % 64 + 128) % 64 = v by omega, hself]
    rfl
  · have hlead := toNat_byte (show v / 262144 % 8 + 240 < 256 by omega)
    have hb := toNat_byte (show v / 4096 % 64 + 128 < 256 by omega)
    have hc := toNat_byte (show v / 64 % 64 + 128 < 256 by omega)
    have hd := toNat_byte (show v % 64 + 128 < 256 by omega)
    rw [List.cons_append, List.cons_append, List.cons_append, List.singleton_append, pieces_cons,
      nextPiece_four (by omega) (secondOfFour_of (by omega) (by omega) (by omega)) (by omega)
        (by omega)]
    unfold payload
    rw [hlead, hb, hc, hd, show (v / 262144 % 8 + 240) % 8 * 262144 +
      (v / 4096 % 64 + 128) % 64 * 4096 + (v / 64 % 64 + 128) % 64 * 64 + (v % 64 + 128) % 64 = v
      by omega, hself]
    rfl

/-! ## A whole text -/

theorem pieces_characters (cs : List Char) :
    pieces (cs.flatMap String.utf8EncodeChar) = cs.map some := by
  induction cs with
  | nil => exact pieces_nil
  | cons c cs ih => rw [List.flatMap_cons, pieces_character, ih, List.map_cons]

/-- **The bytes of a text are read as that text.** -/
theorem decode?_encode (s : String) : decode? (encode s) = some s := by
  have hself : (s.toList.map some).map (·.getD replacement) = s.toList := by
    rw [List.map_map]
    exact List.map_id s.toList
  unfold decode? encode
  rw [pieces_characters]
  simp only
  rw [if_pos (by simp), hself, String.ofList_toList]

/-- A byte below 128 stands for itself, wherever in a text it is found. -/
theorem mem_of_mem_encode {s : String} {b : UInt8} (hb : b.toNat < 128) (h : b ∈ encode s) :
    Char.ofNat b.toNat ∈ s.toList := by
  obtain ⟨c, hc, hbyte⟩ := List.mem_flatMap.1 h
  have hne {n : Nat} (hlow : 128 ≤ n) (hn : n < 256) : b ≠ UInt8.ofNat n := by
    rintro rfl
    rw [toNat_byte hn] at hb
    omega
  unfold String.utf8EncodeChar at hbyte
  dsimp only at hbyte
  split at hbyte
  · rw [List.mem_singleton.1 hbyte, toNat_byte (by omega)]
    exact (Char.ofNat_toNat c).symm ▸ hc
  -- all bytes of a longer character are from 128 on
  split at hbyte
  · simp only [List.mem_cons, List.not_mem_nil, or_false] at hbyte
    obtain hbyte | hbyte := hbyte <;> exact absurd hbyte (hne (by omega) (by omega))
  split at hbyte
  · simp only [List.mem_cons, List.not_mem_nil, or_false] at hbyte
    obtain hbyte | hbyte | hbyte := hbyte <;> exact absurd hbyte (hne (by omega) (by omega))
  · simp only [List.mem_cons, List.not_mem_nil, or_false] at hbyte
    obtain hbyte | hbyte | hbyte | hbyte := hbyte <;>
      exact absurd hbyte (hne (by omega) (by omega))

/-- Texts are told apart by their bytes. -/
theorem encode_injective {s t : String} (h : encode s = encode t) : s = t :=
  Option.some_inj.1 ((decode?_encode s).symm.trans (h ▸ decode?_encode t))

/-- Only the empty text has no bytes. -/
theorem eq_empty_of_encode {s : String} (h : encode s = []) : s = "" :=
  encode_injective (h.trans rfl)

/-! ## Bytes that are a text -/

/-- What may follow a lead byte, where two of them narrow it. -/
theorem second_bounds {low high lead₁ lead₂ lead b : UInt8} (hlow : 0x80 ≤ low.toNat)
    (hhigh : high.toNat ≤ 0xBF) (hne : lead₁ ≠ lead₂)
    (h : (if lead == lead₁ then low ≤ b && b ≤ 0xBF
      else if lead == lead₂ then 0x80 ≤ b && b ≤ high else isContinuation b) = true) :
    (0x80 ≤ b.toNat ∧ b.toNat ≤ 0xBF) ∧ (lead.toNat = lead₁.toNat → low.toNat ≤ b.toNat) ∧
      (lead.toNat = lead₂.toNat → b.toNat ≤ high.toNat) := by
  rw [UInt8.toNat_inj, UInt8.toNat_inj]
  by_cases h₁ : lead = lead₁
  · rw [if_pos (beq_iff_eq.2 h₁)] at h
    obtain ⟨hb, hb'⟩ := (between_iff low 0xBF b).1 h
    exact ⟨⟨Nat.le_trans hlow hb, hb'⟩, fun _ => hb, fun h₂ => absurd (h₁.symm.trans h₂) hne⟩
  rw [if_neg (by rwa [beq_iff_eq])] at h
  by_cases h₂ : lead = lead₂
  · rw [if_pos (beq_iff_eq.2 h₂)] at h
    obtain ⟨hb, hb'⟩ := (between_iff 0x80 high b).1 h
    exact ⟨⟨hb, Nat.le_trans hb' hhigh⟩, fun h => absurd h h₁, fun _ => hb'⟩
  · rw [if_neg (by rwa [beq_iff_eq])] at h
    exact ⟨(isContinuation_iff b).1 h, fun h => absurd h h₁, fun h => absurd h h₂⟩

theorem toNat_ofNat {v : Nat} (h : v < 0xD800 ∨ 0xDFFF < v ∧ v < 0x110000) :
    (Char.ofNat v).toNat = v := by
  unfold Char.ofNat
  rw [dif_pos h]
  rfl

theorem byte_eq {b : UInt8} {n : Nat} (h : b.toNat = n) : b = UInt8.ofNat n := by
  rw [← h, UInt8.ofNat_toNat]

/-- The bytes of the character that a number stands for. -/
theorem utf8EncodeChar_ofNat {v : Nat} (h : v < 0xD800 ∨ 0xDFFF < v ∧ v < 0x110000) :
    String.utf8EncodeChar (Char.ofNat v) =
      if v ≤ 0x7F then [UInt8.ofNat v]
      else if v ≤ 0x7FF then [UInt8.ofNat (v / 64 % 32 + 192), UInt8.ofNat (v % 64 + 128)]
      else if v ≤ 0xFFFF then
        [UInt8.ofNat (v / 4096 % 16 + 224), UInt8.ofNat (v / 64 % 64 + 128),
          UInt8.ofNat (v % 64 + 128)]
      else
        [UInt8.ofNat (v / 262144 % 8 + 240), UInt8.ofNat (v / 4096 % 64 + 128),
          UInt8.ofNat (v / 64 % 64 + 128), UInt8.ofNat (v % 64 + 128)] := by
  unfold String.utf8EncodeChar
  rw [show (Char.ofNat v).val.toNat = v from toNat_ofNat h]

theorem eq_of_two {lead b : UInt8} (hlead : 0xC2 ≤ lead.toNat ∧ lead.toNat ≤ 0xDF)
    (hb : 0x80 ≤ b.toNat ∧ b.toNat ≤ 0xBF) :
    [lead, b] = String.utf8EncodeChar (Char.ofNat (lead.toNat % 32 * 64 + payload b)) := by
  unfold payload
  rw [utf8EncodeChar_ofNat (by omega), if_neg (by omega), if_pos (by omega)]
  exact List.cons_eq_cons.2 ⟨byte_eq (by omega), congrArg (fun x => [x]) (byte_eq (by omega))⟩

theorem eq_of_three {lead b c : UInt8} (hlead : 0xE0 ≤ lead.toNat ∧ lead.toNat ≤ 0xEF)
    (hb : secondOfThree lead b = true) (hc : 0x80 ≤ c.toNat ∧ c.toNat ≤ 0xBF) :
    [lead, b, c] = String.utf8EncodeChar
      (Char.ofNat (lead.toNat % 16 * 4096 + payload b * 64 + payload c)) := by
  obtain ⟨hb, hlow, hhigh⟩ := second_bounds (by decide) (by decide) (by decide) hb
  have hlow : lead.toNat = 0xE0 → 0xA0 ≤ b.toNat := hlow
  have hhigh : lead.toNat = 0xED → b.toNat ≤ 0x9F := hhigh
  unfold payload
  rw [utf8EncodeChar_ofNat (by omega), if_neg (by omega), if_neg (by omega), if_pos (by omega)]
  refine List.cons_eq_cons.2 ⟨byte_eq (by omega), List.cons_eq_cons.2 ⟨byte_eq (by omega), ?_⟩⟩
  exact congrArg (fun x => [x]) (byte_eq (by omega))

theorem eq_of_four {lead b c d : UInt8} (hlead : 0xF0 ≤ lead.toNat ∧ lead.toNat ≤ 0xF4)
    (hb : secondOfFour lead b = true) (hc : 0x80 ≤ c.toNat ∧ c.toNat ≤ 0xBF)
    (hd : 0x80 ≤ d.toNat ∧ d.toNat ≤ 0xBF) :
    [lead, b, c, d] = String.utf8EncodeChar (Char.ofNat
      (lead.toNat % 8 * 262144 + payload b * 4096 + payload c * 64 + payload d)) := by
  obtain ⟨hb, hlow, hhigh⟩ := second_bounds (by decide) (by decide) (by decide) hb
  have hlow : lead.toNat = 0xF0 → 0x90 ≤ b.toNat := hlow
  have hhigh : lead.toNat = 0xF4 → b.toNat ≤ 0x8F := hhigh
  unfold payload
  rw [utf8EncodeChar_ofNat (by omega), if_neg (by omega), if_neg (by omega), if_neg (by omega)]
  refine List.cons_eq_cons.2 ⟨byte_eq (by omega), List.cons_eq_cons.2 ⟨byte_eq (by omega), ?_⟩⟩
  refine List.cons_eq_cons.2 ⟨byte_eq (by omega), congrArg (fun x => [x]) (byte_eq (by omega))⟩

/-- A piece that is a character has the bytes of that character. -/
theorem nextPiece_some {lead : UInt8} {rest : Bytes} {c : Char} {n : Nat}
    (h : nextPiece lead rest = (some c, n)) : lead :: rest.take n = String.utf8EncodeChar c := by
  unfold nextPiece at h
  split at h
  next hlead =>
    have hlead : lead.toNat < 0x80 := UInt8.lt_iff_toNat_lt.1 hlead
    cases h
    rw [utf8EncodeChar_ofNat (by omega), if_pos (by omega), UInt8.ofNat_toNat]
    rfl
  split at h
  next hlead =>
    cases rest with
    | nil => cases h
    | cons b rest =>
      dsimp only at h
      split at h
      next hb =>
        cases h
        exact eq_of_two ((between_iff 0xC2 0xDF lead).1 hlead) ((isContinuation_iff b).1 hb)
      next => cases h
  split at h
  next hlead =>
    rcases rest with _ | ⟨b, _ | ⟨c, rest⟩⟩
    · cases h
    · cases h
    · dsimp only at h
      split at h
      · cases h
      next hb =>
        split at h
        next hc =>
          cases h
          exact eq_of_three ((between_iff 0xE0 0xEF lead).1 hlead) (by simpa using hb)
            ((isContinuation_iff c).1 hc)
        next => cases h
  split at h
  next hlead =>
    rcases rest with _ | ⟨b, _ | ⟨c, _ | ⟨d, rest⟩⟩⟩
    · cases h
    · cases h
    · cases h
    · dsimp only at h
      split at h
      · cases h
      next hb =>
        split at h
        · cases h
        next hc =>
          split at h
          next hd =>
            cases h
            exact eq_of_four ((between_iff 0xF0 0xF4 lead).1 hlead) (by simpa using hb)
              ((isContinuation_iff c).1 (by simpa using hc)) ((isContinuation_iff d).1 hd)
          next => cases h
  · cases h

/-- Pieces that are all characters have the bytes of these characters. -/
theorem flatMap_pieces {bs : Bytes} (h : (pieces bs).all Option.isSome = true) :
    ((pieces bs).map (·.getD replacement)).flatMap String.utf8EncodeChar = bs := by
  fun_induction pieces bs with
  | case1 => rfl
  | case2 lead rest ih =>
    rw [List.all_cons, Bool.and_eq_true] at h
    obtain ⟨c, hc⟩ := Option.isSome_iff_exists.1 h.1
    rw [List.map_cons, List.flatMap_cons, ih h.2, hc, Option.getD_some,
      ← nextPiece_some (Prod.ext hc rfl), List.cons_append, List.take_append_drop]

/-- Bytes that are read as a text are the bytes of that text. -/
theorem encode_of_decode? {bs : Bytes} {s : String} (h : decode? bs = some s) :
    encode s = bs := by
  unfold decode? at h
  dsimp only at h
  split at h
  next hall =>
    obtain rfl := Option.some.inj h
    unfold encode
    rw [String.toList_ofList]
    exact flatMap_pieces hall
  next => cases h

/-- What people read of some bytes has just these bytes exactly if they are a text. -/
theorem encode_decodeLossy_iff (bs : Bytes) :
    encode (decodeLossy bs) = bs ↔ isUtf8 bs = true := by
  constructor
  · intro h
    rw [isUtf8, ← h, decode?_encode]
    rfl
  · intro h
    obtain ⟨s, hs⟩ := Option.isSome_iff_exists.1 h
    rw [decodeLossy_of_decode? hs, encode_of_decode? hs]

end ExportDesk.Text
