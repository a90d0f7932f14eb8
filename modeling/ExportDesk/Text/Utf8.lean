/-!
# Reading bytes as text

UTF-8 in both directions. `decodeLossy` never fails: each longest piece that could still begin a
character and does not finish one becomes a single `U+FFFD`. `decode?` accepts the bytes that need
no such replacement.
-/

namespace ExportDesk.Text

/-- A string of bytes: file contents, file names, what a program writes. -/
abbrev Bytes := List UInt8

/-- What stands for bytes that are no character. -/
def replacement : Char := '\uFFFD'

/-- The bytes of a text. -/
def encode (s : String) : Bytes := s.toList.flatMap String.utf8EncodeChar

/-- Is `b` one of the bytes `0x80` to `0xBF`, which only continue a character? -/
def isContinuation (b : UInt8) : Bool := 0x80 ≤ b && b ≤ 0xBF

/-- May `b` follow the lead byte `lead` of a three-byte character? Overlong forms and surrogates
are ruled out here. -/
def secondOfThree (lead b : UInt8) : Bool :=
  if lead == 0xE0 then 0xA0 ≤ b && b ≤ 0xBF
  else if lead == 0xED then 0x80 ≤ b && b ≤ 0x9F
  else isContinuation b

/-- May `b` follow the lead byte `lead` of a four-byte character? Overlong forms and code points
above `0x10FFFF` are ruled out here. -/
def secondOfFour (lead b : UInt8) : Bool :=
  if lead == 0xF0 then 0x90 ≤ b && b ≤ 0xBF
  else if lead == 0xF4 then 0x80 ≤ b && b ≤ 0x8F
  else isContinuation b

/-- The low six bits of a continuation byte. -/
def payload (b : UInt8) : Nat := b.toNat % 64

/-- The next piece of a byte string: a character, or `none` for a piece that is none, with the
number of bytes it takes after the lead byte. -/
def nextPiece (lead : UInt8) (rest : Bytes) : Option Char × Nat :=
  if lead < 0x80 then (some (Char.ofNat lead.toNat), 0)
  else if 0xC2 ≤ lead && lead ≤ 0xDF then
    match rest with
    | b :: _ =>
      if isContinuation b then (some (Char.ofNat (lead.toNat % 32 * 64 + payload b)), 1)
      else (none, 0)
    | [] => (none, 0)
  else if 0xE0 ≤ lead && lead ≤ 0xEF then
    match rest with
    | b :: c :: _ =>
      if !secondOfThree lead b then (none, 0)
      else if isContinuation c then
        (some (Char.ofNat (lead.toNat % 16 * 4096 + payload b * 64 + payload c)), 2)
      else (none, 1)
    | [b] => (none, if secondOfThree lead b then 1 else 0)
    | [] => (none, 0)
  else if 0xF0 ≤ lead && lead ≤ 0xF4 then
    match rest with
    | b :: c :: d :: _ =>
      if !secondOfFour lead b then (none, 0)
      else if !isContinuation c then (none, 1)
      else if isContinuation d then
        (some (Char.ofNat
          (lead.toNat % 8 * 262144 + payload b * 4096 + payload c * 64 + payload d)), 3)
      else (none, 2)
    | [b, c] =>
      (none, if !secondOfFour lead b then 0 else if isContinuation c then 2 else 1)
    | [b] => (none, if secondOfFour lead b then 1 else 0)
    | [] => (none, 0)
  else (none, 0)

/-- The pieces of a byte string in order, `none` for each that is no character. -/
def pieces : Bytes → List (Option Char)
  | [] => []
  | lead :: rest => (nextPiece lead rest).1 :: pieces (rest.drop (nextPiece lead rest).2)
termination_by bs => bs.length
decreasing_by simp only [List.length_drop, List.length_cons]; omega

/-- The bytes as text, `U+FFFD` for every piece that is no character. -/
def decodeLossyChars (bs : Bytes) : List Char := (pieces bs).map (·.getD replacement)

/-- `decodeLossyChars` as a string. -/
def decodeLossy (bs : Bytes) : String := String.ofList (decodeLossyChars bs)

/-- The bytes as text, if every piece is a character. -/
def decode? (bs : Bytes) : Option String :=
  let ps := pieces bs
  if ps.all Option.isSome then some (String.ofList (ps.map (·.getD replacement))) else none

/-- Are the bytes well-formed UTF-8? -/
def isUtf8 (bs : Bytes) : Bool := (decode? bs).isSome

@[simp] theorem pieces_nil : pieces [] = [] := by simp [pieces]

theorem pieces_cons (lead : UInt8) (rest : Bytes) :
    pieces (lead :: rest) =
      (nextPiece lead rest).1 :: pieces (rest.drop (nextPiece lead rest).2) := by
  rw [pieces]

theorem decodeLossy_of_decode? {bs : Bytes} {s : String} (h : decode? bs = some s) :
    decodeLossy bs = s := by
  simp only [decode?] at h
  split at h
  · simpa [decodeLossy, decodeLossyChars] using h
  · simp at h

end ExportDesk.Text
