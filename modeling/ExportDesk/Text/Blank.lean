/-!
# Blank characters

The characters with Unicode's `White_Space` property, and the trimming that goes by them. A text
is blank when it holds nothing else; `trim` is empty exactly for those texts.
-/

namespace ExportDesk.Text

/-- The `White_Space` code points as inclusive ranges. -/
def blankRanges : List (Nat × Nat) :=
  [(0x09, 0x0D), (0x20, 0x20), (0x85, 0x85), (0xA0, 0xA0), (0x1680, 0x1680), (0x2000, 0x200A),
   (0x2028, 0x2029), (0x202F, 0x202F), (0x205F, 0x205F), (0x3000, 0x3000)]

/-- Does the character have the `White_Space` property? -/
def isBlankChar (c : Char) : Bool :=
  blankRanges.any fun r => r.1 ≤ c.toNat && c.toNat ≤ r.2

/-- The text without its leading blank characters. -/
def trimLeft (cs : List Char) : List Char := cs.dropWhile isBlankChar

/-- The text without its trailing blank characters. -/
def trimRight (cs : List Char) : List Char := (cs.reverse.dropWhile isBlankChar).reverse

/-- The text without leading and trailing blank characters. -/
def trimChars (cs : List Char) : List Char := trimRight (trimLeft cs)

/-- Is every character blank? The empty text is. -/
def isBlankChars (cs : List Char) : Bool := cs.all isBlankChar

/-- `trimChars` on a string. -/
def trim (s : String) : String := String.ofList (trimChars s.toList)

/-- `trimRight` on a string. -/
def trimEnd (s : String) : String := String.ofList (trimRight s.toList)

/-- `isBlankChars` on a string. -/
def isBlank (s : String) : Bool := isBlankChars s.toList

theorem trimLeft_eq_nil_iff (cs : List Char) : trimLeft cs = [] ↔ isBlankChars cs = true := by
  induction cs with
  | nil => simp [trimLeft, isBlankChars]
  | cons c cs ih =>
    simp only [trimLeft, isBlankChars, List.all_cons, Bool.and_eq_true] at ih ⊢
    by_cases h : isBlankChar c = true
    · simp [h, ih]
    · simp [h]

end ExportDesk.Text
