import ExportDesk.Toml.Document
import ExportDesk.Number.Literal

/-!
# Bare scalars in TOML

Truth values, whole numbers in four bases, fractions, and dates and times. A scalar is the longest
run of characters that may stand in one; `classify` says what that run means, if anything.
-/

namespace ExportDesk.Toml.Scalar

/-- Digits with single underscores between them, and nothing else. -/
def isGrouped (isDigit : Char → Bool) : List Char → Bool
  | [] => false
  | [c] => isDigit c
  | c :: '_' :: cs => isDigit c && isGrouped isDigit cs
  | c :: cs => isDigit c && isGrouped isDigit cs

/-- Grouped decimal digits without a needless leading zero. -/
def isWhole (cs : List Char) : Bool :=
  match cs with
  | ['0'] => true
  | '0' :: _ => false
  | _ => isGrouped Char.isDigit cs

/-- The number that grouped digits write in a base. -/
def groupedValue (base : Nat) (value : Char → Nat) (cs : List Char) : Nat :=
  (cs.filter (· != '_')).foldl (fun n c => base * n + value c) 0

/-- The value of a digit in any base up to sixteen. -/
def digitValue (c : Char) : Nat :=
  if c.isDigit then c.toNat - '0'.toNat else c.toLower.toNat - 'a'.toNat + 10

/-- A whole number in a base that is announced by a letter. -/
def basedNumber? (base : Nat) (isDigit : Char → Bool) (cs : List Char) : Option Datum :=
  if isGrouped isDigit cs then some (.whole (groupedValue base digitValue cs)) else none

def isHexDigit (c : Char) : Bool :=
  c.isDigit || ('a' ≤ c && c ≤ 'f') || ('A' ≤ c && c ≤ 'F')

def isOctalDigit (c : Char) : Bool := '0' ≤ c && c ≤ '7'

def isBinaryDigit (c : Char) : Bool := c == '0' || c == '1'

/-- The exponent part of a fraction: empty, or an `e` with grouped digits. -/
def isExponent : List Char → Bool
  | [] => true
  | c :: cs => (c == 'e' || c == 'E') && isGrouped Char.isDigit (Literal.splitSign cs).2

/-- Is this the text of a fraction, its sign aside? -/
def isFraction (cs : List Char) : Bool :=
  let inDigits := fun c : Char => c.isDigit || c == '_'
  let whole := cs.takeWhile inDigits
  let rest := cs.dropWhile inDigits
  isWhole whole &&
    match rest with
    | '.' :: rest =>
      isGrouped Char.isDigit (rest.takeWhile inDigits) && isExponent (rest.dropWhile inDigits)
    | [] => false
    | rest => isExponent rest

/-- A fraction; one too large for any number is refused. -/
def fraction? (negative : Bool) (cs : List Char) : Option Datum :=
  if isFraction cs then
    (Literal.readNumber negative (cs.filter (· != '_'))).bind fun x =>
      if x.isFinite then some (.number x) else none
  else none

/-! ## Dates and times -/

/-- A number of exactly `n` digits, and what follows. -/
def fixedDigits? (n : Nat) (cs : List Char) : Option (Nat × List Char) :=
  let ds := cs.take n
  if ds.length == n && ds.all Char.isDigit then some (Literal.digitsValue ds, cs.drop n) else none

/-- What follows a given character. -/
def after? (c : Char) : List Char → Option (List Char)
  | [] => none
  | d :: cs => if d == c then some cs else none

def isLeapYear (y : Nat) : Bool := (y % 4 == 0 && y % 100 != 0) || y % 400 == 0

/-- The number of days of a month. -/
def daysOf (year month : Nat) : Nat :=
  if month == 2 then (if isLeapYear year then 29 else 28)
  else if month == 4 || month == 6 || month == 9 || month == 11 then 30 else 31

/-- What follows a date. -/
def afterDate? (cs : List Char) : Option (List Char) := do
  let (year, cs) ← fixedDigits? 4 cs
  let (month, cs) ← fixedDigits? 2 (← after? '-' cs)
  let (day, cs) ← fixedDigits? 2 (← after? '-' cs)
  if 1 ≤ month && month ≤ 12 && 1 ≤ day && day ≤ daysOf year month then some cs else none

/-- What follows a time of day. Seconds may be left out, and may have a fraction. -/
def afterTime? (cs : List Char) : Option (List Char) := do
  let (hour, cs) ← fixedDigits? 2 cs
  let (minute, cs) ← fixedDigits? 2 (← after? ':' cs)
  if 23 < hour || 59 < minute then none
  else
    match cs with
    | ':' :: cs =>
      let (second, cs) ← fixedDigits? 2 cs
      if 60 < second then none
      else
        match cs with
        | '.' :: cs =>
          if (cs.takeWhile Char.isDigit).isEmpty then none else some (cs.dropWhile Char.isDigit)
        | cs => some cs
    | cs => some cs

/-- Is this the end of a moment: nothing, or a distance from universal time? -/
def isOffset : List Char → Bool
  | [] => true
  | ['Z'] => true
  | ['z'] => true
  | c :: cs =>
    (c == '+' || c == '-') &&
      (do
        let (hour, cs) ← fixedDigits? 2 cs
        let (minute, cs) ← fixedDigits? 2 (← after? ':' cs)
        some (hour ≤ 23 && minute ≤ 59 && cs.isEmpty)).getD false

/-- Is this a date, a time, or a date with a time? -/
def isMoment (cs : List Char) : Bool :=
  match afterDate? cs with
  | some [] => true
  | some (c :: rest) =>
    (c == 'T' || c == 't' || c == ' ') &&
      (match afterTime? rest with
        | some rest => isOffset rest
        | none => false)
  | none => afterTime? cs == some []

/-! ## Reading -/

/-- What a run of characters means. -/
def classify (cs : List Char) : Option Datum :=
  if cs == "true".toList then some (.truth true)
  else if cs == "false".toList then some (.truth false)
  else if isMoment cs then some (.moment (String.ofList cs))
  else
    match cs with
    | '0' :: 'x' :: ds => basedNumber? 16 isHexDigit ds
    | '0' :: 'o' :: ds => basedNumber? 8 isOctalDigit ds
    | '0' :: 'b' :: ds => basedNumber? 2 isBinaryDigit ds
    | _ =>
      let (negative, body) := Literal.splitSign cs
      if body == "inf".toList then some (.number (Binary64.infinity negative))
      else if body == "nan".toList then
        some (.number (Binary64.ofMagnitude negative (Binary64.infinityMagnitude + power 2 51)))
      else if isWhole body then
        let n : Int := groupedValue 10 digitValue body
        some (.whole (if negative then -n else n))
      else fraction? negative body

/-- May the character stand in a bare scalar? -/
def isScalarChar (c : Char) : Bool :=
  c.isAlphanum || c == '+' || c == '-' || c == '_' || c == '.' || c == ':'

/-- The longest run that may be a scalar, and what follows. A date takes in a time that is set off
by one blank. -/
def split (cs : List Char) : List Char × List Char :=
  let first := cs.takeWhile isScalarChar
  let rest := cs.dropWhile isScalarChar
  if afterDate? first == some [] then
    match rest with
    | ' ' :: c :: more =>
      if c.isDigit then
        (first ++ ' ' :: (c :: more).takeWhile isScalarChar, (c :: more).dropWhile isScalarChar)
      else (first, rest)
    | _ => (first, rest)
  else (first, rest)

/-- A bare scalar, and what follows it. -/
def read (cs : List Char) : Option (Datum × List Char) :=
  (classify (split cs).1).map fun d => (d, (split cs).2)

end ExportDesk.Toml.Scalar
