import ExportDesk.Shell.Arithmetic
import ExportDesk.Text.Utf8

/-!
# Formatted output of a shell script

The format is used again as long as arguments are left. Escapes stand for bytes, so the output need
not be text.
-/

namespace ExportDesk.Shell.Format

open Text

/-- A directive: how an argument is shown. -/
structure Directive where
  left : Bool := false
  zero : Bool := false
  plus : Bool := false
  space : Bool := false
  alternate : Bool := false
  /-- the least width; `none` inside stands for an argument -/
  width : Option Nat := none
  widthIsArgument : Bool := false
  precision : Option Nat := none
  precisionIsArgument : Bool := false
  conversion : Char
deriving DecidableEq, Repr

/-- A piece of a format. -/
inductive Piece where
  | bytes (bs : Bytes)
  | directive (d : Directive)
deriving DecidableEq, Repr

/-- The byte of a simple escape. -/
def simpleEscape (c : Char) : Option UInt8 :=
  match c with
  | 'a' => some 7
  | 'b' => some 8
  | 'f' => some 12
  | 'n' => some 10
  | 'r' => some 13
  | 't' => some 9
  | 'v' => some 11
  | '\\' => some 92
  | _ => none

def isOctal (c : Char) : Bool := '0' ≤ c && c ≤ '7'

/-- The byte of up to the given number of octal digits, and the rest. -/
def octal (most : Nat) (cs : List Char) : UInt8 × List Char :=
  let ds := (cs.take most).takeWhile isOctal
  (UInt8.ofNat (digitsIn ds % 256), cs.drop ds.length)
where
  /-- The value of octal digits. -/
  digitsIn (ds : List Char) : Nat := ds.foldl (fun n d => n * 8 + (d.toNat - 48)) 0

/-- The escape that follows a backslash in a format, and the rest. -/
def formatEscape (cs : List Char) : Bytes × List Char :=
  match cs with
  | [] => (encode "\\", [])
  | c :: rest =>
    match simpleEscape c with
    | some b => ([b], rest)
    | none =>
      if isOctal c then
        let (b, rest) := octal 3 cs
        ([b], rest)
      else (encode "\\", cs)

/-- The directive that follows a percent sign, and the rest. -/
def directiveIn (cs : List Char) : Option (Directive × List Char) :=
  let flags := cs.takeWhile fun c => c == '-' || c == '0' || c == '+' || c == ' ' || c == '#'
  let cs := cs.drop flags.length
  let (width, widthIsArgument, cs) :=
    match cs with
    | '*' :: rest => (none, true, rest)
    | _ =>
      let ds := cs.takeWhile Char.isDigit
      (if ds.isEmpty then none else some (digitsValue ds), false, cs.drop ds.length)
  let (precision, precisionIsArgument, cs) :=
    match cs with
    | '.' :: '*' :: rest => (none, true, rest)
    | '.' :: rest =>
      let ds := rest.takeWhile Char.isDigit
      (some (digitsValue ds), false, rest.drop ds.length)
    | _ => (none, false, cs)
  match cs with
  | [] => none
  | c :: rest =>
    some ({ left := flags.contains '-', zero := flags.contains '0', plus := flags.contains '+'
            space := flags.contains ' ', alternate := flags.contains '#'
            width, widthIsArgument, precision, precisionIsArgument, conversion := c }, rest)

/-- The pieces of a format; at most `fuel` of them. -/
def piecesOf : Nat → List Char → List Piece
  | 0, _ => []
  | _, [] => []
  | fuel + 1, '\\' :: cs =>
    let (bs, rest) := formatEscape cs
    .bytes bs :: piecesOf fuel rest
  | fuel + 1, '%' :: '%' :: cs => .bytes (encode "%") :: piecesOf fuel cs
  | fuel + 1, '%' :: cs =>
    match directiveIn cs with
    | some (d, rest) => .directive d :: piecesOf fuel rest
    | none => [.bytes (encode "%")]
  | fuel + 1, c :: cs => .bytes (encode (String.singleton c)) :: piecesOf fuel cs

/-- Does the piece use up an argument? -/
def Piece.takesArgument : Piece → Bool
  | .bytes _ => false
  | .directive _ => true

/-- Fills up to a width in bytes. -/
def pad (d : Directive) (width : Nat) (bs : Bytes) : Bytes :=
  let missing := List.replicate (width - bs.length) (0x20 : UInt8)
  if d.left then bs ++ missing else missing ++ bs

/-- A number's digits with at least the given count. -/
def digitsOf (base : Nat) (upper : Bool) (least n : Nat) : String :=
  let ds := if n == 0 && least == 0 then [] else Nat.toDigits base n
  let ds := if upper then ds.map Char.toUpper else ds
  String.ofList (List.replicate (least - ds.length) '0' ++ ds)

/-- A number under a directive. -/
def number (d : Directive) (width : Nat) (precision : Option Nat) (n : Int) : Bytes :=
  let (base, upper, signed) : Nat × Bool × Bool :=
    match d.conversion with
    | 'o' => (8, false, false)
    | 'x' => (16, false, false)
    | 'X' => (16, true, false)
    | 'u' => (10, false, false)
    | _ => (10, false, true)
  let magnitude := if signed then n.natAbs else (n % power 2 64).toNat
  let sign :=
    if !signed then ""
    else if n < 0 then "-"
    else if d.plus then "+"
    else if d.space then " "
    else ""
  let mark :=
    if !d.alternate || magnitude == 0 then ""
    else
      match d.conversion with
      | 'o' => "0"
      | 'x' => "0x"
      | 'X' => "0X"
      | _ => ""
  let opening := sign ++ mark
  let least :=
    match precision with
    | some p => p
    | none => if d.zero && !d.left then max 1 (width - opening.length) else 1
  pad d width (encode (opening ++ digitsOf base upper least magnitude))

/-- The escapes inside a text that is to be echoed; `false` if the text asks to stop. -/
def echoed : Nat → List Char → Bytes × Bool
  | 0, _ => ([], true)
  | _, [] => ([], true)
  | fuel + 1, '\\' :: cs =>
    match cs with
    | 'c' :: _ => ([], false)
    | '0' :: rest =>
      let (b, rest) := octal 3 rest
      let (bs, more) := echoed fuel rest
      (b :: bs, more)
    | c :: rest =>
      match simpleEscape c with
      | some b =>
        let (bs, more) := echoed fuel rest
        (b :: bs, more)
      | none =>
        let (bs, more) := echoed fuel cs
        (encode "\\" ++ bs, more)
    | [] => (encode "\\", true)
  | fuel + 1, c :: cs =>
    let (bs, more) := echoed fuel cs
    (encode (String.singleton c) ++ bs, more)

/-- An argument as a number, and what is wrong with it. -/
def numberOf (argument : String) : Int × Option String :=
  match Arithmetic.skipGaps argument.toList with
  | '"' :: c :: _ => (c.toNat, none)
  | '\'' :: c :: _ => (c.toNat, none)
  | [] => if argument.isEmpty then (0, none) else (0, some "expected numeric value")
  | cs =>
    let unsigned := match cs with | '-' :: r => r | '+' :: r => r | r => r
    if (unsigned.head?.map Char.isDigit).getD false then
      match Arithmetic.readSigned cs with
      | (n, []) => (n, none)
      | (n, _) => (n, some "not completely converted")
    else (0, some "expected numeric value")

/-- What formatting has come to. -/
structure Result where
  output : Bytes := []
  /-- the arguments that could not be used as numbers, each with the reason -/
  complaints : List (String × String) := []
  arguments : List String
  /-- an argument asked to stop -/
  stopped : Bool := false
deriving Repr

/-- Shows one argument under a directive. -/
def shown (d : Directive) (r : Result) : Result :=
  let takeNumber (r : Result) : Int × Result :=
    match r.arguments with
    | [] => (0, r)
    | a :: rest =>
      let (n, wrong) := numberOf a
      let complaints := r.complaints ++ (wrong.map fun w => (a, w)).toList
      (n, { r with arguments := rest, complaints })
  let (width, d, r) :=
    if d.widthIsArgument then
      let (n, r) := takeNumber r
      (n.natAbs, (if n < 0 then { d with left := true } else d), r)
    else (d.width.getD 0, d, r)
  let (precision, r) :=
    if d.precisionIsArgument then
      let (n, r) := takeNumber r
      ((if n < 0 then none else some n.toNat), r)
    else (d.precision, r)
  let argument := r.arguments.headD ""
  let rest := r.arguments.drop 1
  let cut (bs : Bytes) := match precision with | some p => bs.take p | none => bs
  match d.conversion with
  | 's' => { r with output := r.output ++ pad d width (cut (encode argument)), arguments := rest }
  | 'c' =>
    { r with output := r.output ++ pad d width ((encode argument).take 1), arguments := rest }
  | 'b' =>
    let (bs, more) := echoed (argument.length + 1) argument.toList
    { r with output := r.output ++ pad d width (cut bs), arguments := rest, stopped := !more }
  | c =>
    if ['d', 'i', 'u', 'o', 'x', 'X'].contains c then
      let (n, r) := takeNumber r
      { r with output := r.output ++ number d width precision n }
    else { r with complaints := r.complaints ++ [("%" ++ String.singleton c, "invalid directive")] }

/-- Goes through the format once. -/
def once : List Piece → Result → Result
  | [], r => r
  | p :: ps, r =>
    if r.stopped then r
    else
      match p with
      | .bytes bs => once ps { r with output := r.output ++ bs }
      | .directive d => once ps (shown d r)

/-- Goes through the format until the arguments are used up. -/
def again (ps : List Piece) : Nat → Result → Result
  | 0, r => r
  | fuel + 1, r =>
    let r := once ps r
    if r.arguments.isEmpty || r.stopped || !ps.any Piece.takesArgument then r
    else again ps fuel r

/-- Formats arguments. -/
def run (format : String) (arguments : List String) : Result :=
  let ps := piecesOf (format.length + 1) format.toList
  again ps (arguments.length + 1) { arguments }

end ExportDesk.Shell.Format
