import ExportDesk.Number.Power
import ExportDesk.Shell.Token

/-!
# Arithmetic of a shell script

Whole numbers of 64 bits with the usual operators. A name stands for the value of its variable.
-/

namespace ExportDesk.Shell.Arithmetic

/-- A number in 64 bits with a sign. -/
def wrap (n : Int) : Int := Int.bmod n (power 2 64)

/-- The value of a digit in a base up to sixteen. -/
def digit? (base : Nat) (c : Char) : Option Nat :=
  let v :=
    if c.isDigit then some (c.toNat - 48)
    else if 'a' ≤ c && c ≤ 'f' then some (c.toNat - 87)
    else if 'A' ≤ c && c ≤ 'F' then some (c.toNat - 55)
    else none
  v.filter (· < base)

/-- The digits that a text opens with as a number, and the rest. -/
def readDigits (base : Nat) (cs : List Char) : Nat × List Char :=
  let ds := cs.takeWhile fun c => (digit? base c).isSome
  (ds.foldl (fun n d => n * base + (digit? base d).getD 0) 0, cs.drop ds.length)

/-- The number that a text opens with: hexadecimal after `0x`, octal after `0`. -/
def readNumber : List Char → Nat × List Char
  | '0' :: 'x' :: cs => readDigits 16 cs
  | '0' :: 'X' :: cs => readDigits 16 cs
  | '0' :: cs => readDigits 8 cs
  | cs => readDigits 10 cs

/-- A number with an optional sign, and what follows it. -/
def readSigned (cs : List Char) : Int × List Char :=
  match cs with
  | '-' :: rest => let (n, rest) := readNumber rest; (-(n : Int), rest)
  | '+' :: rest => let (n, rest) := readNumber rest; (n, rest)
  | _ => let (n, rest) := readNumber cs; (n, rest)

/-- Is the character a blank between the parts of an expression? -/
def isGap (c : Char) : Bool := c == ' ' || c == '\t' || c == '\n'

def skipGaps (cs : List Char) : List Char := cs.dropWhile isGap

/-- The operators by how weakly they bind, the weakest first. -/
def levels : List (List String) :=
  [["||"], ["&&"], ["|"], ["^"], ["&"], ["==", "!="], ["<=", ">=", "<", ">"], ["<<", ">>"],
   ["+", "-"], ["*", "/", "%"]]

/-- Every operator, longer ones before those that open them. -/
def allOperators : List String :=
  ["||", "&&", "==", "!=", "<=", ">=", "<<", ">>", "|", "^", "&", "<", ">", "+", "-", "*", "/", "%"]

def truth (b : Bool) : Int := if b then 1 else 0

/-- What an operator makes of two numbers. -/
def apply (operator : String) (a b : Int) : Except String Int :=
  match operator with
  | "||" => .ok (truth (a != 0 || b != 0))
  | "&&" => .ok (truth (a != 0 && b != 0))
  | "|" => .ok (Int64.ofInt a ||| Int64.ofInt b).toInt
  | "^" => .ok (Int64.ofInt a ^^^ Int64.ofInt b).toInt
  | "&" => .ok (Int64.ofInt a &&& Int64.ofInt b).toInt
  | "==" => .ok (truth (a == b))
  | "!=" => .ok (truth (a != b))
  | "<=" => .ok (truth (a ≤ b))
  | ">=" => .ok (truth (b ≤ a))
  | "<" => .ok (truth (a < b))
  | ">" => .ok (truth (b < a))
  | "<<" => .ok (wrap (a * power 2 b.toNat))
  | ">>" => .ok (Int.fdiv a (power 2 b.toNat))
  | "+" => .ok (wrap (a + b))
  | "-" => .ok (wrap (a - b))
  | "*" => .ok (wrap (a * b))
  | "/" => if b == 0 then .error "division by zero" else .ok (wrap (Int.tdiv a b))
  | "%" => if b == 0 then .error "division by zero" else .ok (wrap (Int.tmod a b))
  | _ => .error "expecting EOF"

/-- The value of the variable of a name. -/
abbrev Values := String → Option String

/-- The number that a variable holds; zero if it holds nothing. -/
def valueOf (values : Values) (name : String) : Except String Int :=
  match values name with
  | none => .ok 0
  | some s =>
    let cs := skipGaps s.toList
    if cs.isEmpty then .ok 0
    else
      match readSigned cs with
      | (n, rest) => if (skipGaps rest).isEmpty then .ok (wrap n) else .error "Illegal number"

mutual

/-- An expression of the given levels, and what follows it. -/
def levelIn (values : Values) : Nat → List (List String) → List Char →
    Except String (Int × List Char)
  | 0, _, _ => .error "expecting primary"
  | fuel + 1, [], cs => unaryIn values fuel cs
  | fuel + 1, level :: more, cs => do
    let (a, rest) ← levelIn values fuel more cs
    tailIn values fuel level more a rest

/-- The operators of one level that follow an operand. -/
def tailIn (values : Values) : Nat → List String → List (List String) → Int → List Char →
    Except String (Int × List Char)
  | 0, _, _, _, _ => .error "expecting primary"
  | fuel + 1, level, more, a, cs => do
    let cs := skipGaps cs
    match openedBy allOperators cs with
    | some (s, rest) =>
      if level.contains s then
        let (b, rest) ← levelIn values fuel more rest
        tailIn values fuel level more (← apply s a b) rest
      else return (a, cs)
    | none => return (a, cs)

/-- An operand with the signs in front of it. -/
def unaryIn (values : Values) : Nat → List Char → Except String (Int × List Char)
  | 0, _ => .error "expecting primary"
  | fuel + 1, cs => do
    match skipGaps cs with
    | '-' :: rest => let (n, rest) ← unaryIn values fuel rest; return (wrap (-n), rest)
    | '+' :: rest => unaryIn values fuel rest
    | '!' :: rest => let (n, rest) ← unaryIn values fuel rest; return (truth (n == 0), rest)
    | '~' :: rest => let (n, rest) ← unaryIn values fuel rest; return (-n - 1, rest)
    | '(' :: rest =>
      let (n, rest) ← levelIn values fuel levels rest
      match skipGaps rest with
      | ')' :: rest => return (n, rest)
      | _ => throw "expecting ')'"
    | c :: rest =>
      if c.isDigit then
        let (n, rest) := readNumber (c :: rest)
        return (wrap n, rest)
      else if isNameStart c then
        let name := (c :: rest).takeWhile isNameChar
        return (← valueOf values (String.ofList name), (c :: rest).drop name.length)
      else throw "expecting primary"
    | [] => throw "expecting primary"

end

/-- The value of a whole expression; an empty one is zero. -/
def evaluate (values : Values) (cs : List Char) : Except String Int := do
  if (skipGaps cs).isEmpty then return 0
  let (n, rest) ← levelIn values (24 * cs.length + 48) levels cs
  if (skipGaps rest).isEmpty then return n else throw "expecting EOF"

/-- The operators that give a variable a new value. -/
def assignments : List String := ["+=", "-=", "*=", "/=", "%=", "="]

/-- An expression that gives a variable a new value: its name, the operator and the expression. -/
def assignment? (cs : List Char) : Option (String × String × List Char) :=
  let cs := skipGaps cs
  let name := cs.takeWhile isNameChar
  if (name.head?.map isNameStart).getD false then
    match openedBy assignments (skipGaps (cs.drop name.length)) with
    | some (_, '=' :: _) => none
    | some (s, rest) => some (String.ofList name, s, rest)
    | none => none
  else none

end ExportDesk.Shell.Arithmetic
