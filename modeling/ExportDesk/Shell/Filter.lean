import ExportDesk.Shell.Utility

/-!
# Filters

Utilities that read their input or files and write a part of it, a count of it, or a changed form.
-/

namespace ExportDesk.Shell.Utility

open Text

/-- Bytes cut after every line end. -/
def linesWithEnds : Bytes → List Bytes
  | [] => []
  | b :: bs =>
    if b == 0x0A then [b] :: linesWithEnds bs
    else
      match linesWithEnds bs with
      | [] => [[b]]
      | l :: ls => (b :: l) :: ls

/-! ## Parts -/

/-- How much of its input a filter lets through. -/
structure Share where
  bytewise : Bool := false
  /-- counted from the start instead of the end -/
  fromStart : Bool := false
  amount : Nat := 10

/-- The share that options ask for, and the other arguments. -/
def shareOf (share : Share) : List String → Option (Share × List String)
  | [] => some (share, [])
  | a :: rest =>
    let amount (bytewise : Bool) (cs : List Char) : Option Share :=
      let fromStart := cs.head? == some '+'
      let ds := if fromStart || cs.head? == some '-' then cs.drop 1 else cs
      if !ds.isEmpty && ds.all Char.isDigit then
        some { bytewise, fromStart, amount := digitsValue ds }
      else none
    match a.toList with
    | ['-', 'c'] => (amount true (rest.headD "").toList).bind (shareOf · (rest.drop 1))
    | ['-', 'n'] => (amount false (rest.headD "").toList).bind (shareOf · (rest.drop 1))
    | '-' :: 'c' :: cs => (amount true cs).bind (shareOf · rest)
    | '-' :: 'n' :: cs => (amount false cs).bind (shareOf · rest)
    | '-' :: c :: cs =>
      if c.isDigit then (amount false (c :: cs)).bind (shareOf · rest) else none
    | _ => (shareOf share rest).map fun (s, names) => (s, a :: names)
termination_by args => args.length

/-- Writes a share of every operand. -/
def writeShares (name : String) (args : List String) (part : Share → Bytes → Bytes) :
    Action Nat := do
  match shareOf {} args with
  | none => missing name "number"
  | some (share, names) =>
    forEach (if names.isEmpty then ["-"] else names) fun a => do
      if a == zeroDevice && share.bytewise then
        Action.write 1 (List.replicate share.amount 0)
        return true
      else
        match ← content a with
        | .ok bs =>
          Action.write 1 (part share bs)
          return true
        | .error e => report (name ++ ": cannot open '" ++ a ++ "' for reading") (.error e)
where
  /-- The file without an end that holds nothing but zeros. -/
  zeroDevice : String := "/dev/zero"

def head : Utility := fun args =>
  writeShares "head" args fun share bs =>
    if share.bytewise then bs.take share.amount
    else ((linesWithEnds bs).take share.amount).flatten

def tail : Utility := fun args =>
  writeShares "tail" args fun share bs =>
    let cut {α : Type} (xs : List α) : List α :=
      if share.fromStart then xs.drop (share.amount - 1) else xs.drop (xs.length - share.amount)
    if share.bytewise then cut bs else (cut (linesWithEnds bs)).flatten

/-! ## Counts -/

/-- The numbers of line ends, words and bytes. -/
def counts (bs : Bytes) : Nat × Nat × Nat :=
  let isGap (b : UInt8) : Bool := b == 0x20 || (0x09 ≤ b && b ≤ 0x0D)
  let starts := (0x20 :: bs).zip bs |>.filter fun (before, b) => isGap before && !isGap b
  (bs.count 0x0A, starts.length, bs.length)

def wc : Utility := fun args =>
  withOptions "wc" ['l', 'w', 'c'] args fun letters names => do
    forEach (if names.isEmpty then ["-"] else names) fun a => do
      match ← content a with
      | .error e => report ("wc: " ++ a) (.error e)
      | .ok bs =>
        let (lines, words, size) := counts bs
        let all := [('l', lines), ('w', words), ('c', size)]
        let shown := (all.filter fun (l, _) => letters.isEmpty || letters.contains l).map (·.2)
        let width :=
          if shown.length == 1 then 1
          else if names.isEmpty then 7 else (toString size).length
        let column (n : Nat) : String :=
          let digits := toString n
          String.ofList (List.replicate (width - digits.length) ' ') ++ digits
        let name := if names.isEmpty then "" else " " ++ a
        Action.print 1 (" ".intercalate (shown.map column) ++ name ++ "\n")
        return true

/-! ## Changes -/

/-- The bytes that a set stands for: ranges are spelled out and escapes replaced. -/
def setBytes : Nat → List Char → Bytes
  | 0, _ => []
  | _, [] => []
  | fuel + 1, '\\' :: cs =>
    let (bs, rest) := Format.formatEscape cs
    bs ++ setBytes fuel rest
  | fuel + 1, a :: '-' :: b :: cs =>
    (List.range (b.toNat + 1 - a.toNat)).map (fun k => UInt8.ofNat (a.toNat + k)) ++
      setBytes fuel cs
  | fuel + 1, c :: cs => encode (String.singleton c) ++ setBytes fuel cs

/-- The bytes that a set stands for. -/
def setOf (s : String) : Bytes := setBytes (s.length + 1) s.toList

/-- A byte exchanged for the one at the same place of another set, whose last byte stands for all
places beyond it. -/
def exchange (source target : Bytes) (b : UInt8) : UInt8 :=
  match source.idxOf? b with
  | some k => target.getD k (target.getLastD b)
  | none => b

def tr : Utility := fun args =>
  withOptions "tr" ['d'] args fun letters sets => do
    let m ← get
    set { m with input := [] }
    match letters.contains 'd', sets with
    | true, [s] =>
      Action.write 1 (m.input.filter fun b => !(setOf s).contains b)
      return 0
    | false, [s, t] =>
      Action.write 1 (m.input.map (exchange (setOf s) (setOf t)))
      return 0
    | _, _ => missing "tr"

def tee : Utility := fun args =>
  withOptions "tee" ['a'] args fun letters names => do
    let m ← get
    set { m with input := [] }
    Action.write 1 m.input
    forEach names fun a => do
      let p := Path.ofText a
      report ("tee: " ++ a) (← Action.change fun fs => do
        let fs ← if letters.contains 'a' then fs.openAtEnd p else fs.create p
        fs.append p m.input)

end ExportDesk.Shell.Utility
