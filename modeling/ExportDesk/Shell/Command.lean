import ExportDesk.Shell.Token

/-!
# Commands of a shell script

Tokens are read into commands, one complete command at a time: a shell runs what comes before a
mistake.
-/

namespace ExportDesk.Shell

inductive Redirection where
  | write (fd : Nat) (append : Bool) (target : Word)
  | read (source : Word)
  | duplicate (fd : Nat) (source : Word)
deriving DecidableEq, Repr

inductive Command where
  | nothing
  | simple (line : Nat) (assignments : List (String × Word)) (words : List Word)
  | redirected (line : Nat) (body : Command) (changes : List Redirection)
  | negated (body : Command)
  | piped (source sink : Command)
  | both (first second : Command)
  | either (first second : Command)
  | sequence (first second : Command)
  | subshell (body : Command)
  | choice (test yes no : Command)
  /-- repeats the body as long as the test's success is as given -/
  | loop (wanted : Bool) (test body : Command)
  /-- runs the body for each field of the words, or for each argument -/
  | each (name : String) (words : Option (List Word)) (body : Command)
  /-- one arm of a choice by pattern, and the arms after it -/
  | arm (subject : Word) (patterns : List Word) (body rest : Command)
deriving Repr

/-- A mistake in a script: the line, zero for the end of the script, and the text shown. -/
structure Fault where
  line : Nat
  reason : String
deriving DecidableEq, Repr

abbrev Tokens := List (Nat × Token)

/-- A token as a message names it. -/
def Token.shown : Token → String
  | .word w =>
    match Word.bare? w with
    | some s => "\"" ++ s ++ "\" unexpected"
    | none => "word unexpected"
  | .operator "\n" => "newline unexpected"
  | .operator s => "\"" ++ s ++ "\" unexpected"
  | .redirect .. => "redirection unexpected"
  | .broken reason => reason

/-- The fault of what comes next. -/
def unexpected (ts : Tokens) (expecting : String := "") : Fault :=
  let tail := if expecting.isEmpty then "" else " (expecting \"" ++ expecting ++ "\")"
  match ts with
  | [] => ⟨0, "end of file unexpected" ++ tail⟩
  | (line, .broken reason) :: _ => ⟨line, reason⟩
  | (line, t) :: _ => ⟨line, t.shown ++ tail⟩

/-- Drops line ends. -/
def skipLines : Tokens → Tokens
  | (_, .operator "\n") :: ts => skipLines ts
  | ts => ts

/-- Does the word come next, unquoted? -/
def comes (word : String) : Tokens → Bool
  | (_, .word w) :: _ => Word.bare? w == some word
  | _ => false

/-- Does the operator come next? -/
def operatorComes (s : String) : Tokens → Bool
  | (_, .operator t) :: _ => s == t
  | _ => false

/-- Goes past a reserved word that has to come next. -/
def expect (word : String) (ts : Tokens) : Except Fault Tokens :=
  if comes word ts then .ok (ts.drop 1) else .error (unexpected ts word)

/-- Words that open or go on with a compound command, and so end a list before them. -/
def closingWords : List String := ["then", "else", "elif", "fi", "do", "done", "esac", "\x7d"]

/-- Does a list end here? -/
def listEnds : Tokens → Bool
  | [] => true
  | (_, .operator s) :: _ => s == ")" || s == ";;"
  | ts => closingWords.any (comes · ts)

/-- An assignment at the start of a command. -/
def assignment? : Word → Option (String × Word)
  | .text s false :: rest =>
    let name := s.takeWhile isNameChar
    match s.drop name.length with
    | '=' :: value =>
      if (name.head?.map isNameStart).getD false then
        some (String.ofList name, if value.isEmpty then rest else .text value false :: rest)
      else none
    | _ => none
  | _ => none

/-- One redirection, if one comes next. -/
def redirection? (ts : Tokens) : Except Fault (Option Redirection × Tokens) :=
  match ts with
  | (_, .redirect fd s) :: (_, .word w) :: rest =>
    let r : Redirection :=
      match s with
      | ">>" => .write (fd.getD 1) true w
      | ">&" => .duplicate (fd.getD 1) w
      | "<&" => .duplicate (fd.getD 0) w
      | "<" => .read w
      | _ => .write (fd.getD 1) false w
    .ok (some r, rest)
  | (_, .redirect _ _) :: rest => .error (unexpected rest)
  | _ => .ok (none, ts)

/-- All redirections that come next. -/
def redirectionsIn : Nat → Tokens → Except Fault (List Redirection × Tokens)
  | 0, ts => .ok ([], ts)
  | fuel + 1, ts => do
    match ← redirection? ts with
    | (none, ts) => return ([], ts)
    | (some r, ts) =>
      let (rs, ts) ← redirectionsIn fuel ts
      return (r :: rs, ts)

/-- The words that come next. -/
def wordsIn : Tokens → List Word × Tokens
  | (_, .word w) :: ts =>
    let (ws, ts) := wordsIn ts
    (w :: ws, ts)
  | ts => ([], ts)

/-- The rest of a simple command. -/
def simpleIn (line : Nat) :
    Nat → List (String × Word) → List Word → List Redirection → Tokens →
      Except Fault (Command × Tokens)
  | 0, _, _, _, ts => .error (unexpected ts)
  | fuel + 1, as, ws, rs, ts => do
    match ts with
    | (_, .word w) :: rest =>
      match (if ws.isEmpty then assignment? w else none) with
      | some a => simpleIn line fuel (as ++ [a]) ws rs rest
      | none => simpleIn line fuel as (ws ++ [w]) rs rest
    | _ =>
      match ← redirection? ts with
      | (some r, ts) => simpleIn line fuel as ws (rs ++ [r]) ts
      | (none, ts) =>
        if as.isEmpty && ws.isEmpty && rs.isEmpty then throw (unexpected ts)
        else
          let c := Command.simple line as ws
          return (if rs.isEmpty then c else .redirected line c rs, ts)

mutual

/-- Commands up to where a list ends. -/
def listIn : Nat → Tokens → Except Fault (Command × Tokens)
  | 0, ts => .error (unexpected ts)
  | fuel + 1, ts => do
    let ts := skipLines ts
    if listEnds ts then return (.nothing, ts)
    let (c, ts) ← chainIn fuel ts
    match ts with
    | (_, .operator s) :: rest =>
      if s == ";" || s == "&" || s == "\n" then
        let (d, ts) ← listIn fuel rest
        return (.sequence c d, ts)
      else if listEnds ts then return (c, ts)
      else throw (unexpected ts)
    | _ => if listEnds ts then return (c, ts) else throw (unexpected ts)

/-- Pipelines that go on by success or failure. -/
def chainIn : Nat → Tokens → Except Fault (Command × Tokens)
  | 0, ts => .error (unexpected ts)
  | fuel + 1, ts => do
    let (c, ts) ← pipelineIn fuel ts
    moreChainIn fuel c ts

/-- What follows the first pipeline of a chain. -/
def moreChainIn : Nat → Command → Tokens → Except Fault (Command × Tokens)
  | 0, _, ts => .error (unexpected ts)
  | fuel + 1, c, ts => do
    if operatorComes "&&" ts then
      let (d, ts) ← pipelineIn fuel (skipLines (ts.drop 1))
      moreChainIn fuel (.both c d) ts
    else if operatorComes "||" ts then
      let (d, ts) ← pipelineIn fuel (skipLines (ts.drop 1))
      moreChainIn fuel (.either c d) ts
    else return (c, ts)

/-- Commands joined by pipes. -/
def pipelineIn : Nat → Tokens → Except Fault (Command × Tokens)
  | 0, ts => .error (unexpected ts)
  | fuel + 1, ts => do
    if comes "!" ts then
      let (c, ts) ← pipelineIn fuel (ts.drop 1)
      return (.negated c, ts)
    let (c, ts) ← commandIn fuel ts
    if operatorComes "|" ts then
      let (d, ts) ← pipelineIn fuel (skipLines (ts.drop 1))
      return (.piped c d, ts)
    else return (c, ts)

/-- One command with its redirections. -/
def commandIn : Nat → Tokens → Except Fault (Command × Tokens)
  | 0, ts => .error (unexpected ts)
  | fuel + 1, ts => do
    match ← compoundIn? fuel ts with
    | none =>
      match ts with
      | (line, _) :: _ =>
        if listEnds ts then throw (unexpected ts)
        else simpleIn line (ts.length + 1) [] [] [] ts
      | [] => throw (unexpected ts)
    | some (c, rest) =>
      let (rs, after) ← redirectionsIn (rest.length + 1) rest
      let line := ((ts.head?).map (·.1)).getD 1
      return (if rs.isEmpty then c else .redirected line c rs, after)

/-- A compound command, if one opens here. -/
def compoundIn? : Nat → Tokens → Except Fault (Option (Command × Tokens))
  | 0, ts => .error (unexpected ts)
  | fuel + 1, ts => do
    let rest := ts.drop 1
    if operatorComes "(" ts then
      let (c, ts) ← listIn fuel rest
      if operatorComes ")" ts then return some (.subshell c, ts.drop 1)
      else throw (unexpected ts ")")
    else if comes "\x7b" ts then
      let (c, ts) ← listIn fuel rest
      return some (c, ← expect "\x7d" ts)
    else if comes "if" ts then
      let (c, ts) ← choiceIn fuel rest
      return some (c, ts)
    else if comes "while" ts || comes "until" ts then
      let (test, after) ← listIn fuel rest
      let (body, after) ← listIn fuel (← expect "do" after)
      return some (.loop (comes "while" ts) test body, ← expect "done" after)
    else if comes "for" ts then
      match rest with
      | (line, .word w) :: after =>
        match Word.bare? w with
        | none => throw ⟨line, "Bad for loop variable"⟩
        | some name =>
          let (words, after) :=
            if comes "in" (skipLines after) then
              let (ws, after) := wordsIn ((skipLines after).drop 1)
              (some ws, after)
            else (none, after)
          let after := if operatorComes ";" after then after.drop 1 else after
          let (body, after) ← listIn fuel (← expect "do" (skipLines after))
          return some (.each name words body, ← expect "done" after)
      | _ => throw ⟨(rest.head?.map (·.1)).getD 1, "Bad for loop variable"⟩
    else if comes "case" ts then
      match rest with
      | (_, .word subject) :: after =>
        let (c, ts) ← armsIn fuel subject (skipLines (← expect "in" (skipLines after)))
        return some (c, ts)
      | _ => throw (unexpected rest)
    else return none

/-- A choice after the word that opens it. -/
def choiceIn : Nat → Tokens → Except Fault (Command × Tokens)
  | 0, ts => .error (unexpected ts)
  | fuel + 1, ts => do
    let (test, ts) ← listIn fuel ts
    let (yes, ts) ← listIn fuel (← expect "then" ts)
    if comes "elif" ts then
      let (no, ts) ← choiceIn fuel (ts.drop 1)
      return (.choice test yes no, ts)
    else if comes "else" ts then
      let (no, ts) ← listIn fuel (ts.drop 1)
      return (.choice test yes no, ← expect "fi" ts)
    else return (.choice test yes .nothing, ← expect "fi" ts)

/-- The arms of a choice by pattern. -/
def armsIn : Nat → Word → Tokens → Except Fault (Command × Tokens)
  | 0, _, ts => .error (unexpected ts)
  | fuel + 1, subject, ts => do
    let ts := skipLines ts
    if comes "esac" ts then return (.nothing, ts.drop 1)
    let ts := if operatorComes "(" ts then ts.drop 1 else ts
    let (patterns, ts) ← patternsIn fuel ts
    let (body, ts) ← listIn fuel ts
    let ts := if operatorComes ";;" ts then ts.drop 1 else ts
    let (rest, ts) ← armsIn fuel subject ts
    return (.arm subject patterns body rest, ts)

/-- The patterns of an arm, up to the bracket after them. -/
def patternsIn : Nat → Tokens → Except Fault (List Word × Tokens)
  | 0, ts => .error (unexpected ts)
  | fuel + 1, ts => do
    match ts with
    | (_, .word w) :: (_, .operator "|") :: rest =>
      let (ws, ts) ← patternsIn fuel rest
      return (w :: ws, ts)
    | (_, .word w) :: (_, .operator ")") :: rest => return ([w], rest)
    | _ => throw (unexpected (ts.drop 1) ")")

end

/-- The commands on one line. -/
def lineIn : Nat → Tokens → Except Fault (Command × Tokens)
  | 0, ts => .error (unexpected ts)
  | fuel + 1, ts => do
    let (c, ts) ← chainIn fuel ts
    match ts with
    | [] => return (c, [])
    | (_, .operator s) :: rest =>
      if s == "\n" then return (c, rest)
      else if s == ";" || s == "&" then
        if rest.isEmpty then return (c, [])
        else if operatorComes "\n" rest then return (c, rest.drop 1)
        else
          let (d, ts) ← lineIn fuel rest
          return (.sequence c d, ts)
      else throw (unexpected ts)
    | _ => throw (unexpected ts)

/-- The next complete command of a script, if there is one. -/
def nextCommand? (ts : Tokens) : Except Fault (Option (Command × Tokens)) := do
  let ts := skipLines ts
  if ts.isEmpty then return none
  let (c, rest) ← lineIn (8 * ts.length + 8) ts
  return some (c, rest)

end ExportDesk.Shell
