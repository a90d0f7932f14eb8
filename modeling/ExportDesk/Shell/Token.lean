import ExportDesk.Shell.Word

/-!
# Tokens of a shell script

A script is cut into words and operators. Quotes are resolved here: what they protect is marked as
quoted. A text that ends inside quotes gives a token that says so, so that everything before it can
still be run.
-/

namespace ExportDesk.Shell

inductive Token where
  | word (w : Word)
  /-- a control operator; the end of a line is one -/
  | operator (s : String)
  /-- a redirection of a stream, which the operator implies if none is given -/
  | redirect (fd : Option Nat) (s : String)
  | broken (reason : String)
deriving DecidableEq, Repr

/-- The character that also encloses a command whose output is meant. -/
def backquote : Char := Char.ofNat 96

/-- May the character open a variable's name? -/
def isNameStart (c : Char) : Bool := c.isAlpha || c == '_'

/-- May the character stand in a variable's name? -/
def isNameChar (c : Char) : Bool := c.isAlphanum || c == '_'

/-- The reason given for a text that ends too early. -/
def unterminated : String := "Unterminated quoted string"

/-- A quoted text up to the quote that ends it, and what follows. Between single quotes a backslash
protects nothing. -/
def skipQuoted (quote : Char) : List Char → Option (List Char × List Char)
  | [] => none
  | [c] => if c == quote then some ([], []) else none
  | c :: d :: ds =>
    if c == quote then some ([], d :: ds)
    else if c == '\\' && quote != '\'' then
      (skipQuoted quote ds).map fun (a, b) => (c :: d :: a, b)
    else (skipQuoted quote (d :: ds)).map fun (a, b) => (c :: a, b)

/-- The text up to the bracket that closes the given number of open ones, and the rest. -/
def takeBalanced (opening closing : Char) : Nat → Nat → List Char → Option (List Char × List Char)
  | 0, _, _ => none
  | _, _, [] => none
  | fuel + 1, depth, c :: cs =>
    let more (depth : Nat) (taken rest : List Char) :=
      (takeBalanced opening closing fuel depth rest).map fun (a, b) => (taken ++ a, b)
    if c == '\\' then
      match cs with
      | [] => none
      | d :: ds => more depth [c, d] ds
    else if c == '\'' || c == '"' then
      match skipQuoted c cs with
      | none => none
      | some (inner, rest) => more depth (c :: inner ++ [c]) rest
    else if c == closing then
      if depth ≤ 1 then some ([], cs) else more (depth - 1) [c] cs
    else if c == opening then more (depth + 1) [c] cs
    else more depth [c] cs

/-- What follows the name in `$` with braces. -/
def changeOf : List Char → Option Change
  | [] => some .keep
  | ':' :: '-' :: w => some (.otherwise true w)
  | ':' :: '+' :: w => some (.whenSet true w)
  | ':' :: '=' :: w => some (.assign true w)
  | '-' :: w => some (.otherwise false w)
  | '+' :: w => some (.whenSet false w)
  | '=' :: w => some (.assign false w)
  | '%' :: '%' :: w => some (.dropEnd true w)
  | '%' :: w => some (.dropEnd false w)
  | '#' :: '#' :: w => some (.dropStart true w)
  | '#' :: w => some (.dropStart false w)
  | _ => none

/-- A parameter of one character. -/
def specialParameter (c : Char) : Option Parameter :=
  match c with
  | '@' => some .arguments
  | '*' => some .argumentsJoined
  | '#' => some .argumentCount
  | '?' => some .status
  | '$' => some .process
  | _ => if c.isDigit then some (.argument (c.toNat - 48)) else none

/-- The value of decimal digits. -/
def digitsValue (ds : List Char) : Nat := ds.foldl (fun n d => n * 10 + (d.toNat - 48)) 0

/-- The parameter that a text opens with, and the rest of the text. -/
def parameterIn (cs : List Char) : Option (Parameter × List Char) :=
  match cs with
  | [] => none
  | c :: rest =>
    if isNameStart c then
      some (.variable (String.ofList (cs.takeWhile isNameChar)), cs.dropWhile isNameChar)
    else if c.isDigit then
      some (.argument (digitsValue (cs.takeWhile Char.isDigit)), cs.dropWhile Char.isDigit)
    else (specialParameter c).map fun p => (p, rest)

/-- The part that stands between braces after `$`. -/
def bracedPart (quoted : Bool) (inner : List Char) : Option Part :=
  match inner with
  | '#' :: c :: rest =>
    match parameterIn (c :: rest) with
    | some (p, []) => some (.parameter p .length quoted)
    | _ => (changeOf (c :: rest)).map fun change => .parameter .argumentCount change quoted
  | _ =>
    (parameterIn inner).bind fun (p, rest) =>
      (changeOf rest).map fun change => .parameter p change quoted

/-- The part that follows `$`, and the rest of the text. -/
def dollarPart (quoted : Bool) (cs : List Char) : Except String (Part × List Char) :=
  match cs with
  | '(' :: '(' :: rest =>
    match takeBalanced '(' ')' (rest.length + 1) 2 rest with
    | some (inner, rest) => .ok (.arithmetic inner.dropLast quoted, rest)
    | none => .error "Missing '))'"
  | '(' :: rest =>
    match takeBalanced '(' ')' (rest.length + 1) 1 rest with
    | some (inner, rest) => .ok (.output inner quoted, rest)
    | none => .error "end of file unexpected (expecting \")\")"
  | '\x7b' :: rest =>
    match takeBalanced '\x7b' '\x7d' (rest.length + 1) 1 rest with
    | none => .error "Missing '\x7d'"
    | some (inner, rest) =>
      match bracedPart quoted inner with
      | some p => .ok (p, rest)
      | none => .error "Bad substitution"
  | c :: rest =>
    if isNameStart c then
      .ok (.parameter (.variable (String.ofList (cs.takeWhile isNameChar))) .keep quoted,
        cs.dropWhile isNameChar)
    else
      match specialParameter c with
      | some p => .ok (.parameter p .keep quoted, rest)
      | none => .ok (.text ['$'] quoted, cs)
  | [] => .ok (.text ['$'] quoted, [])

/-- The command between backquotes, where a backslash before one of three characters is dropped. -/
def unescapeBackquoted : List Char → List Char
  | '\\' :: c :: cs =>
    if c == backquote || c == '\\' || c == '$' then c :: unescapeBackquoted cs
    else '\\' :: c :: unescapeBackquoted cs
  | c :: cs => c :: unescapeBackquoted cs
  | [] => []

/-- Parts between double quotes, up to the closing quote; or up to the end, for a text that has none
around it. -/
def quotedParts (closing : Bool) : Nat → List Char → Except String (Word × List Char)
  | 0, _ => .error unterminated
  | _, [] => if closing then .error unterminated else .ok ([], [])
  | fuel + 1, c :: cs =>
    let more (p : Part) (rest : List Char) := do
      let (w, rest) ← quotedParts closing fuel rest
      return (p :: w, rest)
    if c == '"' && closing then .ok ([], cs)
    else if c == '\\' then
      match cs with
      | [] => more (.text [c] true) []
      | d :: ds =>
        if d == '\n' then quotedParts closing fuel ds
        else if d == '$' || d == backquote || d == '"' || d == '\\' then more (.text [d] true) ds
        else more (.text [c] true) cs
    else if c == '$' then do
      let (p, rest) ← dollarPart true cs
      more p rest
    else if c == backquote then
      match skipQuoted backquote cs with
      | none => .error "EOF in backquote substitution"
      | some (inner, rest) => more (.output (unescapeBackquoted inner) true) rest
    else more (.text [c] true) cs

/-- Does the character end an unquoted word? -/
def endsWord (c : Char) : Bool :=
  c == ' ' || c == '\t' || c == '\n' || c == ';' || c == '&' || c == '|' || c == '<' || c == '>' ||
  c == '(' || c == ')'

/-- The parts of a word, and the text after it. -/
def wordParts : Nat → List Char → Except String (Word × List Char)
  | 0, _ => .error unterminated
  | _, [] => .ok ([], [])
  | fuel + 1, c :: cs =>
    let more (ps : Word) (rest : List Char) := do
      let (w, rest) ← wordParts fuel rest
      return (ps ++ w, rest)
    if endsWord c then .ok ([], c :: cs)
    else if c == '\\' then
      match cs with
      | [] => more [.text [c] true] []
      | d :: ds => if d == '\n' then wordParts fuel ds else more [.text [d] true] ds
    else if c == '\'' then
      match skipQuoted c cs with
      | none => .error unterminated
      | some (inner, rest) => more [.text inner true] rest
    else if c == '"' then do
      let (w, rest) ← quotedParts true (cs.length + 1) cs
      more (.text [] true :: w) rest
    else if c == '$' then do
      let (p, rest) ← dollarPart false cs
      more [p] rest
    else if c == backquote then
      match skipQuoted backquote cs with
      | none => .error "EOF in backquote substitution"
      | some (inner, rest) => more [.output (unescapeBackquoted inner) false] rest
    else more [.text [c] false] cs

/-- The operators, longer ones before those that open them. -/
def operators : List String := ["&&", "||", ";;", ";", "&", "|", "(", ")", "\n"]

/-- The redirections, longer ones before those that open them. -/
def redirections : List String := [">>", ">&", "<&", ">|", "<", ">"]

/-- The first of the given texts that opens the other text, and what follows it. -/
def openedBy (texts : List String) (cs : List Char) : Option (String × List Char) :=
  (texts.find? fun t => t.toList.isPrefixOf cs).map fun t => (t, cs.drop t.length)

/-- The next token, and the text after it. -/
def nextToken (cs : List Char) : Token × List Char :=
  match openedBy operators cs with
  | some (s, rest) => (.operator s, rest)
  | none =>
    let digits := cs.takeWhile Char.isDigit
    match openedBy redirections (cs.drop digits.length) with
    | some (s, rest) =>
      (.redirect (if digits.isEmpty then none else some (digitsValue digits)) s, rest)
    | none =>
      match wordParts (cs.length + 1) cs with
      | .ok (w, rest) => (.word (Word.merge w), rest)
      | .error reason => (.broken reason, [])

/-- Skips blanks, comments and lines that are continued. -/
def skipBlanks : List Char → List Char
  | [] => []
  | '\\' :: '\n' :: cs => skipBlanks cs
  | c :: cs =>
    if c == ' ' || c == '\t' then skipBlanks cs
    else if c == '#' then cs.dropWhile (· != '\n')
    else c :: cs

/-- The tokens of a text, each with the number of the line it ends on. -/
def tokensFrom : Nat → Nat → List Char → List (Nat × Token)
  | 0, _, _ => []
  | fuel + 1, line, cs =>
    let start := skipBlanks cs
    if start.isEmpty then []
    else
      let (t, rest) := nextToken start
      let consumed := cs.take (cs.length - rest.length)
      let breaks := consumed.count '\n'
      let here := if t == .operator "\n" then line + breaks - 1 else line + breaks
      (here, t) :: tokensFrom fuel (line + breaks) rest

/-- The tokens of a script. -/
def tokens (script : List Char) : List (Nat × Token) := tokensFrom (script.length + 1) 1 script

end ExportDesk.Shell
