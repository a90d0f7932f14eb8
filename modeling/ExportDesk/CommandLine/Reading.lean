import ExportDesk.CommandLine.Request

/-!
# Reading the command line

The words before the verb and those after it are read by the same rules. A named parameter waits
for its text, and what it was given is looked at only when the next one comes or the words end. So
a word that fits nowhere is reported before a text that makes no sense.
-/

namespace ExportDesk

/-- A word by its dashes. -/
inductive WordForm where
  /-- two dashes: none of the words that follow is a name -/
  | dashes
  /-- a name, with the text that an equals sign ties to it -/
  | long (name : List Char) (text : Option (List Char))
  /-- one-letter names -/
  | short (names : List Char)
  | plain
deriving DecidableEq, Repr

/-- The form of a word. A dash alone is plain. -/
def WordForm.of : List Char → WordForm
  | ['-', '-'] => .dashes
  | '-' :: '-' :: cs =>
    .long (cs.takeWhile (· != '=')) <|
      match cs.dropWhile (· != '=') with
      | [] => none
      | _ :: text => some text
  | '-' :: c :: cs => .short (c :: cs)
  | _ => .plain

/-- The part of the command line that is read. -/
inductive Part where
  | beforeVerb
  | afterVerb (v : Verb)
deriving DecidableEq, Repr

namespace Part

/-- The named parameters. -/
def parameters : Part → List Parameter
  | beforeVerb => Parameter.general
  | afterVerb v => (if v.takesExport then Parameter.ofExport else []) ++ Parameter.general

def parameter? (part : Part) (name : String) : Option Parameter :=
  part.parameters.find? fun p => p.name == name

/-- Is there a place for an input? -/
def takesInput : Part → Bool
  | beforeVerb => false
  | afterVerb v => v.takesExport

/-- The verb that the part belongs to. -/
def verb? : Part → Option Verb
  | beforeVerb => none
  | afterVerb v => some v

/-- The names that ask about the program instead of giving it something to do. -/
def inquiry? : Part → String → Option Halt
  | part, "help" => some (.helpWanted part.verb?)
  | .beforeVerb, "version" => some .versionWanted
  | _, _ => none

/-- The same by one letter. -/
def shortInquiry? : Part → Char → Option Halt
  | part, 'h' => some (.helpWanted part.verb?)
  | .beforeVerb, 'V' => some .versionWanted
  | _, _ => none

end Part

/-- The verb that asks for help. -/
def helpVerb : String := "help"

/-- Where the reading of a part stands. -/
structure Reading where
  given : Given := {}
  /-- the parameter that came last, with its text as soon as that has come -/
  pending : Option (Parameter × Option String) := none
  /-- no more names -/
  unnamed : Bool := false
deriving DecidableEq, Repr, Inhabited

namespace Reading

/-- The parameter that waits for its text. -/
def awaiting (r : Reading) : Option Parameter :=
  match r.pending with
  | some (p, none) => some p
  | _ => none

/-- Looks at what came last. -/
def settle (r : Reading) : Except Halt Reading :=
  match r.pending with
  | none => .ok r
  | some (p, none) => .error (.textMissing p)
  | some (p, some text) => do return { r with given := ← r.given.give p text, pending := none }

/-- Takes a parameter whose text is known. -/
def take (r : Reading) (p : Parameter) (text : String) : Except Halt Reading := do
  let r ← r.settle
  return { r with given := ← r.given.give p text }

/-- Takes a parameter whose text may still come. -/
def hold (r : Reading) (p : Parameter) (text : Option String) : Except Halt Reading := do
  return { ← r.settle with pending := some (p, text) }

/-- Has an input come? -/
def hasInput (r : Reading) : Bool :=
  r.given.has .input ||
    match r.pending with
    | some (p, _) => p == .input
    | none => false

/-! ## One word -/

/-- Answers an inquiry, unless what came before it is wrong. -/
def inquire (r : Reading) (h : Halt) : Except Halt Reading := do
  let _ ← r.settle
  throw h

/-- Takes a name, and the text tied to it. -/
def takeName (part : Part) (r : Reading) (name : String) (text : Option String) :
    Except Halt Reading :=
  match part.inquiry? name, part.parameter? name, text with
  | some _, _, some _ => .error (.surplusText name)
  | some h, _, none => r.inquire h
  | none, none, _ => .error (.unknownArgument ("--" ++ name))
  | none, some p, some text =>
    if p.takesText then r.take p text else .error (.surplusText name)
  | none, some p, none => if p.takesText then r.hold p none else r.take p ""

/-- Takes one-letter names; all there are ask about the program. -/
def takeShort (part : Part) (r : Reading) : List Char → Except Halt Reading
  | [] => .ok r
  | c :: _ =>
    match part.shortInquiry? c with
    | some h => r.inquire h
    | none => .error (.unknownArgument (String.ofList ['-', c]))

/-- Takes a word that stands alone. -/
def takePlain (part : Part) (r : Reading) (word : String) : Except Halt Reading :=
  if part.takesInput && !r.hasInput then r.hold .input (some word)
  else if part == .beforeVerb && !(r.unnamed && (word == helpVerb || (Verb.ofName? word).isSome))
  then .error (.unknownVerb word)
  else .error (.unknownArgument word)

/-- Takes a word by its form. -/
def takeForm (part : Part) (r : Reading) (word : String) : WordForm → Except Halt Reading
  | .dashes => .ok { r with unnamed := true }
  | .long name text => r.takeName part (String.ofList name) (text.map String.ofList)
  | .short names => r.takeShort part names
  | .plain => r.takePlain part word

/-- Takes a word that is no verb. -/
def takeWord (part : Part) (r : Reading) (word : String) : Except Halt Reading :=
  let form := WordForm.of word.toList
  if r.unnamed then r.takePlain part word
  else
    match r.awaiting with
    | some p =>
      if p.takesDash || form == .plain then .ok { r with pending := some (p, some word) }
      else r.takeForm part word form
    | none => r.takeForm part word form

/-! ## All words -/

/-- Does a word stand where a verb may stand? -/
def mayEnd (part : Part) (r : Reading) : Bool :=
  part == .beforeVerb && !r.unnamed && r.awaiting.isNone

/-- What the verb for help leads to: the words after it must name one verb or none. -/
def helpOn : List String → Halt
  | [] => .helpWanted none
  | word :: rest =>
    match rest, Verb.ofName? word with
    | [], some v => .helpWanted (some v)
    | [], none => if word == helpVerb then .helpWanted none else .unknownVerb word
    | next :: _, some _ => .unknownVerb next
    | next :: _, none => .unknownVerb (if word == helpVerb then next else word)

/-- Reads the words of a part, up to a verb. -/
def readWords (part : Part) (r : Reading) :
    List String → Except Halt (Reading × Option (Verb × List String))
  | [] => .ok (r, none)
  | word :: rest =>
    if mayEnd part r && word == helpVerb then .error (helpOn rest)
    else
      match (if mayEnd part r then Verb.ofName? word else none) with
      | some v => .ok (r, some (v, rest))
      | none => do readWords part (← r.takeWord part word) rest

end Reading

/-- What the words after a verb give. -/
def Given.ofWords (v : Verb) (words : List String) : Except Halt Given := do
  let (r, _) ← Reading.readWords (.afterVerb v) {} words
  return (← r.settle).given

/-- The request that a command line makes. -/
def Request.ofWords (words : List String) : Except Halt Request := do
  match ← Reading.readWords .beforeVerb {} words with
  | (r, none) =>
    let g := (← r.settle).given
    throw (if g.isEmpty then .nothingGiven else .verbMissing)
  | (r, some (v, rest)) =>
    let after ← Given.ofWords v rest
    return (← r.settle).given.request after v

end ExportDesk
