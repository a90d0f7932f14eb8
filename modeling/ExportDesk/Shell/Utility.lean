import ExportDesk.Shell.Machine

/-!
# Utilities

The small programs that scripts are made of. Each takes its arguments and gives its status.
-/

namespace ExportDesk.Shell

open Text

/-- A program that needs nothing but the state of the script that runs it. -/
abbrev Utility := List String → Action Nat

namespace Utility

/-- Is the argument a group of options? -/
def isOption (a : String) : Bool :=
  match a.toList with
  | '-' :: _ :: _ => true
  | _ => false

/-- The letters of the options, and the other arguments; an option that is not known is given
instead. -/
def split (known : List Char) : List String → Except String (List Char × List String)
  | [] => .ok ([], [])
  | "--" :: rest => .ok ([], rest)
  | a :: rest => do
    if isOption a then
      let letters := a.toList.drop 1
      if letters.head? == some '-' then throw ("unrecognized option '" ++ a ++ "'")
      match letters.find? (!known.contains ·) with
      | some c => throw ("invalid option -- '" ++ String.singleton c ++ "'")
      | none =>
        let (ls, others) ← split known rest
        return (letters ++ ls, others)
    else
      let (ls, others) ← split known rest
      return (ls, a :: others)

/-- Where to read on after a wrong use of a utility. -/
def hint (name : String) : String := "\nTry '" ++ name ++ " --help' for more information.\n"

/-- Runs a utility on its options and other arguments; one that is not known ends it. -/
def withOptions (name : String) (known : List Char) (args : List String)
    (run : List Char → List String → Action Nat) : Action Nat := do
  match split known args with
  | .ok (letters, others) => run letters others
  | .error reason =>
    Action.print 2 (name ++ ": " ++ reason ++ hint name)
    return 1

/-- Runs an action for every argument; the status tells whether one of them failed. -/
def forEach (args : List String) (run : String → Action Bool) : Action Nat := do
  let mut status := 0
  for a in args do
    if !(← run a) then status := 1
  return status

/-- Reports a failure, if there was one. -/
def report (before : String) : Except IoError Unit → Action Bool
  | .ok () => return true
  | .error e => do
    Action.print 2 (before ++ ": " ++ reasonText e ++ "\n")
    return false

/-- Says that an operand is missing. -/
def missing (name : String) (what : String := "operand") : Action Nat := do
  Action.print 2 (name ++ ": missing " ++ what ++ hint name)
  return 1

/-- The bytes that an operand stands for: a dash means the input, which is then used up. -/
def content (a : String) : Action (Except IoError Bytes) := do
  let m ← get
  if a == "-" then
    set { m with input := [] }
    return .ok m.input
  else if a == nullDevice then return .ok []
  else return m.files.read (.ofText a)

def cat : Utility := fun args =>
  withOptions "cat" ['u'] args fun _ names => do
    forEach (if names.isEmpty then ["-"] else names) fun a => do
      match ← content a with
      | .ok bs =>
        Action.write 1 bs
        return true
      | .error e => report ("cat: " ++ a) (.error e)

def mkdir : Utility := fun args =>
  withOptions "mkdir" ['p', 'v'] args fun letters names => do
    if names.isEmpty then missing "mkdir"
    else
      forEach names fun a => do
        let before := "mkdir: cannot create directory '" ++ a ++ "'"
        if letters.contains 'p' then
          report before (← Action.disk (Disk.makeDirectoryAll (.ofText a)))
        else report before (← Action.change (·.makeDirectory (.ofText a)))

def touch : Utility := fun args =>
  withOptions "touch" ['c', 'a', 'm'] args fun letters names => do
    if names.isEmpty then missing "touch" "file operand"
    else
      forEach names fun a => do
        if (← get).files.exists? (.ofText a) || letters.contains 'c' then return true
        else report ("touch: cannot touch '" ++ a ++ "'") (← Action.change (·.create (.ofText a)))

def rm : Utility := fun args =>
  withOptions "rm" ['f', 'r', 'R', 'v'] args fun letters names => do
    let force := letters.contains 'f'
    let deep := letters.contains 'r' || letters.contains 'R'
    if names.isEmpty then (if force then return 0 else missing "rm")
    else
      forEach names fun a => do
        if force && !(← get).files.exists? (.ofText a) then return true
        else
          report ("rm: cannot remove '" ++ a ++ "'")
            (← Action.change fun fs =>
              if deep then fs.removeAll (.ofText a) else fs.removeFile (.ofText a))

/-- Removes a directory that holds nothing. -/
def removeEmpty (fs : FileSystem) (p : Path) : Except IoError FileSystem := do
  match ← fs.status p with
  | (_, .file _ _) => .error .notADirectory
  | (l, .directory) =>
    if fs.entries.any fun e => l.isPrefixOf e.1 && e.1 != l then .error .directoryNotEmpty
    else fs.removeAll p

def rmdir : Utility := fun args =>
  withOptions "rmdir" [] args fun _ names => do
    if names.isEmpty then missing "rmdir"
    else
      forEach names fun a => do
        report ("rmdir: failed to remove '" ++ a ++ "'")
          (← Action.change (removeEmpty · (.ofText a)))

/-- Where something goes that is given a target: into the target, if that is a directory. -/
def placeIn (fs : FileSystem) (source target : Path) : Path :=
  if fs.isDirectory target then
    match source.fileName with
    | some name => target.join ⟨name⟩
    | none => target
  else target

/-- Copies a file. -/
def copyFile (fs : FileSystem) (source target : Path) : Except IoError FileSystem := do
  let content ← fs.read source
  let fs ← fs.create target
  fs.append target content

/-- Runs an action for every source and the target that stands behind them. -/
def ontoLast (name : String) (names : List String)
    (run : String → String → Action Bool) : Action Nat := do
  match names.getLast? with
  | none => missing name "file operand"
  | some target =>
    if names.length < 2 then
      missing name ("destination file operand after '" ++ target ++ "'")
    else forEach names.dropLast fun a => run a target

def cp : Utility := fun args =>
  withOptions "cp" ['f', 'p', 'v'] args fun _ names =>
    ontoLast "cp" names fun a b => do
      let fs := (← get).files
      let target := placeIn fs (.ofText a) (.ofText b)
      match fs.status (.ofText a) with
      | .error e => report ("cp: cannot stat '" ++ a ++ "'") (.error e)
      | .ok (_, .directory) =>
        Action.print 2 ("cp: -r not specified; omitting directory '" ++ a ++ "'\n")
        return false
      | .ok _ =>
        report ("cp: cannot create regular file '" ++ target.display ++ "'")
          (← Action.change (copyFile · (.ofText a) target))

def mv : Utility := fun args =>
  withOptions "mv" ['f', 'v'] args fun _ names =>
    ontoLast "mv" names fun a b => do
      let fs := (← get).files
      let target := placeIn fs (.ofText a) (.ofText b)
      match fs.status (.ofText a) with
      | .error e => report ("mv: cannot stat '" ++ a ++ "'") (.error e)
      | .ok _ =>
        report ("mv: cannot move '" ++ a ++ "' to '" ++ target.display ++ "'")
          (← Action.change (·.rename (.ofText a) target))

/-- Does a mode make a file a program, or take that away? `none` if the mode says nothing of it. -/
def modeRuns? (mode : List Char) : Option Bool :=
  if mode.all Char.isDigit then some (mode.any fun d => d.toNat % 2 == 1)
  else if mode.getLast? != some 'x' then none
  else some (mode.contains '+' || mode.contains '=')

/-- Makes a file a program, or a plain file. -/
def setRuns (fs : FileSystem) (p : Path) (runs : Option Bool) : Except IoError FileSystem := do
  match ← fs.status p, runs with
  | (l, .file content _), some x => return fs.put l (.file content x)
  | _, _ => return fs

def chmod : Utility := fun args => do
  match args with
  | mode :: names =>
    if names.isEmpty then missing "chmod"
    else
      forEach names fun a => do
        report ("chmod: cannot access '" ++ a ++ "'")
          (← Action.change (setRuns · (.ofText a) (modeRuns? mode.toList)))
  | [] => missing "chmod"

def ls : Utility := fun args =>
  withOptions "ls" ['1', 'a', 'A'] args fun _ names => do
    let status ← forEach (if names.isEmpty then ["."] else names) fun a => do
      let fs := (← get).files
      match fs.status (.ofText a) with
      | .error e =>
        Action.print 2 ("ls: cannot access '" ++ a ++ "': " ++ reasonText e ++ "\n")
        return false
      | .ok (_, .file _ _) =>
        Action.print 1 (a ++ "\n")
        return true
      | .ok (l, .directory) =>
        let inside := ({ fs with current := l } : FileSystem).listing.filter fun (p, _) =>
          !p.bytes.contains Path.separator && p.bytes.head? != some Path.dot
        Action.write 1 (inside.flatMap fun (p, _) => p.bytes ++ encode "\n")
        return true
    return if status == 0 then 0 else 2

/-- The whole numbers from the first to the last in steps. -/
def numbers (first step last : Int) : List Int :=
  if step == 0 then []
  else
    let count := Int.tdiv (last - first) step
    if (last - first) * step < 0 then []
    else (List.range (count.toNat + 1)).map fun (k : Nat) => first + step * k

def seq : Utility := fun args => do
  match args.map String.toInt? with
  | [some last] => printAll (numbers 1 1 last)
  | [some first, some last] => printAll (numbers first 1 last)
  | [some first, some step, some last] => printAll (numbers first step last)
  | _ => missing "seq"
where
  /-- Prints numbers, one per line. -/
  printAll (ns : List Int) : Action Nat := do
    Action.print 1 (String.join (ns.map fun n => toString n ++ "\n"))
    return 0

def basename : Utility := fun args => do
  match args with
  | [] => missing "basename"
  | a :: rest =>
    let name := match (Path.ofText a).segments.getLast? with | some s => s | none => encode a
    let ending := encode (rest.headD "")
    let name :=
      if ending.isSuffixOf name && ending.length < name.length then
        name.take (name.length - ending.length)
      else name
    Action.write 1 (name ++ encode "\n")
    return 0

def dirname : Utility := fun args => do
  match args with
  | [] => missing "dirname"
  | a :: _ =>
    let folder := match (Path.ofText a).parent with | some p => p.bytes | none => encode a
    Action.write 1 ((if folder.isEmpty then encode "." else folder) ++ encode "\n")
    return 0

/-- Prints its arguments; only an option asks for escapes. -/
def plainEcho : Utility := fun args => do
  let isOption (a : String) : Bool :=
    match a.toList with
    | '-' :: c :: cs => (c :: cs).all fun c => c == 'n' || c == 'e' || c == 'E'
    | _ => false
  let options := (args.takeWhile isOption).flatMap fun a => a.toList.drop 1
  let text := " ".intercalate (args.dropWhile isOption)
  let escapes := (options.filter (· != 'n')).getLast? == some 'e'
  let (bs, more) :=
    if escapes then Format.echoed (text.length + 1) text.toList else (encode text, true)
  Action.write 1 (if options.contains 'n' || !more then bs else bs ++ encode "\n")
  return 0

/-- The `echo` of a script: escapes always count. -/
def echo : Utility := fun args => do
  let (newline, args) := match args with | "-n" :: rest => (false, rest) | _ => (true, args)
  let text := " ".intercalate args
  let (bs, more) := Format.echoed (text.length + 1) text.toList
  Action.write 1 (if newline && more then bs ++ encode "\n" else bs)
  return 0

def printf : Utility := fun args => do
  match (if args.head? == some "--" then args.drop 1 else args) with
  | [] =>
    Action.complain "printf: usage: printf format [arg ...]"
    return 2
  | format :: rest =>
    let r := Format.run format rest
    Action.write 1 r.output
    for (argument, reason) in r.complaints do
      Action.complain ("printf: " ++ argument ++ ": " ++ reason)
    return if r.complaints.isEmpty then 0 else 1

/-- Is what a test of one argument asks for true? -/
def testOne (fs : FileSystem) (operator a : String) : Option Bool :=
  let p := Path.ofText a
  match operator with
  | "-n" => some (!a.isEmpty)
  | "-z" => some a.isEmpty
  | "-e" => some (fs.exists? p)
  | "-f" => some (fs.fileAt? p).isSome
  | "-d" => some (fs.isDirectory p)
  | "-r" => some (fs.exists? p)
  | "-w" => some (fs.exists? p)
  | "-s" =>
    some (match fs.status p with | .ok (_, .file c _) => !c.isEmpty | .ok _ => true | _ => false)
  | "-x" =>
    some (match fs.status p with | .ok (_, .file _ x) => x | .ok _ => true | _ => false)
  | "-L" => some false
  | "-h" => some false
  | _ => none

/-- Is what a test of two arguments asks for true? A text that is no number is given instead. -/
def testTwo (a operator b : String) : Except String (Option Bool) :=
  let numbers (f : Int → Int → Bool) : Except String (Option Bool) := do
    match (trim a).toInt?, (trim b).toInt? with
    | some x, some y => return some (f x y)
    | none, _ => throw a
    | _, none => throw b
  match operator with
  | "=" => .ok (some (a == b))
  | "==" => .ok (some (a == b))
  | "!=" => .ok (some (a != b))
  | "-eq" => numbers (· == ·)
  | "-ne" => numbers (· != ·)
  | "-lt" => numbers (· < ·)
  | "-le" => numbers (· ≤ ·)
  | "-gt" => numbers (· > ·)
  | "-ge" => numbers (· ≥ ·)
  | _ => .ok none

/-- The list cut at the first place where the word stands inside it. -/
def cutAt (word : String) (args : List String) : Option (List String × List String) :=
  let before := args.takeWhile (· != word)
  if before.isEmpty || before.length + 1 ≥ args.length then none
  else some (before, args.drop (before.length + 1))

/-- The value of a test. -/
def testValue (fs : FileSystem) : Nat → List String → Except String Bool
  | 0, _ => .error "too many arguments"
  | fuel + 1, args =>
    match args with
    | [] => .ok false
    | [a] => .ok (!a.isEmpty)
    | ["!", a] => .ok a.isEmpty
    | [o, a] =>
      match testOne fs o a with
      | some b => .ok b
      | none => .error (o ++ ": unexpected operator")
    | _ =>
      let other : Except String Bool :=
        match args with
        | "!" :: rest => (testValue fs fuel rest).map (!·)
        | "(" :: rest =>
          if rest.getLast? == some ")" then testValue fs fuel rest.dropLast
          else .error "closing paren expected"
        | _ =>
          match cutAt "-o" args with
          | some (a, b) => do return (← testValue fs fuel a) || (← testValue fs fuel b)
          | none =>
            match cutAt "-a" args with
            | some (a, b) => do return (← testValue fs fuel a) && (← testValue fs fuel b)
            | none => .error (args.headD "" ++ ": unexpected operator")
      match args with
      | [a, o, b] =>
        match testTwo a o b with
        | .ok (some v) => .ok v
        | .error text => .error ("Illegal number: " ++ text)
        | .ok none => other
      | _ => other

def test : Utility := fun args => do
  match testValue (← get).files (args.length + 1) args with
  | .ok true => return 0
  | .ok false => return 1
  | .error reason =>
    Action.complain ("[: " ++ reason)
    return 2

/-- `test` with a bracket behind its arguments. -/
def bracket : Utility := fun args => do
  if args.getLast? == some "]" then test args.dropLast
  else
    Action.complain "[: missing ]"
    return 2

end Utility

end ExportDesk.Shell
