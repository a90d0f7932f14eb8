import ExportDesk.Shell.Command
import ExportDesk.Shell.Expansion
import ExportDesk.Shell.Program

/-!
# Running a shell script

Commands act on the machine one after the other. Every definition takes an allowance of steps; a
script that uses it up stops.
-/

namespace ExportDesk.Shell

open Text

/-- Ends the script because something in it makes no sense. -/
def abandon {α : Type} (message : String) : Action α := do
  Action.complain message
  throw (.exit 2)

/-- Runs an action whose failure is looked at, so that it never ends the script. -/
def testing (a : Action Unit) : Action Bool := do
  let before := (← get).tested
  modify fun m => { m with tested := true }
  a
  modify fun m => { m with tested := before }
  return (← get).status == 0

/-- Ends a strict script if its last command failed. -/
def checkStrict : Action Unit := do
  let m ← get
  if m.strict && !m.tested && m.status != 0 then throw (.exit m.status)

/-- Runs the body of a loop. Tells whether the loop goes on. -/
def loopBody (a : Action Unit) : Action Bool := fun m =>
  match (a.run m : Except Stop Unit × Machine) with
  | (.ok (), m) => (.ok true, m)
  | (.error (.leave n), m) => if n ≤ 1 then (.ok false, m) else (.error (.leave (n - 1)), m)
  | (.error (.again n), m) => if n ≤ 1 then (.ok true, m) else (.error (.again (n - 1)), m)
  | (.error e, m) => (.error e, m)

/-- Runs an action and puts the streams back afterwards. -/
def keepingStreams (inputToo : Bool) (a : Action Unit) : Action Unit := do
  let before ← get
  try a
  finally
    modify fun m =>
      { m with targets := before.targets, input := if inputToo then before.input else m.input }

/-- A text as a whole number that is not negative. -/
def count? (s : String) : Option Nat :=
  if !s.isEmpty && s.toList.all Char.isDigit then some (digitsValue s.toList) else none

/-- The text shown for a file that cannot be written. -/
def createReason : IoError → String
  | .system 2 => "Directory nonexistent"
  | e => reasonText e

/-- The text shown for a file that cannot be read. -/
def openReason : IoError → String
  | .system 2 => "No such file"
  | e => reasonText e

/-- Signals that do not end a process. -/
def harmlessSignals : List String := ["0", "17", "18", "23", "28", "CHLD", "CONT", "URG", "WINCH"]

/-- The signal and the processes that `kill` is given. -/
def killTargets (args : List String) : String × List String :=
  match args with
  | "-s" :: s :: rest => (s, rest)
  | "--" :: rest => ("15", rest)
  | a :: rest =>
    match a.toList with
    | '-' :: s => (String.ofList s, rest)
    | _ => ("15", args)
  | [] => ("15", [])

def kill (args : List String) : Action Unit := do
  let (signal, targets) := killTargets args
  let signal := if signal.startsWith "SIG" then String.ofList (signal.toList.drop 3) else signal
  if targets.contains (toString processNumber) then
    if harmlessSignals.contains signal then Action.setStatus 0 else throw .killed
  else
    Action.complain "kill: No such process"
    Action.setStatus 1

/-- Reads a line of the input into variables; the last takes what is left of it. -/
def readLine (names : List String) : Action Unit := do
  let m ← get
  let line := m.input.takeWhile (· != 0x0A)
  let rest := m.input.drop line.length
  set { m with input := rest.drop 1 }
  let rec assign : List String → List Char → Action Unit
    | [], _ => return ()
    | [name], cs => Action.setVariable name (trim (String.ofList cs))
    | name :: names, cs => do
      let cs := Arithmetic.skipGaps cs
      let field := cs.takeWhile (!Arithmetic.isGap ·)
      Action.setVariable name (String.ofList field)
      assign names (cs.drop field.length)
  assign (names.filter (!Utility.isOption ·)) (decodeLossyChars line)
  Action.setStatus (if rest.isEmpty then 1 else 0)

/-- Goes to another folder. -/
def changeFolder (args : List String) : Action Unit := do
  let home := (← Action.heldBy "HOME").getD ""
  let folder := args.headD home
  match (← get).files.status (.ofText folder) with
  | .ok (l, .directory) =>
    modify fun m => { m with files := { m.files with current := l }, status := 0 }
  | _ =>
    Action.complain ("cd: can't cd to " ++ folder)
    Action.setStatus 2

/-- Sets options and arguments. -/
def setOptions : List String → Action Unit
  | [] => return ()
  | "--" :: rest => modify fun m => { m with arguments := rest }
  | a :: rest => do
    match a.toList with
    | '-' :: letters =>
      if letters.contains 'e' then modify fun m => { m with strict := true }
      setOptions rest
    | '+' :: letters =>
      if letters.contains 'e' then modify fun m => { m with strict := false }
      setOptions rest
    | _ => modify fun m => { m with arguments := a :: rest }

/-- Splits `name=value`. -/
def binding (a : String) : String × Option String :=
  let name := a.toList.takeWhile (· != '=')
  match a.toList.drop name.length with
  | _ :: value => (String.ofList name, some (String.ofList value))
  | [] => (String.ofList name, none)

/-- The interpreter that the first line of a script names, and the argument given to it. -/
def interpreterLine (content : Bytes) : Option (String × List String) :=
  match content with
  | 0x23 :: 0x21 :: rest =>
    let line := trimChars (decodeLossyChars (rest.takeWhile (· != 0x0A)))
    let program := line.takeWhile (!Arithmetic.isGap ·)
    let argument := trimChars (line.drop program.length)
    if program.isEmpty then none
    else
      some (String.ofList program, if argument.isEmpty then [] else [String.ofList argument])
  | _ => none

/-- The folders that hold the programs. -/
def programFolders : List Location :=
  [[encode "bin"], [encode "usr", encode "bin"], [encode "usr", encode "local", encode "bin"]]

/-- Names of the shell. -/
def shellNames : List String := ["sh", "dash", "bash"]

/-- Is there a program of this name? -/
def isProgram (name : String) : Bool :=
  shellNames.contains name || name == "env" || (Utility.programs.lookup name).isSome

/-- The name of the program at a path, if the path leads into a folder of programs. -/
def programAt? (path : String) : Option String :=
  let p := Path.ofText path
  if p.isAbsolute && programFolders.contains p.segments.dropLast then
    (p.segments.getLast?.bind decode?).filter isProgram
  else none

mutual

/-- The fragments that a part of a word stands for. -/
def expandPart : Nat → Part → Action (List Fragment)
  | 0, _ => throw .exhausted
  | fuel + 1, part => do
    match part with
    | .text s quoted => return [.fixed s quoted]
    | .arithmetic source quoted =>
      let n ← calculate fuel source
      let s := (toString n).toList
      return [if quoted then .fixed s true else .loose s]
    | .output source quoted =>
      let bytes ← Action.collecting (Action.apart (runSource fuel source))
      let s := dropLineEnds ((decodeLossyChars bytes).filter (· != Char.ofNat 0))
      return [if quoted then .fixed s true else .loose s]
    | .parameter p change quoted =>
      let m ← get
      let fragment (s : String) : Fragment :=
        if quoted then .fixed s.toList true else .loose s.toList
      let value := m.value? p
      let isSet (orEmpty : Bool) : Bool := value.any fun v => !(orEmpty && v.isEmpty)
      match change with
      | .keep =>
        match p with
        | .arguments => return Fragment.separate quoted m.arguments
        | .argumentsJoined =>
          return if quoted then [fragment (" ".intercalate m.arguments)]
            else Fragment.separate false m.arguments
        | _ => return [fragment (value.getD "")]
      | .length => return [fragment (toString (value.getD "").length)]
      | .otherwise orEmpty source =>
        if isSet orEmpty then return [fragment (value.getD "")]
        else expandSource fuel quoted source
      | .whenSet orEmpty source =>
        if isSet orEmpty then expandSource fuel quoted source else return [fragment ""]
      | .assign orEmpty source =>
        if isSet orEmpty then return [fragment (value.getD "")]
        else
          let s := String.ofList (Fragment.text (← expandSource fuel quoted source))
          match p with
          | .variable name => Action.setVariable name s
          | _ => abandon "Bad substitution"
          return [fragment s]
      | .dropEnd longest source =>
        let cs := (value.getD "").toList
        let taken := endTaken longest (Fragment.pattern (← expandSource fuel false source)) cs
        return [fragment (String.ofList (cs.take (cs.length - taken.getD 0)))]
      | .dropStart longest source =>
        let cs := (value.getD "").toList
        let taken := startTaken longest (Fragment.pattern (← expandSource fuel false source)) cs
        return [fragment (String.ofList (cs.drop (taken.getD 0)))]

/-- The fragments of a text that stands inside another word. -/
def expandSource : Nat → Bool → List Char → Action (List Fragment)
  | 0, _, _ => throw .exhausted
  | fuel + 1, quoted, source => do
    let parts :=
      if quoted then quotedParts false (source.length + 1) source
      else
        -- blanks do not end the text here
        source.foldl (fun acc c => acc ++ (if endsWord c then ['\\', c] else [c])) []
          |> fun cs => wordParts (cs.length + 1) cs
    match parts with
    | .ok (w, _) => expandWord fuel w
    | .error reason => abandon reason

/-- The fragments of a word. -/
def expandWord : Nat → Word → Action (List Fragment)
  | 0, _ => throw .exhausted
  | _, [] => return []
  | fuel + 1, p :: ps => do
    let now ← expandPart fuel p
    return now ++ (← expandWord fuel ps)

/-- A word as one text. -/
def expandText : Nat → Word → Action String
  | 0, _ => throw .exhausted
  | fuel + 1, w => return String.ofList (Fragment.text (← expandWord fuel w))

/-- The fields of words. -/
def expandFields : Nat → List Word → Action (List String)
  | 0, _ => throw .exhausted
  | _, [] => return []
  | fuel + 1, w :: ws => do
    let now := Fragment.fields (← expandWord fuel w)
    return now ++ (← expandFields fuel ws)

/-- The value of an arithmetic expression. -/
def calculate : Nat → List Char → Action Int
  | 0, _ => throw .exhausted
  | fuel + 1, source => do
    let cs := Fragment.text (← expandSource fuel true source)
    let m ← get
    let values : Arithmetic.Values := fun name => m.bindings.lookup name
    let evaluated (cs : List Char) : Action Int := do
      match Arithmetic.evaluate values cs with
      | .ok n => return n
      | .error reason =>
        abandon ("arithmetic expression: " ++ reason ++ ": \"" ++ String.ofList cs ++ "\"")
    match Arithmetic.assignment? cs with
    | none => evaluated cs
    | some (name, operator, rest) =>
      let n ← evaluated rest
      let n ← do
        if operator == "=" then pure n
        else
          let old ← evaluated name.toList
          match Arithmetic.apply (String.ofList operator.toList.dropLast) old n with
          | .ok n => pure n
          | .error reason => abandon ("arithmetic expression: " ++ reason)
      Action.setVariable name (toString n)
      return n

/-- Sets the variables of assignments. -/
def assignAll : Nat → List (String × Word) → Action Unit
  | 0, _ => throw .exhausted
  | _, [] => return ()
  | fuel + 1, (name, w) :: rest => do
    Action.setVariable name (← expandText fuel w)
    assignAll fuel rest

/-- Opens the streams of redirections. Tells whether all could be opened. -/
def redirectAll : Nat → List Redirection → Action Bool
  | 0, _ => throw .exhausted
  | _, [] => return true
  | fuel + 1, r :: rest => do
    let point (fd : Nat) (t : Target) : Action Unit :=
      modify fun m => { m with targets := (fd, t) :: m.targets.filter (·.1 != fd) }
    match r with
    | .write fd append word =>
      let name ← expandText fuel word
      if name == nullDevice then
        point fd .nowhere
        redirectAll fuel rest
      else
        let p := Path.ofText name
        let keep := append && ((← get).files.fileAt? p).isSome
        match ← (if keep then return .ok () else Action.change (·.create p)) with
        | .ok () =>
          point fd (.file p)
          redirectAll fuel rest
        | .error e =>
          Action.complain ("cannot create " ++ name ++ ": " ++ createReason e)
          return false
    | .read word =>
      let name ← expandText fuel word
      if name == nullDevice then
        modify fun m => { m with input := [] }
        redirectAll fuel rest
      else
        match (← get).files.read (.ofText name) with
        | .ok bs =>
          modify fun m => { m with input := bs }
          redirectAll fuel rest
        | .error e =>
          Action.complain ("cannot open " ++ name ++ ": " ++ openReason e)
          return false
    | .duplicate fd word =>
      let source ← expandText fuel word
      if source == "-" then
        modify fun m => { m with targets := m.targets.filter (·.1 != fd) }
        redirectAll fuel rest
      else
        let targets := (← get).targets
        match (count? source).bind fun n => targets.lookup n with
        | some t =>
          point fd t
          redirectAll fuel rest
        | none =>
          if fd == 0 then redirectAll fuel rest
          else
            Action.complain (source ++ ": Bad file descriptor")
            return false

/-- Runs a command. -/
def run : Nat → Command → Action Unit
  | 0, _ => throw .exhausted
  | fuel + 1, c => do
    match c with
    | .nothing => return ()
    | .simple line assignments words =>
      modify fun m => { m with line }
      let fields ← expandFields fuel words
      match fields with
      | [] =>
        assignAll fuel assignments
        let substituted := (words ++ assignments.map (·.2)).any fun w =>
          w.any fun | .output _ _ => true | _ => false
        if !substituted then Action.setStatus 0
      | name :: args =>
        let before := (← get).bindings
        assignAll fuel assignments
        runNamed fuel name args
        if !assignments.isEmpty then modify fun m => { m with bindings := before }
      checkStrict
    | .redirected line body changes =>
      modify fun m => { m with line }
      let permanent := match body with
        | .simple _ [] [w] => Word.bare? w == some "exec"
        | _ => false
      if permanent then
        if ← redirectAll fuel changes then Action.setStatus 0 else throw (.exit 2)
      else
        let inputToo := changes.any fun | .read _ => true | _ => false
        keepingStreams inputToo do
          if ← redirectAll fuel changes then run fuel body
          else
            Action.setStatus 2
            checkStrict
    | .negated body =>
      let ok ← testing (run fuel body)
      Action.setStatus (if ok then 1 else 0)
    | .piped source sink =>
      let bytes ← Action.collecting (Action.apart (run fuel source))
      let before := (← get).input
      modify fun m => { m with input := bytes }
      Action.apart (run fuel sink)
      modify fun m => { m with input := before }
      checkStrict
    | .both first second => if ← testing (run fuel first) then run fuel second
    | .either first second => if !(← testing (run fuel first)) then run fuel second
    | .sequence first second =>
      run fuel first
      run fuel second
    | .subshell body =>
      Action.apart (run fuel body)
      checkStrict
    | .choice test yes no =>
      if ← testing (run fuel test) then run fuel yes
      else
        Action.setStatus 0
        run fuel no
    | .loop wanted test body => runLoop fuel wanted test body 0
    | .each name words body =>
      let given := (← get).arguments
      let values ← match words with
        | some ws => expandFields fuel ws
        | none => pure given
      Action.setStatus 0
      runEach fuel name body values
    | .arm subject patterns body rest =>
      let s ← expandText fuel subject
      if ← anyFits fuel s.toList patterns then
        Action.setStatus 0
        run fuel body
      else
        Action.setStatus 0
        run fuel rest

/-- Does one of the patterns fit the text? -/
def anyFits : Nat → List Char → List Word → Action Bool
  | 0, _, _ => throw .exhausted
  | _, _, [] => return false
  | fuel + 1, s, w :: ws => do
    if fits (Fragment.pattern (← expandWord fuel w)) s then return true
    else anyFits fuel s ws

/-- Runs a loop; its status is that of the body's last run. -/
def runLoop : Nat → Bool → Command → Command → Nat → Action Unit
  | 0, _, _, _, _ => throw .exhausted
  | fuel + 1, wanted, test, body, last => do
    if (← testing (run fuel test)) == wanted then
      if ← loopBody (run fuel body) then runLoop fuel wanted test body (← get).status
    else Action.setStatus last

/-- Runs a body for each value of a variable. -/
def runEach : Nat → String → Command → List String → Action Unit
  | 0, _, _, _ => throw .exhausted
  | _, _, _, [] => return ()
  | fuel + 1, name, body, v :: vs => do
    Action.setVariable name v
    if ← loopBody (run fuel body) then runEach fuel name body vs

/-- Runs a command by its name. -/
def runNamed : Nat → String → List String → Action Unit
  | 0, _, _ => throw .exhausted
  | fuel + 1, name, args => do
    match name with
    | "exit" =>
      match args with
      | [] => throw (.exit (← get).status)
      | a :: _ =>
        match count? a with
        | some n => throw (.exit (n % 256))
        | none => abandon ("exit: Illegal number: " ++ a)
    | "kill" => kill args
    | "break" => throw (.leave ((args.head?.bind count?).getD 1))
    | "continue" => throw (.again ((args.head?.bind count?).getD 1))
    | "shift" =>
      let n := (args.head?.bind count?).getD 1
      let m ← get
      if m.arguments.length < n then abandon "shift: can't shift that many"
      else set { m with arguments := m.arguments.drop n, status := 0 }
    | "set" =>
      setOptions args
      Action.setStatus 0
    | "cd" => changeFolder args
    | "pwd" =>
      let m ← get
      Action.write 1 (encode "/" ++ FileSystem.pathOf m.files.current ++ encode "\n")
      Action.setStatus 0
    | "read" => readLine args
    | "eval" =>
      Action.setStatus 0
      runSource fuel (" ".intercalate args).toList
    | "export" | "readonly" | "local" =>
      for a in args do
        match binding a with
        | (key, some value) => Action.setVariable key value
        | _ => pure ()
      Action.setStatus 0
    | "unset" =>
      modify fun m =>
        { m with bindings := m.bindings.filter fun v => !args.contains v.1, status := 0 }
    | "exec" =>
      match args with
      | [] => Action.setStatus 0
      | program :: rest =>
        runNamed fuel program rest
        throw (.exit (← get).status)
    | "command" =>
      match args with
      | [] => Action.setStatus 0
      | program :: rest => runNamed fuel program rest
    | "." =>
      match args with
      | [] => Action.setStatus 0
      | file :: _ =>
        match (← get).files.read (.ofText file) with
        | .ok bs => runSource fuel (decodeLossyChars bs)
        | .error e => abandon (".: cannot open " ++ file ++ ": " ++ openReason e)
    | _ =>
      match Utility.builtins.lookup name with
      | some utility => Action.setStatus (← utility args)
      | none =>
        if name.toList.contains '/' then runPath fuel name args
        else if isProgram name then runProgram fuel name name args
        else
          Action.complain (name ++ ": not found")
          Action.setStatus 127

/-- Runs what stands at a path. -/
def runPath : Nat → String → List String → Action Unit
  | 0, _, _ => throw .exhausted
  | fuel + 1, path, args => do
    match programAt? path with
    | some name => runProgram fuel name path args
    | none =>
      match (← get).files.status (.ofText path) with
      | .ok (_, .file content true) =>
        match interpreterLine content with
        | none => runProgram fuel "sh" path (path :: args)
        | some (program, given) => runPath fuel program (given ++ path :: args)
      | .ok _ =>
        Action.complain (path ++ ": Permission denied")
        Action.setStatus 126
      | .error _ =>
        Action.complain (path ++ ": not found")
        Action.setStatus 127

/-- Runs a program as a process of its own. `self` is the name it was started by. -/
def runProgram : Nat → String → String → List String → Action Unit
  | 0, _, _, _ => throw .exhausted
  | fuel + 1, name, self, args => do
    if shellNames.contains name then
      Action.apart do
        modify fun m =>
          { m with
            name := self, arguments := [], line := 0, strict := false, tested := false, status := 0 }
        runShell fuel args
    else if name == "env" then
      match args.dropWhile fun a => (binding a).2.isSome with
      | [] => Action.setStatus 0
      | program :: rest =>
        if program.toList.contains '/' then runPath fuel program rest
        else if isProgram program then runProgram fuel program program rest
        else
          Action.print 2 ("env: '" ++ program ++ "': No such file or directory\n")
          Action.setStatus 127
    else
      match Utility.programs.lookup name with
      | some utility => Action.setStatus (← utility args)
      | none => Action.setStatus 127

/-- Runs a shell on its own arguments: options, then a script or the name of a file. -/
def runShell : Nat → List String → Action Unit
  | 0, _ => throw .exhausted
  | fuel + 1, args => do
    let options := (args.takeWhile Utility.isOption).takeWhile (· != "--")
    let letters := options.flatMap fun a => a.toList.drop 1
    let rest := args.drop options.length
    let rest := if rest.head? == some "--" then rest.drop 1 else rest
    if letters.contains 'e' then modify fun m => { m with strict := true }
    if letters.contains 'c' then
      match rest with
      | [] => abandon "-c requires an argument"
      | script :: rest =>
        match rest with
        | [] => pure ()
        | name :: arguments => modify fun m => { m with name, arguments }
        runSource fuel script.toList
    else
      match rest with
      | [] =>
        let source := (← get).input
        modify fun m => { m with input := [] }
        runSource fuel (decodeLossyChars source)
      | file :: arguments =>
        match (← get).files.read (.ofText file) with
        | .error e => abandon ("cannot open " ++ file ++ ": " ++ openReason e)
        | .ok content =>
          modify fun m => { m with name := file, arguments }
          runSource fuel (decodeLossyChars content)

/-- Runs a script given as text. -/
def runSource : Nat → List Char → Action Unit
  | 0, _ => throw .exhausted
  | fuel + 1, source => runTokens fuel (source.count '\n' + 1) (tokens source)

/-- Runs the commands of a script. -/
def runTokens : Nat → Nat → Tokens → Action Unit
  | 0, _, _ => throw .exhausted
  | fuel + 1, lastLine, ts => do
    match nextCommand? ts with
    | .error fault =>
      modify fun m => { m with line := if fault.line == 0 then lastLine else fault.line }
      abandon ("Syntax error: " ++ fault.reason)
    | .ok none => return ()
    | .ok (some (c, rest)) =>
      run fuel c
      runTokens fuel lastLine rest

end

end ExportDesk.Shell
