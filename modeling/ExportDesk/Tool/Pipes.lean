import ExportDesk.Tool.Lines
import ExportDesk.Tool.Tail

/-!
# Lines on their way to the observer

Two readers, one for each stream of a running program, put their lines into one queue; the observer
takes them out and keeps the last of each stream. The queue has room for a fixed number of lines,
and a reader that finds it full has to wait. A reader that has sent everything leaves. The order in
which the three act is not fixed. A run is over when both readers have left and the queue is empty,
and its outcome goes by the lines that were kept.
-/

namespace ExportDesk

open Text

/-- How many lines the queue has room for. -/
def queueCapacity : Nat := 64

/-- The texts of the lines of a whole stream. -/
def lineTexts (data : Bytes) : List String := (wholeChunks data).map decodeLossy

/-- What concerns one stream: its lines that its reader has not sent, whether the reader is still
there, and the lines that the observer has kept. -/
structure Lane where
  unsent : List String
  isOpen : Bool := true
  tail : Tail
deriving DecidableEq, Repr

/-- The lines of a program's output, by how far they have come. -/
structure Pipes where
  out : Lane
  err : Lane
  queue : List OutputLine := []
  observed : List OutputLine := []
deriving DecidableEq, Repr

/-- Who acts next. -/
inductive PipeStep where
  | send (stream : OutputStream)
  | leave (stream : OutputStream)
  | receive
deriving DecidableEq, Repr

namespace Pipes

/-- Nothing has been sent yet of two byte streams. -/
def ofStreams (tailLines : Nat) (out err : Bytes) : Pipes :=
  { out := { unsent := lineTexts out, tail := Tail.ofCapacity tailLines }
    err := { unsent := lineTexts err, tail := Tail.ofCapacity tailLines } }

/-- What concerns a stream. -/
def lane (p : Pipes) : OutputStream → Lane
  | .stdout => p.out
  | .stderr => p.err

/-- Changes what concerns a stream. -/
def setLane (p : Pipes) (s : OutputStream) (l : Lane) : Pipes :=
  match s with
  | .stdout => { p with out := l }
  | .stderr => { p with err := l }

@[simp] theorem lane_setLane_self (p : Pipes) (s : OutputStream) (l : Lane) :
    (p.setLane s l).lane s = l := by cases s <;> rfl

theorem lane_setLane_ne (p : Pipes) {s t : OutputStream} (h : t ≠ s) (l : Lane) :
    (p.setLane s l).lane t = p.lane t := by cases s <;> cases t <;> simp_all [setLane, lane]

@[simp] theorem queue_setLane (p : Pipes) (s : OutputStream) (l : Lane) :
    (p.setLane s l).queue = p.queue := by cases s <;> rfl

@[simp] theorem observed_setLane (p : Pipes) (s : OutputStream) (l : Lane) :
    (p.setLane s l).observed = p.observed := by cases s <;> rfl

/-- Puts a line into the queue. -/
def enqueue (p : Pipes) (l : OutputLine) : Pipes := { p with queue := p.queue ++ [l] }

@[simp] theorem lane_enqueue (p : Pipes) (l : OutputLine) (s : OutputStream) :
    (p.enqueue l).lane s = p.lane s := by cases s <;> rfl

@[simp] theorem queue_enqueue (p : Pipes) (l : OutputLine) :
    (p.enqueue l).queue = p.queue ++ [l] := rfl

@[simp] theorem observed_enqueue (p : Pipes) (l : OutputLine) :
    (p.enqueue l).observed = p.observed := rfl

/-- Takes the first line out of the queue, where `rest` is behind it, and observes it. -/
def observe (p : Pipes) (l : OutputLine) (rest : List OutputLine) : Pipes :=
  { p with queue := rest, observed := p.observed ++ [l] }

@[simp] theorem lane_observe (p : Pipes) (l : OutputLine) (rest : List OutputLine)
    (s : OutputStream) : (p.observe l rest).lane s = p.lane s := by cases s <;> rfl

@[simp] theorem queue_observe (p : Pipes) (l : OutputLine) (rest : List OutputLine) :
    (p.observe l rest).queue = rest := rfl

@[simp] theorem observed_observe (p : Pipes) (l : OutputLine) (rest : List OutputLine) :
    (p.observe l rest).observed = p.observed ++ [l] := rfl

/-- What a step leads to; `none` if the one to act has to wait or has nothing left to do. -/
def step? (p : Pipes) : PipeStep → Option Pipes
  | .send s =>
    match (p.lane s).unsent with
    | [] => none
    | l :: rest =>
      if p.queue.length < queueCapacity then
        some ((p.setLane s { p.lane s with unsent := rest }).enqueue ⟨s, l⟩)
      else none
  | .leave s =>
    if (p.lane s).isOpen && (p.lane s).unsent.isEmpty then
      some (p.setLane s { p.lane s with isOpen := false })
    else none
  | .receive =>
    match p.queue with
    | [] => none
    | l :: rest =>
      let lane := p.lane l.stream
      some ((p.setLane l.stream { lane with tail := lane.tail.push l.text }).observe l rest)

/-- What steps lead to, if each of them can be made. -/
def steps? (p : Pipes) : List PipeStep → Option Pipes
  | [] => some p
  | s :: ss => (p.step? s).bind fun p => p.steps? ss

/-- Have both readers left, and is the queue empty? -/
def isOver (p : Pipes) : Bool := !p.out.isOpen && !p.err.isOpen && p.queue.isEmpty

end Pipes

/-- The last of the given lines. -/
def Tail.ofLines (capacity : Nat) (lines : List String) : Tail :=
  lines.foldl Tail.push (Tail.ofCapacity capacity)

/-- The exit code that stands for the end by a signal. -/
def signalCode : Int := -1

/-- The outcome of a run that ended with an exit code, or by a signal, after all its lines had been
observed. -/
def Outcome.ofRun (tailLines : Nat) (code : Option Int) (observed : List OutputLine) : Outcome :=
  .ofExit (code.getD signalCode)
    (Tail.ofLines tailLines (textsOf .stdout observed)).joined
    (Tail.ofLines tailLines (textsOf .stderr observed)).joined

/-- The outcome, once the run is over. -/
def Pipes.outcome? (p : Pipes) (code : Option Int) : Option Outcome :=
  if p.isOver then
    some (.ofExit (code.getD signalCode) p.out.tail.joined p.err.tail.joined)
  else none

end ExportDesk
