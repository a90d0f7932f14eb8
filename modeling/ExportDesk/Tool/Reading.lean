import ExportDesk.Tool.Lines

/-!
# Reading a stream to its end

A reader shows a slice of the bytes that were not used yet and goes on behind what was used of it.
How much it shows each time is not fixed, only that it shows something while bytes are left. The
stream is over when it was closed or when reading it failed; what had not ended by then is a line
too.
-/

namespace ExportDesk

open Text

/-- How a stream ends. -/
inductive StreamEnd where
  | closed
  | failed (cause : IoError)
deriving DecidableEq, Repr

/-- A stream as its reader has it. -/
structure ByteSource where
  /-- the bytes that were not used yet -/
  rest : Bytes
  /-- how many bytes besides the first each turn shows, if so many are left -/
  shown : Nat → Nat
  ending : StreamEnd

namespace ByteSource

/-- The slice that is shown next; it is empty only at the end. -/
def slice (b : ByteSource) : Bytes := b.rest.take (b.shown 0 + 1)

/-- The stream behind the bytes that were used. -/
def consume (b : ByteSource) (used : Nat) : ByteSource :=
  { b with rest := b.rest.drop used, shown := fun turn => b.shown (turn + 1) }

end ByteSource

/-- Takes in what a reader shows, turn by turn, at most `fuel` turns. -/
def Splitter.readSteps : Nat → Splitter → ByteSource → List Bytes × Splitter
  | 0, s, _ => ([], s)
  | fuel + 1, s, b =>
    if b.slice.isEmpty then ([], s)
    else
      match s.step b.slice with
      | (used, chunk, s) =>
        let (chunks, s) := readSteps fuel s (b.consume used)
        (chunk.toList ++ chunks, s)

/-- The lines of a stream that is read to its end. A failure is noted, and the lines are the same
as if the stream had been closed there. -/
def readLines (stream : OutputStream) (b : ByteSource) : OnHost (List OutputLine) := do
  -- a turn uses up at least one byte, so there are no more turns than bytes
  let (chunks, s) := Splitter.readSteps b.rest.length {} b
  match b.ending with
  | .closed => pure ()
  | .failed e => OnHost.note .warn .bridge ("Error reading tool " ++ stream.name ++ ": " ++ e.message)
  return Streams.asLines stream (chunks ++ s.finish)

end ExportDesk
