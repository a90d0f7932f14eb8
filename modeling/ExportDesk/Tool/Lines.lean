import ExportDesk.Tool.Chunks
import ExportDesk.Tool.Outcome

/-!
# The lines a program printed

The pieces that a program writes to its two streams arrive in some order. Each stream is cut into
lines of its own, and a line is known as soon as the piece that ends it has arrived. When both
streams have ended, what is left of either is a line too.
-/

namespace ExportDesk

open Text

/-- What is known of the two streams between two pieces. -/
structure Streams where
  out : Splitter := {}
  err : Splitter := {}
deriving DecidableEq, Repr, Inhabited

namespace Streams

/-- Bytes as lines of a stream. -/
def asLines (s : OutputStream) (chunks : List Bytes) : List OutputLine :=
  chunks.map fun c => ⟨s, decodeLossy c⟩

/-- Takes a piece in. -/
def feed (r : Streams) (s : OutputStream) (piece : Bytes) : List OutputLine × Streams :=
  match s with
  | .stdout =>
    let (chunks, out) := r.out.feed piece
    (asLines s chunks, { r with out })
  | .stderr =>
    let (chunks, err) := r.err.feed piece
    (asLines s chunks, { r with err })

/-- The lines of the pieces that are still to come, and of what is left then. -/
def lines (r : Streams) : List (OutputStream × Bytes) → List OutputLine
  | [] => asLines .stdout r.out.finish ++ asLines .stderr r.err.finish
  | (s, piece) :: rest =>
    let (now, r) := r.feed s piece
    now ++ r.lines rest

end Streams

/-- The lines of pieces in their order of arrival. -/
def linesOf (writes : List (OutputStream × Bytes)) : List OutputLine := Streams.lines {} writes

/-- The texts of the lines of one stream. -/
def textsOf (s : OutputStream) (lines : List OutputLine) : List String :=
  (lines.filter (·.stream = s)).map (·.text)

/-- All bytes written to one stream. -/
def bytesOf (s : OutputStream) (writes : List (OutputStream × Bytes)) : Bytes :=
  (writes.filter (·.1 = s)).flatMap (·.2)

end ExportDesk
