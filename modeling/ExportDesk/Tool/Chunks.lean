import ExportDesk.Text.Utf8

/-!
# Cutting output into lines

What a program writes arrives in slices of any size. `Splitter` turns them into chunks: one ends at
a line feed or at a carriage return, and a run that grows to `maxChunk` bytes is handed on at once.
A pair of both ends one chunk, and a carriage return after nothing ends none. `wholeChunks` says the
same of the whole output at once; how it was sliced does not matter.
-/

namespace ExportDesk

open Text

/-- The most bytes that one chunk takes. -/
def maxChunk : Nat := 8192

/-- The byte that ends a line. -/
def lineFeed : UInt8 := 0x0A

/-- The byte that returns to the start of a line. -/
def carriageReturn : UInt8 := 0x0D

/-- Does the byte end a chunk? -/
def endsChunk (b : UInt8) : Bool := b == lineFeed || b == carriageReturn

/-- The bytes before the first that ends a chunk, but no more of them than there is room for. -/
def takeRun : Nat → Bytes → Bytes
  | 0, _ => []
  | _, [] => []
  | room + 1, b :: bs => if endsChunk b then [] else b :: takeRun room bs

/-- What is known of a stream between two slices. -/
structure Splitter where
  /-- the bytes of the chunk that has not ended -/
  pending : Array UInt8 := #[]
  /-- nothing came since a carriage return -/
  afterReturn : Bool := false
deriving DecidableEq, Repr, Inhabited

namespace Splitter

/-- Looks at a slice as far as the first end of a chunk, or as far as the chunk has room. Gives
the number of bytes used up, the chunk that ended if one is to be handed on, and what is known
then. -/
def step (s : Splitter) (slice : Bytes) : Nat × Option Bytes × Splitter :=
  let room := maxChunk - s.pending.size
  let run := takeRun room slice
  let chunk := s.pending ++ run.toArray
  match (if run.length < room then (slice.drop run.length).head? else none) with
  | some b =>
    if b == carriageReturn then
      (run.length + 1, if chunk.isEmpty then none else some chunk.toList, ⟨#[], true⟩)
    else
      (run.length + 1, if chunk.isEmpty && s.afterReturn then none else some chunk.toList,
        ⟨#[], false⟩)
  | none =>
    if maxChunk ≤ chunk.size then (run.length, some chunk.toList, ⟨#[], false⟩)
    else (run.length, none, ⟨chunk, s.afterReturn⟩)

/-- Takes a slice in, step by step, at most `fuel` of them. -/
def feedSteps : Nat → Splitter → Bytes → List Bytes × Splitter
  | 0, s, _ => ([], s)
  | fuel + 1, s, slice =>
    if slice.isEmpty then ([], s)
    else
      match s.step slice with
      | (used, chunk, s) =>
        let (chunks, s) := feedSteps fuel s (slice.drop used)
        (chunk.toList ++ chunks, s)

/-- Takes a slice in. A step uses up at least one byte, so there are no more steps than bytes. -/
def feed (s : Splitter) (slice : Bytes) : List Bytes × Splitter := feedSteps slice.length s slice

/-- The chunk that the end of the stream leaves over. -/
def finish (s : Splitter) : List Bytes := if s.pending.isEmpty then [] else [s.pending.toList]

/-- The chunks of a stream that arrives in slices. -/
def run (s : Splitter) : List Bytes → List Bytes
  | [] => s.finish
  | slice :: slices =>
    let (chunks, s) := s.feed slice
    chunks ++ run s slices

end Splitter

/-- The chunks of a stream that arrives in slices. -/
def chunksOfSlices (slices : List Bytes) : List Bytes := Splitter.run {} slices

/-- The chunks of what is left of a stream, given the run before it and the byte right before it. -/
def wholeChunksFrom (pending : Bytes) (previous : Option UInt8) : Bytes → List Bytes
  | [] => if pending.isEmpty then [] else [pending]
  | b :: bs =>
    if b == carriageReturn then
      (if pending.isEmpty then [] else [pending]) ++ wholeChunksFrom [] (some b) bs
    else if b == lineFeed then
      (if previous == some carriageReturn then [] else [pending]) ++ wholeChunksFrom [] (some b) bs
    else if pending.length + 1 == maxChunk then
      (pending ++ [b]) :: wholeChunksFrom [] (some b) bs
    else wholeChunksFrom (pending ++ [b]) (some b) bs

/-- The chunks of a whole stream. -/
def wholeChunks (data : Bytes) : List Bytes := wholeChunksFrom [] none data

/-- The data cut into slices of the given sizes, of which the last repeats; at most `fuel` of
them. -/
def slicesOfSizes : Nat → List Nat → Bytes → List Bytes
  | 0, _, _ => []
  | _, _, [] => []
  | _, [], data => [data]
  | fuel + 1, [n], data => data.take (max n 1) :: slicesOfSizes fuel [n] (data.drop (max n 1))
  | fuel + 1, n :: ns, data => data.take (max n 1) :: slicesOfSizes fuel ns (data.drop (max n 1))

end ExportDesk
