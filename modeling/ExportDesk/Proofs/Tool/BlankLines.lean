import ExportDesk.Proofs.Text.Pieces
import ExportDesk.Proofs.Tool.Slices
import Mathlib.Data.List.DropRight

/-!
# Blank lines

A line without text stands for a blank line of the output, a line feed at the start or right behind
another one, or for a run that filled its last chunk just before it was ended (`readLines_blank`).
The second kind is spurious: `blank_behind_fullChunk` has one, in output without a blank line.
Ending lines with a carriage return and a line feed takes away the lines without text and nothing
else (`readLines_withReturns`).
-/

namespace ExportDesk

open Text

/-! ## The run before a place -/

theorem byte_cases (b : UInt8) :
    b = carriageReturn ∨ b = lineFeed ∨ endsChunk b = false := by
  cases h : endsChunk b with
  | false => exact .inr (.inr rfl)
  | true =>
    obtain rfl | rfl : b = lineFeed ∨ b = carriageReturn := by simpa [endsChunk] using h
    · exact .inr (.inl rfl)
    · exact .inl rfl

/-- The length of the run that the bytes before a place end in. -/
def openRun (before : Bytes) : Nat := (before.rtakeWhile (!endsChunk ·)).length

@[simp] theorem openRun_nil : openRun [] = 0 := rfl

theorem openRun_concat (before : Bytes) (b : UInt8) :
    openRun (before ++ [b]) = if endsChunk b then 0 else openRun before + 1 := by
  unfold openRun
  rw [List.rtakeWhile_concat]
  cases endsChunk b <;> simp

theorem openRun_append {run : Bytes} (h : ∀ b ∈ run, endsChunk b = false) (before : Bytes) :
    openRun (before ++ run) = openRun before + run.length := by
  induction run using List.reverseRecOn with
  | nil => simp
  | append_singleton run b ih =>
    have hb : endsChunk b = false := h b (by simp)
    rw [← List.append_assoc, openRun_concat, hb, ih fun c hc => h c (by simp [hc])]
    simp [Nat.add_assoc]

/-- No run is open at the start and right behind what ends one. -/
theorem openRun_eq_zero_iff (before : Bytes) :
    openRun before = 0 ↔ ∀ b, before.getLast? = some b → endsChunk b = true := by
  obtain rfl | ⟨front, b, rfl⟩ := List.eq_nil_or_concat' before
  · simp
  · rw [openRun_concat]
    cases h : endsChunk b <;> simp [h]

/-! ## Line feeds by what is before them -/

/-- How many line feeds have bytes of some kind before them. -/
def feedsBehind (kind : Bytes → Bool) (data : Bytes) : Nat :=
  (List.range data.length).countP fun i => data[i]? == some lineFeed && kind (data.take i)

theorem feedsBehind_concat (kind : Bytes → Bool) (data : Bytes) (b : UInt8) :
    feedsBehind kind (data ++ [b]) =
      feedsBehind kind data + if b = lineFeed ∧ kind data = true then 1 else 0 := by
  unfold feedsBehind
  rw [List.length_append, List.length_singleton, List.range_succ, List.countP_append]
  congr 1
  · refine List.countP_congr fun i hi => ?_
    have hlt : i < data.length := List.mem_range.1 hi
    rw [List.getElem?_append_left hlt, List.take_append_of_le_length (Nat.le_of_lt hlt)]
  · simp [List.countP_singleton]

theorem feedsBehind_eq_zero_iff (kind : Bytes → Bool) (data : Bytes) :
    feedsBehind kind data = 0 ↔
      ∀ before after, data = before ++ lineFeed :: after → kind before = false := by
  unfold feedsBehind
  rw [List.countP_eq_zero]
  constructor
  · rintro h before after rfl
    simpa using h before.length (by simp)
  · intro h i hi
    have hlt : i < data.length := List.mem_range.1 hi
    rw [List.getElem?_eq_getElem hlt]
    intro hkind
    simp only [Bool.and_eq_true, beq_iff_eq, Option.some_inj] at hkind
    have hcut : data = data.take i ++ lineFeed :: data.drop (i + 1) := by
      rw [← hkind.1, ← List.drop_eq_getElem_cons hlt, List.take_append_drop]
    rw [h _ _ hcut] at hkind
    exact Bool.false_ne_true hkind.2

theorem feedsBehind_or {kind kind' : Bytes → Bool} (h : ∀ before, ¬ (kind before ∧ kind' before))
    (data : Bytes) :
    feedsBehind (fun before => kind before || kind' before) data =
      feedsBehind kind data + feedsBehind kind' data := by
  induction data using List.reverseRecOn with
  | nil => rfl
  | append_singleton data b ih =>
    have hdata := h data
    rw [feedsBehind_concat, feedsBehind_concat, feedsBehind_concat, ih]
    by_cases hb : b = lineFeed <;> cases hk : kind data <;> cases hk' : kind' data <;>
      simp_all <;> omega

/-- Does a line feed behind these bytes end a blank line? -/
def startsLine (before : Bytes) : Bool := before.getLast?.all (· == lineFeed)

/-- Do the bytes end in a run whose last chunk is full? -/
def fillsChunk (before : Bytes) : Bool :=
  decide (0 < openRun before) && openRun before % maxChunk == 0

/-- Does a line feed behind these bytes hand on a chunk without a byte? -/
def givesEmpty (before : Bytes) : Bool :=
  openRun before % maxChunk == 0 && before.getLast? != some carriageReturn

theorem givesEmpty_eq (before : Bytes) :
    givesEmpty before = (startsLine before || fillsChunk before) := by
  unfold givesEmpty startsLine fillsChunk
  obtain rfl | ⟨front, b, rfl⟩ := List.eq_nil_or_concat' before
  · rfl
  rw [openRun_concat, List.getLast?_concat]
  obtain rfl | rfl | hb := byte_cases b
  · rfl
  · rfl
  · have hlf : (b == lineFeed) = false := by
      rw [endsChunk, Bool.or_eq_false_iff] at hb
      exact hb.1
    have hcr : (some b != some carriageReturn) = true := by
      simpa using ne_return_of_not_endsChunk hb
    simp [hb, hlf, hcr]

theorem feedsBehind_givesEmpty (data : Bytes) :
    feedsBehind givesEmpty data = feedsBehind startsLine data + feedsBehind fillsChunk data := by
  rw [← feedsBehind_or, funext givesEmpty_eq]
  rintro before ⟨hstarts, hfills⟩
  have hrun : openRun before = 0 := by
    rw [openRun_eq_zero_iff]
    intro b hb
    rw [startsLine, hb] at hstarts
    obtain rfl : b = lineFeed := by simpa using hstarts
    rfl
  simp [fillsChunk, hrun] at hfills

/-! ## One byte of a stream -/

theorem wholeChunksFrom_return (pending : Bytes) (previous : Option UInt8) (rest : Bytes) :
    wholeChunksFrom pending previous (carriageReturn :: rest) =
      (if pending = [] then [] else [pending]) ++
        wholeChunksFrom [] (some carriageReturn) rest := by
  rw [wholeChunksFrom, if_pos (by decide)]
  cases pending <;> rfl

theorem wholeChunksFrom_feed (pending : Bytes) (previous : Option UInt8) (rest : Bytes) :
    wholeChunksFrom pending previous (lineFeed :: rest) =
      (if previous = some carriageReturn then [] else [pending]) ++
        wholeChunksFrom [] none rest := by
  rw [wholeChunksFrom, if_neg (by decide), if_pos (by decide), wholeChunksFrom_none (by decide)]
  by_cases h : previous = some carriageReturn
  · rw [if_pos h, if_pos (beq_iff_eq.2 h)]
  · rw [if_neg h, if_neg (mt beq_iff_eq.1 h)]

/-! ## Chunks without a byte -/

/-- What is known of a stream behind the bytes `before`. -/
structure KnownBehind (before pending : Bytes) (previous : Option UInt8) : Prop where
  /-- full chunks of the open run have been handed on -/
  length : pending.length = openRun before % maxChunk
  returned : previous = some carriageReturn ↔ before.getLast? = some carriageReturn

theorem knownBehind_nil : KnownBehind [] [] none := ⟨rfl, by simp⟩

theorem KnownBehind.length_lt {before pending : Bytes} {previous : Option UInt8}
    (h : KnownBehind before pending previous) : pending.length < maxChunk :=
  h.length ▸ Nat.mod_lt _ (by decide)

theorem KnownBehind.givesEmpty_iff {before pending : Bytes} {previous : Option UInt8}
    (h : KnownBehind before pending previous) :
    givesEmpty before = true ↔ pending = [] ∧ previous ≠ some carriageReturn := by
  rw [givesEmpty, Bool.and_eq_true, beq_iff_eq, ← h.length, List.length_eq_zero_iff, Ne,
    h.returned]
  simp

/-- **One byte.** It hands on a chunk without a byte only if it is a line feed that finds nothing
pending. -/
theorem KnownBehind.byte {before pending : Bytes} {previous : Option UInt8}
    (h : KnownBehind before pending previous) (b : UInt8) (rest : Bytes) :
    ∃ now pending' previous', KnownBehind (before ++ [b]) pending' previous' ∧
      wholeChunksFrom pending previous (b :: rest) =
        now ++ wholeChunksFrom pending' previous' rest ∧
      now.count [] = if b = lineFeed ∧ givesEmpty before = true then 1 else 0 := by
  have hrun := openRun_concat before b
  obtain rfl | rfl | hb := byte_cases b
  · -- a carriage return hands on a run of one byte at least
    refine ⟨_, [], _, ⟨by rw [hrun]; rfl, by simp⟩, wholeChunksFrom_return _ _ _, ?_⟩
    have hne : carriageReturn ≠ lineFeed := by decide
    cases pending <;> simp [hne]
  · -- a line feed hands on the run that is pending
    refine ⟨_, [], _, ⟨by rw [hrun]; rfl, by simp; decide⟩, wholeChunksFrom_feed _ _ _, ?_⟩
    have hpends := h.givesEmpty_iff
    by_cases hprev : previous = some carriageReturn
    · simp [hpends, hprev]
    · by_cases hnil : pending = [] <;> simp [hpends, hprev, hnil]
  · -- any other byte joins the run, which fills up or goes on
    have hne : b ≠ lineFeed := by rintro rfl; cases hb
    have hlt := h.length_lt
    have hreturned : none = some carriageReturn ↔
        (before ++ [b]).getLast? = some carriageReturn := by
      simpa using ne_return_of_not_endsChunk hb
    rw [hb, if_neg Bool.false_ne_true] at hrun
    rw [if_neg fun heq => hne heq.1]
    by_cases hfull : pending.length + 1 = maxChunk
    · refine ⟨[pending ++ [b]], [], none, ⟨?_, hreturned⟩, wholeChunksFrom_cons_full hb hfull _ _,
        by simp⟩
      rw [hrun, ← Nat.mod_add_mod, ← h.length, hfull, Nat.mod_self]
      rfl
    · refine ⟨[], pending ++ [b], none, ⟨?_, hreturned⟩, wholeChunksFrom_cons hb (by omega) _ _,
        by simp⟩
      rw [hrun, ← Nat.mod_add_mod, ← h.length, Nat.mod_eq_of_lt (by omega), List.length_append,
        List.length_singleton]

/-- **Any number of bytes.** They hand on one chunk without a byte for each line feed that finds
nothing pending. -/
theorem KnownBehind.count_nil {before pending : Bytes} {previous : Option UInt8}
    (h : KnownBehind before pending previous) (rest : Bytes) :
    feedsBehind givesEmpty (before ++ rest) =
      feedsBehind givesEmpty before + (wholeChunksFrom pending previous rest).count [] := by
  induction rest generalizing before pending previous with
  | nil => cases pending <;> simp [wholeChunksFrom]
  | cons b rest ih =>
    obtain ⟨now, pending', previous', hnext, hchunks, hnow⟩ := h.byte b rest
    rw [show before ++ b :: rest = before ++ [b] ++ rest by simp, ih hnext, feedsBehind_concat,
      hchunks, List.count_append, hnow, Nat.add_assoc]

theorem count_nil_wholeChunks (data : Bytes) :
    (wholeChunks data).count [] = feedsBehind startsLine data + feedsBehind fillsChunk data := by
  have h := knownBehind_nil.count_nil data
  rw [← feedsBehind_givesEmpty]
  simpa [wholeChunks, feedsBehind] using h.symm

/-! ## Lines without text -/

theorem countP_empty_asLines (stream : OutputStream) (chunks : List Bytes) :
    (Streams.asLines stream chunks).countP (·.text == "") = chunks.count [] := by
  rw [Streams.asLines, List.countP_map, List.count]
  refine List.countP_congr fun c _ => ?_
  simp only [Function.comp_apply, beq_iff_eq]
  exact decodeLossy_eq_empty_iff

/-- **Lines without text.** Whatever the reader shows on each turn, there is one for each line feed
that is the first byte or right behind another line feed, and one for each that ends a run whose
last chunk is full. So they stand for the blank lines of the output exactly if no run that a line
feed ends is as long as one or more chunks. -/
theorem readLines_blank (stream : OutputStream) (b : ByteSource) (host : Host) :
    let lines := ((readLines stream b).run host).1
    lines.countP (·.text == "") = feedsBehind startsLine b.rest + feedsBehind fillsChunk b.rest ∧
      (lines.countP (·.text == "") = feedsBehind startsLine b.rest ↔
        ∀ before after, b.rest = before ++ lineFeed :: after → openRun before % maxChunk = 0 →
          openRun before = 0) := by
  intro lines
  have hcount : lines.countP (·.text == "") =
      feedsBehind startsLine b.rest + feedsBehind fillsChunk b.rest := by
    have hlines : lines = Streams.asLines stream (wholeChunks b.rest) := readLines_run stream b host
    rw [hlines, countP_empty_asLines, count_nil_wholeChunks]
  refine ⟨hcount, ?_⟩
  rw [hcount, Nat.add_eq_left, feedsBehind_eq_zero_iff]
  refine forall_congr' fun before => forall_congr' fun after => forall_congr' fun _ => ?_
  simp only [fillsChunk, Bool.and_eq_false_iff, decide_eq_false_iff_not, beq_eq_false_iff_ne]
  omega

/-- A line that is just as long as a chunk. -/
def chunkLongLine : Bytes := List.replicate maxChunk 0x78 ++ [lineFeed]

/-- A line that is just as long as a chunk gives a line without text, though no line is blank. -/
theorem blank_behind_fullChunk :
    chunksOfSlices [chunkLongLine] = [List.replicate maxChunk 0x78, []] ∧
      feedsBehind startsLine chunkLongLine = 0 ∧
      ∀ (stream : OutputStream) (shown : Nat → Nat) (ending : StreamEnd) (host : Host),
        ((readLines stream ⟨chunkLongLine, shown, ending⟩).run host).1.countP (·.text == "") =
          1 := by
  have hplain : ∀ b ∈ List.replicate maxChunk 0x78, endsChunk b = false := by
    intro b hb
    rw [List.eq_of_mem_replicate hb]
    rfl
  have hchunks : wholeChunks chunkLongLine = [List.replicate maxChunk 0x78, []] := by
    rw [wholeChunks, chunkLongLine, wholeChunksFrom_run_full hplain (by decide) (by simp),
      wholeChunksFrom_feed]
    rfl
  have hlast : startsLine (List.replicate maxChunk 0x78) = false := by
    rw [startsLine, List.getLast?_replicate]
    rfl
  refine ⟨?_, ?_, fun stream shown ending host => ?_⟩
  · rw [chunksOfSlices_eq_wholeChunks, List.flatten_singleton, hchunks]
  · rw [chunkLongLine, feedsBehind_concat, hlast, if_neg (by simp), Nat.add_zero,
      feedsBehind_eq_zero_iff]
    intro before after h
    have hfeed := hplain lineFeed (by rw [h]; simp)
    cases hfeed
  · have hne : List.replicate maxChunk (0x78 : UInt8) ≠ [] := by decide
    rw [readLines_run, countP_empty_asLines, hchunks, List.count_cons_of_ne hne,
      List.count_singleton_self]

/-! ## Lines that end with a carriage return and a line feed -/

/-- The data with a carriage return before each line feed. -/
def withReturns (data : Bytes) : Bytes :=
  data.flatMap fun b => if b = lineFeed then [carriageReturn, lineFeed] else [b]

theorem wholeChunksFrom_withReturns (data : Bytes) {pending : Bytes} {previous : Option UInt8}
    (hlen : pending.length < maxChunk) (h : previous = some carriageReturn → pending = [])
    (before : Option UInt8) :
    wholeChunksFrom pending before (withReturns data) =
      (wholeChunksFrom pending previous data).filter (· != []) := by
  induction data generalizing pending previous before with
  | nil => cases pending <;> simp [withReturns, wholeChunksFrom]
  | cons b data ih =>
    have hcons : withReturns (b :: data) =
        (if b = lineFeed then [carriageReturn, lineFeed] else [b]) ++ withReturns data :=
      List.flatMap_cons
    -- behind a chunk both go on with nothing pending
    have hreset (before previous : Option UInt8) :
        wholeChunksFrom [] before (withReturns data) =
          (wholeChunksFrom [] previous data).filter (· != []) :=
      ih (by decide) (fun _ => rfl) before
    rw [hcons]
    obtain rfl | rfl | hb := byte_cases b
    · rw [if_neg (by decide), List.singleton_append, wholeChunksFrom_return, wholeChunksFrom_return,
        List.filter_append, hreset _ (some carriageReturn)]
      cases pending <;> simp
    · rw [if_pos rfl, List.cons_append, List.singleton_append, wholeChunksFrom_return,
        wholeChunksFrom_feed, wholeChunksFrom_feed, if_pos rfl, List.nil_append,
        List.filter_append, hreset _ none]
      by_cases hprev : previous = some carriageReturn
      · simp [hprev, h hprev]
      · cases pending <;> simp [hprev]
    · have hne : b ≠ lineFeed := by rintro rfl; cases hb
      rw [if_neg hne, List.singleton_append]
      by_cases hfull : pending.length + 1 = maxChunk
      · rw [wholeChunksFrom_cons_full hb hfull, wholeChunksFrom_cons_full hb hfull,
          List.filter_cons_of_pos (by simp), hreset _ none]
      · rw [wholeChunksFrom_cons hb (by omega), wholeChunksFrom_cons hb (by omega)]
        exact ih (by simp; omega) (fun hnone => absurd hnone (by decide)) none

theorem filter_asLines (stream : OutputStream) (chunks : List Bytes) :
    (Streams.asLines stream chunks).filter (·.text != "") =
      Streams.asLines stream (chunks.filter (· != [])) := by
  rw [Streams.asLines, List.filter_map, Streams.asLines]
  refine congrArg (List.map _) (List.filter_congr fun c _ => ?_)
  rw [Bool.eq_iff_iff]
  simp only [Function.comp_apply, bne_iff_ne]
  exact not_congr decodeLossy_eq_empty_iff

/-- **Lines that end with a carriage return and a line feed.** A carriage return before each line
feed takes away the lines without text, and changes nothing else; carriage returns that were there
before do not matter, nor what the readers show on each turn. -/
theorem readLines_withReturns (stream : OutputStream) (data : Bytes) (shown shown' : Nat → Nat)
    (ending ending' : StreamEnd) (host host' : Host) :
    ((readLines stream ⟨withReturns data, shown', ending'⟩).run host').1 =
      ((readLines stream ⟨data, shown, ending⟩).run host).1.filter (·.text != "") := by
  rw [readLines_run, readLines_run, filter_asLines]
  exact congrArg (Streams.asLines stream)
    (wholeChunksFrom_withReturns data (by decide) (fun _ => rfl) none)

end ExportDesk
