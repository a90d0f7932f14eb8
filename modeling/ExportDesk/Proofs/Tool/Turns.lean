import ExportDesk.Proofs.Tool.BlankLines

/-!
# The turns of a reader

`readLines_turns`: between any two turns, whatever the reader has shown, the pending chunk has room
for another byte and holds no line end. It is empty and a return is remembered exactly behind a
carriage return. Each turn uses up something of what is shown and no more than that, so that the
stream comes to its end after at most as many turns as it has bytes. No chunk comes from more bytes
than one may take, its line end among them.

`ReadTurns` is the relation of the turns. One turn keeps what is known (`Splitter.IsBehind.step`),
and so does any number of them (`ReadTurns.known`).
-/

namespace ExportDesk

open Text

/-! ## Where chunks come from -/

/-- The bytes are cut into pieces, none longer than a chunk may be, and what is pending. The chunks
are some of the pieces in their order, without the line ends. -/
def CutInto (used : Bytes) (chunks : List Bytes) (pending : Bytes) : Prop :=
  ∃ pieces : List Bytes, pieces.flatten ++ pending = used ∧
    (∀ piece ∈ pieces, piece ≠ [] ∧ piece.length ≤ maxChunk) ∧
    chunks.Sublist (pieces.map (List.filter (!endsChunk ·)))

theorem cutInto_nil : CutInto [] [] [] := ⟨[], rfl, nofun, .slnil⟩

namespace CutInto

variable {used pending : Bytes} {chunks : List Bytes}

theorem grow (h : CutInto used chunks pending) (run : Bytes) :
    CutInto (used ++ run) chunks (pending ++ run) := by
  obtain ⟨pieces, rfl, hpieces, hchunks⟩ := h
  exact ⟨pieces, (List.append_assoc ..).symm, hpieces, hchunks⟩

/-- What is pending becomes a piece, and the piece a chunk or nothing. -/
theorem close (h : CutInto used chunks pending) (hne : pending ≠ [])
    (hlen : pending.length ≤ maxChunk) {chunk : Option Bytes}
    (hchunk : ∀ c ∈ chunk, c = pending.filter (!endsChunk ·)) :
    CutInto used (chunks ++ chunk.toList) [] := by
  obtain ⟨pieces, rfl, hpieces, hchunks⟩ := h
  refine ⟨pieces ++ [pending], by simp, fun piece hpiece => ?_, ?_⟩
  · obtain hpiece | hpiece := List.mem_append.1 hpiece
    · exact hpieces piece hpiece
    · rw [List.mem_singleton.1 hpiece]
      exact ⟨hne, hlen⟩
  · rw [List.map_append]
    refine hchunks.append ?_
    cases chunk with
    | none => exact List.nil_sublist _
    | some c =>
      rw [hchunk c rfl]
      exact List.Sublist.refl _

end CutInto

/-! ## One turn -/

namespace Splitter

/-- What holds between two turns, behind the bytes that were used up. -/
structure IsBehind (used : Bytes) (s : Splitter) : Prop where
  /-- there is room for one byte at least -/
  room : s.pending.size < maxChunk
  plain : ∀ b ∈ s.pending.toList, endsChunk b = false
  returned : s.pending.toList = [] ∧ s.afterReturn = true ↔ used.getLast? = some carriageReturn

theorem isBehind_nil : IsBehind [] {} := ⟨by decide, nofun, by simp⟩

/-- Nothing is pending behind what ended a chunk. -/
theorem isBehind_empty {used : Bytes} {afterReturn : Bool}
    (h : afterReturn = true ↔ used.getLast? = some carriageReturn) :
    IsBehind used ⟨#[], afterReturn⟩ :=
  ⟨Nat.pos_of_ne_zero nofun, nofun, by simpa using h⟩

/-- Bytes that end nothing do not end in a carriage return. -/
theorem getLast?_ne_return {run : Bytes} (hrun : ∀ b ∈ run, endsChunk b = false) (hne : run ≠ [])
    (used : Bytes) : (used ++ run).getLast? ≠ some carriageReturn := by
  rw [List.getLast?_append_of_ne_nil _ hne]
  intro hlast
  exact ne_return_of_not_endsChunk (hrun _ (List.mem_of_getLast? hlast)) rfl

variable {used : Bytes} {s : Splitter}

/-- Bytes that end nothing join what is pending, if they fit. -/
theorem IsBehind.grow (h : s.IsBehind used) {run : Bytes} (hrun : ∀ b ∈ run, endsChunk b = false)
    (hne : run ≠ []) (hlt : s.pending.size + run.length < maxChunk) :
    IsBehind (used ++ run) ⟨s.pending ++ run.toArray, s.afterReturn⟩ where
  room := by simpa using hlt
  plain b hb := by
    rw [Array.toList_append, List.mem_append] at hb
    exact hb.elim (h.plain b) (hrun b)
  returned :=
    ⟨fun hnil => absurd hnil.1 (by simp [hne]),
      fun hlast => absurd hlast (getLast?_ne_return hrun hne used)⟩

/-- What is pending and plain bytes behind it are a chunk without the line end that follows. -/
theorem IsBehind.filter_piece (h : s.IsBehind used) {run ending : Bytes}
    (hrun : ∀ b ∈ run, endsChunk b = false) (hending : ∀ b ∈ ending, endsChunk b = true) :
    (s.pending.toList ++ (run ++ ending)).filter (!endsChunk ·) = s.pending.toList ++ run := by
  have hplain {bytes : Bytes} (hbytes : ∀ b ∈ bytes, endsChunk b = false) :
      bytes.filter (!endsChunk ·) = bytes :=
    List.filter_eq_self.2 fun b hb => by rw [hbytes b hb]; rfl
  have hends : ending.filter (!endsChunk ·) = [] :=
    List.filter_eq_nil_iff.2 fun b hb => by rw [hending b hb]; decide
  rw [List.filter_append, List.filter_append, hplain h.plain, hplain hrun, hends, List.append_nil]

/-- **One turn.** It uses up something of what is shown and no more than that, and a chunk that it
hands on comes from what was pending and what it has used up. -/
theorem IsBehind.step (h : s.IsBehind used) {slice : Bytes} (hne : slice ≠ []) :
    let did := s.step slice
    0 < did.1 ∧ did.1 ≤ slice.length ∧ did.2.2.IsBehind (used ++ slice.take did.1) ∧
      ∀ chunks, CutInto used chunks s.pending.toList →
        CutInto (used ++ slice.take did.1) (chunks ++ did.2.1.toList) did.2.2.pending.toList := by
  intro did
  obtain ⟨run, after, rfl, hrun, hdid⟩ := s.step_cases h.room slice
  -- what is pending becomes a piece at a line end, and at nothing if the chunk is full
  have hclose (ending : Bytes) (hending : ∀ b ∈ ending, endsChunk b = true)
      (hpiece : run ++ ending ≠ []) (hlen : s.pending.size + run.length + ending.length ≤ maxChunk)
      {chunk : Option Bytes} (hchunk : ∀ c ∈ chunk, c = s.pending.toList ++ run) (chunks)
      (hcut : CutInto used chunks s.pending.toList) :
      CutInto (used ++ (run ++ ending)) (chunks ++ chunk.toList) [] := by
    refine (hcut.grow (run ++ ending)).close (List.append_ne_nil_of_right_ne_nil _ hpiece) ?_ ?_
    · simp only [List.length_append, Array.length_toList]
      omega
    · rwa [h.filter_piece hrun hending]
  have htake (b : UInt8) (more : Bytes) :
      (run ++ b :: more).take (run.length + 1) = run ++ [b] := by
    rw [List.append_cons]
    exact List.take_left' List.length_append
  obtain ⟨more, rfl, hlt, hdid⟩ | ⟨more, rfl, hlt, hdid⟩ | ⟨hfull, hrne, hdid⟩ | ⟨rfl, hlt, hdid⟩ :=
    hdid
  · -- a carriage return
    rw [show did = _ from hdid, htake]
    refine ⟨by simp, by simp, isBehind_empty (by simp), ?_⟩
    exact hclose [carriageReturn] (List.forall_mem_singleton.2 (by decide)) (by simp) (by simp; omega)
      fun c hc => (Option.mem_some.1 (Option.mem_ite_none_left.1 hc).2).symm
  · -- a line feed
    rw [show did = _ from hdid, htake]
    refine ⟨by simp, by simp, isBehind_empty (by simp; decide), ?_⟩
    exact hclose [lineFeed] (List.forall_mem_singleton.2 (by decide)) (by simp) (by simp; omega)
      fun c hc => (Option.mem_some.1 (Option.mem_ite_none_left.1 hc).2).symm
  · -- the chunk is full
    rw [show did = _ from hdid, List.take_left]
    refine ⟨List.length_pos_iff.2 hrne, by simp, ?_, ?_⟩
    · exact isBehind_empty (by simpa using getLast?_ne_return hrun hrne used)
    · have hchunk : ∀ c ∈ some (s.pending.toList ++ run), c = s.pending.toList ++ run := by simp
      have hcut := hclose [] (List.forall_mem_nil _) (by simpa using hrne) (Nat.le_of_eq hfull)
        hchunk
      simpa using hcut
  · -- the slice is used up
    rw [show did = _ from hdid]
    simp only [List.append_nil, List.take_length] at hne ⊢
    refine ⟨List.length_pos_iff.2 hne, Nat.le_refl _, h.grow hrun hne hlt, fun chunks hcut => ?_⟩
    simpa using hcut.grow run

end Splitter

/-! ## Many turns -/

/-- **The turns of a reader**, counted from the start of a stream. They lead to the chunks handed
on, what is known then, and what is left of the stream. -/
inductive ReadTurns (b₀ : ByteSource) : Nat → List Bytes → Splitter → ByteSource → Prop
  | start : ReadTurns b₀ 0 [] {} b₀
  | turn {n : Nat} {chunks : List Bytes} {s : Splitter} {b : ByteSource}
      (before : ReadTurns b₀ n chunks s b) (hslice : b.slice ≠ []) :
      ReadTurns b₀ (n + 1) (chunks ++ (s.step b.slice).2.1.toList) (s.step b.slice).2.2
        (b.consume (s.step b.slice).1)

/-- What is used of a slice and what is left then are the bytes that were left before. -/
theorem ByteSource.take_slice_append {b : ByteSource} {n : Nat} (h : n ≤ b.slice.length) :
    b.slice.take n ++ (b.consume n).rest = b.rest := by
  have hsplit : b.slice ++ b.rest.drop (b.shown 0 + 1) = b.rest := List.take_append_drop _ _
  have htake : (b.slice ++ b.rest.drop (b.shown 0 + 1)).take n = b.slice.take n :=
    List.take_append_of_le_length h
  rw [← htake, hsplit]
  exact List.take_append_drop n b.rest

/-- Where a reader stands after some turns. -/
structure StandsAt (b₀ : ByteSource) (n : Nat) (chunks : List Bytes) (s : Splitter)
    (b : ByteSource) (used : Bytes) : Prop where
  split : used ++ b.rest = b₀.rest
  /-- each turn has used up one byte at least -/
  turns : n ≤ used.length
  behind : s.IsBehind used
  cut : CutInto used chunks s.pending.toList
  owed : wholeChunks b₀.rest = chunks ++ s.owed b.rest

namespace ReadTurns

variable {b₀ b : ByteSource} {n : Nat} {chunks : List Bytes} {s : Splitter}

theorem known (h : ReadTurns b₀ n chunks s b) : ∃ used, StandsAt b₀ n chunks s b used := by
  induction h with
  | start =>
    exact ⟨[], rfl, Nat.le_refl 0, Splitter.isBehind_nil, cutInto_nil, (owed_default b₀.rest).symm⟩
  | turn before hslice ih =>
    obtain ⟨used, hsplit, hturns, hbehind, hcut, howed⟩ := ih
    obtain ⟨hpos, hle, hnext, hchunks⟩ := hbehind.step hslice
    obtain ⟨-, -, -, hturn⟩ := Splitter.turn_owed hbehind.room hslice []
    refine ⟨_, ?_, ?_, hnext, hchunks _ hcut, ?_⟩
    · rw [List.append_assoc, ByteSource.take_slice_append hle, hsplit]
    · rw [List.length_append, List.length_take]
      omega
    · rw [List.append_nil, List.append_nil] at hturn
      rw [howed, hturn, List.append_assoc]

/-- The stream comes to its end, since each turn uses up something of it. -/
theorem finish (h : ReadTurns b₀ n chunks s b) :
    ∃ m ≤ b.rest.length, ∃ later s' b',
      ReadTurns b₀ (n + m) (chunks ++ later) s' b' ∧ b'.rest = [] := by
  induction hlen : b.rest.length using Nat.strong_induction_on generalizing n chunks s b with
  | _ left ih =>
    by_cases hnil : b.rest = []
    · exact ⟨0, Nat.zero_le _, [], s, b, by simpa using h, hnil⟩
    · have hslice : b.slice ≠ [] := by simpa [ByteSource.slice] using hnil
      obtain ⟨used, hused⟩ := h.known
      obtain ⟨hpos, hle, -⟩ := hused.behind.step hslice
      have hshorter : (b.consume (s.step b.slice).1).rest.length < left := by
        rw [← hlen, ← ByteSource.take_slice_append hle, List.length_append, List.length_take]
        omega
      obtain ⟨m, hm, later, s', b', hturns, hend⟩ := ih _ hshorter (h.turn hslice) rfl
      refine ⟨m + 1, by omega, (s.step b.slice).2.1.toList ++ later, s', b', ?_, hend⟩
      rwa [← List.append_assoc, Nat.add_comm m 1, ← Nat.add_assoc]

end ReadTurns

/-- **Between two turns of a reader**, whatever it has shown on those before: there is room for
another byte in the pending chunk, which holds no line end, and is empty with the return remembered
exactly behind a carriage return. No chunk so far comes from more bytes than one may take. The next
turn uses up something of what is shown and no more; there have been no more turns than bytes used
up, and after no more than there are bytes left the stream is over, with all of its lines handed
on. -/
theorem readLines_turns {b₀ b : ByteSource} {n : Nat} {chunks : List Bytes} {s : Splitter}
    (h : ReadTurns b₀ n chunks s b) (stream : OutputStream) (host : Host) :
    ∃ used, used ++ b.rest = b₀.rest ∧ n ≤ used.length ∧ s.IsBehind used ∧
      CutInto used chunks s.pending.toList ∧
      (b.rest ≠ [] → 0 < (s.step b.slice).1 ∧ (s.step b.slice).1 ≤ b.slice.length) ∧
      ∃ m ≤ b.rest.length, ∃ later s' b', ReadTurns b₀ (n + m) (chunks ++ later) s' b' ∧
        b'.rest = [] ∧ ((readLines stream b₀).run host).1 =
          Streams.asLines stream (chunks ++ later ++ s'.finish) := by
  obtain ⟨used, hused⟩ := h.known
  refine ⟨used, hused.split, hused.turns, hused.behind, hused.cut, fun hleft => ?_, ?_⟩
  · have hslice : b.slice ≠ [] := by simpa [ByteSource.slice] using hleft
    obtain ⟨hpos, hle, -⟩ := hused.behind.step hslice
    exact ⟨hpos, hle⟩
  · obtain ⟨m, hm, later, s', b', hturns, hend⟩ := h.finish
    obtain ⟨_, hlast⟩ := hturns.known
    refine ⟨m, hm, later, s', b', hturns, hend, ?_⟩
    rw [readLines_run, hlast.owed, hend, Splitter.owed_nil]

/-- A chunk that was handed on at a carriage return, with the line feed still to come. -/
theorem readLines_turns_returned :
    let b₀ : ByteSource := ⟨[0x61, 0x62, carriageReturn, lineFeed, 0x63], fun _ => 1, .closed⟩
    let b : ByteSource := ⟨[lineFeed, 0x63], fun _ => 1, .closed⟩
    ReadTurns b₀ 2 [[0x61, 0x62]] ⟨#[], true⟩ b ∧
      ∀ (stream : OutputStream) (host : Host), ∃ m ≤ 2, ∃ later s' b',
        ReadTurns b₀ (2 + m) ([[0x61, 0x62]] ++ later) s' b' ∧ b'.rest = [] ∧
          ((readLines stream b₀).run host).1 =
            Streams.asLines stream ([[0x61, 0x62]] ++ later ++ s'.finish) := by
  intro b₀ b
  have hfirst : Splitter.step {} b₀.slice = (2, none, ⟨#[0x61, 0x62], false⟩) := by decide +kernel
  have hsecond : Splitter.step ⟨#[0x61, 0x62], false⟩ (b₀.consume 2).slice =
      (1, some [0x61, 0x62], ⟨#[], true⟩) := by decide +kernel
  have hone : ReadTurns b₀ 1 _ _ _ := .turn .start (by decide)
  rw [hfirst] at hone
  have htwo := hone.turn (by decide)
  rw [hsecond] at htwo
  refine ⟨htwo, fun stream host => ?_⟩
  obtain ⟨-, -, -, -, -, -, hfinish⟩ := readLines_turns htwo stream host
  exact hfinish

end ExportDesk
