import DartSdk.Convert.Utf8.Lenient

/-!
# Convert/Utf8/Chunked — the calls of `convertChunked`

Every decoder that earlier calls can leave is between characters or inside of one
(`Reachable.carry`), so **`decode8` and `decode16` never write outside of the string**, whatever the
input (`convertChunked_inBounds`), and a call is a run of the automaton from the state that the
calls before it have left (`convertChunked_spec`).
-/

namespace Utf8

open Transducer

variable {d d' : Decoder} {codeUnits : CodeUnits} {start : ℕ} {maybeEnd : Option ℕ} {chunk : Chunk}

/-- A decoder after some calls of `convertChunked`, whether they threw or not. -/
inductive Reachable : Decoder → Prop
  | new (allowMalformed : Bool) : Reachable (Decoder.new allowMalformed)
  | convert {d : Decoder} (codeUnits : CodeUnits) (start : ℕ) (maybeEnd : Option ℕ) :
      Reachable d → Reachable (convertChunked d codeUnits start maybeEnd).2

theorem skipBomChunked_carry (h : Carry d.state d.charOrIndex) (bytes : List Byte) :
    Carry (skipBomChunked d bytes).1.state (skipBomChunked d bytes).1.charOrIndex := by
  unfold skipBomChunked
  split
  · exact h
  split
  · exact h
  · exact h
  · exact .boundary _

/-- What the first part of `convertChunked` does. -/
theorem chunkOf_eq (h : chunkOf d codeUnits start maybeEnd = .ok (d', chunk)) :
    ∃ range, codeUnits.slice start maybeEnd = .ok range ∧
      skipBomChunked d range = (d', chunk.bytes) := by
  unfold chunkOf at h
  cases hslice : codeUnits.slice start maybeEnd with
  | error e =>
    rw [hslice] at h
    cases h
  | ok range =>
    rw [hslice] at h
    cases h
    exact ⟨range, rfl, rfl⟩

theorem chunkOf_carry (h : Carry d.state d.charOrIndex)
    (hchunk : chunkOf d codeUnits start maybeEnd = .ok (d', chunk)) :
    Carry d'.state d'.charOrIndex := by
  obtain ⟨range, -, hskip⟩ := chunkOf_eq hchunk
  have hcarry := skipBomChunked_carry h range
  rwa [hskip] at hcarry

theorem carry_of_isCarried {state char : ℕ} (h : IsCarried (carried state char)) :
    Carry state char := by
  by_cases hstate : state = IA
  · subst hstate
    exact .boundary _
  · rw [carried, if_neg hstate] at h
    exact h.1

theorem stored_eq {size : ℤ} {writes : List ℕ} (h : (writes.length : ℤ) = size) :
    stored size writes = writes := by
  rw [stored, ← h, Int.toNat_natCast, List.take_length, Nat.sub_self, List.replicate_zero,
    List.append_nil]

/-- One byte, with or without replacement. -/
def feed (allowMalformed : Bool) : ℕ × ℕ → Byte → Except ℕ (List ℕ × (ℕ × ℕ)) :=
  if allowMalformed then lenientStep else strictStep

theorem run_feed_of_strict (allowMalformed : Bool) {s s' : ℕ × ℕ} {bytes : List Byte} {out : List ℕ}
    (h : run strictStep s bytes = (out, .ok s')) :
    run (feed allowMalformed) s bytes = (out, .ok s') := by
  cases allowMalformed with
  | false => exact h
  | true => exact run_lenient h

/-- What a call of `convertChunked` does, for a run of the automaton. -/
def Converts (d : Decoder) (result : Except Exn (List ℕ) × Decoder)
    (r : List ℕ × Except ℕ (ℕ × ℕ)) : Prop :=
  match r with
  | (out, .ok s) => ∃ state char, carried state char = s ∧ Carry state char ∧
      result = (.ok out, { d with state, charOrIndex := char })
  | (_, .error _) => ∃ message offset char,
      result = (.error (.format message offset), { d with state := IA, charOrIndex := char })

/-- **A call of `convertChunked`** is a run of the automaton. -/
theorem convertChunked_spec (h : Carry d.state d.charOrIndex)
    (hchunk : chunkOf d codeUnits start maybeEnd = .ok (d', chunk)) :
    Converts d' (convertChunked d codeUnits start maybeEnd)
      (run (feed d'.allowMalformed) (carried d'.state d'.charOrIndex) chunk.bytes) := by
  have hcarry := chunkOf_carry h hchunk
  obtain ⟨bytes, i, errorOffset⟩ := chunk
  simp only [convertChunked, hchunk]
  by_cases hne : bytes = []
  · subst hne
    exact ⟨_, _, rfl, hcarry, rfl⟩
  simp only [if_neg hne]
  cases hcall : decodeCall d'.state d'.charOrIndex i bytes with
  | none =>
    obtain ⟨hstate, hascii⟩ := decodeCall_none hcarry hcall
    have hrun := run_ascii (fun byte => strictStep_ascii) hascii
    have hsize : (scan bytes).1 = bytes.length := by
      rw [(scan_eq bytes).1]
      exact sizeSum_ascii hascii
    rw [hstate, show carried IA d'.charOrIndex = (IA, 0) from rfl, run_feed_of_strict _ hrun, hsize,
      List.take_length]
    refine ⟨IA, d'.charOrIndex, rfl, .boundary _, ?_⟩
    rw [← hstate]
  | some call =>
    obtain ⟨hfollows, -⟩ := decodeCall_some hcarry hne hcall
    have hfits := (length_writes_le hcarry hne hcall).2
    cases herror : isErrorState call.run.state with
    | false =>
      simp only [herror, Bool.not_false, if_true]
      rw [Run.Follows, herror] at hfollows
      have hs' := run_invariant isCarried_step hcarry.isCarried hfollows
      rw [run_feed_of_strict _ hfollows, stored_eq (hfits herror)]
      exact ⟨_, _, rfl, carry_of_isCarried hs', rfl⟩
    | true =>
      simp only [herror, Bool.not_true, Bool.false_eq_true, if_false]
      cases hallow : d'.allowMalformed with
      | false =>
        rw [Run.Follows, herror] at hfollows
        simp only [Bool.not_false, if_true, feed, Bool.false_eq_true, if_false, hfollows]
        exact ⟨_, _, _, by rw [hallow]⟩
      | true =>
        obtain ⟨out, hwrites, hcarry', hrun⟩ := decodeGeneral_run hcarry i hne
        simp only [Bool.not_true, Bool.false_eq_true, if_false, feed, if_true, hrun]
        refine ⟨_, _, rfl, hcarry', ?_⟩
        rw [hwrites, List.nil_append, hallow]

theorem convertChunked_error {e : Exn} (hchunk : chunkOf d codeUnits start maybeEnd = .error e) :
    convertChunked d codeUnits start maybeEnd = (.error e, d) := by
  simp [convertChunked, hchunk]

/-- **Between calls the decoder is at a boundary or inside of a character.** -/
theorem Reachable.carry (h : Reachable d) : Carry d.state d.charOrIndex := by
  induction h with
  | new => exact .boundary 0
  | @convert d codeUnits start maybeEnd _ ih =>
    cases hchunk : chunkOf d codeUnits start maybeEnd with
    | error e => rwa [convertChunked_error hchunk]
    | ok p =>
      have hspec := convertChunked_spec ih hchunk
      unfold Converts at hspec
      split at hspec
      · obtain ⟨state, char, -, hcarry, heq⟩ := hspec
        rwa [heq]
      · obtain ⟨message, offset, char, heq⟩ := hspec
        rw [heq]
        exact .boundary char

/-- **The unchecked writes are inside of the string**: for every range of every input, from every
decoder that earlier calls have left.  Without an error the string is filled. -/
theorem convertChunked_inBounds (h : Reachable d)
    (hchunk : chunkOf d codeUnits start maybeEnd = .ok (d', chunk)) (hne : chunk.bytes ≠ [])
    {call : Call} (hcall : decodeCall d'.state d'.charOrIndex chunk.i chunk.bytes = some call) :
    (call.run.writes.length : ℤ) ≤ call.size ∧
      (isErrorState call.run.state = false → (call.run.writes.length : ℤ) = call.size) :=
  length_writes_le (chunkOf_carry h.carry hchunk) hne hcall

theorem scan_short {bytes : List Byte} (h : bytes.length ≤ scanChunkSize) :
    scan bytes = scanPart bytes := by
  rw [scan, if_neg (Nat.not_lt.mpr h)]

theorem convertChunked_cutEuro :
    (convertChunked (Decoder.new true) (.uint8List [0x61, 0xE2, 0x82]) 0 none).2 =
      ⟨true, X1, 0x82, -1⟩ := by
  have hchunk : chunkOf (Decoder.new true) (.uint8List [0x61, 0xE2, 0x82]) 0 none =
      .ok (⟨true, IA, 0, -1⟩, ⟨[0x61, 0xE2, 0x82], 0, 0⟩) := rfl
  have hcall : decodeCall IA 0 0 [0x61, 0xE2, 0x82] = some ⟨false, 1, ⟨X1, 0x82, [0x61]⟩⟩ := by
    rw [decodeCall, scan_short (by decide)]
    rfl
  simp only [convertChunked, hchunk, hcall]
  rfl

/-- Then the rest of the euro sign, and the first byte of another character. -/
theorem convertChunked_inBounds_euro :
    ∃ call, decodeCall X1 0x82 0 [0xAC, 0xC3] = some call ∧
      (call.run.writes.length : ℤ) ≤ call.size ∧
      (isErrorState call.run.state = false → (call.run.writes.length : ℤ) = call.size) := by
  have hreachable : Reachable ⟨true, X1, 0x82, -1⟩ :=
    convertChunked_cutEuro ▸ .convert (.uint8List [0x61, 0xE2, 0x82]) 0 none (.new true)
  have hchunk : chunkOf ⟨true, X1, 0x82, -1⟩ (.uint8List [0xAC, 0xC3]) 0 none =
      .ok (⟨true, X1, 0x82, -1⟩, ⟨[0xAC, 0xC3], 0, 0⟩) := rfl
  have hcall : decodeCall X1 0x82 0 [0xAC, 0xC3] = some ⟨false, 1, ⟨X1, 3, [0x20AC]⟩⟩ := by
    rw [decodeCall, scan_short (by decide)]
    rfl
  exact ⟨_, hcall, convertChunked_inBounds hreachable hchunk (by decide) hcall⟩

end Utf8
