import DartSdk.Convert.Base64.EncoderSink

/-!
# Convert/Base64/Codec — the codec as a whole

Encoding and decoding are inverse, chunked encoding is one-shot encoding, and chunked decoding is
one-shot decoding **unless it ends with an empty last slice** (`codec_iff`).
-/

namespace Base64

/-- A chunked conversion with the result of a one-shot one: the same bytes, after which the sink
downstream is closed, or a `FormatException`. -/
def SameOutcome (chunked : Except Exn (List Event)) : Except Exn (List ℕ) → Prop
  | .ok bytes => ∃ events, chunked = .ok events ∧ Delivers events bytes
  | .error (.format _ _) => ∃ message offset, chunked = .error (.format message offset)
  | .error _ => False

theorem sameOutcome_iff {chunked : Except Exn (List Event)} {single : Except Exn (List ℕ)}
    {o : Option (List ℕ)} (h : Gives single (· = ·) o) :
    SameOutcome chunked single ↔ Gives chunked Delivers o := by
  cases o with
  | some bytes =>
    obtain ⟨_, rfl, rfl⟩ := h
    exact Iff.rfl
  | none =>
    obtain ⟨m, o, rfl⟩ := h
    exact Iff.rfl

theorem convert_all (input : List ℕ) : Gives (convert input 0 none) (· = ·) (decoded input) := by
  have hspec := convert_spec (Option.getD_none : (none : Option ℕ).getD input.length = input.length)
    (Nat.zero_le _) le_rfl
  rwa [List.take_length, List.drop_zero] at hspec

/-- **The buffer**: no write is outside of it, and without an error it is filled. -/
theorem decodeChunk_fills {pre : List ℕ} {k : Sink} (h : Progress pre k)
    (hdata : ¬ hasSeenPadding k.state) (chars : List ℕ) (start : ℕ) :
    (∃ message offset, decodeChunk start chars (allocateBuffer chars k.state) k.state =
        .error (.format message offset)) ∨
      ∃ out state, decodeChunk start chars (allocateBuffer chars k.state) k.state =
          .ok (out, state) ∧ out.length = allocateBuffer chars k.state := by
  obtain ⟨st, adds, hstate, -, hrun⟩ := h
  have hvalid := Transducer.run_invariant step_valid valid_initial hrun
  rw [hstate] at hdata ⊢
  cases st with
  | pad e => exact absurd (hasSeenPadding_pad e) hdata
  | data bits count =>
    have hspec := decodeChunk_spec hvalid start chars
    cases hrest : Transducer.run step (.data bits count) chars with
    | mk w r =>
    rw [hrest] at hspec
    cases r with
    | ok st =>
      obtain ⟨r, hchunk, rfl, hlength⟩ := hspec
      exact Or.inr ⟨_, _, hchunk, hlength⟩
    | error => exact Or.inl hspec

/-- **The codec.**  For every byte list, both alphabets and every way to cut the bytes, decoding the
text gives the bytes and chunked encoding gives the text.  For every text, chunked decoding agrees
with one-shot decoding unless the last call is `addSlice` of an empty range, with `isLast: true`,
after characters that begin a base64 text.  Nothing but a `FormatException` is thrown, and the
buffer of a chunk has room for all writes and is filled by a valid one. -/
theorem codec_iff (kind : EncoderSinkKind) (urlSafe : Bool) (bytes : List Byte)
    (byteCalls : List (Call ℤ)) (byteEnding : Ending ℤ)
    (hbytes : allItems byteCalls byteEnding = ints bytes)
    (calls : List (Call ℕ)) (ending : Ending ℕ) : (∃ text, encode urlSafe (ints bytes) = .ok text ∧
      convert text 0 none = .ok (bytes.map Fin.val) ∧
      ∃ events, encodeCalls kind urlSafe byteCalls byteEnding = .ok events ∧
        Utf8.text events = text ∧ Utf8.closes events = 1) ∧
    (SameOutcome (decodeCalls calls ending) (convert (allItems calls ending) 0 none) ↔
      ¬ ∃ last, ending = .last last ∧ last.items = [] ∧
        ∃ more b, Text (calls.flatMap Call.items ++ more) b) ∧
    (∀ e, decodeCalls calls ending = .error e ∨ convert (allItems calls ending) 0 none = .error e →
      ∃ message offset, e = .format message offset) ∧
    (∀ k, calls.foldlM Sink.call Sink.new = .ok k → ¬ hasSeenPadding k.state →
      ∀ (chars : List ℕ) (start : ℕ),
        (∃ message offset, decodeChunk start chars (allocateBuffer chars k.state) k.state =
            .error (.format message offset)) ∨
          ∃ out state, decodeChunk start chars (allocateBuffer chars k.state) k.state =
              .ok (out, state) ∧ out.length = allocateBuffer chars k.state) := by
  refine ⟨⟨_, encode_spec urlSafe bytes, ?_, encodeCalls_spec kind urlSafe hbytes⟩, ?_, ?_, ?_⟩
  · have hconvert := convert_all (encoded (alphabetOf urlSafe) bytes)
    rw [decoded_iff.mpr (text_encoded urlSafe bytes)] at hconvert
    obtain ⟨_, hok, rfl⟩ := hconvert
    exact hok
  · rw [sameOutcome_iff (convert_all _), decodeCalls_gives_iff]
    simp [not_refused_iff]
  · rintro e (h | h)
    · exact error_of_decodeCalls h
    · exact (convert_all _).error h
  · intro k hfold hdata chars start
    have hcalls := progress_new.calls calls
    rcases hcalls with ⟨k', hfold', hk'⟩ | ⟨⟨m, o, hfold'⟩, -⟩
    · rw [hfold] at hfold'
      cases hfold'
      exact decodeChunk_fills hk' hdata chars start
    · rw [hfold] at hfold'
      cases hfold'

/-- The bytes of `foob` in three calls, and the text `Zm9vYg==` with its padding in two. -/
theorem codec_foob :
    (∃ text, encode false (ints [0x66, 0x6F, 0x6F, 0x62]) = .ok text ∧
      convert text 0 none = .ok [0x66, 0x6F, 0x6F, 0x62] ∧
      ∃ events, encodeCalls .ascii false [.add [0x66, 0x6F], .add [], .add [0x6F]]
          (.last ⟨[0, 0x62], 1, 2, by decide, by decide⟩) = .ok events ∧
        Utf8.text events = text ∧ Utf8.closes events = 1) ∧
    SameOutcome (decodeCalls [.add [0x5A, 0x6D, 0x39], .add [0x76, 0x59, 0x67, 0x3D], .add [0x3D]]
      .close) (convert [0x5A, 0x6D, 0x39, 0x76, 0x59, 0x67, 0x3D, 0x3D] 0 none) := by
  obtain ⟨hencode, hdecode, -⟩ := codec_iff .ascii false [0x66, 0x6F, 0x6F, 0x62]
    [.add [0x66, 0x6F], .add [], .add [0x6F]] (.last ⟨[0, 0x62], 1, 2, by decide, by decide⟩) rfl
    [.add [0x5A, 0x6D, 0x39], .add [0x76, 0x59, 0x67, 0x3D], .add [0x3D]] .close
  exact ⟨hencode, hdecode.2 fun ⟨_, h, _⟩ => nomatch h⟩

/-- After the text `QUJD` and an empty last slice the sink downstream has the bytes, but is not
closed. -/
theorem decodeCalls_notClosed :
    decodeCalls [.add [0x51, 0x55, 0x4A, 0x44]] (.last ⟨[], 0, 0, le_rfl, le_rfl⟩) =
        .ok [.add [0x41, 0x42, 0x43]] ∧
      convert [0x51, 0x55, 0x4A, 0x44] 0 none = .ok [0x41, 0x42, 0x43] := by
  decide

end Base64
