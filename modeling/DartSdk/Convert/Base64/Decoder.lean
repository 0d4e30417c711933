import Mathlib.Data.Int.Notation
import Mathlib.Data.Nat.Notation
import Mathlib.Tactic.SplitIfs

/-!
# Convert/Base64/Decoder — `_Base64Decoder` and its sink

Between chunks the decoder keeps one integer: the number of characters of an unfinished block of
four and their bits, or, once padding has begun, the negated number of padding characters still to
come, where `=` counts as three and each character of `%3D` as one.

A range of a string is the list of its code units, with the index of the first one for the offsets
of errors.  The writes into the preallocated buffer are checked here, as those of a `Uint8List` are:
one that is out of range is a `RangeError`, and so is a read after the end of the string.
-/

namespace Base64

variable {char e expectedPadding : ℕ} {r rest : List ℕ}

/-- What the decoder throws. -/
inductive Exn where
  | format (message : String) (offset : Option ℕ)
  | range
  /-- `!` of `null`. -/
  | nullCheck
  deriving DecidableEq, Repr

/-- A range of a list or of a string. -/
structure Slice (α : Type) where
  source : List α
  start : ℕ
  stop : ℕ
  start_le : start ≤ stop
  stop_le : stop ≤ source.length

/-- The elements of a slice. -/
def Slice.items {α : Type} (slice : Slice α) : List α :=
  (slice.source.take slice.stop).drop slice.start

/-- A call that does not end the conversion. -/
inductive Call (α : Type) where
  | add (source : List α)
  | addSlice (slice : Slice α)

/-- What a call gives to the sink. -/
def Call.items {α : Type} : Call α → List α
  | add source => source
  | addSlice slice => slice.items

/-- How a conversion ends: with `close`, or with `addSlice(…, isLast: true)`. -/
inductive Ending (α : Type) where
  | close
  | last (slice : Slice α)

/-- What the last call gives to the sink. -/
def Ending.items {α : Type} : Ending α → List α
  | close => []
  | last slice => slice.items

/-- Stores of bytes at the first places of a buffer of the given size that are free. -/
def put (size : ℕ) (out bytes : List ℕ) : Except Exn (List ℕ) :=
  if out.length + bytes.length ≤ size then .ok (out ++ bytes.map (· &&& 0xFF)) else .error .range

/-! ## The state

Between chunks the state is one integer: the bits and the count of an unfinished group, or the
padding that is expected. -/

/-- `_invalid`: a character that is neither a digit nor padding. -/
def invalid : ℤ := -2

/-- `_padding`. -/
def padding : ℤ := -1

/-- `_inverseAlphabet`, which reads both alphabets. -/
def inverseAlphabet : List ℤ :=
  [-2, -2, -2, -2, -2, -2, -2, -2, -2, -2, -2, -2, -2, -2, -2, -2,
   -2, -2, -2, -2, -2, -2, -2, -2, -2, -2, -2, -2, -2, -2, -2, -2,
   -2, -2, -2, -2, -2, -1, -2, -2, -2, -2, -2, 62, -2, 62, -2, 63,
   52, 53, 54, 55, 56, 57, 58, 59, 60, 61, -2, -2, -2, -1, -2, -2,
   -2, 00, 01, 02, 03, 04, 05, 06, 07, 08, 09, 10, 11, 12, 13, 14,
   15, 16, 17, 18, 19, 20, 21, 22, 23, 24, 25, -2, -2, -2, -2, 63,
   -2, 26, 27, 28, 29, 30, 31, 32, 33, 34, 35, 36, 37, 38, 39, 40,
   41, 42, 43, 44, 45, 46, 47, 48, 49, 50, 51, -2, -2, -2, -2, -2]

/-- The last index of `_inverseAlphabet`. -/
def asciiMax : ℕ := 127

/-- `inverseAlphabet[char & asciiMask]`; the table has 128 entries. -/
def codeOf (char : ℕ) : ℤ := inverseAlphabet.getD (char &&& 127) invalid

/-- The character `=`. -/
def paddingChar : ℕ := 0x3D
def charPercent : ℕ := 0x25
def char3 : ℕ := 0x33
def charD : ℕ := 0x64

/-- `_encodeCharacterState`: the bits of an unfinished group, and how many characters it has. -/
def encodeCharacterState (count bits : ℕ) : ℤ := ((bits <<< 2 ||| count : ℕ) : ℤ)
def stateCount (state : ℤ) : ℕ := state.toNat &&& 3
def stateBits (state : ℤ) : ℕ := state.toNat >>> 2

/-- `_encodePaddingState`: a negative state, for the padding that is still expected. -/
def encodePaddingState (expectedPadding : ℕ) : ℤ := -(expectedPadding : ℤ) - 1
def statePadding (state : ℤ) : ℕ := (-state - 1).toNat

/-- `_hasSeenPadding`. -/
def hasSeenPadding (state : ℤ) : Prop := state < 0

instance (state : ℤ) : Decidable (hasSeenPadding state) := inferInstanceAs (Decidable (state < 0))

/-! ## Padding

Padding may be written as `%3D`. -/

/-- How an iteration of the loop of `_checkPadding` ends: it leaves the loop or goes on. -/
inductive PaddingStep where
  | leave (expectedPadding : ℕ) (rest : List ℕ)
  | go (expectedPadding : ℕ) (rest : List ℕ)
  deriving DecidableEq, Repr

/-- The end of an iteration: `D` or `d`. -/
def expectD (expectedPadding char : ℕ) (rest : List ℕ) : PaddingStep :=
  if (char ||| 0x20) ≠ charD then .leave expectedPadding (char :: rest)
  else if rest = [] then .leave (expectedPadding - 1) rest
  else .go (expectedPadding - 1) rest

/-- The middle of an iteration: `3`, if the next one is not `D` already. -/
def expectPartial (expectedPadding char : ℕ) (rest : List ℕ) : PaddingStep :=
  let expectedPartialPadding := if 3 < expectedPadding then expectedPadding - 3 else expectedPadding
  if expectedPartialPadding = 2 then
    if char ≠ char3 then .leave expectedPadding (char :: rest)
    else
      match rest with
      | [] => .leave (expectedPadding - 1) []
      | char :: rest => expectD (expectedPadding - 1) char rest
  else expectD expectedPadding char rest

/-- An iteration of the loop. -/
def paddingStep (expectedPadding char : ℕ) (rest : List ℕ) : PaddingStep :=
  if expectedPadding = 3 then
    if char = paddingChar then .leave (expectedPadding - 3) rest
    else if char = charPercent then
      match rest with
      | [] => .leave (expectedPadding - 1) []
      | char :: rest => expectPartial (expectedPadding - 1) char rest
    else .leave expectedPadding (char :: rest)
  else expectPartial expectedPadding char rest

theorem expectD_go (h : expectD expectedPadding char rest = .go e r) : e = expectedPadding - 1 := by
  unfold expectD at h
  split_ifs at h
  cases h
  rfl

theorem expectPartial_go
    (h : expectPartial expectedPadding char rest = .go e r) : e ≤ expectedPadding - 1 := by
  unfold expectPartial at h
  simp only at h
  generalize (if 3 < expectedPadding then expectedPadding - 3 else expectedPadding) = p at h
  split_ifs at h
  · cases rest with
    | nil => cases h
    | cons char rest =>
      have := expectD_go h
      omega
  · exact Nat.le_of_eq (expectD_go h)

/-- An iteration that goes on has seen some padding. -/
theorem paddingStep_go
    (h : paddingStep expectedPadding char rest = .go e r) : e ≤ expectedPadding - 1 := by
  unfold paddingStep at h
  split_ifs at h with h3
  · cases rest with
    | nil => cases h
    | cons char rest =>
      have := expectPartial_go h
      omega
  · exact expectPartial_go h

/-- The loop of `_checkPadding`. -/
def checkPaddingLoop (expectedPadding : ℕ) (rest : List ℕ) : Except Exn (ℕ × List ℕ) :=
  if _h0 : expectedPadding = 0 then .ok (0, rest)
  else
    match rest with
    | [] => .error .range
    | char :: rest =>
      match _h : paddingStep expectedPadding char rest with
      | .leave expectedPadding rest => .ok (expectedPadding, rest)
      | .go expectedPadding rest => checkPaddingLoop expectedPadding rest
termination_by expectedPadding
decreasing_by
  have := paddingStep_go _h
  omega

/-- `_checkPadding` of the characters from `start` on. -/
def checkPadding (start : ℕ) (chars : List ℕ) (state : ℤ) : Except Exn ℤ :=
  if chars = [] then .ok state
  else do
    let (expectedPadding, rest) ← checkPaddingLoop (statePadding state) chars
    if rest ≠ [] then
      .error (.format "Invalid padding character" (some (start + (chars.length - rest.length))))
    else return encodePaddingState expectedPadding

/-- A character that may be stepped over, backwards, if it is not the first one. -/
def skipChar (p : ℕ → Bool) : List ℕ → Option (List ℕ)
  | [] => none
  | char :: rest => if p char then (if rest = [] then none else some rest) else some (char :: rest)

/-- The loop of `_trimPaddingChars` over the reversed characters, for at most `left` paddings. -/
def trimLoop : ℕ → ℕ → List ℕ → ℕ
  | 0, newEnd, _ => newEnd
  | _ + 1, newEnd, [] => newEnd
  | left + 1, newEnd, char :: rest =>
    if char = paddingChar then trimLoop left rest.length rest
    else
      match (skipChar (fun char => (char ||| 0x20) = charD) (char :: rest)).bind
          (skipChar (· = char3)) with
      | some (char :: rest) => if char = charPercent then trimLoop left rest.length rest else newEnd
      | _ => newEnd

/-- `_trimPaddingChars`, counted from the start of the range. -/
def trimPaddingChars (chars : List ℕ) : ℕ := trimLoop 2 chars.length chars.reverse

/-- The length of the buffer of `_allocateBuffer`. -/
def allocateBuffer (chars : List ℕ) (state : ℤ) : ℕ :=
  let paddingStart := trimPaddingChars chars
  let length := stateCount state + paddingStart
  let bufferLength := (length >>> 2) * 3
  let remainderLength := length &&& 3
  if remainderLength ≠ 0 ∧ paddingStart < chars.length then bufferLength + (remainderLength - 1)
  else bufferLength

/-- After the loop of `decodeChunk`: all characters have to be ASCII. -/
def afterLoop (start : ℕ) (chunk : List ℕ) (count bits charOr : ℕ) (out : List ℕ) :
    Except Exn (List ℕ × ℤ) :=
  if charOr ≤ asciiMax then .ok (out, encodeCharacterState count bits)
  else .error (.format "Invalid character" (some (start + (chunk.takeWhile (· ≤ asciiMax)).length)))

/-- The first padding character: the bytes of the unfinished block. -/
def beforePadding (size i count bits : ℕ) (out : List ℕ) : Except Exn (List ℕ) :=
  if count = 3 then
    if bits &&& 0x03 ≠ 0 then .error (.format "Invalid encoding before padding" (some i))
    else put size out [bits >>> 10, bits >>> 2]
  else
    if bits &&& 0x0F ≠ 0 then .error (.format "Invalid encoding before padding" (some i))
    else put size out [bits >>> 4]

/-- The loop of `decodeChunk` over the characters, with the bits and the count of the current
group. -/
def decodeChunkLoop (start : ℕ) (chunk : List ℕ) (size : ℕ) :
    ℕ → ℕ → ℕ → ℕ → List ℕ → List ℕ → Except Exn (List ℕ × ℤ)
  | _, bits, count, charOr, out, [] => afterLoop start chunk count bits charOr out
  | i, bits, count, charOr, out, char :: rest =>
    let charOr := charOr ||| char
    let code := codeOf char
    if 0 ≤ code then
      let bits := ((bits <<< 6) ||| code.toNat) &&& 0xFFFFFF
      let count := (count + 1) &&& 3
      if count = 0 then do
        let out ← put size out [bits >>> 16, bits >>> 8, bits]
        decodeChunkLoop start chunk size (i + 1) 0 count charOr out rest
      else decodeChunkLoop start chunk size (i + 1) bits count charOr out rest
    else if code = padding ∧ 1 < count then
      if asciiMax < charOr then afterLoop start chunk count bits charOr out
      else do
        let out ← beforePadding size i count bits out
        let expectedPadding := (3 - count) * 3 + if char = charPercent then 2 else 0
        let state ← checkPadding (i + 1) rest (encodePaddingState expectedPadding)
        return (out, state)
    else .error (.format "Invalid character" (some i))

/-- `decodeChunk`, from the bits and the count of the state. -/
def decodeChunk (start : ℕ) (chars : List ℕ) (size : ℕ) (state : ℤ) : Except Exn (List ℕ × ℤ) :=
  decodeChunkLoop start chars size start (stateBits state) (stateCount state) 0 [] chars

/-- `decode`: the buffer, or `null` after padding, and the new state. -/
def decode (state : ℤ) (chars : List ℕ) (start : ℕ) : Except Exn (Option (List ℕ) × ℤ) :=
  if hasSeenPadding state then do
    let state ← checkPadding start chars state
    return (none, state)
  else if chars = [] then return (some [], state)
  else do
    let size := allocateBuffer chars state
    let (out, state) ← decodeChunk start chars size state
    return (some (out ++ List.replicate (size - out.length) 0), state)

/-- `_Base64Decoder.close`: an unfinished group or missing padding is an error. -/
def close (state : ℤ) (stop : Option ℕ) : Except Exn ℤ :=
  if state < encodePaddingState 0 then .error (.format "Missing padding character" stop)
  else if 0 < state then .error (.format "Invalid length, must be multiple of four" stop)
  else .ok (encodePaddingState 0)

/-- `Base64Decoder.convert`. -/
def convert (input : List ℕ) (start : ℕ) (maybeEnd : Option ℕ) : Except Exn (List ℕ) :=
  let stop := maybeEnd.getD input.length
  if start ≤ stop ∧ stop ≤ input.length then
    if start = stop then .ok []
    else do
      let (buffer, state) ← decode 0 ((input.take stop).drop start) start
      match buffer with
      | none => .error .nullCheck
      | some buffer =>
        let _ ← close state (some stop)
        return buffer
  else .error .range

/-- A call that the sink downstream receives. -/
inductive Event where
  | add (bytes : List ℕ)
  | close
  deriving DecidableEq, Repr

/-- `_Base64DecoderSink`: the state of its decoder, and the bytes passed on. -/
structure Sink where
  state : ℤ
  events : List Event

namespace Sink

/-- A sink that has read nothing. -/
def new : Sink := ⟨0, []⟩

/-- `_decoder.decode`, with its result sent downstream. -/
def decode (k : Sink) (chars : List ℕ) (start : ℕ) : Except Exn Sink := do
  let (buffer, state) ← Base64.decode k.state chars start
  match buffer with
  | none => return ⟨state, k.events⟩
  | some buffer => return ⟨state, k.events ++ [.add buffer]⟩

/-- Closes the decoder, at a position that an error names. -/
def closeAt (k : Sink) (stop : Option ℕ) : Except Exn Sink := do
  let state ← Base64.close k.state stop
  return ⟨state, k.events ++ [.close]⟩

/-- `add`: an empty string changes nothing. -/
def add (k : Sink) (string : List ℕ) : Except Exn Sink :=
  if string = [] then .ok k else k.decode string 0

/-- `close`. -/
def close (k : Sink) : Except Exn Sink := k.closeAt none

/-- `addSlice`: an empty slice is ignored, even if it is the last one. -/
def addSlice (k : Sink) (slice : Slice ℕ) (isLast : Bool) : Except Exn Sink :=
  if slice.start = slice.stop then .ok k
  else do
    let k ← k.decode slice.items slice.start
    if isLast then k.closeAt (some slice.stop) else return k

/-- One call of the sink. -/
def call (k : Sink) : Call ℕ → Except Exn Sink
  | .add string => k.add string
  | .addSlice slice => k.addSlice slice false

end Sink

/-- What a chunked conversion sends downstream. -/
def decodeCalls (calls : List (Call ℕ)) (ending : Ending ℕ) : Except Exn (List Event) := do
  let k ← calls.foldlM Sink.call Sink.new
  let k ← match ending with
    | .close => k.close
    | .last slice => k.addSlice slice true
  return k.events

end Base64
