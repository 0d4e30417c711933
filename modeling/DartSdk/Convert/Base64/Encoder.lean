import DartSdk.Convert.Base64.Decoder
import DartSdk.Convert.Utf8.Sink
import Mathlib.Data.Int.Bitwise

/-!
# Convert/Base64/Encoder — `_Base64Encoder` and its sinks

Three bytes become four characters.  Between chunks the encoder keeps the bytes of an unfinished
group, with their number in the two lowest bits.  `_BufferCachingBase64Encoder` writes into a buffer
that it keeps for the next chunk, so that a new text begins over an old one.

The input is any list of integers; other values than bytes are an `ArgumentError`, found after the
loop.  `_AsciiBase64EncoderSink` sends strings downstream, `_Utf8Base64EncoderSink` sends the
characters to the UTF-8 decoding sink of a `StringConversionSink`.
-/

namespace Base64

/-- The alphabet of RFC 4648 base64. -/
def base64Alphabet : List Char :=
  ['A', 'B', 'C', 'D', 'E', 'F', 'G', 'H', 'I', 'J', 'K', 'L', 'M', 'N', 'O', 'P', 'Q', 'R', 'S',
   'T', 'U', 'V', 'W', 'X', 'Y', 'Z', 'a', 'b', 'c', 'd', 'e', 'f', 'g', 'h', 'i', 'j', 'k', 'l',
   'm', 'n', 'o', 'p', 'q', 'r', 's', 't', 'u', 'v', 'w', 'x', 'y', 'z', '0', '1', '2', '3', '4',
   '5', '6', '7', '8', '9', '+', '/']

/-- The alphabet of RFC 4648 base64url. -/
def base64UrlAlphabet : List Char :=
  ['A', 'B', 'C', 'D', 'E', 'F', 'G', 'H', 'I', 'J', 'K', 'L', 'M', 'N', 'O', 'P', 'Q', 'R', 'S',
   'T', 'U', 'V', 'W', 'X', 'Y', 'Z', 'a', 'b', 'c', 'd', 'e', 'f', 'g', 'h', 'i', 'j', 'k', 'l',
   'm', 'n', 'o', 'p', 'q', 'r', 's', 't', 'u', 'v', 'w', 'x', 'y', 'z', '0', '1', '2', '3', '4',
   '5', '6', '7', '8', '9', '-', '_']

/-- The alphabet of the encoder. -/
def alphabetOf (urlSafe : Bool) : List Char := if urlSafe then base64UrlAlphabet else base64Alphabet

/-- The code unit of a digit. -/
def codeUnitAt (alphabet : List Char) (i : ℕ) : ℕ := (alphabet.getD i 'A').toNat

/-- The bits of one digit. -/
def sixBitMask : ℕ := 0x3F

/-- What the encoder throws. -/
inductive EncodeExn where
  | argument (index : ℕ)
  | range
  | nullCheck
  /-- An exception of the sink downstream. -/
  | downstream (e : Utf8.Exn)
  deriving DecidableEq, Repr

/-- `_Base64Encoder`: its state, and the buffer that the caching variant keeps. -/
structure Encoder where
  urlSafe : Bool
  /-- `_BufferCachingBase64Encoder`. -/
  caching : Bool
  state : ℕ
  bufferCache : Option (List ℕ)

namespace Encoder

/-- An encoder that has read nothing. -/
def new (urlSafe caching : Bool) : Encoder := ⟨urlSafe, caching, 0, none⟩

/-- `_encodeState`: the bits of an unfinished group, and how many bytes it has. -/
def encodeState (count bits : ℕ) : ℕ := bits <<< 2 ||| count
def stateBits (state : ℕ) : ℕ := state >>> 2
def stateCount (state : ℕ) : ℕ := state &&& 3

/-- `createBuffer`: the buffer, and the one to keep. -/
def createBuffer (e : Encoder) (bufferLength : ℕ) : List ℕ × Option (List ℕ) :=
  if e.caching then
    let buffer := match e.bufferCache with
      | none => List.replicate bufferLength 0
      | some buffer =>
        if buffer.length < bufferLength then List.replicate bufferLength 0 else buffer
    (buffer.take bufferLength, some buffer)
  else (List.replicate bufferLength 0, none)

/-- Stores at the first places of a buffer of the given size that are free. -/
def put (size : ℕ) (out chars : List ℕ) : Except EncodeExn (List ℕ) :=
  if out.length + chars.length ≤ size then .ok (out ++ chars) else .error .range

/-- The four characters of a full group. -/
def fullChunk (alphabet : List Char) (bits : ℕ) : List ℕ :=
  [codeUnitAt alphabet ((bits >>> 18) &&& sixBitMask),
   codeUnitAt alphabet ((bits >>> 12) &&& sixBitMask),
   codeUnitAt alphabet ((bits >>> 6) &&& sixBitMask),
   codeUnitAt alphabet (bits &&& sixBitMask)]

/-- `writeFinalChunk`: the digits of an unfinished group, padded. -/
def finalChunk (alphabet : List Char) (count bits : ℕ) : List ℕ :=
  if count = 1 then
    [codeUnitAt alphabet ((bits >>> 2) &&& sixBitMask),
     codeUnitAt alphabet ((bits <<< 4) &&& sixBitMask), paddingChar, paddingChar]
  else
    [codeUnitAt alphabet ((bits >>> 10) &&& sixBitMask),
     codeUnitAt alphabet ((bits >>> 4) &&& sixBitMask),
     codeUnitAt alphabet ((bits <<< 2) &&& sixBitMask), paddingChar]

/-- `bits = ((bits << 8) | byte) & 0xFFFFFF`. -/
def addByte (bits : ℕ) (byte : ℤ) : ℕ :=
  (Int.land (Int.lor ((bits <<< 8 : ℕ) : ℤ) byte) 0xFFFFFF).toNat

/-- The loop of `encodeChunk`: `bits`, `expectedBytes`, `byteOr` and the output. -/
def encodeLoop (alphabet : List Char) (size : ℕ) :
    ℕ → ℕ → ℤ → List ℕ → List ℤ → Except EncodeExn (ℕ × ℕ × ℤ × List ℕ)
  | bits, expectedBytes, byteOr, out, [] => .ok (bits, expectedBytes, byteOr, out)
  | bits, expectedBytes, byteOr, out, byte :: rest =>
    let byteOr := Int.lor byteOr byte
    let bits := addByte bits byte
    let expectedBytes := expectedBytes - 1
    if expectedBytes = 0 then do
      let out ← put size out (fullChunk alphabet bits)
      encodeLoop alphabet size 0 3 byteOr out rest
    else encodeLoop alphabet size bits expectedBytes byteOr out rest

/-- `encodeChunk`: the output and the new state. -/
def encodeChunk (alphabet : List Char) (start : ℕ) (bytes : List ℤ) (isLast : Bool)
    (size state : ℕ) :
    Except EncodeExn (List ℕ × ℕ) := do
  let (bits, expectedBytes, byteOr, out) ←
    encodeLoop alphabet size (stateBits state) (3 - stateCount state) 0 [] bytes
  if 0 ≤ byteOr ∧ byteOr ≤ 255 then
    if isLast ∧ expectedBytes < 3 then
      let out ← put size out (finalChunk alphabet (3 - expectedBytes) bits)
      return (out, 0)
    else return (out, encodeState (3 - expectedBytes) bits)
  else .error (.argument (start + (bytes.takeWhile fun byte => 0 ≤ byte ∧ byte ≤ 255).length))

/-- `encode`: the output, or `null`. -/
def encode (e : Encoder) (start : ℕ) (bytes : List ℤ) (isLast : Bool) :
    Except EncodeExn (Option (List ℕ) × Encoder) := do
  let byteCount := stateCount e.state + bytes.length
  let fullChunks := byteCount / 3
  let partialChunkLength := byteCount - fullChunks * 3
  let bufferLength := fullChunks * 4 + if isLast ∧ 0 < partialChunkLength then 4 else 0
  let (buffer, bufferCache) := e.createBuffer bufferLength
  let (out, state) ← encodeChunk (alphabetOf e.urlSafe) start bytes isLast bufferLength e.state
  -- What the loop has not written is what was there before.
  let output := out ++ buffer.drop out.length
  let bufferCache := bufferCache.map fun old => output ++ old.drop output.length
  return (if 0 < bufferLength then some output else none, { e with state, bufferCache })

end Encoder

/-- `Base64Encoder.convert`. -/
def encode (urlSafe : Bool) (input : List ℤ) : Except EncodeExn (List ℕ) :=
  if input = [] then .ok []
  else do
    let (buffer, _) ← (Encoder.new urlSafe false).encode 0 input true
    match buffer with
    | none => .error .nullCheck
    | some buffer => return buffer

/-- The sinks of the encoder. -/
inductive EncoderSinkKind where
  | ascii
  /-- Over the UTF-8 sink of a `StringConversionSink`. -/
  | utf8 (kind : Utf8.SinkKind)

/-- A sink, with the sink downstream; an ASCII sink only uses the events of that one. -/
structure EncoderSink where
  encoder : Encoder
  sink : Utf8.Sink

attribute [local instance] Utf8.Byte.neZero

/-- The buffer as an argument of `addSlice(buffer, 0, buffer.length, …)`. -/
def bufferSlice (buffer : List ℕ) : Utf8.Slice where
  codeUnits := .uint8List (buffer.map (Fin.ofNat 256))
  start := 0
  stop := buffer.length
  start_le := Nat.zero_le _
  stop_le := by simp [Utf8.CodeUnits.bytes]

namespace EncoderSink

def new : EncoderSinkKind → Bool → EncoderSink
  | .ascii, urlSafe => ⟨.new urlSafe true, .new false⟩
  | .utf8 _, urlSafe => ⟨.new urlSafe false, .new false⟩

/-- `_add` of the kind of sink: what is sent downstream. -/
def send (kind : EncoderSinkKind) (sink : Utf8.Sink) (buffer : Option (List ℕ)) (isLast : Bool) :
    Except Utf8.Exn Utf8.Sink :=
  match kind with
  | .ascii =>
    let added := match buffer with
      | none => sink.events
      | some string => sink.events ++ [.add string false]
    .ok { sink with events := if isLast then added ++ [.close] else added }
  | .utf8 kind =>
    match buffer with
    | some buffer => kind.addSlice sink (bufferSlice buffer) isLast
    | none => if isLast then kind.close sink else .ok sink

/-- `_add`: encodes a range and passes the digits on. -/
def addRange (kind : EncoderSinkKind) (k : EncoderSink) (start : ℕ) (bytes : List ℤ)
    (isLast : Bool) :
    Except EncodeExn EncoderSink := do
  let (buffer, encoder) ← k.encoder.encode start bytes isLast
  match send kind k.sink buffer isLast with
  | .error e => .error (.downstream e)
  | .ok sink => return ⟨encoder, sink⟩

/-- One call of the sink. -/
def call (kind : EncoderSinkKind) (k : EncoderSink) : Call ℤ → Except EncodeExn EncoderSink
  | .add source => addRange kind k 0 source false
  | .addSlice slice => addRange kind k slice.start slice.items false

/-- The last call of the sink. -/
def finish (kind : EncoderSinkKind) (k : EncoderSink) : Ending ℤ → Except EncodeExn EncoderSink
  | .close => addRange kind k 0 [] true
  | .last slice => addRange kind k slice.start slice.items true

end EncoderSink

/-- What a chunked conversion sends downstream. -/
def encodeCalls (kind : EncoderSinkKind) (urlSafe : Bool) (calls : List (Call ℤ))
    (ending : Ending ℤ) :
    Except EncodeExn (List Utf8.Event) := do
  let k ← calls.foldlM (EncoderSink.call kind) (EncoderSink.new kind urlSafe)
  let k ← EncoderSink.finish kind k ending
  return k.sink.events

end Base64
