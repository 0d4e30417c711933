import DartSdk.Convert.Utf8.Decoder

/-!
# Convert/Utf8/Sink — the sinks of chunked UTF-8 decoding

`startChunkedConversion` gives a `_Utf8ConversionSink`, which sends strings to a
`StringConversionSink`, or a `_Utf8StringSinkAdapter`, which writes them to a `StringSink`.  The
calls that the sink downstream receives are recorded.
-/

namespace Utf8

/-- The arguments of `addSlice`; `add(chunk)` is the slice of the whole chunk. -/
structure Slice where
  codeUnits : CodeUnits
  start : ℕ
  stop : ℕ
  start_le : start ≤ stop
  stop_le : stop ≤ codeUnits.bytes.length

/-- The bytes of a slice. -/
def Slice.bytes (slice : Slice) : List Byte :=
  (slice.codeUnits.bytes.take slice.stop).drop slice.start

/-- A call that the sink downstream receives. -/
inductive Event where
  | add (text : List ℕ) (isLast : Bool)
  | close
  deriving DecidableEq, Repr

/-- The text that was sent downstream. -/
def text : List Event → List ℕ
  | [] => []
  | .add s _ :: events => s ++ text events
  | .close :: events => text events

/-- How often the sink downstream was closed. -/
def closes : List Event → ℕ
  | [] => 0
  | .add _ isLast :: events => (if isLast then 1 else 0) + closes events
  | .close :: events => 1 + closes events

/-- A sink, with the calls it has made. -/
structure Sink where
  decoder : Decoder
  buffer : List ℕ
  events : List Event

/-- A sink that has read nothing. -/
def Sink.new (allowMalformed : Bool) : Sink := ⟨.new allowMalformed, [], []⟩

/-- The two sinks of a chunked conversion. -/
inductive SinkKind where
  | conversion
  | stringSink
  deriving DecidableEq

namespace ConversionSink

/-- `_Utf8ConversionSink.close`: what the flush gives is passed on. -/
def close (k : Sink) : Except Exn Sink :=
  match flush k.decoder with
  | (.error e, _) => .error e
  | (.ok s, decoder) =>
    let accumulated := k.buffer ++ s
    if accumulated ≠ [] then .ok ⟨decoder, [], k.events ++ [.add accumulated true]⟩
    else .ok ⟨decoder, [], k.events ++ [.close]⟩

/-- `_Utf8ConversionSink.addSlice`. -/
def addSlice (k : Sink) (slice : Slice) (isLast : Bool) : Except Exn Sink :=
  match convertChunked k.decoder slice.codeUnits slice.start (some slice.stop) with
  | (.error e, _) => .error e
  | (.ok s, decoder) =>
    let accumulated := k.buffer ++ s
    if accumulated ≠ [] then .ok ⟨decoder, [], k.events ++ [.add accumulated isLast]⟩
    else if isLast then close ⟨decoder, accumulated, k.events⟩
    else .ok ⟨decoder, accumulated, k.events⟩

end ConversionSink

namespace StringSinkAdapter

/-- `_Utf8StringSinkAdapter.close`. -/
def close (k : Sink) : Except Exn Sink :=
  match flush k.decoder with
  | (.error e, _) => .error e
  | (.ok s, decoder) => .ok ⟨decoder, [], k.events ++ [.add s false, .close]⟩

/-- `_Utf8StringSinkAdapter.addSlice`. -/
def addSlice (k : Sink) (slice : Slice) (isLast : Bool) : Except Exn Sink :=
  match convertChunked k.decoder slice.codeUnits slice.start (some slice.stop) with
  | (.error e, _) => .error e
  | (.ok s, decoder) =>
    let k' : Sink := ⟨decoder, [], k.events ++ [.add s false]⟩
    if isLast then close k' else .ok k'

end StringSinkAdapter

/-- `addSlice` of each kind. -/
def SinkKind.addSlice : SinkKind → Sink → Slice → Bool → Except Exn Sink
  | conversion => ConversionSink.addSlice
  | stringSink => StringSinkAdapter.addSlice

/-- `close` of each kind. -/
def SinkKind.close : SinkKind → Sink → Except Exn Sink
  | conversion => ConversionSink.close
  | stringSink => StringSinkAdapter.close

/-- How a conversion ends: with `close`, or with `addSlice(…, isLast: true)`. -/
inductive Ending where
  | close
  | last (slice : Slice)

/-- What the last call gives to the sink. -/
def Ending.bytes : Ending → List Byte
  | close => []
  | last slice => slice.bytes

/-- What a chunked conversion sends downstream. -/
def convertSlices (kind : SinkKind) (allowMalformed : Bool) (slices : List Slice)
    (ending : Ending) :
    Except Exn (List Event) := do
  let k ← slices.foldlM (fun k slice => kind.addSlice k slice false) (Sink.new allowMalformed)
  let k ← match ending with
    | .close => kind.close k
    | .last slice => kind.addSlice k slice true
  return k.events

end Utf8
