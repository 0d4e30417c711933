import DartSdk.Convert.Json.Numeral

/-!
# Convert/Json/Number — `parseNumber` and the numerals that are cut by the end of a chunk

A position in the chunk is what is left of the chunk from there, so `position == length` is the
empty list; a read that the source does not guard stops with `Exn.range` there.  A numeral inside a
chunk is read by `parseNumber`, which computes its value on the way.  One that reaches the end of
the chunk is copied to a buffer, with the place in the grammar where it was cut (`NUM_…`);
`parsePartialNumber` goes on from there in the next chunk, and the buffer is given to `num.parse` or
`double.parse` at the end.
-/

namespace Json

open Double

/-- What a parser throws: a `FormatException`, or an access outside of the chunk. -/
inductive Exn where
  | format (message : String) (position : ℕ)
  | range
  deriving DecidableEq, Repr

/-- `fail`, in a chunk that ends at `chunkEnd`. -/
def fail {α : Type} (chunkEnd : ℕ) (rest : List ℕ) (message : Option String) : Except Exn α :=
  .error (.format (message.getD
    (if rest = [] then "Unexpected end of input" else "Unexpected character"))
    (chunkEnd - rest.length))

/-- `NUM_SIGN`: after the initial `-`. -/
abbrev numSign : ℕ := 0

/-- `NUM_ZERO`: after an initial zero. -/
abbrev numZero : ℕ := 4

/-- `NUM_DIGIT`: after a digit of the integer part. -/
abbrev numDigit : ℕ := 8

/-- `NUM_DOT`: after the point. -/
abbrev numDot : ℕ := 12

/-- `NUM_DOT_DIGIT`: after a digit of the fraction. -/
abbrev numDotDigit : ℕ := 16

/-- `NUM_E`: after the `e` or `E`. -/
abbrev numE : ℕ := 20

/-- `NUM_E_SIGN`: after the sign of the exponent. -/
abbrev numESign : ℕ := 24

/-- `NUM_E_DIGIT`: after a digit of the exponent. -/
abbrev numEDigit : ℕ := 28

/-- What comes of reading a numeral in a chunk: its value, or the place where it was cut with the
characters so far. -/
inductive Reading where
  | number (value : Num)
  | unfinished (state : ℕ) (buffer : List ℕ)

/-- The outcome, and what is left of the chunk. -/
abbrev NumberResult := Except Exn (Reading × List ℕ)

/-- `beginChunkNumber`: the rest of the chunk from the start of the numeral is kept. -/
def beginChunkNumber (state : ℕ) (start : List ℕ) : NumberResult :=
  .ok (.unfinished state start, [])

/-- The characters from `start` up to `rest`. -/
def textBetween (start rest : List ℕ) : List ℕ := start.take (start.length - rest.length)

/-- `double.parse` on a part of the chunk. -/
def parseDoubleBetween (start rest : List ℕ) : Except Exn Num :=
  match parseDouble (textBetween start rest) with
  | some d => .ok (.double d)
  | none => .error .range

/-- `POWERS_OF_TEN`: the powers that are exact in binary64. -/
def powersOfTen : List ℕ :=
  [1, 10, 100, 1000, 10000, 100000, 1000000, 10000000, 100000000, 1000000000, 10000000000,
    100000000000, 1000000000000, 10000000000000, 100000000000000, 1000000000000000,
    10000000000000000, 100000000000000000, 1000000000000000000, 10000000000000000000,
    100000000000000000000, 1000000000000000000000, 10000000000000000000000]

/-- `POWERS_OF_TEN[i]`. -/
def powerOfTen (i : ℕ) : Except Exn Double :=
  match powersOfTen[i]? with
  | some n => .ok (ofRat false n)
  | none => .error .range

/-- The variables of `parseNumber`. -/
structure Scan where
  sign : ℤ
  intValue : BitVec 64
  doubleValue : Double
  isDouble : Bool

namespace Scan

/-- One more digit of the integer part, stored as a negative number. -/
def addDigit (s : Scan) (digitCount digit : ℕ) : Scan :=
  -- Is 1 if the digit is 8 or 9, or only if it is 9 in a negative number.
  let highDigit := digit >>> 3
  let highDigit := if s.sign < 0 then highDigit &&& digit else highDigit
  let overflows := 18 ≤ digitCount && (digitCount = 19 ||
    (s.intValue - BitVec.ofNat 64 highDigit).toInt < -922337203685477580)
  { s with
    isDouble := s.isDouble || overflows
    doubleValue := if overflows then ofRat false 9223372036854775808 else s.doubleValue
    intValue := 10#64 * s.intValue - BitVec.ofNat 64 digit }

/-- The integer part as a double. -/
def toDouble (s : Scan) : Scan :=
  if s.isDouble then s
  else
    { s with
      isDouble := true
      doubleValue := if s.intValue = 0#64 then ofRat false 0
        else (ofInt s.intValue.toInt).neg }

/-- One more digit of the fraction; `intValue` counts them. -/
def addFraction (s : Scan) (digit : ℕ) : Scan :=
  { s with
    doubleValue := (ofInt 10).mul s.doubleValue |>.add (ofInt digit)
    intValue := s.intValue - 1#64 }

end Scan

section

variable (chunkEnd : ℕ) (start : List ℕ)

/-- The value once all of the numeral has been read; an exponent is in `intValue`. -/
def finishNumber (s : Scan) (rest : List ℕ) : Except Exn Num :=
  if !s.isDouble then
    let bitFlag := (-(BitVec.ofInt 64 (s.sign + 1))).sshiftRight 1
    .ok (.int ((s.intValue ^^^ bitFlag) - bitFlag))
  else
    let exponent := s.intValue.toInt
    let signedMantissa := s.doubleValue.mul (ofInt s.sign)
    if s.doubleValue.lt (ofRat false 9007199254740992) && -22 ≤ exponent && exponent < 0 then do
      let power ← powerOfTen (-exponent).toNat
      return .double (signedMantissa.div power)
    else if s.doubleValue.lt (ofRat false 9007199254740992) && exponent = 0 then
      .ok (.double signedMantissa)
    else if s.doubleValue.lt (ofRat false 9007199254740992) && 0 < exponent &&
        exponent ≤ 22 then do
      let power ← powerOfTen exponent.toNat
      return .double (signedMantissa.mul power)
    else parseDoubleBetween start rest

/-- The end of a numeral with an exponent. -/
def finishExponent (s : Scan) (expSign : ℤ) (exponent : BitVec 64) (exponentOverflow : Bool)
    (rest : List ℕ) : Except Exn Num :=
  if exponentOverflow then
    if s.doubleValue.beq (ofRat false 0) || expSign < 0 then
      .ok (.double (ofRat (s.sign < 0) 0))
    else .ok (.double (.infinity (s.sign < 0)))
  else
    finishNumber start
      { s with intValue := s.intValue + BitVec.ofInt 64 expSign * exponent } rest

/-- The digits of the exponent. -/
def exponentDigits (s : Scan) (expSign : ℤ) (exponent : BitVec 64) (exponentOverflow : Bool)
    (digit : ℕ) (rest : List ℕ) : NumberResult :=
  let exponent := 10#64 * exponent + BitVec.ofNat 64 digit
  let exponentOverflow := exponentOverflow || 400 < exponent.toInt
  match rest with
  | [] => beginChunkNumber numEDigit start
  | char :: rest' =>
    if char ^^^ 0x30 ≤ 9 then
      exponentDigits s expSign exponent exponentOverflow (char ^^^ 0x30) rest'
    else do
      let value ← finishExponent start s expSign exponent exponentOverflow rest
      return (.number value, rest)

/-- The first digit of the exponent. -/
def exponentStart (s : Scan) (expSign : ℤ) (char : ℕ) (rest : List ℕ) : NumberResult :=
  if 9 < char ^^^ 0x30 then fail chunkEnd (char :: rest) (some "Missing expected digit")
  else exponentDigits start s expSign 0#64 false (char ^^^ 0x30) rest

/-- The exponent, if there is one. -/
def afterFraction (s : Scan) (char : ℕ) (rest : List ℕ) : NumberResult :=
  if char ||| 0x20 = 0x65 then
    let s := if s.isDouble then s else { s.toDouble with intValue := 0#64 }
    match rest with
    | [] => beginChunkNumber numE start
    | char :: rest =>
      -- `+` or `-`.
      if (char + 1) ||| 2 = 0x2e then
        match rest with
        | [] => beginChunkNumber numESign start
        | char' :: rest => exponentStart chunkEnd start s (0x2c - char) char' rest
      else exponentStart chunkEnd start s 1 char rest
  else do
    let value ← finishNumber start s (char :: rest)
    return (.number value, char :: rest)

/-- The digits of the fraction. -/
def fractionDigits (s : Scan) (digit : ℕ) (rest : List ℕ) : NumberResult :=
  let s := s.addFraction digit
  match rest with
  | [] => beginChunkNumber numDotDigit start
  | char :: rest =>
    if char ^^^ 0x30 ≤ 9 then fractionDigits s (char ^^^ 0x30) rest
    else afterFraction chunkEnd start s char rest

/-- The fraction, if there is one. -/
def afterInteger (s : Scan) (char : ℕ) (rest : List ℕ) : NumberResult :=
  if char = 0x2e then
    let s := { s.toDouble with intValue := 0#64 }
    match rest with
    | [] => beginChunkNumber numDot start
    | char :: rest =>
      if 9 < char ^^^ 0x30 then fail chunkEnd (char :: rest) none
      else fractionDigits chunkEnd start s (char ^^^ 0x30) rest
  else afterFraction chunkEnd start s char rest

/-- The digits of the integer part. -/
def integerDigits (s : Scan) (digitCount digit : ℕ) (rest : List ℕ) : NumberResult :=
  let s := s.addDigit digitCount digit
  match rest with
  | [] => beginChunkNumber numDigit start
  | char :: rest =>
    if char ^^^ 0x30 ≤ 9 then integerDigits s (digitCount + 1) (char ^^^ 0x30) rest
    else afterInteger chunkEnd start s char rest

/-- After the sign. -/
def firstDigit (sign : ℤ) (char : ℕ) (rest : List ℕ) : NumberResult :=
  let s : Scan := ⟨sign, 0#64, ofRat false 0, false⟩
  let digit := char ^^^ 0x30
  if 9 < digit then
    fail chunkEnd (char :: rest) (if sign < 0 then some "Missing expected digit" else none)
  else if digit = 0 then
    match rest with
    | [] => beginChunkNumber numZero start
    | char :: rest =>
      -- If starting with zero, next character must not be digit.
      if char ^^^ 0x30 ≤ 9 then fail chunkEnd (char :: rest) none
      else afterInteger chunkEnd start s char rest
  else integerDigits chunkEnd start s 0 digit rest

end

/-- `parseNumber`, from the start of the numeral. -/
def parseNumber (chunkEnd : ℕ) (start : List ℕ) : NumberResult :=
  match start with
  | [] => .error .range
  | char :: rest =>
    if char = 0x2d then
      match rest with
      | [] => beginChunkNumber numSign start
      | char :: rest => firstDigit chunkEnd start (-1) char rest
    else firstDigit chunkEnd start 1 char rest

/-! ## Numerals that were cut

A numeral that reaches the end of a chunk is kept as text and continued in the next chunk. -/

/-- `finishChunkNumber`, with the characters of this chunk. -/
def finishChunkNumber (chunkEnd state : ℕ) (chars buffer : List ℕ) : Except Exn Num :=
  if state = numZero then .ok (.int 0#64)
  else
    let buffer := buffer ++ chars
    if state = numDigit then (parseNum buffer).elim (.error .range) .ok
    else if state = numDotDigit ∨ state = numEDigit then
      (parseDouble buffer).elim (.error .range) fun d => .ok (.double d)
    else .error (.format "Unterminated number literal" chunkEnd)

section

variable (chunkEnd : ℕ) (start buffer : List ℕ)

/-- The numeral ends at `rest`. -/
def finishAt (state : ℕ) (rest : List ℕ) : NumberResult := do
  let value ← finishChunkNumber chunkEnd state (textBetween start rest) buffer
  return (.number value, rest)

/-- `continueChunkNumber`: the whole chunk belongs to the numeral. -/
def continueChunkNumber (state : ℕ) : NumberResult :=
  .ok (.unfinished state (buffer ++ start), [])

/-- The digits of the exponent. -/
def partialExponent (state : ℕ) : List ℕ → NumberResult
  | [] => continueChunkNumber start buffer state
  | char :: rest =>
    if char ^^^ 0x30 ≤ 9 then partialExponent numEDigit rest
    else finishAt chunkEnd start buffer state (char :: rest)

/-- After `e`. -/
def partialE (state : ℕ) : List ℕ → NumberResult
  | [] => continueChunkNumber start buffer state
  | char :: rest =>
    if state = numE ∧ (char = 0x2b ∨ char = 0x2d) then
      partialExponent chunkEnd start buffer numESign rest
    else partialExponent chunkEnd start buffer state (char :: rest)

/-- The digits of the fraction. -/
def partialFraction : List ℕ → NumberResult
  | [] => continueChunkNumber start buffer numDotDigit
  | char :: rest =>
    if char ^^^ 0x30 ≤ 9 then partialFraction rest
    else if char ||| 0x20 = 0x65 then partialE chunkEnd start buffer numE rest
    else finishAt chunkEnd start buffer numDotDigit (char :: rest)

/-- After the point. -/
def partialDot : List ℕ → NumberResult
  | [] => continueChunkNumber start buffer numDot
  | char :: rest =>
    if 9 < char ^^^ 0x30 then fail chunkEnd (char :: rest) none
    else partialFraction chunkEnd start buffer (char :: rest)

/-- The digits of the integer part. -/
def partialDigits : List ℕ → NumberResult
  | [] => continueChunkNumber start buffer numDigit
  | char :: rest =>
    if char ^^^ 0x30 ≤ 9 then partialDigits rest
    else if char = 0x2e then partialDot chunkEnd start buffer rest
    else if char ||| 0x20 = 0x65 then partialE chunkEnd start buffer numE rest
    else finishAt chunkEnd start buffer numDigit (char :: rest)

/-- After a zero. -/
def partialZero : List ℕ → NumberResult
  | [] => continueChunkNumber start buffer numZero
  | char :: rest =>
    -- JSON does not allow insignificant leading zeros.
    if char ^^^ 0x30 ≤ 9 then fail chunkEnd (char :: rest) none
    else partialDigits chunkEnd start buffer (char :: rest)

/-- After the sign. -/
def partialSign : List ℕ → NumberResult
  | [] => continueChunkNumber start buffer numSign
  | char :: rest =>
    if char ^^^ 0x30 ≤ 9 then
      if char ^^^ 0x30 = 0 then partialZero chunkEnd start buffer rest
      else partialDigits chunkEnd start buffer rest
    else fail chunkEnd (char :: rest) none

/-- `parsePartialNumber`. -/
def parsePartialNumber (state : ℕ) : NumberResult :=
  if state = numSign then partialSign chunkEnd start buffer start
  else if state = numZero then partialZero chunkEnd start buffer start
  else if state = numDigit then partialDigits chunkEnd start buffer start
  else if state = numDot then partialDot chunkEnd start buffer start
  else if state = numDotDigit then partialFraction chunkEnd start buffer start
  else partialE chunkEnd start buffer state start

end

/-- The rest of a numeral that was cut: the chunks that follow, and the end of the input. -/
def finishNumeral (state : ℕ) (buffer : List ℕ) : List (List ℕ) → Except Exn Num
  | [] => finishChunkNumber 0 state [] buffer
  | chunk :: chunks =>
    match parsePartialNumber chunk.length chunk buffer state with
    | .error e => .error e
    | .ok (.number value, _) => .ok value
    | .ok (.unfinished state buffer, _) => finishNumeral state buffer chunks

/-- What is left of a chunk.  Lengths of strings are Smis. -/
structure ChunkRest where
  chars : List ℕ
  length_lt : chars.length < 2 ^ 62

/-- The number that is delivered for a numeral that starts in one chunk and may go on in others. -/
def readNumeral (chunkEnd : ℕ) (start : ChunkRest) (chunks : List (List ℕ)) : Except Exn Num :=
  match parseNumber chunkEnd start.chars with
  | .error e => .error e
  | .ok (.number value, _) => .ok value
  | .ok (.unfinished state buffer, _) => finishNumeral state buffer chunks

end Json
