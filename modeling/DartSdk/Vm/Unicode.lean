import Mathlib.Tactic

/-!
# Vm/Unicode — UTF-8 in the virtual machine

The counting pass, the validity check, and the decoders to Latin-1, UTF-16 and UTF-32.  An array is
a list and an index is the list behind it.  A destination is the function of what its elements hold,
so that a write outside would show; a failed assertion gives no result.
-/

namespace VmUtf8

/-! ## Tables and predicates -/

/-- `kTrailBytes`: the length of a sequence by its first byte. -/
def kTrailBytes : List ℕ :=
  List.replicate 128 1 ++ List.replicate 64 0 ++ List.replicate 32 2 ++ List.replicate 16 3 ++
    List.replicate 8 4 ++ List.replicate 4 5 ++ List.replicate 2 6 ++ List.replicate 2 0

/-- `kMagicBits`: what the sum of shifted bytes has too much. -/
def kMagicBits : List ℕ :=
  [0, 0x00000000, 0x00003080, 0x000E2080, 0x03C82080, 0xFA082080, 0x82082080]

/-- `kOverlongMinimum`. -/
def kOverlongMinimum : List ℕ := [0, 0x0, 0x80, 0x800, 0x10000, 0xFFFFFFFF, 0xFFFFFFFF]

/-- The length of a sequence that starts with the byte. -/
def trailBytes (b : UInt8) : ℕ := kTrailBytes[b.toNat]?.getD 0

/-- The correction for a sequence of this length. -/
def magicBits (n : ℕ) : ℕ := kMagicBits[n]?.getD 0

/-- `Utf::kMaxCodePoint`. -/
def kMaxCodePoint : ℕ := 0x10FFFF

/-- `IsTrailByte`. -/
def isTrailByte (codeUnit : UInt8) : Bool := codeUnit &&& 0xC0 == 0x80

/-- `IsNonShortestForm`. -/
def isNonShortestForm (codePoint numCodeUnits : ℕ) : Bool :=
  codePoint < kOverlongMinimum[numCodeUnits]?.getD 0

/-- `IsLatin1SequenceStart`. -/
def isLatin1SequenceStart (codeUnit : UInt8) : Bool := codeUnit ≤ 0xC3

/-- `IsSupplementarySequenceStart`. -/
def isSupplementarySequenceStart (codeUnit : UInt8) : Bool := codeUnit ≥ 0xF0

/-- The argument is the `uint32_t` taken as an `int32_t`: a negative one is beyond `2^31`. -/
def isOutOfRange (codePoint : ℕ) : Bool := codePoint ≥ 2 ^ 31 || codePoint > kMaxCodePoint

/-- `Utf8::Type`. -/
inductive Form where
  | latin1
  | bmp
  | supplementary
  deriving DecidableEq

/-- One round of `CodeUnitCount`. -/
def countUnit (count : ℕ × Form) (codeUnit : UInt8) : ℕ × Form :=
  if ¬ isTrailByte codeUnit then
    if ¬ isLatin1SequenceStart codeUnit then
      if isSupplementarySequenceStart codeUnit then (count.1 + 1 + 1, .supplementary)
      else (count.1 + 1, if count.2 = .latin1 then .bmp else count.2)
    else (count.1 + 1, count.2)
  else count

/-- `CodeUnitCount`. -/
def codeUnitCount (utf8Array : List UInt8) : ℕ × Form := utf8Array.foldl countUnit (0, .latin1)

/-- The loop over the trail bytes: whether one is malformed, and the bits; nothing at the end of the
array. -/
def trailLoop : ℕ → List UInt8 → Bool → ℕ → Option (Bool × ℕ)
  | 0, _, isMalformed, ch => some (isMalformed, ch)
  | _ + 1, [], _, _ => none
  | n + 1, codeUnit :: rest, isMalformed, ch =>
    trailLoop n rest (isMalformed || !isTrailByte codeUnit)
      ((ch * 2 ^ 6 + codeUnit.toNat) % 2 ^ 32)

/-- The test of a sequence whose first byte is not ASCII: its code point, when it is right. -/
def sequence (first : UInt8) (rest : List UInt8) : Option ℕ :=
  let numTrailBytes := trailBytes first
  -- the index after the loop: it starts at 1
  let i := max 1 numTrailBytes
  match trailLoop (numTrailBytes - 1) rest false first.toNat with
  | none => none
  | some (isMalformed, ch) =>
    let ch := (ch + 2 ^ 32 - magicBits numTrailBytes) % 2 ^ 32
    if isMalformed = false ∧ i = numTrailBytes ∧ ¬ isOutOfRange ch ∧ ¬ isNonShortestForm ch i then
      some ch
    else none

/-- The code point (or `-1`) and the number of bytes.  The array is not empty. -/
def decode (first : UInt8) (rest : List UInt8) : ℤ × ℕ :=
  if first.toNat ≥ 0x80 then
    match sequence first rest with
    | none => (-1, 0)
    | some ch => (ch, max 1 (trailBytes first))
  else (first.toNat, 1)

/-- Each round reads a byte at least. -/
def isValidLoop : ℕ → List UInt8 → Bool
  | _, [] => true
  | 0, _ :: _ => false
  | fuel + 1, first :: rest =>
    if first.toNat ≥ 0x80 then
      match sequence first rest with
      | none => false
      | some _ => isValidLoop fuel (rest.drop (max 1 (trailBytes first) - 1))
    else isValidLoop fuel rest

/-- `IsValid`. -/
def isValid (utf8Array : List UInt8) : Bool := isValidLoop utf8Array.length utf8Array

/-- The last character of each length. -/
def kMaxOneByteChar : ℕ := 0x7F
def kMaxTwoByteChar : ℕ := 0x7FF
def kMaxThreeByteChar : ℕ := 0xFFFF

/-- An `int` stored in a `char`. -/
def byte (x : ℕ) : UInt8 := UInt8.ofNat (x % 256)

/-- `x & kMask` for the `int` mask `~(1 << 6)`. -/
def mask (x : ℕ) : ℕ := x &&& (2 ^ 32 - 1 - 2 ^ 6)

/-- `Encode`. -/
def encode (ch : ℕ) : List UInt8 :=
  if ch ≤ kMaxOneByteChar then [byte ch]
  else if ch ≤ kMaxTwoByteChar then [byte (0xC0 ||| ch >>> 6), byte (0x80 ||| mask ch)]
  else if ch ≤ kMaxThreeByteChar then
    [byte (0xE0 ||| ch >>> 12), byte (0x80 ||| mask (ch >>> 6)), byte (0x80 ||| mask ch)]
  else
    [byte (0xF0 ||| ch >>> 18), byte (0x80 ||| mask (ch >>> 12)), byte (0x80 ||| mask (ch >>> 6)),
      byte (0x80 ||| mask ch)]

/-- What the elements of a destination hold. -/
abbrev Buffer := ℕ → Option ℕ

/-- The units stored from index `j` on. -/
def Buffer.store (dst : Buffer) (j : ℕ) : List ℕ → Buffer
  | [] => dst
  | unit :: units => Buffer.store (Function.update dst j (some unit)) (j + 1) units

/-- The common loop.  `starts` is what is asserted of a first byte; `units` gives what is stored for
a code point, `some none` when it does not fit and nothing when an assertion fails. -/
def decodeLoop (starts : UInt8 → Bool) (units : UInt8 → ℕ → ℕ → Option (Option (List ℕ)))
    (len : ℕ) : ℕ → List UInt8 → ℕ → Buffer → Option (Bool × Buffer)
  | _, [], _, dst => some (true, dst)
  | 0, _ :: _, _, _ => none
  | fuel + 1, first :: rest, j, dst =>
    if j < len then
      if starts first then
        let (ch, numBytes) := decode first rest
        if ch = -1 then some (false, dst)
        else
          match units first ch.toNat j with
          | none => none
          | some none => some (false, dst)
          | some (some us) =>
            decodeLoop starts units len fuel ((first :: rest).drop numBytes) (j + us.length)
              (dst.store j us)
      else none
    else some (j ≠ len, dst)

/-- `IsLatin1`. -/
def isLatin1 (codePoint : ℕ) : Bool := codePoint ≤ 0xFF

/-- `DecodeToLatin1`. -/
def decodeToLatin1 (utf8Array : List UInt8) (dst : Buffer) (len : ℕ) : Option (Bool × Buffer) :=
  decodeLoop isLatin1SequenceStart
    (fun _ ch _ => if isLatin1 ch then some (some [ch % 2 ^ 8]) else none)
    len utf8Array.length utf8Array 0 dst

/-- `Utf16::Encode`; the code point is asserted to be beyond one unit. -/
def utf16Encode (codepoint : ℕ) : Option (List ℕ) :=
  if codepoint > 0xFFFF then
    some [(0xD800 - 0x10000 >>> 10 + codepoint >>> 10) % 2 ^ 16,
      (0xDC00 + (codepoint &&& 0x3FF)) % 2 ^ 16]
  else none

/-- `DecodeToUTF16`. -/
def decodeToUTF16 (utf8Array : List UInt8) (dst : Buffer) (len : ℕ) : Option (Bool × Buffer) :=
  decodeLoop (fun _ => true)
    (fun first ch j =>
      if isSupplementarySequenceStart first then
        if j = len - 1 then some none else (utf16Encode ch).map some
      else some (some [ch % 2 ^ 16]))
    len utf8Array.length utf8Array 0 dst

/-- `DecodeToUTF32`. -/
def decodeToUTF32 (utf8Array : List UInt8) (dst : Buffer) (len : ℕ) : Option (Bool × Buffer) :=
  decodeLoop (fun _ => true) (fun _ ch _ => some (some [ch])) len utf8Array.length utf8Array 0 dst

end VmUtf8
