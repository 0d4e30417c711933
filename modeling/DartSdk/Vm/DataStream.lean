import Mathlib.Data.Nat.Bitwise
import Mathlib.Tactic

/-!
# Vm/DataStream — the codecs of `ReadStream` and `BaseWriteStream`

A writer gives the bytes that it appends; a reader takes the bytes from the current position on, and
leaves those behind the new one.  A reader fails where it would read past the end, or shift by the
width of its type or more.

Values are those of an integer type of 8, 16, 32 or 64 bits.  `Write<T>` and `Read<T>` are used at
the signed types, to which `Raw<N, T>` casts, and by the serializer of the intermediate language at
`uint8_t` and `uint16_t`: these are promoted to `int` before they are compared and shifted, so that
what is written is the number itself, and a value with its high bit set takes a byte more.
-/

namespace DataStream

open UInt8

/-- The integer types. -/
inductive Width where
  | bits8
  | bits16
  | bits32
  | bits64
  deriving DecidableEq

/-- The bits of a type. -/
def Width.bits : Width → ℕ
  | bits8 => 8
  | bits16 => 16
  | bits32 => 32
  | bits64 => 64

/-- Takes a value off the stream. -/
abbrev Reader (α : Type) := List UInt8 → Option (α × List UInt8)

/-- `kMaxUnsignedDataPerByte`, and the other constants of the variable-length formats. -/
def maxUnsignedDataPerByte : ℕ := 127
def minDataPerByte : ℤ := -64
def maxDataPerByte : ℤ := 63
def endByteMarker : ℕ := 255 - 63
def endUnsignedByteMarker : ℕ := 255 - 127

/-- `Write<T>`: seven bits at a time, least first; the last byte is marked. -/
def write (v : ℤ) : List UInt8 :=
  if v < minDataPerByte ∨ v > maxDataPerByte then ofInt (v % 2 ^ 7) :: write (v / 2 ^ 7)
  else [ofInt (v + endByteMarker)]
termination_by v.natAbs
decreasing_by
  simp only [minDataPerByte, maxDataPerByte] at *
  omega

/-- `WriteUnsigned<T>`. -/
def writeUnsigned (value : ℕ) : List UInt8 :=
  if value > maxUnsignedDataPerByte then ofNat (value &&& 0x7F) :: writeUnsigned (value >>> 7)
  else [ofNat (value + endUnsignedByteMarker)]
termination_by value
decreasing_by
  rw [Nat.shiftRight_eq_div_pow]
  simp only [maxUnsignedDataPerByte] at *
  omega

section

variable (w marker : ℕ)

/-- `b << s` in the type of the result. -/
def shifted (x : ℤ) (s : ℕ) : BitVec w := BitVec.ofInt w x <<< s

/-- The loop of `Read<T>`, with the byte read last. -/
def readMore : BitVec w → ℕ → UInt8 → Reader (BitVec w)
  | _, _, _, [] => none
  | r, s, b, c :: bytes =>
    if w ≤ s + 7 then none
    else if c.toNat ≤ maxUnsignedDataPerByte
      then readMore (r ||| shifted w b.toNat s) (s + 7) c bytes
    else some (r ||| shifted w b.toNat s ||| shifted w (c.toNat - marker : ℤ) (s + 7), bytes)

/-- `Read<T>(end_byte_marker)`. -/
def read : Reader (BitVec w)
  | [] => none
  | b :: bytes =>
    if b.toNat > maxUnsignedDataPerByte then some (BitVec.ofInt w (b.toNat - marker), bytes)
    else readMore w marker 0 0 b bytes

/-- The bodies that start at the given bits, and the end. -/
def unrolled : List ℕ → ℕ → BitVec w → Reader (BitVec w)
  | _, _, _, [] => none
  | [], last, r, b :: bytes => some (r ||| shifted w (b.toNat - marker : ℤ) last, bytes)
  | start :: starts, last, r, b :: bytes =>
    if b.toNat > maxUnsignedDataPerByte then
      some (r ||| shifted w (b.toNat - marker : ℤ) start, bytes)
    else unrolled starts last (r ||| shifted w b.toNat start) bytes

/-- The first byte of an unrolled reader. -/
def unrolledInit (starts : List ℕ) (last : ℕ) : Reader (BitVec w)
  | [] => none
  | b :: bytes =>
    if b.toNat > maxUnsignedDataPerByte then some (BitVec.ofInt w (b.toNat - marker), bytes)
    else unrolled w marker starts last (BitVec.ofNat w b.toNat) bytes

end

/-- `Read16`. -/
def read16 (marker : ℕ) : Reader (BitVec 16) := unrolledInit 16 marker [7] 14

/-- `Read32`. -/
def read32 (marker : ℕ) : Reader (BitVec 32) := unrolledInit 32 marker [7, 14, 21] 28

/-- `Read64`. -/
def read64 (marker : ℕ) : Reader (BitVec 64) :=
  unrolledInit 64 marker [7, 14, 21, 28, 35, 42, 49, 56] 63

/-- `Raw<N, T>::Write`. -/
def rawWrite : (t : Width) → BitVec t.bits → List UInt8
  | .bits8, value => [ofBitVec value]
  | .bits16, value => write value.toInt
  | .bits32, value => write value.toInt
  | .bits64, value => write value.toInt

/-- `Raw<N, T>::Read`. -/
def rawRead : (t : Width) → Reader (BitVec t.bits)
  | .bits8 => fun
    | [] => none
    | b :: bytes => some (b.toBitVec, bytes)
  | .bits16 => read16 endByteMarker
  | .bits32 => read32 endByteMarker
  | .bits64 => read64 endByteMarker

/-- `WriteRefId`: big-endian, without leading zero bytes, the last byte marked. -/
def writeRefId (value : ℕ) : List UInt8 :=
  (if value >>> 21 ≠ 0 then [ofNat ((value >>> 21) &&& 127)] else []) ++
  (if value >>> 14 ≠ 0 then [ofNat ((value >>> 14) &&& 127)] else []) ++
  (if value >>> 7 ≠ 0 then [ofNat ((value >>> 7) &&& 127)] else []) ++
  [ofNat ((value &&& 127) ||| 128)]

/-- The stages of `ReadRefId`; a byte is an `int8_t`. -/
def refIdStages : ℕ → ℤ → Reader ℤ
  | 0, result, bytes => some (result + 128, bytes)
  | _ + 1, _, [] => none
  | n + 1, result, b :: bytes =>
    let byte := b.toBitVec.toInt
    let result := byte + result * 2 ^ 7
    if byte < 0 then some (result + 128, bytes) else refIdStages n result bytes

/-- `ReadRefId`. -/
def readRefId : Reader ℤ := refIdStages 4 0

/-- `WriteLEB128`. -/
def writeLEB128 (value : ℕ) : List UInt8 :=
  let part := value &&& 0x7F
  let remainder := value >>> 7
  if remainder = 0 then [ofNat part] else ofNat (part ||| 0x80) :: writeLEB128 remainder
termination_by value
decreasing_by
  rename_i h
  change ¬ value >>> 7 = 0 at h
  rw [Nat.shiftRight_eq_div_pow] at h ⊢
  omega

/-- The first bytes have the more-data bit whatever the value is. -/
def writeFixed5LEB128 (value : ℕ) : List UInt8 :=
  [ofNat ((value &&& 0x7F) ||| 0x80), ofNat (((value >>> 7) &&& 0x7F) ||| 0x80),
    ofNat (((value >>> 14) &&& 0x7F) ||| 0x80),
    ofNat (((value >>> 21) &&& 0x7F) ||| 0x80), ofNat ((value >>> 28) &&& 0x7F)]

/-- A part is the last one when the rest of the value is the sign that the part already shows.  The
shift is the arithmetic one: the sign bits are set again after it. -/
def writeSLEB128 (value : ℤ) : List UInt8 :=
  let part := (value % 2 ^ 7).toNat
  let remainder := value / 2 ^ 7
  if (value < 0 ∧ remainder = -1 ∧ part &&& 0x40 ≠ 0) ∨
    (0 ≤ value ∧ remainder = 0 ∧ part &&& 0x40 = 0)
  then [ofNat part]
  else ofNat (part ||| 0x80) :: writeSLEB128 remainder
termination_by (2 * value + 1).natAbs
decreasing_by
  rename_i h
  have hzero : value ≠ 0 := by
    rintro rfl
    exact h (.inr (by decide))
  have hone : value ≠ -1 := by
    rintro rfl
    exact h (.inl (by decide))
  omega

/-- The loop of `ReadLEB128` and `ReadSLEB128`: the bits, their number, and the last byte. -/
def lebLoop (w : ℕ) : BitVec w → ℕ → Reader (BitVec w × ℕ × UInt8)
  | _, _, [] => none
  | r, s, b :: bytes =>
    if w ≤ s then none
    else
      let r := r ||| shifted w (b.toNat &&& 0x7F : ℕ) s
      if b.toNat &&& 0x80 ≠ 0 then lebLoop w r (s + 7) bytes else some ((r, s + 7, b), bytes)

/-- `ReadLEB128`. -/
def readLEB128 (w : ℕ) : Reader (BitVec w) := fun bytes => do
  let ((r, _, _), bytes) ← lebLoop w 0 0 bytes
  return (r, bytes)

/-- `ReadSLEB128`: the sign bit of the last byte is extended. -/
def readSLEB128 (w : ℕ) : Reader (BitVec w) := fun bytes => do
  let ((r, s, b), bytes) ← lebLoop w 0 0 bytes
  let signBits := if b.toNat &&& 0x40 ≠ 0 ∧ s < w then ~~~(((1 : BitVec w) <<< s) - 1) else 0
  return (r ||| signBits, bytes)

end DataStream
