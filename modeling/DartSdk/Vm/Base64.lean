import Mathlib.Tactic

/-!
# Vm/Base64 — `DecodeBase64` of the VM

The decoder of base64 strings that the VM service receives.  A string is followed by its NUL, and
what lies behind that is not the string's: reading it is a fault, as are a write outside the
allocated buffer, the overflow of an `int` and an allocation that ends the process.

The padding is found by scanning backwards, and the decoding loop skips what is not a digit.  So a
string with a character outside the alphabet makes the loop run past the end.
-/

namespace VmBase64

/-- A `uint8_t`. -/
abbrev Byte := Fin 256

local instance Byte.neZero : NeZero 256 := ⟨by decide⟩

/-- A NUL-terminated string, without its NUL. -/
structure CString where
  chars : List Byte
  nul_free : 0 ∉ chars

/-- What a C program must not do. -/
inductive Fault where
  | overread
  | overwrite
  | overflow
  /-- `dart::malloc` aborts when there is not enough memory. -/
  | outOfMemory
  | diverges
  deriving DecidableEq, Repr

/-- `kDecodeTable`. -/
def table : List ℤ := [
  -2, -2, -2, -2, -2, -2, -2, -2, -2, -2, -1, -2, -2, -1, -2, -2,
  -2, -2, -2, -2, -2, -2, -2, -2, -2, -2, -2, -2, -2, -2, -2, -2,
  -2, -2, -2, -2, -2, -2, -2, -2, -2, -2, -2, 62, -2, 62, -2, 63,
  52, 53, 54, 55, 56, 57, 58, 59, 60, 61, -2, -2, -2, 00, -2, -2,
  -2, 00, 01, 02, 03, 04, 05, 06, 07, 8,  9,  10, 11, 12, 13, 14,
  15, 16, 17, 18, 19, 20, 21, 22, 23, 24, 25, -2, -2, -2, -2, 63,
  -2, 26, 27, 28, 29, 30, 31, 32, 33, 34, 35, 36, 37, 38, 39, 40,
  41, 42, 43, 44, 45, 46, 47, 48, 49, 50, 51, -2, -2, -2, -2, -2]

/-- `decode_table`: its second half holds only `-2`. -/
def decodeTable (c : Byte) : ℤ := table.getD c (-2)

/-- The padding character, `=`. -/
def pad : Byte := 61

/-- `n++` of an `int`. -/
def increment (n : ℕ) : Except Fault ℕ := if n + 1 < 2 ^ 31 then .ok (n + 1) else .error .overflow

/-- The scan for padding, over the characters from the last one backwards. -/
def padLength : List Byte → ℕ → Except Fault ℕ
  | [], n => .ok n
  | c :: cs, n =>
    if decodeTable c > 0 then .ok n
    else if c = pad then do padLength cs (← increment n)
    else padLength cs n

/-- Four digits, six bits each, from the memory at `str + i`. -/
def collect : ℕ → ℕ → ℕ → List Byte → Except Fault (ℕ × ℕ × List Byte)
  | 0, x, i, mem => .ok (x, i, mem)
  | _ + 1, _, _, [] => .error .overread
  | j + 1, x, i, c :: mem => do
    let i ← increment i
    if decodeTable c ≥ 0 then
      collect j (((x <<< 6) &&& 0xFFFFFF) ||| (decodeTable c).toNat) i mem
    else collect (j + 1) x i mem

/-- `bytes[o++] = value`, where `bytes[0 .. o - 1]` has been written. -/
def put (size : ℕ) (bytes : List ℕ) (value : ℕ) : Except Fault (List ℕ) := do
  if bytes.length < size then
    let _ ← increment bytes.length
    return bytes ++ [value % 256]
  else .error .overwrite

/-- The loop over groups of four characters. -/
def decodeLoop (size : ℕ) : ℕ → ℕ → List Byte → List ℕ → Except Fault (List ℕ)
  | 0, _, _, _ => .error .diverges
  | fuel + 1, i, mem, bytes => do
    if bytes.length < size then
      let (x, i, mem) ← collect 4 0 i mem
      let bytes ← put size bytes (x >>> 16)
      if bytes.length < size then
        let bytes ← put size bytes ((x >>> 8) &&& 0xFF)
        if bytes.length < size then
          let bytes ← put size bytes (x &&& 0xFF)
          decodeLoop size fuel i mem bytes
        else decodeLoop size fuel i mem bytes
      else decodeLoop size fuel i mem bytes
    else return bytes

/-- The size of the buffer, an `intptr_t`. -/
def decodedLength (str : CString) : Except Fault ℤ := do
  let n ← padLength str.chars.reverse 0
  let len := str.chars.length
  if len * 6 < 2 ^ 63 then return ((len * 6) >>> 3 : ℕ) - n else .error .overflow

/-- A negative size is a `size_t` that `dart::malloc` cannot serve, and it does not return then. -/
def decodeBase64 (str : CString) : Except Fault (Option (List ℕ)) := do
  let len := str.chars.length
  if len = 0 ∨ len % 4 ≠ 0 then return none
  let decodedLen ← decodedLength str
  if decodedLen < 0 then throw .outOfMemory
  let size := decodedLen.toNat
  return some (← decodeLoop size (size + 1) 0 (str.chars ++ [0]) [])

/-- The alphabet, with the characters of the URL variant. -/
def digit (c : Byte) : Option ℕ :=
  if 65 ≤ c ∧ c ≤ 90 then some (c - 65)
  else if 97 ≤ c ∧ c ≤ 122 then some (c - 71)
  else if 48 ≤ c ∧ c ≤ 57 then some (c + 4)
  else if c = 43 ∨ c = 45 then some 62
  else if c = 47 ∨ c = 95 then some 63
  else none

/-- **A base64 string and its bytes**: groups of four digits, the last one possibly padded. -/
inductive Decodes : List Byte → List ℕ → Prop where
  | nil : Decodes [] []
  | group {a b c d : Byte} {w x y z : ℕ} {cs : List Byte} {bytes : List ℕ}
      (ha : digit a = some w) (hb : digit b = some x) (hc : digit c = some y)
      (hd : digit d = some z) (rest : Decodes cs bytes) :
      Decodes (a :: b :: c :: d :: cs)
        ((w * 4 + x / 16) :: (x % 16 * 16 + y / 4) :: (y % 4 * 64 + z) :: bytes)
  | two {a b c : Byte} {w x y : ℕ}
      (ha : digit a = some w) (hb : digit b = some x) (hc : digit c = some y) :
      Decodes [a, b, c, pad] [w * 4 + x / 16, x % 16 * 16 + y / 4]
  | one {a b : Byte} {w x : ℕ} (ha : digit a = some w) (hb : digit b = some x) :
      Decodes [a, b, pad, pad] [w * 4 + x / 16]

end VmBase64
