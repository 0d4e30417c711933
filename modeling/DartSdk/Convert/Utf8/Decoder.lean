import Mathlib.Tactic

/-!
# Convert/Utf8/Decoder — `_Utf8Decoder` of the VM

A table-driven automaton reads one byte at a time.  A chunk is first scanned: the sizes of its bytes
add up to the number of code units that it decodes to, with corrections for a character that was
begun in an earlier chunk and for one that this chunk does not finish.  A string of that size is
allocated and `decode8` or `decode16` writes into it without bounds checks; what they write is
listed in `Run.writes`.  Malformed input that is allowed is decoded again by `decodeGeneral`.
-/

namespace Utf8

open List

/-- An element of a `Uint8List`. -/
abbrev Byte := Fin 256

theorem Byte.neZero : NeZero 256 := ⟨by decide⟩

/-- What a decoder throws: a `FormatException` with a message and an offset, or a `RangeError`. -/
inductive Exn where
  | format (message : String) (offset : Option ℕ)
  | range
  deriving DecidableEq, Repr

/-! ## Tables

The automaton is a table of transitions, indexed by a state and a kind of byte. -/

/-- `typeMask`: the kind of a byte. -/
abbrev typeMask : ℕ := 0x1F

/-- `shiftedByteMask`: the data bits of a first byte, by its kind. -/
abbrev shiftedByteMask : ℕ := 0xF0FE

/-- `typeTable`: the kind of each byte, as a character. -/
def typeTable : List Char :=
  replicate 128 'A' ++ replicate 16 'F' ++ replicate 16 'G' ++
    replicate 27 'H' ++ ['I', 'H', 'H', 'H', 'J'] ++ ['E', 'E'] ++ replicate 30 'B' ++
    ['K'] ++ replicate 12 'C' ++ ['D', 'C', 'L', 'O', 'N', 'N', 'N', 'M'] ++
    replicate 11 'E'

/-- `typeTable.codeUnitAt(byte) & typeMask`. -/
def typeOf (byte : Byte) : ℕ := (typeTable[byte.val]?.getD ' ').toNat &&& typeMask

/-- Initial / Accept. -/
abbrev IA : ℕ := 0x00

/-- After BOM. -/
abbrev AB : ℕ := 0x20

/-- Expecting one extension byte. -/
abbrev X1 : ℕ := 0x30

/-- Expecting two extension bytes. -/
abbrev X2 : ℕ := 0x3A

/-- Expecting three extension bytes. -/
abbrev X3 : ℕ := 0x44

/-- Possibly overlong 3-byte. -/
abbrev TO : ℕ := 0x4E

/-- Possibly surrogate. -/
abbrev TS : ℕ := 0x58

/-- Possibly overlong 4-byte. -/
abbrev QO : ℕ := 0x62

/-- Possibly out-of-range 4-byte. -/
abbrev QR : ℕ := 0x6C

/-- One byte into BOM. -/
abbrev B1 : ℕ := 0x76

/-- Two bytes into BOM. -/
abbrev B2 : ℕ := 0x80

/-- Missing extension byte. -/
abbrev E1 : ℕ := 0x41

/-- Unexpected extension byte. -/
abbrev E2 : ℕ := 0x43

/-- Invalid byte. -/
abbrev E3 : ℕ := 0x45

/-- Overlong encoding. -/
abbrev E4 : ℕ := 0x47

/-- Out of range. -/
abbrev E5 : ℕ := 0x49

/-- Surrogate. -/
abbrev E6 : ℕ := 0x4B

/-- Unfinished. -/
abbrev E7 : ℕ := 0x4D

/-- The rows of the states from `X1` on overlap in five entries. -/
def transitionTable : List ℕ :=
  [0x20] ++
  -- A   B   C   D   E   F   G   H   I   J   K   L   M   N   O
  [IA, X1, X2, TS, E3, E2, E2, E2, E2, E2, TO, X2, QR, X3, QO, 0x20] ++
  [IA, X1, X2, TS, E3, E2, E2, E2, E2, E2, TO, B1, QR, X3, QO, 0x20] ++
  [IA, X1, X2, TS, E3, E2, E2, E2, E2, E2, TO, X2, QR, X3, QO, 0x20] ++
  [E1, E1, E1, E1, E1, IA, IA, IA, IA, IA] ++
  [E1, E1, E1, E1, E1, X1, X1, X1, X1, X1] ++
  [E1, E1, E1, E1, E1, X2, X2, X2, X2, X2] ++
  [E1, E1, E1, E1, E1, E4, E4, X1, X1, X1] ++
  [E1, E1, E1, E1, E1, X1, X1, E6, E6, E6] ++
  [E1, E1, E1, E1, E1, E4, X2, X2, X2, X2] ++
  [E1, E1, E1, E1, E1, X2, E5, E5, E5, E5] ++
  [E1, E1, E1, E1, E1, X1, X1, X1, B2, X1] ++
  [E1, E1, E1, E1, E1, IA, IA, IA, IA, AB, E1, E1, E1, E1, E1]

/-- `transitionTable.codeUnitAt(index)`. -/
def transition (index : ℕ) : ℕ := transitionTable[index]?.getD 0

/-- `initial`. -/
abbrev initial : ℕ := IA

/-- `accept`: between two characters. -/
abbrev accept : ℕ := IA

/-- `afterBom`: a byte order mark has been skipped. -/
abbrev afterBom : ℕ := AB

/-- `isErrorState`: the error states are odd. -/
def isErrorState (state : ℕ) : Bool := state &&& 1 ≠ 0

/-- `errorDescription`. -/
def errorDescription (state : ℕ) : String :=
  if state = E1 then "Missing extension byte"
  else if state = E2 then "Unexpected extension byte"
  else if state = E3 then "Invalid UTF-8 byte"
  else if state = E4 then "Overlong encoding"
  else if state = E5 then "Out of unicode range"
  else if state = E6 then "Encoded surrogate"
  else if state = E7 then "Unfinished UTF-8 octet sequence"
  else ""

/-! ## Scanning

The size of the result is found by a scan before anything is decoded. -/

/-- `sizeMask`: how many code units a byte adds at most. -/
abbrev sizeMask : ℕ := 0x03

/-- `flagsMask`. -/
abbrev flagsMask : ℕ := 0x3C

/-- `flagExtension`: the chunk has an extension byte. -/
abbrev flagExtension : ℕ := 1 <<< 2

/-- `flagLatin1`: the chunk has a first byte of a Latin-1 character. -/
abbrev flagLatin1 : ℕ := 1 <<< 3

/-- `flagNonLatin1`: the chunk has a byte that no Latin-1 text has. -/
abbrev flagNonLatin1 : ℕ := 1 <<< 4

/-- `scanTable`: the size and the flag of each byte, as a character. -/
def scanTable : List Char :=
  replicate 128 'A' ++ replicate 64 'D' ++ ['a', 'a', 'I', 'I'] ++
    replicate 44 'Q' ++ replicate 5 'R' ++ replicate 11 'b'

/-- `scanTable.codeUnitAt(byte)`. -/
def scanOf (byte : Byte) : ℕ := (scanTable[byte.val]?.getD ' ').toNat

/-- `_scan`: the size of a part, and its flags. -/
def scanPart (bytes : List Byte) : ℕ × ℕ :=
  let (size, flags) := bytes.foldl
    (fun (size, flags) byte => (size + (scanOf byte &&& sizeMask), flags ||| scanOf byte)) (0, 0)
  (size, flags &&& flagsMask)

/-- `scanChunkSize`. -/
abbrev scanChunkSize : ℕ := 65536

/-- `scan`, at most `scanChunkSize` bytes at a time. -/
def scan (bytes : List Byte) : ℕ × ℕ :=
  if scanChunkSize < bytes.length then
    let (size, flags) := scanPart (bytes.take scanChunkSize)
    let (size', flags') := scan (bytes.drop scanChunkSize)
    (size + size', flags ||| flags')
  else scanPart bytes
  termination_by bytes.length
  decreasing_by
    simp only [length_drop, scanChunkSize] at *
    omega

/-! ## Decoding

A decoder works on the bytes of a range; `i` is the index of the next one. -/

/-- What a decoding leaves: the state, the character or the index of an error, and the code units
that were written. -/
structure Run where
  state : ℕ
  charOrIndex : ℕ
  writes : List ℕ
  deriving DecidableEq, Repr

/-- The code units of a character. -/
def charUnits (char : ℕ) : List ℕ :=
  if 0x10000 ≤ char then [0xD7C0 + (char >>> 10), 0xDC00 + (char &&& 0x3FF)] else [char]

/-- `writeIntoOneByteString` stores the low byte. -/
def oneByte (x : ℕ) : ℕ := x % 0x100

/-- `writeIntoTwoByteString` stores the low two bytes. -/
def twoByte (x : ℕ) : ℕ := x % 0x10000

/-- The loop of `decode8`. -/
def decode8Loop (char i : ℕ) (writes : List ℕ) : List Byte → Run
  | [] => ⟨accept, char, writes⟩
  | byte :: rest =>
    if 0x80 ≤ byte.val then
      if byte.val < 0xC0 then ⟨E2, i, writes⟩
      else
        match rest with
        | [] => ⟨X1, byte.val &&& 0x1F, writes⟩
        | byte' :: rest =>
          let e := byte'.val ^^^ 0x80
          if 0x40 ≤ e then ⟨E1, i + 1, writes⟩
          else decode8Loop char (i + 2) (writes ++ [oneByte ((byte.val <<< 6) ||| e)]) rest
    else decode8Loop char (i + 1) (writes ++ [oneByte byte.val]) rest

/-- `decode8`, for input that is known to be Latin-1. -/
def decode8 (state char i : ℕ) (bytes : List Byte) : Run :=
  match bytes with
  | [] => ⟨state, char, []⟩
  | byte :: rest =>
    if state = X1 then
      -- Half-way through a 2-byte sequence.
      let e := byte.val ^^^ 0x80
      if 0x40 ≤ e then ⟨E1, i, []⟩
      else decode8Loop char (i + 1) [oneByte ((char <<< 6) ||| e)] rest
    else decode8Loop char i [] (byte :: rest)

/-- The loop of `decode16`; the character before `i` has not been written yet. -/
def decode16Loop (state char i : ℕ) (writes : List ℕ) : List Byte → Run
  | [] =>
    if state = accept then ⟨state, char, writes ++ (charUnits char).map twoByte⟩
    else if isErrorState state then ⟨state, i - 1, writes⟩
    else ⟨state, char, writes⟩
  | byte :: rest =>
    if state = accept then
      decode16Loop (transition (typeOf byte)) (byte.val &&& (shiftedByteMask >>> typeOf byte))
        (i + 1) (writes ++ (charUnits char).map twoByte) rest
    else if isErrorState state then ⟨state, i - 1, writes⟩
    else
      decode16Loop (transition (state + typeOf byte)) ((byte.val &&& 0x3F) ||| (char <<< 6))
        (i + 1) writes rest

/-- `decode16`, for any input. -/
def decode16 (state char i : ℕ) (bytes : List Byte) : Run :=
  match bytes with
  | [] => ⟨state, char, []⟩
  | byte :: rest =>
    if state = accept then
      decode16Loop (transition (typeOf byte)) (byte.val &&& (shiftedByteMask >>> typeOf byte))
        (i + 1) [] rest
    else
      decode16Loop (transition (state + typeOf byte)) ((byte.val &&& 0x3F) ||| (char <<< 6))
        (i + 1) [] rest

/-- The string of the given size after the writes. -/
def stored (size : ℤ) (writes : List ℕ) : List ℕ :=
  writes.take size.toNat ++ replicate (size.toNat - writes.length) 0

/-- The character that replaces malformed bytes. -/
abbrev unicodeReplacementCharacterRune : ℕ := 0xFFFD

theorem transition_initial_ne (byte : Byte) : transition (initial + typeOf byte) ≠ E1 := by
  revert byte
  decide +kernel

/-- `decodeGeneral`, at a byte in the middle of a character or after one.  After a character that is
complete, a run of ASCII bytes is copied. -/
def decodeGeneralLoop (allowMalformed : Bool) (state char i : ℕ) (buffer : List ℕ) (byte : Byte)
    (rest : List Byte) : Run :=
  let type := typeOf byte
  let char' := if state ≤ afterBom then byte.val &&& (shiftedByteMask >>> type)
    else (byte.val &&& 0x3F) ||| (char <<< 6)
  let state' := transition (state + type)
  if state' = accept then
    let buffer := buffer ++ charUnits char'
    let ascii := rest.takeWhile (·.val < 128)
    let buffer := buffer ++ ascii.map Fin.val
    match _h : rest.dropWhile (·.val < 128) with
    | [] => ⟨state', char', buffer⟩
    | byte' :: rest' =>
      decodeGeneralLoop allowMalformed state' char' (i + 1 + ascii.length) buffer byte' rest'
  else if isErrorState state' then
    if allowMalformed then
      if _h : state' = E1 then
        -- Re-parse the offending byte.
        decodeGeneralLoop allowMalformed initial char' i
          (buffer ++ charUnits unicodeReplacementCharacterRune) byte rest
      else
        let buffer := if state' = E3 ∨ state' = E2 then
            buffer ++ charUnits unicodeReplacementCharacterRune
          else buffer ++ charUnits unicodeReplacementCharacterRune ++
            charUnits unicodeReplacementCharacterRune
        match rest with
        | [] => ⟨initial, char', buffer⟩
        | byte' :: rest' =>
          decodeGeneralLoop allowMalformed initial char' (i + 1) buffer byte' rest'
    else ⟨state', i, []⟩
  else
    match rest with
    | [] => ⟨state', char', buffer⟩
    | byte' :: rest' => decodeGeneralLoop allowMalformed state' char' (i + 1) buffer byte' rest'
  termination_by (rest.length, if state = initial then 0 else 1)
  decreasing_by
    · have hle := (dropWhile_suffix (l := rest) (·.val < 128)).length_le
      rw [_h] at hle
      exact Prod.Lex.left _ _ hle
    · refine Prod.Lex.right _ ?_
      have hne : state ≠ initial := fun heq => transition_initial_ne byte (heq ▸ _h)
      simp [hne]
    all_goals exact Prod.Lex.left _ _ (Nat.lt_succ_self _)

/-- `decodeGeneral`. -/
def decodeGeneral (allowMalformed : Bool) (state char i : ℕ) (bytes : List Byte) (single : Bool) :
    Run :=
  match bytes with
  | [] => ⟨state, char, []⟩
  | byte :: rest =>
    let r := decodeGeneralLoop allowMalformed state char i [] byte rest
    if isErrorState r.state then r
    else if single && afterBom < r.state then
      if allowMalformed then
        { r with writes := r.writes ++ charUnits unicodeReplacementCharacterRune }
      else ⟨E7, i + bytes.length, []⟩
    else r

/-! ## Conversion -/

/-- A list of integers, in either representation. -/
inductive CodeUnits where
  | uint8List (bytes : List Byte)
  | list (values : List ℤ)

/-- `_makeUint8List` replaces values that are no bytes by `0xFF`, which is invalid. -/
def makeByte (b : ℤ) : Byte := if h : 0 ≤ b ∧ b < 256 then ⟨b.toNat, by omega⟩ else 0xFF

/-- The bytes of the input. -/
def CodeUnits.bytes : CodeUnits → List Byte
  | uint8List bytes => bytes
  | list values => values.map makeByte

/-- The index of the start of a range in the local `bytes`, and the offset to add to it. -/
def CodeUnits.local (start : ℕ) : CodeUnits → ℕ × ℕ
  | uint8List _ => (start, 0)
  | list _ => (0, start)

/-- `_Utf8Decoder`: the state between chunks. -/
structure Decoder where
  allowMalformed : Bool
  state : ℕ
  charOrIndex : ℕ
  /-- How many bytes of the BOM have been read, or `-1`. -/
  bomIndex : ℤ
  deriving DecidableEq, Repr

/-- `_Utf8Decoder(allowMalformed)`. -/
def Decoder.new (allowMalformed : Bool) : Decoder := ⟨allowMalformed, initial, 0, 0⟩

/-- `RangeError.checkValidRange`: the range of the bytes. -/
def CodeUnits.slice (codeUnits : CodeUnits) (start : ℕ) (maybeEnd : Option ℕ) :
    Except Exn (List Byte) :=
  let end' := maybeEnd.getD codeUnits.bytes.length
  if start ≤ end' ∧ end' ≤ codeUnits.bytes.length then
    .ok ((codeUnits.bytes.take end').drop start)
  else .error .range

/-- The byte order mark. -/
abbrev bomValues : List Byte := [0xEF, 0xBB, 0xBF]

/-- `skipBomSingle`: a byte order mark at the start is skipped. -/
def skipBomSingle (bytes : List Byte) : List Byte :=
  if bytes.take 3 = bomValues then bytes.drop 3 else bytes

/-- `convertSingle` after the BOM: the bytes from `i` to `localEnd`. -/
def convertRange (allowMalformed : Bool) (bytes : List Byte) (i localEnd errorOffset : ℕ) :
    Except Exn (List ℕ) :=
  if bytes = [] then .ok []
  else
    let (size, flags) := scan bytes
    -- Pure ASCII.
    if flags = 0 then .ok ((bytes.take size).map Fin.val)
    else
      let r := if flags = flagLatin1 ||| flagExtension then decode8 initial 0 i bytes
        else decode16 initial 0 i bytes
      if r.state = accept then .ok (stored size r.writes)
      else if !allowMalformed then
        let (state, index) := if isErrorState r.state then (r.state, r.charOrIndex)
          -- Unfinished sequence.
          else (E7, localEnd)
        .error (.format (errorDescription state) (some (errorOffset + index)))
      else
        -- Start over on slow path.
        .ok (decodeGeneral allowMalformed initial r.charOrIndex i bytes true).writes

/-- `convertSingle`, of a new decoder. -/
def convertSingle (allowMalformed : Bool) (codeUnits : CodeUnits) (start : ℕ)
    (maybeEnd : Option ℕ) : Except Exn (List ℕ) := do
  let range ← codeUnits.slice start maybeEnd
  let bytes := skipBomSingle range
  let (localStart, errorOffset) := codeUnits.local start
  convertRange allowMalformed bytes (localStart + (range.length - bytes.length))
    (localStart + range.length) errorOffset

/-- The loop of `skipBomChunked`: `bomIndex` when the chunk ends inside of the BOM, and what follows
a complete BOM. -/
def skipBom : ℕ → List Byte → Option (ℕ ⊕ List Byte)
  | bomIndex, bytes =>
    match bomValues[bomIndex]?, bytes with
    | none, bytes => some (.inr bytes)
    | some _, [] => some (.inl bomIndex)
    | some bom, byte :: bytes => if byte = bom then skipBom (bomIndex + 1) bytes else none

/-- `skipBomChunked`. -/
def skipBomChunked (d : Decoder) (bytes : List Byte) : Decoder × List Byte :=
  if d.bomIndex = -1 then (d, bytes)
  else
    match skipBom d.bomIndex.toNat bytes with
    -- No BOM.
    | none => ({ d with bomIndex := -1 }, bytes)
    -- Unfinished BOM.
    | some (.inl bomIndex) => ({ d with bomIndex := bomIndex }, bytes)
    -- Complete BOM.
    | some (.inr rest) => ({ d with bomIndex := -1, state := initial }, rest)

/-- The size and the flags of the character that an earlier chunk has begun, in a chunk of the given
length. -/
def carryOver (state charOrIndex length : ℕ) : ℕ × ℕ :=
  if state = X1 then
    (if 1 ≤ length then if charOrIndex < 0x10000 >>> 6 then 1 else 2 else 0,
      if charOrIndex < 0x100 >>> 6 then flagLatin1 else flagNonLatin1)
  else if state = X2 then
    (if 2 ≤ length then if charOrIndex < 0x10000 >>> 12 then 1 else 2 else 0, flagNonLatin1)
  else if state = TO ∨ state = TS then (if 2 ≤ length then 1 else 0, flagNonLatin1)
  else if state = X3 ∨ state = QO ∨ state = QR then (if 3 ≤ length then 2 else 0, flagNonLatin1)
  else (0, 0)

/-- An extension byte: `(byte & 0xC0) == 0x80`. -/
def isExtension (byte : Byte) : Bool := byte.val &&& 0xC0 = 0x80

/-- The size of a final, incomplete character: the last byte that is no extension byte, and the
number of extension bytes after it. -/
def incompleteTail (bytes : List Byte) : ℕ :=
  let extensionCount := (bytes.reverse.takeWhile isExtension).length
  match (bytes.reverse.dropWhile isExtension).head? with
  | none => 0
  | some byte =>
    -- `(~0x3F >> extensionCount) & 0xFF`.
    if 0xFF - (0x3F >>> extensionCount) ≤ byte.val then if 0xF0 ≤ byte.val then 2 else 1 else 0

/-- The call of `decode8` or `decode16` that is made for the bytes of a chunk. -/
structure Call where
  latin1 : Bool
  size : ℤ
  run : Run
  deriving DecidableEq, Repr

/-- The decoding of a chunk, unless it is pure ASCII. -/
def decodeCall (state charOrIndex i : ℕ) (bytes : List Byte) : Option Call :=
  let (size, flags) := scan bytes
  let (carrySize, carryFlags) := carryOver state charOrIndex bytes.length
  let flags := flags ||| carryFlags
  if flags = 0 then none
  else
    -- Do not include any final, incomplete character in size.
    let size : ℤ := size + carrySize - incompleteTail bytes
    if flags = flagLatin1 ||| flagExtension then
      some ⟨true, size, decode8 state charOrIndex i bytes⟩
    else some ⟨false, size, decode16 state charOrIndex i bytes⟩

/-- The bytes of a chunk after the BOM, with the index of the first one and the offset for
errors. -/
structure Chunk where
  bytes : List Byte
  i : ℕ
  errorOffset : ℕ

/-- The first part of `convertChunked`. -/
def chunkOf (d : Decoder) (codeUnits : CodeUnits) (start : ℕ) (maybeEnd : Option ℕ) :
    Except Exn (Decoder × Chunk) := do
  let range ← codeUnits.slice start maybeEnd
  let (localStart, errorOffset) := codeUnits.local start
  let (d, bytes) := skipBomChunked d range
  return (d, ⟨bytes, localStart + (range.length - bytes.length), errorOffset⟩)

/-- `convertChunked`: the string or what is thrown, and the decoder afterwards. -/
def convertChunked (d : Decoder) (codeUnits : CodeUnits) (start : ℕ) (maybeEnd : Option ℕ) :
    Except Exn (List ℕ) × Decoder :=
  match chunkOf d codeUnits start maybeEnd with
  | .error e => (.error e, d)
  | .ok (d, ⟨bytes, i, errorOffset⟩) =>
    if bytes = [] then (.ok [], d)
    else
      match decodeCall d.state d.charOrIndex i bytes with
      -- Pure ASCII.
      | none => (.ok ((bytes.take (scan bytes).1).map Fin.val), d)
      | some call =>
        let r := call.run
        if !isErrorState r.state then
          (.ok (stored call.size r.writes),
            { d with state := r.state, charOrIndex := r.charOrIndex })
        else if !d.allowMalformed then
          (.error (.format (errorDescription r.state) (some (errorOffset + r.charOrIndex))),
            -- Ready for more input.
            { d with state := initial, charOrIndex := r.charOrIndex })
        else
          -- Start over on slow path.
          let g := decodeGeneral d.allowMalformed d.state d.charOrIndex i bytes false
          (.ok g.writes, { d with state := g.state, charOrIndex := g.charOrIndex })

/-- `flush`: what is written, and the decoder afterwards. -/
def flush (d : Decoder) : Except Exn (List ℕ) × Decoder :=
  let d' := { d with state := initial }
  if d.state ≤ afterBom then (.ok [], d')
  else if d.allowMalformed then (.ok (charUnits unicodeReplacementCharacterRune), d')
  else (.error (.format (errorDescription E7) none), d')

end Utf8
