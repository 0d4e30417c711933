import Mathlib.Data.Int.Basic
import Mathlib.Data.List.Basic

/-!
# Core/Ipv6 — `Uri.parseIPv6Address`

One loop reads the parts of an address into a buffer of 16 bytes.  The string is a list of code
units, and an index is the rest of the list from it on; a position in an error is counted from the
whole length.  Writing outside the buffer throws a `RangeError`.
-/

namespace Ipv6

/-- What the parser throws: a message, and the offset that it names. -/
inductive Exn where
  | format (message : String) (position : Option ℕ)
  | range (index : ℕ)
  deriving DecidableEq

/-- `_COLON`. -/
def kColon : ℕ := 0x3A

/-- `_DOT`. -/
def kDot : ℕ := 0x2E

/-- `_DIGIT_0`. -/
def kDigit0 : ℕ := 0x30
def kLowerCaseA : ℕ := 0x61
def kLowerCaseF : ℕ := 0x66

/-- An element of the byte buffer. -/
def store (target : List ℕ) (index value : ℕ) : Except Exn (List ℕ) :=
  if index < target.length then .ok (target.set index (value % 256)) else .error (.range index)

section

-- the length of the whole string
variable (size : ℕ)

/-- The offset of what is left of the text. -/
def position (rest : List ℕ) : ℕ := size - rest.length

/-- The error of `_parseIPv4Address`. -/
def ipv4FormatError (msg : String) (pos : ℕ) : Except Exn (List ℕ) :=
  .error (.format ("Illegal IPv4 address, " ++ msg) (some pos))

/-- The loop of `_parseIPv4Address`. -/
def ipv4Loop (targetOffset : ℕ) : List ℕ → ℕ → ℕ → ℕ → List ℕ → Except Exn (List ℕ)
  | [], octetStart, octetIndex, octetValue, target => do
    if size = octetStart then ipv4FormatError "IPv4 address should contain exactly 4 parts" size
    else
      let target ← store target (targetOffset + octetIndex) octetValue
      if octetIndex + 1 = 4 then return target
      else ipv4FormatError "IPv4 address should contain exactly 4 parts" size
  | char :: rest, octetStart, octetIndex, octetValue, target =>
    let cursor := position size (char :: rest)
    let digit := char ^^^ kDigit0
    if digit ≤ 9 then
      if octetValue ≠ 0 ∨ cursor = octetStart then
        let octetValue := octetValue * 10 + digit
        if octetValue ≤ 255 then ipv4Loop targetOffset rest octetStart octetIndex octetValue target
        else ipv4FormatError "each part must be in the range 0..255" octetStart
      else ipv4FormatError "parts must not have leading zeros" octetStart
    else if cursor = octetStart then ipv4FormatError "invalid character" cursor
    else do
      let target ← store target (targetOffset + octetIndex) octetValue
      let octetIndex := octetIndex + 1
      if char = kDot then
        if octetIndex < 4 then ipv4Loop targetOffset rest (cursor + 1) octetIndex 0 target
        else ipv4FormatError "IPv4 address should contain exactly 4 parts" cursor
      else ipv4FormatError "invalid character" cursor

/-- `_parseIPv4Address`: four decimal octets, written at the offset. -/
def parseIPv4Address (part target : List ℕ) (targetOffset : ℕ) : Except Exn (List ℕ) :=
  ipv4Loop size targetOffset part (position size part) 0 0 target

/-- The variables of the loop that live over parts; there is no wildcard while `wildcardAt` is
negative. -/
structure Parts where
  wildcardAt : ℤ
  partCount : ℕ
  result : List ℕ

/-- The value of a hexadecimal digit, and whether it is a decimal one. -/
def hexDigit (char : ℕ) : Option (ℕ × Bool) :=
  let digit := char ^^^ kDigit0
  if digit ≤ 9 then some (digit, true)
  else
    let letter := char ||| 0x20
    if letter ≥ kLowerCaseA ∧ letter ≤ kLowerCaseF then some (letter - (kLowerCaseA - 10), false)
    else none

/-- The error of `parseIPv6Address`. -/
def error {α : Type} (msg : String) (pos : Option ℕ) : Except Exn α :=
  .error (.format ("Illegal IPv6 address, " ++ msg) pos)

/-- How the loop goes on at a character that is no digit: with a new part after it, or not at
all. -/
inductive Next where
  | more (hexValue : ℕ) (decValue : Bool) (parts : Parts)
  | stop (rest : List ℕ) (parts : Parts)

/-- The body of the loop after `handleDigit`; `part` is the string from `partStart` on. -/
def closePart (char : ℕ) (rest part : List ℕ) (hexValue : ℕ) (decValue : Bool) (s : Parts) :
    Except Exn Next :=
  -- `cursor > partStart`
  if rest.length < part.length then
    if char = kDot then
      if decValue then
        if s.partCount ≤ 6 then do
          let result ← parseIPv4Address size part s.result (s.partCount * 2)
          return .stop [] { s with result, partCount := s.partCount + 2 }
        else error "an address must contain at most 8 parts" (some (position size part))
      else return .stop rest s
    else do
      let result ← store s.result (s.partCount * 2) (hexValue >>> 8)
      let result ← store result (s.partCount * 2 + 1) (hexValue &&& 0xFF)
      let s := { s with result, partCount := s.partCount + 1 }
      if char = kColon then
        if s.partCount < 8 then return .more 0 true s
        else error "an address must contain at most 8 parts" (some (position size rest))
      else return .stop rest s
  else if char = kColon then
    if s.wildcardAt < 0 then
      return .more hexValue decValue
        { s with wildcardAt := s.partCount, partCount := s.partCount + 1 }
    else error "only one wildcard `::` is allowed" (some (position size rest))
  else if s.wildcardAt ≠ s.partCount - 1 then error "missing part" (some (position size rest))
  else return .stop rest s

/-- Everything after the wildcard goes to the end of the buffer, the gap is zero. -/
def moveToEnd (s : Parts) : List ℕ :=
  let partAfterWildcard := s.wildcardAt.toNat + 1
  let partsAfterWildcard := s.partCount - partAfterWildcard
  if partsAfterWildcard > 0 then
    let positionAfterWildcard := partAfterWildcard * 2
    let bytesAfterWildcard := partsAfterWildcard * 2
    let newPositionAfterWildcard := s.result.length - bytesAfterWildcard
    s.result.take positionAfterWildcard ++
      List.replicate (newPositionAfterWildcard - positionAfterWildcard) 0 ++
      (s.result.drop positionAfterWildcard).take bytesAfterWildcard
  else s.result

/-- The end of the address: all groups there, or a wildcard that stands for the missing ones. -/
def finish (rest : List ℕ) (s : Parts) : Except Exn (List ℕ) :=
  if rest ≠ [] then error "invalid character" (some (position size rest))
  else if s.partCount < 8 then
    if s.wildcardAt < 0 then
      error "an address without a wildcard must contain exactly 8 parts" (some size)
    else .ok (moveToEnd s)
  else .ok s.result

/-- The loop over the characters of a group, with its value as a hexadecimal and a decimal
number. -/
def partsLoop : List ℕ → List ℕ → ℕ → Bool → Parts → Except Exn (List ℕ)
  | [], part, hexValue, decValue, s => do
    -- the sentinel is no colon, so that there is no further part
    match ← closePart size 0 [] part hexValue decValue s with
    | .more _ _ s => finish size [] s
    | .stop rest s => finish size rest s
  | char :: rest, part, hexValue, decValue, s =>
    match hexDigit char with
    | some (digit, isDecimal) =>
      -- `cursor < partStart + 4`
      if part.length < (char :: rest).length + 4 then
        partsLoop rest part (hexValue * 16 + digit) (decValue && isDecimal) s
      else
        error "an IPv6 part can contain a maximum of 4 hex digits" (some (position size part))
    | none => do
      match ← closePart size char (char :: rest) part hexValue decValue s with
      | .more hexValue decValue s => partsLoop rest rest hexValue decValue s
      | .stop rest s => finish size rest s

end

/-- `Uri.parseIPv6Address` of a whole string. -/
def parseIPv6Address (host : List ℕ) : Except Exn (List ℕ) :=
  match host with
  | char :: char' :: rest =>
    if char = kColon then
      if char' = kColon then
        partsLoop host.length rest rest 0 true ⟨0, 1, List.replicate 16 0⟩
      else error "invalid start colon" (some 0)
    else partsLoop host.length host host 0 true ⟨-1, 0, List.replicate 16 0⟩
  | _ => error "address is too short" none

end Ipv6
