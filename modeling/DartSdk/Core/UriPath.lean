import Mathlib.Data.Int.Basic
import Mathlib.Data.List.Infix

/-!
# Core/UriPath — the path of a resolved reference

`resolveUri` merges the path of a reference with that of the base and removes the dot segments.
`_mergePaths` already takes segments of the base away for leading `../` of the reference.  Strings
are lists of code units, and the base has a scheme.

The result is the reference itself, or the reference with another scheme, if that is one of the
platform's own URIs and has a scheme or an authority.  Of another class of URIs, whose paths need
not be in normal form, the path that was computed goes through `_makePath` in the end; the percent
encoding there is a parameter, `normalize`.
-/

namespace UriPath

/-- `_DOT`. -/
def kDot : ℕ := 0x2E

/-- `_SLASH`. -/
def kSlash : ℕ := 0x2F

/-- `_PERCENT`. -/
def kPercent : ℕ := 0x25

/-- `_COLON`. -/
def kColon : ℕ := 0x3A

/-- The segments `.` and `..`. -/
def dot : List ℕ := [kDot]

/-- The segment that goes up. -/
def dotDot : List ℕ := [kDot, kDot]

/-- The number of `../` at the beginning. -/
def countBack : List ℕ → ℕ
  | a :: b :: c :: rest => if a = kDot ∧ b = kDot ∧ c = kSlash then countBack rest + 1 else 0
  | _ => 0

/-- The last index of `/` before `n`. -/
def lastSlash (base : List ℕ) : ℕ → ℤ
  | 0 => -1
  | n + 1 => if base[n]? = some kSlash then n else lastSlash base n

/-- The loop that drops segments of the base. -/
def dropSegments (base : List ℕ) : ℕ → ℤ → ℤ × ℕ
  | 0, baseEnd => (baseEnd, 0)
  | backCount + 1, baseEnd =>
    if baseEnd > 0 then
      let newEnd := lastSlash base baseEnd.toNat
      if newEnd < 0 then (baseEnd, backCount + 1)
      else
        let delta := baseEnd - newEnd
        -- `.` and `..` are left to the removal of dot segments
        if (delta = 2 ∨ delta = 3) ∧ base[newEnd.toNat + 1]? = some kDot ∧
            (delta = 2 ∨ base[newEnd.toNat + 2]? = some kDot) then (baseEnd, backCount + 1)
        else dropSegments base backCount newEnd
    else (baseEnd, backCount + 1)

/-- `_mergePaths`: the reference in place of what follows the last slash of the base, with leading
`../` taken off first. -/
def mergePaths (base reference : List ℕ) : List ℕ :=
  let refStart := 3 * countBack reference
  let (baseEnd, backCount) :=
    dropSegments base (countBack reference) (lastSlash base base.length)
  base.take (baseEnd + 1).toNat ++ reference.drop (refStart - 3 * backCount)

/-- `_mayContainDotSegments`. -/
def mayContainDotSegments (path : List ℕ) : Bool :=
  path.head? = some kDot || decide ([kSlash, kDot] <:+: path)

/-- The last segment goes; what is left is never empty. -/
def popSegment (output : List (List ℕ)) : List (List ℕ) :=
  if output ≠ [] then
    let output := output.dropLast
    if output = [] then [[]] else output
  else output

/-- The loop over the segments, with `output` and `appendSlash`. -/
def removeLoop : List (List ℕ) → List (List ℕ) → Bool → List (List ℕ) × Bool
  | [], output, appendSlash => (output, appendSlash)
  | segment :: rest, output, _ =>
    if segment = dotDot then removeLoop rest (popSegment output) true
    else if segment = dot then removeLoop rest output true
    else removeLoop rest (output ++ [segment]) false

/-- The segments that are left, and an empty one if the last segment was a dot segment. -/
def joinOutput (result : List (List ℕ) × Bool) : List ℕ :=
  [kSlash].intercalate (if result.2 then result.1 ++ [[]] else result.1)

/-- `_removeDotSegments`. -/
def removeDotSegments (path : List ℕ) : List ℕ :=
  if !mayContainDotSegments path then path
  else joinOutput (removeLoop (path.splitOn kSlash) [] false)

/-! ## Resolving

`resolveUri`: which parts come from the reference and which from the base. -/

/-- What is read of the base. -/
structure Base where
  scheme : List ℕ
  hasAuthority : Bool
  path : List ℕ
  hasScheme : scheme ≠ []

/-- What is read of the reference, with its scheme after `_makeScheme`. -/
structure Reference where
  scheme : List ℕ
  hasAuthority : Bool
  path : List ℕ
  hasQuery : Bool
  isPlatformUri : Bool

/-- `package`. -/
def kPackage : List ℕ := [0x70, 0x61, 0x63, 0x6B, 0x61, 0x67, 0x65]

/-- `file`. -/
def kFile : List ℕ := [0x66, 0x69, 0x6C, 0x65]

/-- The index of the slash after a package name; `dots` is nonzero after a character that is no
dot. -/
def skipPackageNameChars : List ℕ → ℕ → ℕ → ℤ
  | [], _, _ => -1
  | char :: rest, i, dots =>
    if char = kSlash then if dots ≠ 0 then i else -1
    else if char = kPercent ∨ char = kColon then -1
    else skipPackageNameChars rest (i + 1) (dots ||| (char ^^^ kDot))

/-- Where the package name of a `package:` URI ends. -/
def packageNameEnd (base : Base) : ℤ :=
  if base.scheme = kPackage ∧ base.hasAuthority = false then skipPackageNameChars base.path 0 0
  else -1

/-- `targetPath`, as `resolveUri` computes it. -/
def targetPath (base : Base) (reference : Reference) : List ℕ :=
  if reference.scheme ≠ [] then removeDotSegments reference.path
  else if reference.hasAuthority then removeDotSegments reference.path
  else if reference.path = [] then base.path
  else
    let nameEnd := packageNameEnd base
    if nameEnd > 0 then
      let packageName := base.path.take nameEnd.toNat
      if reference.path.head? = some kSlash then packageName ++ removeDotSegments reference.path
      else
        packageName ++
          removeDotSegments (mergePaths (base.path.drop packageName.length) reference.path)
    else if reference.path.head? = some kSlash then removeDotSegments reference.path
    else if base.path = [] then
      if base.hasAuthority = false then removeDotSegments reference.path
      else removeDotSegments (kSlash :: reference.path)
    else removeDotSegments (mergePaths base.path reference.path)

/-- `_makePath`, of a URI with a scheme. -/
def makePath (normalize : List ℕ → List ℕ) (scheme : List ℕ) (hasAuthority : Bool)
    (path : List ℕ) : List ℕ :=
  let result := normalize path
  if result = [] then if scheme = kFile then [kSlash] else removeDotSegments result
  else if (scheme = kFile ∨ hasAuthority = true) ∧ result.head? ≠ some kSlash then
    removeDotSegments (kSlash :: result)
  else removeDotSegments result

/-- The path of `replace(scheme: scheme)`, of a URI with an authority. -/
def replaceScheme (scheme path : List ℕ) : List ℕ :=
  if (scheme = kFile ∨ path ≠ []) ∧ path.head? ≠ some kSlash then kSlash :: path else path

/-- `_makePath` at the end of `resolveUri`: not for a path that is that of the base, with the same
query. -/
def remakePath (normalize : List ℕ → List ℕ) (base : Base) (reference : Reference)
    (path : List ℕ) : List ℕ :=
  if reference.scheme ≠ [] then makePath normalize reference.scheme reference.hasAuthority path
  else if reference.hasAuthority then makePath normalize base.scheme true path
  else if reference.path = [] ∧ reference.hasQuery = false then path
  else makePath normalize base.scheme base.hasAuthority path

/-- The path of the result of `resolveUri`. -/
def resolveUri (normalize : List ℕ → List ℕ) (base : Base) (reference : Reference) : List ℕ :=
  if reference.isPlatformUri then
    if reference.scheme ≠ [] then reference.path
    else if reference.hasAuthority then replaceScheme base.scheme reference.path
    else targetPath base reference
  else remakePath normalize base reference (targetPath base reference)

end UriPath
