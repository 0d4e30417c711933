import DartSdk.Compiler.Ranges.Boundary

/-!
# Compiler/Ranges/BinaryOp — the range of a binary operation

The transfer functions `Range::Add`, …, `Range::Shl` and `Range::BinaryOp`, which picks one of them.
-/

namespace Ranges

open Dart

variable {T : Target}

/-- A result with constant boundaries. -/
def constantRange (min max : ℤ) : Checked (Range T) := do
  return ⟨← fromConstant min, ← fromConstant max⟩

/-- A shift count is at least zero: a negative one throws. -/
def shiftCounts (right : Range T) : Checked (ℤ × ℤ) := do
  return (max (← right.constantMin) 0, max (← right.constantMax) 0)

/-- `Range::Shl`. -/
def rangeShl (left right : Range T) : Checked (Range T) := do
  let leftMax ← left.constantMax
  let leftMin ← left.constantMin
  let (rightMin, rightMax) ← shiftCounts right
  let minAmount := if 0 < leftMin then rightMin else rightMax
  let maxAmount := if 0 < leftMax then rightMax else rightMin
  if willShlOverflow leftMin minAmount || willShlOverflow leftMax maxAmount then
    return int64Range
  else constantRange (← shl leftMin minAmount) (← shl leftMax maxAmount)

/-- `Range::Shr`. -/
def rangeShr (left right : Range T) : Checked (Range T) := do
  let leftMax ← left.constantMax
  let leftMin ← left.constantMin
  let (rightMin, rightMax) ← shiftCounts right
  constantRange (← shr leftMin (if 0 < leftMin then rightMax else rightMin))
    (← shr leftMax (if 0 < leftMax then rightMin else rightMax))

/-- `ConvertRangeToUnsigned`. -/
def convertRangeToUnsigned (a b : ℤ) : Checked (ℕ × ℕ) := do
  guard (a ≤ b)
  -- a range with -1 and 0 wraps around as unsigned
  return if a < 0 ∧ 0 ≤ b then (0, 2 ^ 64 - 1) else (toUnsigned a, toUnsigned b)

/-- `ConvertRangeToSigned`. -/
def convertRangeToSigned (a b : ℕ) : Checked (ℤ × ℤ) := do
  guard (a ≤ b)
  return if a < 2 ^ 63 ∧ 2 ^ 63 ≤ b then (minInt64, maxInt64) else (toSigned a, toSigned b)

/-- `Range::Ushr`. -/
def rangeUshr (left right : Range T) : Checked (Range T) := do
  let leftMax ← left.constantMax
  let leftMin ← left.constantMin
  let (rightMin, rightMax) ← shiftCounts right
  let (unsignedLeftMin, unsignedLeftMax) ← convertRangeToUnsigned leftMin leftMax
  let unsignedMin := if 64 ≤ rightMax then 0 else unsignedLeftMin >>> rightMax.toNat
  let unsignedMax := if 64 ≤ rightMin then 0 else unsignedLeftMax >>> rightMin.toNat
  let (signedMin, signedMax) ← convertRangeToSigned unsignedMin unsignedMax
  constantRange signedMin signedMax

/-- `BitSize`. -/
def bitSize (r : Range T) : Checked ℕ := do
  return max (bitLength (← r.constantMin)) (bitLength (← r.constantMax))

/-- `Range::BitwiseOp`. -/
def rangeBitwiseOp (left right : Range T) : Checked (Range T) := do
  let bits := max (← bitSize left) (← bitSize right)
  let positive := (← left.onlyGreaterThanOrEqualTo 0) && (← right.onlyGreaterThanOrEqualTo 0)
  constantRange (if positive then 0 else (-(1#64 <<< bits)).toInt) ((1#64 <<< bits) - 1#64).toInt

/-- `Range::And`. -/
def rangeAnd (left right : Range T) : Checked (Range T) := do
  if 0 ≤ (← right.constantMin) then constantRange 0 (← right.constantMax)
  else if 0 ≤ (← left.constantMin) then constantRange 0 (← left.constantMax)
  else rangeBitwiseOp left right

/-- The left boundaries of an addition or subtraction: a length stands for itself. -/
def leftBoundaries (left : Range T) (length : Option (Symbol T)) : Boundary T × Boundary T :=
  match length with
  | some s => (fromDefinition s, fromDefinition s)
  | none => (left.min, left.max)

/-- A boundary of a sum or difference: the symbolic one, or the constant one unless it overflows. -/
def boundaryOr (symbolic : Checked (Option (Boundary T))) (overflow : Bool)
    (constant : Checked ℤ) : Checked (Option (Boundary T)) := do
  match ← symbolic with
  | some b => return some b
  | none => if overflow then return none else return some (← fromConstant (← constant))

/-- Both boundaries, or the full range if one overflowed. -/
def rangeOrFull : Option (Boundary T) → Option (Boundary T) → Range T
  | some min, some max => ⟨min, max⟩
  | _, _ => int64Range

/-- `Range::Add`. -/
def rangeAdd (left right : Range T) (length : Option (Symbol T)) : Checked (Range T) := do
  let (leftMin, leftMax) := leftBoundaries left length
  let leftMinBound ← left.min.lowerBound
  let rightMinBound ← right.min.lowerBound
  let leftMaxBound ← left.max.upperBound
  let rightMaxBound ← right.max.upperBound
  let min ← boundaryOr (symbolicAdd leftMin right.min)
    (willAddOverflow leftMinBound rightMinBound) (add leftMinBound rightMinBound)
  let max ← boundaryOr (symbolicAdd leftMax right.max)
    (willAddOverflow leftMaxBound rightMaxBound) (add leftMaxBound rightMaxBound)
  return rangeOrFull min max

/-- `Range::Sub`. -/
def rangeSub (left right : Range T) (length : Option (Symbol T)) : Checked (Range T) := do
  let (leftMin, leftMax) := leftBoundaries left length
  let leftMinBound ← left.min.lowerBound
  let rightMaxBound ← right.max.upperBound
  let leftMaxBound ← left.max.upperBound
  let rightMinBound ← right.min.lowerBound
  let min ← boundaryOr (symbolicSub leftMin right.max)
    (willSubOverflow leftMinBound rightMaxBound) (sub leftMinBound rightMaxBound)
  let max ← boundaryOr (symbolicSub leftMax right.min)
    (willSubOverflow leftMaxBound rightMinBound) (sub leftMaxBound rightMinBound)
  return rangeOrFull min max

/-- `OnlyPositiveOrZero`. -/
def onlyPositiveOrZero (a b : Range T) : Checked Bool := do
  return (← a.onlyGreaterThanOrEqualTo 0) && (← b.onlyGreaterThanOrEqualTo 0)

/-- `OnlyNegativeOrZero`. -/
def onlyNegativeOrZero (a b : Range T) : Checked Bool := do
  return (← a.onlyLessThanOrEqualTo 0) && (← b.onlyLessThanOrEqualTo 0)

/-- `Range::Mul`. -/
def rangeMul (left right : Range T) : Checked (Range T) := do
  let leftMax ← left.constantAbsMax
  let rightMax ← right.constantAbsMax
  if leftMax ≤ -T.smiMin ∧ rightMax ≤ -T.smiMin ∧ (leftMax = 0 ∨ rightMax ≤ maxInt64 / leftMax) then
    let mulMax ← checked (leftMax * rightMax)
    if (← onlyPositiveOrZero left right) || (← onlyNegativeOrZero left right) then
      -- of the same sign: between the products of the least and the greatest absolute values
      constantRange (← checked ((← left.constantAbsMin) * (← right.constantAbsMin))) mulMax
    else constantRange (← checked (-mulMax)) mulMax
  else return int64Range

/-- `Range::TruncDiv`. -/
def rangeTruncDiv (left right : Range T) : Checked (Range T) := do
  if (← left.onlyGreaterThanOrEqualTo 0) && (← right.onlyGreaterThanOrEqualTo 1) then
    let leftMax ← left.constantAbsMax
    let leftMin ← left.constantAbsMin
    let rightMax ← right.constantAbsMax
    let rightMin ← right.constantAbsMin
    guard (rightMin ≠ 0 ∧ rightMax ≠ 0)
    constantRange (leftMin.tdiv rightMax) (leftMax.tdiv rightMin)
  else return int64Range

/-- `Range::Mod`. -/
def rangeMod (right : Range T) : Checked (Range T) := do
  if (← right.constantMin) ≠ minInt64 then
    constantRange 0 (max (← checked ((← right.constantAbsMax) - 1)) 0)
  else constantRange 0 maxInt64

/-- The last assertion of `Range::BinaryOp`: constant boundaries are in order. -/
def Range.inOrder : Range T → Bool
  | ⟨.constant min _, .constant max _⟩ => min ≤ max
  | _ => true

/-- `Range::BinaryOp`.  `length` is the left definition if it loads a length. -/
def binaryOp (op : BinaryOp) (left right : Range T) (length : Option (Symbol T)) :
    Checked (Range T) := do
  let result ← match op with
    | .add => rangeAdd left right length
    | .sub => rangeSub left right length
    | .mul => rangeMul left right
    | .truncDiv => rangeTruncDiv left right
    | .mod => rangeMod right
    | .shl => rangeShl left right
    | .shr => rangeShr left right
    | .ushr => rangeUshr left right
    | .bitAnd => rangeAnd left right
    | .bitXor | .bitOr => rangeBitwiseOp left right
  guard result.inOrder
  return result

end Ranges
