import DartSdk.Compiler.IntegerOp

/-!
# Compiler/Ranges/Boundary — range boundaries and their arithmetic

A **boundary** is a constant or a symbol — a definition that holds a Smi, with its own range — plus
an offset.  Both kinds carry their invariant: a constant is an `int64_t`, and an offset keeps every
sum with a Smi inside `int64_t`.

Computations on boundaries are `Checked`: there is no result where an `int64_t` would overflow or an
assertion of the source would fail.
-/

namespace Ranges

/-- `kMinInt64`. -/
def minInt64 : ℤ := -9223372036854775808

/-- `kMaxInt64`. -/
def maxInt64 : ℤ := 9223372036854775807

/-- The integers that an `int64_t` can hold. -/
def IsInt64 (x : ℤ) : Prop := minInt64 ≤ x ∧ x ≤ maxInt64

instance (x : ℤ) : Decidable (IsInt64 x) := inferInstanceAs (Decidable (_ ∧ _))

/-- A computation that fails on an overflow and on a failed assertion. -/
abbrev Checked := Option

/-- The result of an `int64_t` operation. -/
def checked (x : ℤ) : Checked ℤ := if IsInt64 x then some x else none

/-- `Utils::WillAddOverflow`. -/
def willAddOverflow (a b : ℤ) : Bool :=
  (0 < b && maxInt64 - b < a) || (b < 0 && a < minInt64 - b)

/-- `Utils::WillSubOverflow`. -/
def willSubOverflow (a b : ℤ) : Bool :=
  (0 < b && a < minInt64 + b) || (b < 0 && maxInt64 + b < a)

/-- `Utils::AbsWithSaturation`. -/
def absWithSaturation (x : ℤ) : Checked ℤ :=
  if x < 0 then (if x = minInt64 then some maxInt64 else checked (-x)) else some x

/-- `Utils::IsInt`: whether `n` bits in two's complement can hold the value. -/
def isInt (n : ℕ) (value : ℤ) : Bool :=
  64 ≤ n || (-(2 ^ (n - 1)) ≤ value && value < 2 ^ (n - 1))

/-- `Utils::BitLength`: the bits are flipped if the value is negative. -/
def bitLength (value : ℤ) : ℕ := if value < 0 then (-value - 1).toNat.size else value.toNat.size

/-- The casts between `int64_t` and `uint64_t`. -/
def toUnsigned (x : ℤ) : ℕ := (BitVec.ofInt 64 x).toNat

/-- A natural number as the `int64_t` of its low bits. -/
def toSigned (n : ℕ) : ℤ := (BitVec.ofNat 64 n).toInt

/-! ## Boundaries -/

/-- What a target architecture fixes: the number of value bits of a Smi. -/
structure Target where
  smiBits : ℕ
  smiBits_le : smiBits ≤ 62

namespace Target

variable (T : Target)

/-- The largest Smi of the target. -/
def smiMax : ℤ := 2 ^ T.smiBits - 1

/-- The least Smi of the target. -/
def smiMin : ℤ := -(2 ^ T.smiBits)

/-- `IsValidOffsetForSymbolicRangeBoundary`. -/
def ValidOffset (offset : ℤ) : Prop :=
  ¬ (maxInt64 - T.smiMax < offset ∨ offset < minInt64 - T.smiMin)

instance (offset : ℤ) : Decidable (T.ValidOffset offset) := inferInstanceAs (Decidable (¬ _))

theorem one_le_smiPow : (1 : ℤ) ≤ 2 ^ T.smiBits := one_le_pow₀ (by decide)

theorem smiPow_le : (2 : ℤ) ^ T.smiBits ≤ 4611686018427387904 :=
  pow_le_pow_right₀ (by decide) T.smiBits_le

theorem validOffset_zero : T.ValidOffset 0 := by
  have hle := T.smiPow_le
  unfold ValidOffset smiMax smiMin maxInt64 minInt64
  omega

end Target

mutual

/-- `RangeBoundary`. -/
inductive Boundary (T : Target) where
  | constant (value : ℤ) (h : IsInt64 value)
  | symbol (defn : Symbol T) (offset : ℤ) (h : T.ValidOffset offset)

/-- A definition that a boundary refers to, with its range if it has one. -/
inductive Symbol (T : Target) where
  | unranged (id : ℕ)
  | ranged (id : ℕ) (min max : Boundary T)

end

/-- `Range`. -/
structure Range (T : Target) where
  min : Boundary T
  max : Boundary T

variable {T : Target}

/-- The definition that a symbol stands for. -/
def Symbol.id : Symbol T → ℕ
  | .unranged id => id
  | .ranged id _ _ => id

/-- `RangeBoundary::FromConstant`. -/
def fromConstant (value : ℤ) : Checked (Boundary T) :=
  if h : IsInt64 value then some (.constant value h) else none

/-- `RangeBoundary::FromDefinition` without an offset. -/
def fromDefinition (s : Symbol T) : Boundary T := .symbol s 0 T.validOffset_zero

/-- The boundary `kMinInt64`. -/
def minInt64Boundary : Boundary T := .constant minInt64 (by decide)

/-- The boundary `kMaxInt64`. -/
def maxInt64Boundary : Boundary T := .constant maxInt64 (by decide)

/-- `Range::Int64`. -/
def int64Range : Range T := ⟨minInt64Boundary, maxInt64Boundary⟩

/-- `RangeBoundary::Clamp` of a constant. -/
def clamp (min max value : ℤ) : ℤ :=
  if value ≤ min then min else if max ≤ value then max else value

/-- `RangeBoundary::Add` of constants. -/
def add (a b : ℤ) : Checked ℤ := do
  guard (willAddOverflow a b = false)
  checked (a + b)

/-- `RangeBoundary::Sub` of constants. -/
def sub (a b : ℤ) : Checked ℤ := do
  guard (willSubOverflow a b = false)
  checked (a - b)

mutual

/-- `RangeBoundary::LowerBound`. -/
def Boundary.lowerBound : Boundary T → Checked ℤ
  | .constant value _ => some value
  | .symbol s offset _ => do add (← s.constantMinSmi) offset

/-- `Range::ConstantMinSmi` of the range of a symbol. -/
def Symbol.constantMinSmi : Symbol T → Checked ℤ
  | .unranged _ => some T.smiMin
  | .ranged _ min _ => do return clamp T.smiMin T.smiMax (← min.lowerBound)

end

mutual

/-- `RangeBoundary::UpperBound`. -/
def Boundary.upperBound : Boundary T → Checked ℤ
  | .constant value _ => some value
  | .symbol s offset _ => do add (← s.constantMaxSmi) offset

/-- `Range::ConstantMaxSmi` of the range of a symbol. -/
def Symbol.constantMaxSmi : Symbol T → Checked ℤ
  | .unranged _ => some T.smiMax
  | .ranged _ _ max => do return clamp T.smiMin T.smiMax (← max.upperBound)

end

/-- A symbol plus an offset, if the offset is valid. -/
def symbolic (s : Symbol T) (offset : ℤ) : Option (Boundary T) :=
  if h : T.ValidOffset offset then some (.symbol s offset h) else none

/-- `RangeBoundary::SymbolicAdd`; the inner `none` is its `false`. -/
def symbolicAdd : Boundary T → Boundary T → Checked (Option (Boundary T))
  | .symbol s offset _, .constant c _ | .constant c _, .symbol s offset _ =>
    if willAddOverflow offset c then pure none
    else do return symbolic s (← checked (offset + c))
  | _, _ => pure none

/-- `RangeBoundary::SymbolicSub`. -/
def symbolicSub : Boundary T → Boundary T → Checked (Option (Boundary T))
  | .symbol s offset _, .constant c _ =>
    if willSubOverflow offset c then pure none
    else do return symbolic s (← checked (offset - c))
  | _, _ => pure none

/-- `RangeBoundary::WillShlOverflow`. -/
def willShlOverflow (value shiftCount : ℤ) : Bool :=
  value ≠ 0 && (64 ≤ shiftCount || !isInt (64 - shiftCount).toNat value)

/-- `RangeBoundary::Shl`. -/
def shl (value shiftCount : ℤ) : Checked ℤ := do
  guard (willShlOverflow value shiftCount = false)
  guard (0 ≤ shiftCount)
  return if value = 0 then 0 else (BitVec.ofInt 64 value <<< shiftCount.toNat).toInt

/-- `RangeBoundary::Shr`. -/
def shr (value shiftCount : ℤ) : Checked ℤ := do
  guard (0 ≤ shiftCount)
  return if shiftCount ≤ 63 then value >>> shiftCount.toNat else if 0 ≤ value then 0 else -1

namespace Range

variable (r : Range T)

/-- `Range::ConstantMin`. -/
def constantMin : Checked ℤ := do return clamp minInt64 maxInt64 (← r.min.lowerBound)

/-- `Range::ConstantMax`. -/
def constantMax : Checked ℤ := do return clamp minInt64 maxInt64 (← r.max.upperBound)

/-- `Range::OnlyLessThanOrEqualTo`. -/
def onlyLessThanOrEqualTo (value : ℤ) : Checked Bool := do
  return (← r.max.upperBound) ≤ value

/-- `Range::OnlyGreaterThanOrEqualTo`. -/
def onlyGreaterThanOrEqualTo (value : ℤ) : Checked Bool := do
  return value ≤ (← r.min.lowerBound)

/-- `Range::ConstantAbsMax`. -/
def constantAbsMax : Checked ℤ := do
  return Max.max (← absWithSaturation (← r.constantMin)) (← absWithSaturation (← r.constantMax))

/-- `Range::ConstantAbsMin`. -/
def constantAbsMin : Checked ℤ := do
  return Min.min (← absWithSaturation (← r.constantMin)) (← absWithSaturation (← r.constantMax))

end Range

end Ranges
