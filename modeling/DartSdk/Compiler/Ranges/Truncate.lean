import DartSdk.Compiler.Ranges.BinaryOpSound

/-!
# Compiler/Ranges/Truncate — the range of a truncating operation

`InferRange` clamps the range of the 64-bit result to the representation, and a truncating operation
wraps that result around.  **The two agree where the 64-bit result fits the representation**
(`inferRange_contains_of_fits`); a sum or difference that does not fit is in the range only if it
does not wrap around to beyond the other end.
-/

namespace Ranges

open Dart

variable {T : Target} {a w : BitVec 64}

/-- The representations of a truncating operation. -/
inductive Representation where
  | tagged
  | unboxedUint32
  | unboxedInt64

/-- `Range::Full`, where a tagged value is a Smi. -/
def Target.full (T : Target) : Representation → ℤ × ℤ
  | .tagged => (T.smiMin, T.smiMax)
  | .unboxedUint32 => (0, 4294967295)
  | .unboxedInt64 => (minInt64, maxInt64)

/-- `Evaluator::TruncateTo`. -/
def Target.truncateTo (T : Target) (v : BitVec 64) : Representation → BitVec 64
  | .tagged =>
    let truncateBits := 64 - (T.smiBits + 1)
    (v <<< truncateBits).sshiftRight truncateBits
  | .unboxedUint32 => v &&& 0xFFFFFFFF
  | .unboxedInt64 => v

/-- `RangeBoundary::Clamp`, which leaves symbols alone. -/
def Boundary.clampTo (rep : Representation) : Boundary T → Checked (Boundary T)
  | .constant value _ => fromConstant (clamp (T.full rep).1 (T.full rep).2 value)
  | b => some b

/-- `BinaryIntegerOpInstr::InferRange` of a truncating operation. -/
def inferRange (rep : Representation) (op : BinaryOp) (left right : Range T)
    (length : Option (Symbol T)) : Checked (Range T) := do
  let range ← binaryOp op left right length
  return ⟨← range.min.clampTo rep, ← range.max.clampTo rep⟩

/-- The value is in the full range of the representation. -/
def Target.Fits (T : Target) (rep : Representation) (x : ℤ) : Prop :=
  (T.full rep).1 ≤ x ∧ x ≤ (T.full rep).2

theorem Target.smiPow_mul (T : Target) :
    (2 : ℤ) ^ T.smiBits * ↑(2 ^ (64 - (T.smiBits + 1)) : ℕ) = 9223372036854775808 := by
  have hbits := T.smiBits_le
  rw [Nat.cast_pow, Nat.cast_ofNat, ← pow_add,
    show T.smiBits + (64 - (T.smiBits + 1)) = 63 by omega]
  rfl

theorem fits_truncateTo (rep : Representation) (v : BitVec 64) :
    T.Fits rep (T.truncateTo v rep).toInt := by
  cases rep with
  | tagged =>
    obtain ⟨hlo, hhi⟩ := isInt64_toInt (v <<< (64 - (T.smiBits + 1)))
    have hpos : (0 : ℤ) < ↑(2 ^ (64 - (T.smiBits + 1)) : ℕ) := by positivity
    rw [Target.truncateTo, BitVec.toInt_sshiftRight, Int.shiftRight_eq_div_pow]
    refine ⟨(Int.le_ediv_iff_mul_le hpos).2 ?_, Int.le_sub_one_of_lt
      ((Int.ediv_lt_iff_lt_mul hpos).2 ?_)⟩
    · rw [Target.full, Target.smiMin, neg_mul, T.smiPow_mul]
      exact hlo
    · rw [T.smiPow_mul]
      exact Int.lt_add_one_of_le hhi
  | unboxedUint32 => exact toInt_and_le (by decide)
  | unboxedInt64 => exact isInt64_toInt v

/-- A value that fits is not changed. -/
theorem toInt_truncateTo {rep : Representation} (h : T.Fits rep w.toInt) :
    (T.truncateTo w rep).toInt = w.toInt := by
  cases rep with
  | tagged =>
    have hpos : (0 : ℤ) < ↑(2 ^ (64 - (T.smiBits + 1)) : ℕ) := by positivity
    have hint : IsInt64 (w.toInt * 2 ^ (64 - (T.smiBits + 1))) := by
      have hlo := mul_le_mul_of_nonneg_right h.1 hpos.le
      have hhi := mul_lt_mul_of_pos_right (Int.lt_of_le_sub_one h.2) hpos
      rw [Target.full, Target.smiMin, neg_mul, T.smiPow_mul] at hlo
      rw [T.smiPow_mul] at hhi
      exact ⟨hlo, Int.le_of_lt_add_one hhi⟩
    rw [Target.truncateTo, BitVec.toInt_sshiftRight, toInt_shiftLeft hint,
      Int.shiftRight_eq_div_pow, Nat.cast_pow, Nat.cast_ofNat]
    exact Int.mul_ediv_cancel _ (by positivity)
  | unboxedUint32 =>
    have hnat := toInt_eq_toNat h.1
    have hlt : w.toNat < 2 ^ 32 := by
      have hle : w.toInt ≤ 4294967295 := h.2
      omega
    have hword : T.truncateTo w .unboxedUint32 = w :=
      BitVec.eq_of_toNat_eq (by
        exact Nat.and_two_pow_sub_one_of_lt_two_pow hlt)
    rw [hword]
  | unboxedInt64 => rfl

theorem Target.isInt64_full (T : Target) (rep : Representation) :
    IsInt64 (T.full rep).1 ∧ IsInt64 (T.full rep).2 := by
  have hle := T.smiMin_le_smiMax
  cases rep with
  | tagged => exact ⟨Target.IsSmi.isInt64 ⟨le_rfl, hle⟩, Target.IsSmi.isInt64 ⟨hle, le_rfl⟩⟩
  | unboxedUint32 => exact (by decide : IsInt64 0 ∧ IsInt64 4294967295)
  | unboxedInt64 => exact (by decide : IsInt64 minInt64 ∧ IsInt64 maxInt64)

theorem Target.full_le (T : Target) (rep : Representation) : (T.full rep).1 ≤ (T.full rep).2 :=
  (fits_truncateTo rep 0).1.trans (fits_truncateTo rep 0).2

/-- A clamped boundary is still one for the values that fit. -/
theorem clampTo_spec (rep : Representation) (x : Boundary T) : ∃ y, x.clampTo rep = some y ∧
    ∀ ρ z, T.Fits rep z → (x.value ρ ≤ z → y.value ρ ≤ z) ∧ (z ≤ x.value ρ → z ≤ y.value ρ) := by
  cases x with
  | constant value h =>
    have hmem : IsInt64 (clamp (T.full rep).1 (T.full rep).2 value) := by
      obtain ⟨hlo, hhi⟩ := T.isInt64_full rep
      obtain ⟨h1, h2⟩ := clamp_mem (T.full_le rep) value
      exact isInt64_of_le hlo hhi h1 h2
    exact ⟨.constant _ hmem, dif_pos hmem, fun ρ z hz => ⟨clamp_le hz.1, le_clamp hz.2⟩⟩
  | symbol s offset h => exact ⟨_, rfl, fun ρ z _ => ⟨id, id⟩⟩

/-- A result that fits the representation is in the inferred range. -/
theorem inferRange_spec (rep : Representation) (op : BinaryOp) {left right : Range T}
    (length : Option (Symbol T)) (hl : left.Satisfiable) (hr : right.Satisfiable) :
    ∃ r, inferRange rep op left right length = some r ∧
      ∀ ρ a b w, Operands ρ left right length a b → op.eval a b = some w → T.Fits rep w.toInt →
        r.Contains ρ (T.truncateTo w rep).toInt := by
  obtain ⟨m, M, hleft⟩ := hl.exists_bounds
  obtain ⟨n, N, hright⟩ := hr.exists_bounds
  obtain ⟨r, hbinary, -, hcontains⟩ : Sound op left right length _ := sound_binaryOp hleft hright
  obtain ⟨lower, hlower, hmin⟩ := clampTo_spec rep r.min
  obtain ⟨upper, hupper, hmax⟩ := clampTo_spec rep r.max
  refine ⟨⟨lower, upper⟩, by simp [inferRange, hbinary, hlower, hupper],
    fun ρ a b w hab hw hfits => ?_⟩
  obtain ⟨hle, hge⟩ := hcontains ρ a b w hab hw
  rw [toInt_truncateTo hfits]
  exact ⟨(hmin ρ _ hfits).1 hle, (hmax ρ _ hfits).2 hge⟩

/-! ## Sums and differences

`BinaryOp` is exact for the addition and the subtraction of constant ranges.  So the operand ranges
tell which results that wrap around are lost by the clamping.
-/

/-- A range with constant boundaries that the representation can hold. -/
structure Range.ConstantIn (rep : Representation) (r : Range T) (min max : ℤ) : Prop where
  lower : ∃ h, r.min = .constant min h
  upper : ∃ h, r.max = .constant max h
  fits_lower : T.Fits rep min
  fits_upper : T.Fits rep max

/-- The least and the greatest result of an addition or a subtraction, for operands from `m` to `M`
and from `n` to `N`. -/
inductive Extremes (m M n N : ℤ) : BinaryOp → ℤ → ℤ → Prop where
  | add : Extremes m M n N .add (m + n) (M + N)
  | sub : Extremes m M n N .sub (m - N) (M - n)

section

variable {rep : Representation} {left right : Range T} {op : BinaryOp} {m M n N lo hi : ℤ}

theorem binaryOp_constant (hl : left.ConstantIn rep m M) (hr : right.ConstantIn rep n N)
    (h : Extremes m M n N op lo hi) (hlo : IsInt64 lo) (hhi : IsInt64 hi) (hle : lo ≤ hi) :
    binaryOp op left right none = some ⟨.constant lo hlo, .constant hi hhi⟩ := by
  obtain ⟨lmin, lmax⟩ := left
  obtain ⟨rmin, rmax⟩ := right
  obtain ⟨⟨hm, rfl⟩, ⟨hM, rfl⟩, -, -⟩ := hl
  obtain ⟨⟨hn, rfl⟩, ⟨hN, rfl⟩, -, -⟩ := hr
  cases h with
  | add =>
    have hmin := (willAddOverflow_eq_false hm).2 hlo
    have hmax := (willAddOverflow_eq_false hM).2 hhi
    simp [binaryOp, rangeAdd, leftBoundaries, Boundary.lowerBound, Boundary.upperBound, symbolicAdd,
      boundaryOr, hmin, hmax, add_eq hm hlo, add_eq hM hhi, fromConstant, hlo, hhi, rangeOrFull,
      Range.inOrder, hle]
  | sub =>
    have hmin := (willSubOverflow_eq_false hm).2 hlo
    have hmax := (willSubOverflow_eq_false hM).2 hhi
    simp [binaryOp, rangeSub, leftBoundaries, Boundary.lowerBound, Boundary.upperBound, symbolicSub,
      boundaryOr, hmin, hmax, sub_eq hm hlo, sub_eq hM hhi, fromConstant, hlo, hhi, rangeOrFull,
      Range.inOrder, hle]

theorem Extremes.isInt64 (h : Extremes m M n N op lo hi) (hrep : rep ≠ .unboxedInt64)
    (hl : left.ConstantIn rep m M) (hr : right.ConstantIn rep n N) : IsInt64 lo ∧ IsInt64 hi := by
  have hpow := T.smiPow_le
  have hm := hl.fits_lower
  have hM := hl.fits_upper
  have hn := hr.fits_lower
  have hN := hr.fits_upper
  unfold Target.Fits Target.full at hm hM hn hN
  unfold IsInt64 minInt64 maxInt64
  cases rep with
  | unboxedInt64 => exact absurd rfl hrep
  | tagged | unboxedUint32 => cases h <;> simp only [Target.smiMin, Target.smiMax] at * <;> omega

theorem Range.ConstantIn.contains_iff {r : Range T} (h : r.ConstantIn rep m M) {ρ : Assignment}
    {x : ℤ} : r.Contains ρ x ↔ m ≤ x ∧ x ≤ M := by
  obtain ⟨⟨_, hmin⟩, ⟨_, hmax⟩, -, -⟩ := h
  rw [Range.Contains, hmin, hmax]
  rfl

theorem Extremes.mem (h : Extremes m M n N op lo hi) (hlo : IsInt64 lo) (hhi : IsInt64 hi)
    {a b w : BitVec 64} (ha : m ≤ a.toInt ∧ a.toInt ≤ M) (hb : n ≤ b.toInt ∧ b.toInt ≤ N)
    (hw : op.eval a b = some w) : lo ≤ w.toInt ∧ w.toInt ≤ hi := by
  unfold IsInt64 at hlo hhi
  cases h with
  | add =>
    rw [toInt_add_of_eval hw (by unfold IsInt64; omega)]
    omega
  | sub =>
    rw [toInt_sub_of_eval hw (by unfold IsInt64; omega)]
    omega

/-- **Which sums and differences are in the inferred range.** -/
theorem inferRange_contains_iff_of_constant (hl : left.ConstantIn rep m M)
    (hr : right.ConstantIn rep n N) (h : Extremes m M n N op lo hi) {r : Range T}
    (hinfer : inferRange rep op left right none = some r) {ρ : Assignment} {a b w : BitVec 64}
    (hab : Operands ρ left right none a b) (hw : op.eval a b = some w)
    (hfits : T.Fits rep w.toInt → r.Contains ρ (T.truncateTo w rep).toInt) :
    r.Contains ρ (T.truncateTo w rep).toInt ↔
      ((T.full rep).2 < w.toInt → min lo (T.full rep).2 ≤ (T.truncateTo w rep).toInt) ∧
      (w.toInt < (T.full rep).1 → (T.truncateTo w rep).toInt ≤ max hi (T.full rep).1) := by
  by_cases hrep : rep = .unboxedInt64
  · -- a word is never outside of 64 bits
    subst hrep
    have hint := isInt64_toInt w
    exact iff_of_true (hfits hint)
      ⟨fun habove => absurd habove (not_lt.2 hint.2), fun hbelow => absurd hbelow (not_lt.2 hint.1)⟩
  obtain ⟨hlo, hhi⟩ := h.isInt64 hrep hl hr
  obtain ⟨hlower, hupper⟩ := h.mem hlo hhi (hl.contains_iff.1 hab.leftContains)
    (hr.contains_iff.1 hab.rightContains) hw
  obtain ⟨hmin, hmax⟩ := T.isInt64_full rep
  have hclamp (x : ℤ) : IsInt64 (clamp (T.full rep).1 (T.full rep).2 x) :=
    isInt64_of_le hmin hmax (clamp_mem (T.full_le rep) x).1 (clamp_mem (T.full_le rep) x).2
  rw [inferRange, binaryOp_constant hl hr h hlo hhi (hlower.trans hupper)] at hinfer
  simp only [Boundary.clampTo, fromConstant, hclamp, dif_pos, Option.bind_eq_bind, Option.bind_some,
    Option.pure_def, Option.some.injEq] at hinfer
  subst hinfer
  have htrunc := fits_truncateTo (T := T) rep w
  have hsame : T.Fits rep w.toInt → (T.truncateTo w rep).toInt = w.toInt := toInt_truncateTo
  change clamp _ _ lo ≤ _ ∧ _ ≤ clamp _ _ hi ↔ _
  unfold clamp
  unfold Target.Fits at htrunc hsame
  omega

end

/-- **A truncating operation whose 64-bit result fits the representation** has its result in the
inferred range.  Of the sums and differences that do not fit, those are in the range that do not
wrap around to below the least or to above the greatest one. -/
theorem inferRange_contains_of_fits (rep : Representation) (op : BinaryOp) (left right : Range T)
    (length : Option (Symbol T)) (hl : left.Satisfiable) (hr : right.Satisfiable) :
    ∃ r, inferRange rep op left right length = some r ∧
      ∀ ρ a b w, Operands ρ left right length a b → op.eval a b = some w →
        (T.Fits rep w.toInt → r.Contains ρ (T.truncateTo w rep).toInt) ∧
        ∀ m M n N lo hi, left.ConstantIn rep m M → right.ConstantIn rep n N → length = none →
          Extremes m M n N op lo hi →
          (r.Contains ρ (T.truncateTo w rep).toInt ↔
            ((T.full rep).2 < w.toInt → min lo (T.full rep).2 ≤ (T.truncateTo w rep).toInt) ∧
            (w.toInt < (T.full rep).1 → (T.truncateTo w rep).toInt ≤ max hi (T.full rep).1)) := by
  obtain ⟨r, hinfer, hcontains⟩ := inferRange_spec rep op length hl hr
  refine ⟨r, hinfer, fun ρ a b w hab hw => ⟨hcontains ρ a b w hab hw, ?_⟩⟩
  rintro m M n N lo hi hleft hright rfl hextremes
  exact inferRange_contains_iff_of_constant hleft hright hextremes hinfer hab hw
    (hcontains ρ a b w hab hw)

theorem operands_smallRange : Operands (fun _ => 0) smallRange smallRange none 1#64 2#64 := by
  refine ⟨?_, ?_, by unfold Range.Contains; decide, by unfold Range.Contains; decide,
    fun s hs => by cases hs⟩ <;> simp [Range.Holds, smallRange, Boundary.Holds]

theorem constantIn_smallRange : smallRange.ConstantIn .unboxedUint32 1 3 :=
  ⟨⟨by decide, rfl⟩, ⟨by decide, rfl⟩, by unfold Target.Fits; decide, by unfold Target.Fits; decide⟩

/-- The sum 1 + 2 does not wrap around, and the difference 1 - 2 does. -/
theorem inferRange_contains_small :
    (∃ r, inferRange .unboxedUint32 .add smallRange smallRange none = some r ∧
      r.Contains (fun _ => 0) 3) ∧
    ∃ r, inferRange .unboxedUint32 .sub smallRange smallRange none = some r ∧
      ¬ r.Contains (fun _ => 0) 4294967295 := by
  obtain ⟨r, hr, hcontains⟩ := inferRange_contains_of_fits .unboxedUint32 .add smallRange smallRange
    none satisfiable_smallRange satisfiable_smallRange
  obtain ⟨r', hr', hcontains'⟩ :=
    inferRange_contains_of_fits .unboxedUint32 .sub smallRange smallRange
    none satisfiable_smallRange satisfiable_smallRange
  refine ⟨⟨r, hr, ?_⟩, r', hr', fun h => ?_⟩
  · exact (hcontains _ _ _ 3#64 operands_smallRange rfl).1 (by unfold Target.Fits; decide)
  · have hiff := (hcontains' _ _ _ _ operands_smallRange rfl).2 1 3 1 3 _ _ constantIn_smallRange
      constantIn_smallRange rfl .sub
    exact absurd ((hiff.1 h).2 (by decide)) (by decide)

/-- The difference 1 - 2 wraps around to the greatest `uint32_t`, but its range ends at 2. -/
theorem inferRange_wraps : Operands (fun _ => 0) smallRange smallRange none 1#64 2#64 ∧
    ∃ r w, inferRange .unboxedUint32 .sub smallRange smallRange none = some r ∧
      BinaryOp.sub.eval 1#64 2#64 = some w ∧
      ¬ r.Contains (fun _ => 0) (target64.truncateTo w .unboxedUint32).toInt := by
  refine ⟨operands_smallRange, _, _, rfl, rfl, ?_⟩
  unfold Range.Contains
  decide

end Ranges
