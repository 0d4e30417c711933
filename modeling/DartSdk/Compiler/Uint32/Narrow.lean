import DartSdk.Compiler.Uint32.Machine

/-!
# Compiler/Uint32/Narrow — 64-bit operations on low halves

A word **fits** if its high half is zero.  The low half of a result of a supported operation is the
result of the `Uint32` operation on the low halves of the operands (`low_eval`): always for the
ring and bit operations, for shifts if the count fits, and for right shifts if the shifted word does
too.
-/

namespace Uint32

open Dart BitVec

variable {w a : BitVec 64}

/-! ## Words -/

/-- The high half of the word is zero. -/
def Fits (w : BitVec 64) : Prop := w.toNat < 2 ^ 32

instance (w : BitVec 64) : Decidable (Fits w) := inferInstanceAs (Decidable (_ < _))

@[simp] theorem low_toNat (w : BitVec 64) : (low w).toNat = w.toNat % 2 ^ 32 :=
  toNat_setWidth 32 w

@[simp] theorem wide_toNat (w : BitVec 32) : (wide w).toNat = w.toNat := by
  rw [wide, toNat_setWidth]
  exact Nat.mod_eq_of_lt (w.isLt.trans (by decide))

@[simp] theorem low_wide (w : BitVec 32) : low (wide w) = w := by
  refine eq_of_toNat_eq ?_
  rw [low_toNat, wide_toNat, Nat.mod_eq_of_lt w.isLt]

theorem Fits.low_toNat (h : Fits w) : (low w).toNat = w.toNat := by
  rw [Uint32.low_toNat, Nat.mod_eq_of_lt h]

/-- **A word fits iff its low half is all of it.** -/
theorem wide_low_iff : wide (low w) = w ↔ Fits w := by
  refine ⟨fun h => ?_, fun h => eq_of_toNat_eq ?_⟩
  · rw [Fits, ← h, wide_toNat]
    exact (low w).isLt
  · rw [wide_toNat, h.low_toNat]

theorem Fits.toInt (h : Fits w) : w.toInt = w.toNat := by
  refine toInt_eq_toNat_of_lt ?_
  unfold Fits at h
  omega

theorem Fits.not_toInt_neg (h : Fits w) : ¬ w.toInt < 0 := by
  rw [h.toInt]
  exact Int.not_lt.mpr (Int.natCast_nonneg _)

theorem Fits.msb (h : Fits w) : w.msb = false := by
  rw [msb_eq_false_iff_two_mul_lt]
  unfold Fits at h
  omega

theorem fits_of_toInt (hmin : 0 ≤ w.toInt) (hmax : w.toInt ≤ maxUint32) : Fits w := by
  rw [toInt_eq_toNat_cond] at hmin hmax
  unfold Fits maxUint32 at *
  split at hmin <;> omega

theorem fits_zero : Fits 0 := by decide

theorem low_sub (a b : BitVec 64) : low (a - b) = low a - low b := by
  refine eq_of_toNat_eq ?_
  simp only [low_toNat, toNat_sub]
  omega

theorem low_not (a : BitVec 64) : low (~~~a) = ~~~(low a) := setWidth_not (by decide)

theorem low_shl (a : BitVec 64) (n : ℕ) :
    low (a <<< n) = if shiftCountLimit < n then 0 else low a <<< n := by
  refine eq_of_getLsbD_eq fun i hi => ?_
  unfold low shiftCountLimit
  split
  · have hin : i < n := by omega
    simp [getLsbD_setWidth, getLsbD_shiftLeft, hin]
  · simp [hi]

theorem low_ushr (ha : Fits a) (n : ℕ) :
    low (a >>> n) = if shiftCountLimit < n then 0 else low a >>> n := by
  have hle : a.toNat >>> n ≤ a.toNat := by
    rw [Nat.shiftRight_eq_div_pow]
    exact Nat.div_le_self _ _
  refine eq_of_toNat_eq ?_
  rw [low_toNat, toNat_ushiftRight, Nat.mod_eq_of_lt (hle.trans_lt ha)]
  split
  · rename_i hn
    have hpow : 2 ^ 32 ≤ 2 ^ n := Nat.pow_le_pow_right (by decide) hn
    rw [Nat.shiftRight_eq_div_pow, Nat.div_eq_of_lt (lt_of_lt_of_le ha hpow)]
    rfl
  · rw [toNat_ushiftRight, ha.low_toNat]

theorem Fits.sshiftRight (ha : Fits a) (n : ℕ) : a.sshiftRight n = a >>> n :=
  sshiftRight_eq_of_msb_false ha.msb

/-- What the operands of a narrowed operation have to satisfy. -/
structure Narrowable (op : BinaryOp) (a b : BitVec 64) : Prop where
  count : op.isShift → Fits b
  shifted : op = .shr ∨ op = .ushr → Fits a

/-- **The low half of a result is the `Uint32` result on the low halves.** -/
theorem low_eval {op : BinaryOp} {op32 : Uint32Op} (hop : toUint32 op = some op32)
    {b : BitVec 64} (h : Narrowable op a b) :
    ∃ w, op.eval a b = some w ∧ low w = op32.eval (low a) (low b) := by
  cases op with
  | add =>
    cases hop
    exact ⟨_, rfl, setWidth_add a b (by decide)⟩
  | sub =>
    cases hop
    exact ⟨_, rfl, low_sub a b⟩
  | mul =>
    cases hop
    exact ⟨_, rfl, setWidth_mul a b (by decide)⟩
  | bitAnd =>
    cases hop
    exact ⟨_, rfl, setWidth_and⟩
  | bitOr =>
    cases hop
    exact ⟨_, rfl, setWidth_or⟩
  | bitXor =>
    cases hop
    exact ⟨_, rfl, setWidth_xor⟩
  | shl =>
    cases hop
    have hb : Fits b := h.count rfl
    refine ⟨a <<< b.toNat, BinaryOp.eval_shl hb.not_toInt_neg, ?_⟩
    rw [low_shl, Uint32Op.eval, hb.low_toNat]
  | shr =>
    cases hop
    have hb : Fits b := h.count rfl
    have ha : Fits a := h.shifted (Or.inl rfl)
    refine ⟨a.sshiftRight b.toNat, if_neg hb.not_toInt_neg, ?_⟩
    rw [ha.sshiftRight, low_ushr ha, Uint32Op.eval, hb.low_toNat]
  | ushr =>
    cases hop
    have hb : Fits b := h.count rfl
    refine ⟨a >>> b.toNat, if_neg hb.not_toInt_neg, ?_⟩
    rw [low_ushr (h.shifted (Or.inr rfl)), Uint32Op.eval, hb.low_toNat]
  | truncDiv | mod => cases hop

/-- Comparing words that fit as `Uint32` values reads the same integers. -/
theorem Fits.read (h : Fits w) (rep : Representation) :
    rep.read w = Representation.read w .uint32 := by
  cases rep <;> simp only [Representation.read, h.low_toNat, h.toInt]

namespace Value

/-- Keeping the low half of an integer. -/
def narrow : Value → Value
  | int w => int (wide (low w))
  | object id => object id

/-- The value loses nothing when it is narrowed. -/
def Fits (v : Value) : Prop := Uint32.Fits v.toWord

instance (v : Value) : Decidable v.Fits := inferInstanceAs (Decidable (Uint32.Fits _))

@[simp] theorem low_toWord_narrow (v : Value) : low v.narrow.toWord = low v.toWord := by
  cases v <;> simp [narrow, toWord]

theorem narrow_eq_iff {v : Value} : v.narrow = v ↔ v.Fits := by
  cases v with
  | int w =>
    rw [narrow, int.injEq]
    exact wide_low_iff
  | object id => exact ⟨fun _ => fits_zero, fun _ => rfl⟩

end Value

end Uint32
