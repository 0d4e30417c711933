import DartSdk.Compiler.Ranges.Boundary
import Mathlib.Data.Nat.Size

/-!
# Compiler/Ranges/Words — operations on words as operations on integers

A word operation computes the integer operation as long as the integer result is an `int64_t`;
shifts to the right and bit operations never leave the range.  The operations then inherit the
bounds of the integer operations.
-/

namespace Ranges

open BitVec

variable {x : ℤ} {a b : BitVec 64} {n k : ℕ}

theorem isInt64_toInt (a : BitVec 64) : IsInt64 a.toInt := by
  have hlo := a.le_toInt
  have hhi := a.toInt_lt
  unfold IsInt64 minInt64 maxInt64
  omega

theorem bmod_eq (h : IsInt64 x) : x.bmod (2 ^ 64) = x := by
  unfold IsInt64 minInt64 maxInt64 at h
  refine Int.bmod_eq_of_le ?_ ?_ <;> norm_num <;> omega

theorem toInt_ofInt (h : IsInt64 x) : (BitVec.ofInt 64 x).toInt = x := by
  rw [BitVec.toInt_ofInt, bmod_eq h]

theorem isInt64_of_le {lo hi : ℤ} (hlo : IsInt64 lo) (hhi : IsInt64 hi) (h1 : lo ≤ x)
    (h2 : x ≤ hi) : IsInt64 x :=
  ⟨hlo.1.trans h1, h2.trans hhi.2⟩

theorem isInt64_zero : IsInt64 0 := by decide

theorem shiftLeft_eq_ofInt (a : BitVec 64) (n : ℕ) :
    a <<< n = BitVec.ofInt 64 (a.toInt * 2 ^ n) := by
  have hpow : BitVec.ofInt 64 (2 ^ n) = BitVec.twoPow 64 n := by
    refine eq_of_toNat_eq ?_
    rw [BitVec.toNat_ofInt, toNat_twoPow]
    norm_cast
  rw [shiftLeft_eq_mul_twoPow, ofInt_mul, ofInt_toInt, hpow]

theorem toInt_shiftLeft (h : IsInt64 (a.toInt * 2 ^ n)) : (a <<< n).toInt = a.toInt * 2 ^ n := by
  rw [shiftLeft_eq_ofInt, toInt_ofInt h]

theorem shiftRight_mono {y : ℤ} (h : x ≤ y) (n : ℕ) : x >>> n ≤ y >>> n := by
  rw [Int.shiftRight_eq_div_pow, Int.shiftRight_eq_div_pow]
  exact Int.ediv_le_ediv (by positivity) h

theorem shiftRight_neg (h : x < 0) (n : ℕ) : x >>> n < 0 := by
  rw [Int.shiftRight_eq_div_pow]
  exact Int.ediv_neg_of_neg_of_pos h (by positivity)

theorem shiftRight_le_of_le (h : 0 ≤ x) (hnk : n ≤ k) : x >>> k ≤ x >>> n := by
  obtain ⟨d, rfl⟩ := Nat.exists_eq_add_of_le hnk
  rw [Int.shiftRight_add]
  exact Int.shiftRight_le_of_nonneg (Int.le_shiftRight_of_nonneg h)

theorem le_shiftRight_of_le (h : x < 0) (hnk : n ≤ k) : x >>> n ≤ x >>> k := by
  obtain ⟨d, rfl⟩ := Nat.exists_eq_add_of_le hnk
  rw [Int.shiftRight_add]
  exact Int.le_shiftRight_of_nonpos (shiftRight_neg h n).le

/-- The value has `k` bits and a sign. -/
def InBits (k : ℕ) (x : ℤ) : Prop := -(2 ^ k) ≤ x ∧ x < 2 ^ k

theorem InBits.mono {j : ℕ} (h : InBits j x) (hjk : j ≤ k) : InBits k x := by
  have hpow : (2 : ℤ) ^ j ≤ 2 ^ k := pow_le_pow_right₀ (by decide) hjk
  unfold InBits at *
  omega

/-- Shifting the `k` bits out leaves the sign. -/
theorem inBits_iff : InBits k x ↔ x >>> k = 0 ∨ x >>> k = -1 := by
  have hpos : (0 : ℤ) < 2 ^ k := by positivity
  rw [Int.shiftRight_eq_div_pow]
  push_cast
  have hdiv := Int.mul_ediv_add_emod x (2 ^ k)
  constructor
  · rintro ⟨hlo, hhi⟩
    have h1 : x / 2 ^ k < 1 := by
      rw [Int.ediv_lt_iff_lt_mul hpos]
      omega
    have h2 : -1 ≤ x / 2 ^ k := by
      rw [Int.le_ediv_iff_mul_le hpos]
      omega
    omega
  · rintro (h | h) <;> rw [h] at hdiv <;> unfold InBits <;> omega

variable (ha : InBits k a.toInt) (hb : InBits k b.toInt)

include ha hb

/-- **Bit operations keep the number of bits.** -/
theorem inBits_bitwise {op : BitVec 64 → BitVec 64 → BitVec 64}
    (hshift : (op a b).sshiftRight k = op (a.sshiftRight k) (b.sshiftRight k))
    (hsigns : ∀ x ∈ [0, -1], ∀ y ∈ [0, -1], op x y ∈ [0, -1]) : InBits k (op a b).toInt := by
  have hsign : ∀ c : BitVec 64, c ∈ [0, -1] ↔ c.toInt = 0 ∨ c.toInt = -1 := by
    intro c
    rw [List.mem_cons, List.mem_singleton, ← toInt_inj, ← toInt_inj]
    rfl
  rw [inBits_iff, ← toInt_sshiftRight, ← hsign] at *
  rw [hshift]
  exact hsigns _ ha _ hb

theorem inBits_and : InBits k (a &&& b).toInt :=
  inBits_bitwise ha hb (sshiftRight_and_distrib a b k) (by simp)

theorem inBits_or : InBits k (a ||| b).toInt :=
  inBits_bitwise ha hb (sshiftRight_or_distrib a b k) (by simp)

theorem inBits_xor : InBits k (a ^^^ b).toInt :=
  inBits_bitwise ha hb (sshiftRight_xor_distrib a b k) (by simp)

omit ha hb

theorem inBits_bitLength (x : ℤ) : InBits (bitLength x) x := by
  unfold InBits bitLength
  split
  · have hlt := Nat.lt_size_self (-x - 1).toNat
    zify at hlt
    constructor <;> omega
  · have hlt := Nat.lt_size_self x.toNat
    zify at hlt
    constructor <;> omega

theorem bitLength_le (h : IsInt64 x) : bitLength x ≤ 63 := by
  unfold IsInt64 minInt64 maxInt64 at h
  unfold bitLength
  split <;> rw [Nat.size_le] <;> omega

/-- The bits of two bounds are enough for a value in between. -/
theorem inBits_of_between {lo hi : ℤ} (hlo : bitLength lo ≤ k) (hhi : bitLength hi ≤ k)
    (h1 : lo ≤ x) (h2 : x ≤ hi) : InBits k x :=
  ⟨((inBits_bitLength lo).mono hlo).1.trans h1, h2.trans_lt ((inBits_bitLength hi).mono hhi).2⟩

theorem toInt_nonneg_iff : 0 ≤ a.toInt ↔ a.msb = false := by
  rw [toInt_eq_msb_cond]
  cases a.msb <;> simp
  omega

theorem toInt_eq_toNat (h : 0 ≤ a.toInt) : a.toInt = a.toNat :=
  toInt_eq_toNat_of_msb (toInt_nonneg_iff.mp h)

/-- A mask that is not negative bounds the result. -/
theorem toInt_and_le (hb : 0 ≤ b.toInt) : 0 ≤ (a &&& b).toInt ∧ (a &&& b).toInt ≤ b.toInt := by
  have hmsb : (a &&& b).msb = false := by
    rw [msb_and, toInt_nonneg_iff.mp hb, Bool.and_false]
  have hnonneg := toInt_nonneg_iff.mpr hmsb
  refine ⟨hnonneg, ?_⟩
  rw [toInt_eq_toNat hnonneg, toInt_eq_toNat hb, toNat_and]
  exact_mod_cast Nat.and_le_right

end Ranges
