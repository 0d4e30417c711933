import Mathlib.Tactic
import Mathlib.Data.Int.Log

/-!
# Lib/Binary64 — IEEE double-precision numbers

`nearest q` rounds a rational `q ≥ 0` to a multiple of its last place `2 ^ lastPlace q`, ties to
even; `ofRat` makes a double of it, infinite from `2 ^ 1024` on.  The operations are the rounded
exact ones.

* `nearest_eq` — a representable number is its own rounding, so **an operation whose exact result is
  representable is exact**.
-/

namespace Binary64

variable {e : ℤ}

/-! ## Rounding

A rational is rounded to a multiple of its last place, ties to the even one. -/

/-- The nearest integer, and the even one of two that are as near. -/
def roundEven (q : ℚ) : ℤ :=
  if q - ⌊q⌋ < 1 / 2 then ⌊q⌋
  else if 1 / 2 < q - ⌊q⌋ then ⌊q⌋ + 1
  else if ⌊q⌋ % 2 = 0 then ⌊q⌋ else ⌊q⌋ + 1

/-- The exponent of the last place of the doubles around `q`. -/
def lastPlace (q : ℚ) : ℤ := max (Int.log 2 q - 52) (-1074)

/-- The nearest multiple of the last place. -/
def nearest (q : ℚ) : ℚ := roundEven (q / 2 ^ lastPlace q) * 2 ^ lastPlace q

/-- The magnitudes of finite doubles. -/
def Representable (q : ℚ) : Prop :=
  (∃ (m : ℕ) (e : ℤ), m ≤ 2 ^ 53 ∧ -1074 ≤ e ∧ q = m * 2 ^ e) ∧ q < 2 ^ 1024

variable {q : ℚ} {n k : ℤ}

theorem floor_le_roundEven (q : ℚ) : ⌊q⌋ ≤ roundEven q := by
  unfold roundEven
  split_ifs <;> omega

theorem roundEven_le_floor_add_one (q : ℚ) : roundEven q ≤ ⌊q⌋ + 1 := by
  unfold roundEven
  split_ifs <;> omega

theorem roundEven_intCast (n : ℤ) : roundEven n = n := by
  simp [roundEven]

/-- An integer at or below `q` is at or below its rounding. -/
theorem le_roundEven (h : (n : ℚ) ≤ q) : n ≤ roundEven q :=
  (Int.le_floor.mpr h).trans (floor_le_roundEven q)

theorem roundEven_le (h : q ≤ n) : roundEven q ≤ n := by
  rcases h.lt_or_eq with hlt | rfl
  · have := Int.floor_lt.mpr hlt
    exact (roundEven_le_floor_add_one q).trans (by omega)
  · rw [roundEven_intCast]

theorem two_zpow_pos (e : ℤ) : (0 : ℚ) < 2 ^ e := zpow_pos (by norm_num) e

/-- A multiple of the last place at or below `q` is at or below its rounding. -/
theorem le_nearest (h : n * 2 ^ lastPlace q ≤ q) : n * 2 ^ lastPlace q ≤ nearest q := by
  have hle : (n : ℚ) ≤ q / 2 ^ lastPlace q := (le_div_iff₀ (two_zpow_pos _)).mpr h
  refine mul_le_mul_of_nonneg_right ?_ (two_zpow_pos _).le
  exact_mod_cast le_roundEven hle

theorem nearest_le (h : q ≤ n * 2 ^ lastPlace q) : nearest q ≤ n * 2 ^ lastPlace q := by
  have hle : q / 2 ^ lastPlace q ≤ n := (div_le_iff₀ (two_zpow_pos _)).mpr h
  refine mul_le_mul_of_nonneg_right ?_ (two_zpow_pos _).le
  exact_mod_cast roundEven_le hle

/-- A number that is a multiple of its last place is its own rounding. -/
theorem nearest_of_multiple (h : q = n * 2 ^ lastPlace q) : nearest q = q :=
  le_antisymm ((nearest_le h.le).trans_eq h.symm) (h.trans_le (le_nearest h.ge))

theorem two_zpow_eq_mul {e' : ℤ} (h : e ≤ e') :
    (2 : ℚ) ^ e' = ((2 ^ (e' - e).toNat : ℕ) : ℤ) * 2 ^ e := by
  have hnat : (((2 ^ (e' - e).toNat : ℕ) : ℤ) : ℚ) = 2 ^ (e' - e) := by
    push_cast
    rw [← zpow_natCast, Int.toNat_of_nonneg (by omega)]
  rw [hnat, ← zpow_add₀ (by norm_num : (2 : ℚ) ≠ 0), sub_add_cancel]

/-- A mantissa times a power of two is a multiple of the last place if it has at most 53 bits. -/
theorem lastPlace_le {m : ℕ} (hm : m < 2 ^ 53) (hpos : 0 < m) (he : -1074 ≤ e) :
    lastPlace (m * 2 ^ e) ≤ e := by
  refine max_le ?_ he
  have hq : (0 : ℚ) < m * 2 ^ e := mul_pos (by exact_mod_cast hpos) (two_zpow_pos e)
  have hlt : (m : ℚ) * 2 ^ e < 2 ^ (53 + e) := by
    rw [zpow_add₀ (by norm_num : (2 : ℚ) ≠ 0)]
    refine mul_lt_mul_of_pos_right ?_ (two_zpow_pos e)
    exact_mod_cast hm
  have hlog : Int.log 2 ((m : ℚ) * 2 ^ e) < 53 + e := by
    refine (Int.lt_zpow_iff_log_lt (by norm_num) hq).mp ?_
    exact_mod_cast hlt
  omega

theorem nearest_mul_two_zpow {m : ℕ} (hm : m < 2 ^ 53) (he : -1074 ≤ e) :
    nearest (m * 2 ^ e) = m * 2 ^ e := by
  rcases Nat.eq_zero_or_pos m with rfl | hpos
  · exact nearest_of_multiple (n := 0) (by simp)
  refine nearest_of_multiple
    (n := m * (2 ^ (e - lastPlace (m * 2 ^ e)).toNat : ℕ)) ?_
  conv_lhs => rw [two_zpow_eq_mul (lastPlace_le hm hpos he)]
  push_cast
  ring

/-- **A representable number is its own rounding.** -/
theorem nearest_eq (h : Representable q) : nearest q = q := by
  obtain ⟨⟨m, e, hm, he, rfl⟩, -⟩ := h
  rcases hm.lt_or_eq with hlt | rfl
  · exact nearest_mul_two_zpow hlt he
  have hcarry : (((2 ^ 53 : ℕ) : ℚ)) * 2 ^ e = ((2 ^ 52 : ℕ) : ℚ) * 2 ^ (e + 1) := by
    rw [zpow_add₀ (by norm_num : (2 : ℚ) ≠ 0)]
    ring
  rw [hcarry]
  exact nearest_mul_two_zpow (by norm_num) (by omega)

theorem nearest_zero : nearest 0 = 0 := nearest_of_multiple (n := 0) (by simp)

/-- **Rounding does not go below a power of two.** -/
theorem two_zpow_le_nearest (hk : -1074 ≤ k) (h : 2 ^ k ≤ q) : 2 ^ k ≤ nearest q := by
  have hq : 0 < q := (two_zpow_pos k).trans_le h
  rcases le_or_gt (lastPlace q) k with hle | hlt
  · rw [two_zpow_eq_mul hle] at h ⊢
    exact le_nearest h
  have hlog : lastPlace q ≤ Int.log 2 q := by
    unfold lastPlace at hlt ⊢
    omega
  have hself : (2 : ℚ) ^ Int.log 2 q ≤ q := by
    exact_mod_cast Int.zpow_log_le_self (b := 2) (by norm_num) hq
  have hone : ((1 : ℤ) : ℚ) * 2 ^ lastPlace q ≤ q := by
    rw [Int.cast_one, one_mul]
    exact (zpow_le_zpow_right₀ (by norm_num) hlog).trans hself
  calc (2 : ℚ) ^ k ≤ 2 ^ lastPlace q := zpow_le_zpow_right₀ (by norm_num) hlt.le
    _ = ((1 : ℤ) : ℚ) * 2 ^ lastPlace q := by rw [Int.cast_one, one_mul]
    _ ≤ nearest q := le_nearest hone

theorem lastPlace_le_of_le (hq : 0 < q) (hk : -1074 ≤ k) (h : q ≤ 2 ^ k) : lastPlace q ≤ k := by
  refine max_le ?_ hk
  have hlog : Int.log 2 q ≤ k := by
    have hmono := Int.log_mono_right (b := 2) hq h
    have hpow : Int.log 2 ((2 : ℚ) ^ k) = k := by
      exact_mod_cast Int.log_zpow (R := ℚ) (b := 2) (by norm_num) k
    rwa [hpow] at hmono
  omega

/-- …nor above one. -/
theorem nearest_le_two_zpow (hq : 0 ≤ q) (hk : -1074 ≤ k) (h : q ≤ 2 ^ k) : nearest q ≤ 2 ^ k := by
  rcases hq.lt_or_eq with hpos | rfl
  · have hle := lastPlace_le_of_le hpos hk h
    rw [two_zpow_eq_mul hle] at h ⊢
    exact nearest_le h
  · rw [nearest_zero]
    exact (two_zpow_pos k).le

theorem roundEven_nonneg (h : 0 ≤ q) : 0 ≤ roundEven q :=
  le_roundEven (by exact_mod_cast h)

/-- **Roundings are representable**, unless they are too large. -/
theorem representable_nearest (hq : 0 ≤ q) (h : nearest q < 2 ^ 1024) :
    Representable (nearest q) := by
  have hscaled : q / 2 ^ lastPlace q ≤ ((2 ^ 53 : ℕ) : ℤ) := by
    rw [div_le_iff₀ (two_zpow_pos _)]
    have hlt : q < 2 ^ (Int.log 2 q + 1) := by
      exact_mod_cast Int.lt_zpow_succ_log_self (b := 2) (by norm_num) q
    have hexp : Int.log 2 q + 1 ≤ 53 + lastPlace q := by
      unfold lastPlace
      omega
    calc q ≤ 2 ^ (Int.log 2 q + 1) := hlt.le
      _ ≤ 2 ^ (53 + lastPlace q) := zpow_le_zpow_right₀ (by norm_num) hexp
      _ = ((2 ^ 53 : ℕ) : ℤ) * 2 ^ lastPlace q := by
        rw [zpow_add₀ (by norm_num : (2 : ℚ) ≠ 0)]
        norm_num
  have hnonneg : 0 ≤ roundEven (q / 2 ^ lastPlace q) :=
    roundEven_nonneg (div_nonneg hq (two_zpow_pos _).le)
  refine ⟨⟨(roundEven (q / 2 ^ lastPlace q)).toNat, lastPlace q, ?_, le_max_right _ _, ?_⟩, h⟩
  · have hle := roundEven_le hscaled
    omega
  · rw [nearest]
    congr 1
    exact_mod_cast (Int.toNat_of_nonneg hnonneg).symm

/-! ## Overflow and underflow

What rounds to infinity or to zero. -/

theorem lastPlace_eq (h : 2 ^ k ≤ q) (hlt : q < 2 ^ (k + 1)) :
    lastPlace q = max (k - 52) (-1074) := by
  have hq : 0 < q := (two_zpow_pos k).trans_le h
  have hle : k ≤ Int.log 2 q := (Int.zpow_le_iff_le_log (b := 2) (by norm_num) hq).mp
    (by exact_mod_cast h)
  have hlog : Int.log 2 q < k + 1 := (Int.lt_zpow_iff_log_lt (b := 2) (by norm_num) hq).mp
    (by exact_mod_cast hlt)
  rw [lastPlace, show Int.log 2 q = k by omega]

theorem roundEven_le_of_lt_half (h : q < n + 1 / 2) : roundEven q ≤ n := by
  have hfloor : ⌊q⌋ ≤ n := by
    have : ⌊q⌋ < n + 1 := Int.floor_lt.mpr (by push_cast; linarith)
    omega
  rcases hfloor.lt_or_eq with hlt | heq
  · exact (roundEven_le_floor_add_one q).trans (by omega)
  have hsmall : q - ⌊q⌋ < 1 / 2 := by
    rw [heq]
    linarith
  rw [roundEven, if_pos hsmall, heq]

theorem lt_roundEven_of_half_le (hodd : n % 2 = 1) (h : n + 1 / 2 ≤ q) : n < roundEven q := by
  rcases lt_or_ge q (n + 1) with hlt | hge
  · have hfloor : ⌊q⌋ = n := Int.floor_eq_iff.mpr ⟨by linarith, hlt⟩
    have hhalf : ¬ q - ⌊q⌋ < 1 / 2 := by
      rw [hfloor]
      linarith
    rw [roundEven, if_neg hhalf, hfloor, if_neg (by omega : ¬ n % 2 = 0)]
    split_ifs <;> omega
  · have hle : n + 1 ≤ roundEven q := le_roundEven (by push_cast; exact hge)
    omega

theorem lastPlace_top (h : 2 ^ (1023 : ℤ) ≤ q) (hlt : q < 2 ^ (1024 : ℤ)) : lastPlace q = 971 := by
  rw [lastPlace_eq h hlt]
  rfl

theorem two_zpow_succ (e : ℤ) : (2 : ℚ) ^ (e + 1) = 2 * 2 ^ e := by
  rw [zpow_add₀ (by norm_num : (2 : ℚ) ≠ 0), zpow_one, mul_comm]

/-- **Where rounding overflows**: half a last place below `2 ^ 1024`. -/
theorem overflows_iff (hq : 0 ≤ q) :
    2 ^ (1024 : ℤ) ≤ nearest q ↔ 2 ^ (1024 : ℤ) - 2 ^ (970 : ℤ) ≤ q := by
  have htop : (2 : ℚ) ^ (1024 : ℤ) = 2 ^ 53 * 2 ^ (971 : ℤ) := by
    rw [show (1024 : ℤ) = (53 : ℕ) + 971 from rfl, zpow_add₀ (by norm_num : (2 : ℚ) ≠ 0),
      zpow_natCast]
  have hbelow : (2 : ℚ) ^ (1024 : ℤ) = 2 * 2 ^ (1023 : ℤ) := two_zpow_succ 1023
  have hhalf : (2 : ℚ) ^ (971 : ℤ) = 2 * 2 ^ (970 : ℤ) := two_zpow_succ 970
  have hpos := two_zpow_pos 971
  have hplace : 2 ^ (1023 : ℤ) ≤ q → q < 2 ^ (1024 : ℤ) → lastPlace q = 971 := lastPlace_top
  have hlarge : 2 ^ (1024 : ℤ) ≤ q → 2 ^ (1024 : ℤ) ≤ nearest q :=
    two_zpow_le_nearest (by norm_num)
  have hsmall : q ≤ 2 ^ (1023 : ℤ) → nearest q ≤ 2 ^ (1023 : ℤ) :=
    nearest_le_two_zpow hq (by norm_num)
  have hscaled : lastPlace q = 971 →
      (2 ^ (1024 : ℤ) ≤ nearest q ↔ (2 ^ 53 : ℤ) ≤ roundEven (q / 2 ^ (971 : ℤ))) := by
    intro h
    rw [nearest, h, htop, mul_le_mul_iff_of_pos_right hpos]
    exact_mod_cast Iff.rfl
  -- What follows is about the three powers only.
  generalize (2 : ℚ) ^ (1024 : ℤ) = top at *
  generalize (2 : ℚ) ^ (1023 : ℤ) = below at *
  generalize (2 : ℚ) ^ (970 : ℤ) = half at *
  generalize (2 : ℚ) ^ (971 : ℤ) = place at *
  subst hhalf
  rcases le_or_gt q below with hle | hgt
  · have hnear := hsmall hle
    exact iff_of_false (by linarith) (by linarith)
  rcases le_or_gt top q with hge | hlt
  · exact iff_of_true (hlarge hge) (by linarith)
  rw [hscaled (hplace hgt.le hlt)]
  constructor
  · intro h
    by_contra hq'
    push Not at hq'
    have hround : roundEven (q / (2 * half)) ≤ 2 ^ 53 - 1 := by
      refine roundEven_le_of_lt_half ?_
      rw [div_lt_iff₀ hpos]
      linarith
    omega
  · intro h
    have hround : 2 ^ 53 - 1 < roundEven (q / (2 * half)) := by
      refine lt_roundEven_of_half_le (by norm_num) ?_
      rw [le_div_iff₀ hpos]
      linarith
    omega

/-- **Where rounding gives zero**: up to half of the smallest double. -/
theorem nearest_eq_zero_iff (hq : 0 ≤ q) : nearest q = 0 ↔ q ≤ 2 ^ (-1075 : ℤ) := by
  rcases hq.lt_or_eq with hqpos | rfl
  swap
  · exact iff_of_true nearest_zero (two_zpow_pos _).le
  have hhalf : (2 : ℚ) ^ (-1074 : ℤ) = 2 * 2 ^ (-1075 : ℤ) := by
    rw [show (-1074 : ℤ) = -1075 + 1 from rfl, two_zpow_succ]
  have hpos := two_zpow_pos (-1074)
  have hlarge : 2 ^ (-1074 : ℤ) ≤ q → 2 ^ (-1074 : ℤ) ≤ nearest q := two_zpow_le_nearest le_rfl
  have hscaled : q < 2 ^ (-1074 : ℤ) → (nearest q = 0 ↔ roundEven (q / 2 ^ (-1074 : ℤ)) = 0) := by
    intro h
    have hplace : lastPlace q = -1074 :=
      le_antisymm (lastPlace_le_of_le hqpos le_rfl h.le) (le_max_right _ _)
    rw [nearest, hplace, mul_eq_zero, or_iff_left hpos.ne']
    exact_mod_cast Iff.rfl
  generalize (2 : ℚ) ^ (-1074 : ℤ) = place at *
  generalize (2 : ℚ) ^ (-1075 : ℤ) = half at *
  subst hhalf
  rcases le_or_gt (2 * half) q with hge | hlt
  · have hnear := hlarge hge
    exact iff_of_false (by linarith) (by linarith)
  have hfloor : ⌊q / (2 * half)⌋ = 0 := by
    refine Int.floor_eq_iff.mpr ⟨by simpa using (div_pos hqpos hpos).le, ?_⟩
    rw [div_lt_iff₀ hpos]
    simpa using hlt
  have hiff : q ≤ half ↔ q / (2 * half) ≤ 1 / 2 := by
    rw [div_le_iff₀ hpos]
    constructor <;> intro h <;> linarith
  rw [hscaled hlt, roundEven, hfloor, hiff, Int.cast_zero, sub_zero]
  generalize q / (2 * half) = x
  rcases lt_trichotomy x (1 / 2) with hx | rfl | hx
  · simp only [if_pos hx, hx.le]
  · norm_num
  · simp only [if_neg hx.not_gt, if_pos hx, hx.not_ge]
    norm_num

end Binary64

open Binary64 in
/-- Double-precision numbers; zeros and infinities have a sign. -/
inductive Double where
  | finite (negative : Bool) (magnitude : {q : ℚ // Representable q})
  | infinity (negative : Bool)
  | nan

namespace Double

open Binary64

variable {q : ℚ} {n m k : ℕ}

/-- The double nearest to `±|q|`. -/
def ofRat (negative : Bool) (q : ℚ) : Double :=
  if h : nearest |q| < 2 ^ 1024 then
    .finite negative ⟨nearest |q|, representable_nearest (abs_nonneg q) h⟩
  else .infinity negative

/-- The nearest double of an integer. -/
def ofInt (n : ℤ) : Double := ofRat (n < 0) n

/-- The number that a finite double denotes. -/
def signed (negative : Bool) (q : ℚ) : ℚ := if negative then -q else q

/-- Negation changes the sign, also of a zero. -/
def neg : Double → Double
  | finite s a => finite (!s) a
  | infinity s => infinity (!s)
  | nan => nan

/-- Addition. -/
def add : Double → Double → Double
  | finite s a, finite t b =>
    let sum := signed s a + signed t b
    -- A sum that is zero is negative only if both numbers are.
    if sum = 0 then ofRat (s && t) 0 else ofRat (sum < 0) sum
  | finite _ _, infinity t => infinity t
  | infinity s, finite _ _ => infinity s
  | infinity s, infinity t => if s = t then infinity s else nan
  | _, _ => nan

/-- Multiplication. -/
def mul : Double → Double → Double
  | finite s a, finite t b => ofRat (s ^^ t) (a * b)
  | finite s a, infinity t => if a.1 = 0 then nan else infinity (s ^^ t)
  | infinity s, finite t b => if b.1 = 0 then nan else infinity (s ^^ t)
  | infinity s, infinity t => infinity (s ^^ t)
  | _, _ => nan

/-- Division. -/
def div : Double → Double → Double
  | finite s a, finite t b =>
    if b.1 = 0 then if a.1 = 0 then nan else infinity (s ^^ t) else ofRat (s ^^ t) (a / b)
  | finite s _, infinity t => ofRat (s ^^ t) 0
  | infinity s, finite t _ => infinity (s ^^ t)
  | _, _ => nan

/-- `<`. -/
def lt : Double → Double → Bool
  | finite s a, finite t b => signed s a < signed t b
  | finite _ _, infinity t => !t
  | infinity s, finite _ _ => s
  | infinity s, infinity t => s && !t
  | _, _ => false

/-- `==`: zeros are equal. -/
def beq : Double → Double → Bool
  | finite s a, finite t b => signed s a = signed t b
  | infinity s, infinity t => s = t
  | _, _ => false

/-! ## Exact operations

The result of an operation is exact where it is representable. -/

theorem ofRat_of_representable (negative : Bool) (hq : 0 ≤ q) (h : Representable q) :
    ofRat negative q = finite negative ⟨q, h⟩ := by
  have hnear : nearest |q| = q := by rw [abs_of_nonneg hq, nearest_eq h]
  rw [ofRat, dif_pos (hnear.trans_lt h.2)]
  congr 1
  exact Subtype.ext hnear

theorem ofRat_eq_infinity_iff (negative : Bool) (hq : 0 ≤ q) :
    ofRat negative q = infinity negative ↔ 2 ^ (1024 : ℤ) - 2 ^ (970 : ℤ) ≤ q := by
  rw [← overflows_iff hq, zpow_ofNat, ← not_lt]
  by_cases h : nearest |q| < 2 ^ 1024
  · rw [ofRat, dif_pos h]
    rw [abs_of_nonneg hq] at h
    simp [h, reduceCtorEq, not_true_eq_false]
  · rw [ofRat, dif_neg h]
    rw [abs_of_nonneg hq] at h
    simp [h, not_false_eq_true]

theorem ofRat_eq_zero_iff (negative : Bool) (hq : 0 ≤ q) :
    ofRat negative q = ofRat negative 0 ↔ q ≤ 2 ^ (-1075 : ℤ) := by
  have htop : (0 : ℚ) < 2 ^ 1024 := pow_pos (by norm_num) 1024
  have hzero : nearest |(0 : ℚ)| < 2 ^ 1024 := by rwa [abs_zero, nearest_zero]
  rw [← nearest_eq_zero_iff hq]
  by_cases h : nearest |q| < 2 ^ 1024
  · rw [ofRat, ofRat, dif_pos h, dif_pos hzero, finite.injEq, Subtype.mk.injEq, abs_of_nonneg hq,
      abs_zero, nearest_zero]
    simp [true_and]
  · rw [ofRat, ofRat, dif_neg h, dif_pos hzero]
    rw [abs_of_nonneg hq] at h
    simp only [reduceCtorEq, false_iff]
    exact fun heq => h (heq.trans_lt htop)

theorem ofRat_neg (negative : Bool) (q : ℚ) : ofRat negative (-q) = ofRat negative q := by
  simp [ofRat, abs_neg]

theorem neg_ofRat (negative : Bool) (q : ℚ) : (ofRat negative q).neg = ofRat (!negative) q := by
  simp only [ofRat]
  split_ifs <;> rfl

theorem ofInt_natCast (n : ℕ) : ofInt n = ofRat false n := by
  have hsign : ¬ (n : ℤ) < 0 := by omega
  rw [ofInt, decide_eq_false hsign, Int.cast_natCast]

theorem ofInt_neg_natCast (h : n ≠ 0) : ofInt (-n) = ofRat true n := by
  have hsign : -(n : ℤ) < 0 := by omega
  rw [ofInt, decide_eq_true hsign, Int.cast_neg, Int.cast_natCast, ofRat_neg]

theorem representable_natCast (h : n ≤ 2 ^ 53) : Representable n := by
  refine ⟨⟨n, 0, h, by norm_num, by simp⟩, ?_⟩
  calc (n : ℚ) ≤ 2 ^ 53 := by exact_mod_cast h
    _ < 2 ^ 1024 := pow_lt_pow_right₀ (by norm_num) (by norm_num)

/-- A number and its double. -/
theorem ofRat_natCast (negative : Bool) (h : n ≤ 2 ^ 53) :
    ofRat negative n = finite negative ⟨n, representable_natCast h⟩ :=
  ofRat_of_representable negative (Nat.cast_nonneg n) (representable_natCast h)

theorem mul_natCast (s t : Bool) (hm : m ≤ 2 ^ 53) (hn : Representable (n : ℚ)) :
    mul (ofRat s m) (ofRat t n) = ofRat (s ^^ t) (m * n) := by
  rw [ofRat_natCast s hm, ofRat_of_representable t (Nat.cast_nonneg n) hn]
  rfl

theorem div_natCast (s t : Bool) (hm : m ≤ 2 ^ 53) (hn : Representable (n : ℚ))
    (hpos : n ≠ 0) : div (ofRat s m) (ofRat t n) = ofRat (s ^^ t) (m / n) := by
  rw [ofRat_natCast s hm, ofRat_of_representable t (Nat.cast_nonneg n) hn, div]
  exact if_neg fun h : (n : ℚ) = 0 => hpos (by exact_mod_cast h)

theorem add_natCast (hm : m ≤ 2 ^ 53) (hn : n ≤ 2 ^ 53) :
    add (ofRat false m) (ofRat false n) = ofRat false (m + n) := by
  rw [ofRat_natCast false hm, ofRat_natCast false hn, add]
  simp only [signed, Bool.false_eq_true, if_false, Bool.and_self]
  split_ifs with hzero
  · rw [hzero]
  · have hnonneg : ¬ (m : ℚ) + n < 0 := not_lt.mpr (by positivity)
    simp [hnonneg, decide_false]

/-- A positive double of at least `2 ^ k`. -/
def AtLeast (k : ℕ) : Double → Prop
  | finite s a => s = false ∧ 2 ^ k ≤ a.1
  | infinity s => s = false
  | nan => False

theorem atLeast_ofRat (h : 2 ^ k ≤ q) : AtLeast k (ofRat false q) := by
  have hq : |q| = q := abs_of_nonneg ((pow_pos (by norm_num) k).le.trans h)
  have hnear : (2 : ℚ) ^ k ≤ nearest q := by
    have hle : (2 : ℚ) ^ (k : ℤ) ≤ nearest q :=
      two_zpow_le_nearest (by omega) (by rwa [zpow_natCast])
    rwa [zpow_natCast] at hle
  unfold ofRat
  split_ifs
  · refine ⟨rfl, ?_⟩
    change (2 : ℚ) ^ k ≤ nearest |q|
    rwa [hq]
  · rfl

variable {d : Double} (h : AtLeast k d) (hle : n ≤ 2 ^ 53)

include h hle

/-- Multiplying by a number from 1 on keeps a double large. -/
theorem AtLeast.mul (hn : 1 ≤ n) : AtLeast k (Double.mul (ofRat false n) d) := by
  have hone : (1 : ℚ) ≤ n := by exact_mod_cast hn
  rw [ofRat_natCast false hle]
  match d, h with
  | finite _ a, ⟨rfl, ha⟩ =>
    refine atLeast_ofRat ?_
    have hpos : (0 : ℚ) ≤ a.1 := (pow_pos (by norm_num) k).le.trans ha
    calc (2 : ℚ) ^ k ≤ a.1 := ha
      _ ≤ n * a.1 := le_mul_of_one_le_left hpos hone
  | infinity _, rfl =>
    rw [Double.mul, if_neg (by linarith : ¬ (n : ℚ) = 0)]
    rfl

/-- So does adding a number. -/
theorem AtLeast.add : AtLeast k (Double.add d (ofRat false n)) := by
  rw [ofRat_natCast false hle]
  match d, h with
  | finite _ a, ⟨rfl, ha⟩ =>
    have hpos : (0 : ℚ) < a.1 := (pow_pos (by norm_num) k).trans_le ha
    have hsum : 0 < a.1 + (n : ℚ) := by positivity
    simp only [Double.add, signed, Bool.false_eq_true, if_false, if_neg hsum.ne',
      not_lt.mpr hsum.le, decide_false]
    exact atLeast_ofRat (ha.trans (by simp))
  | infinity _, rfl => rfl

theorem AtLeast.not_lt (hn : n ≤ 2 ^ k) : lt d (ofRat false n) = false := by
  rw [ofRat_natCast false hle]
  match d, h with
  | finite _ a, ⟨rfl, ha⟩ =>
    have hcast : (n : ℚ) ≤ 2 ^ k := by exact_mod_cast hn
    simpa [lt, signed] using hcast.trans ha
  | infinity _, rfl => rfl

omit h hle

theorem AtLeast.beq_zero (h : AtLeast k d) : beq d (ofRat false ((0 : ℕ) : ℚ)) = false := by
  rw [ofRat_natCast false (Nat.zero_le _)]
  match d, h with
  | finite _ a, ⟨rfl, ha⟩ =>
    have hpos : (0 : ℚ) < a.1 := (pow_pos (by norm_num) k).trans_le ha
    simp [beq, signed, hpos.ne']
  | infinity _, rfl => rfl

theorem beq_natCast (hm : m ≤ 2 ^ 53) (hn : n ≤ 2 ^ 53) :
    beq (ofRat false m) (ofRat false n) = decide (m = n) := by
  rw [ofRat_natCast false hm, ofRat_natCast false hn]
  simp [beq, signed]

theorem lt_natCast (hm : m ≤ 2 ^ 53) (hn : n ≤ 2 ^ 53) :
    lt (ofRat false m) (ofRat false n) = decide (m < n) := by
  rw [ofRat_natCast false hm, ofRat_natCast false hn]
  simp [lt, signed]

end Double
