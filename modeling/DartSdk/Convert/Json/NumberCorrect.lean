import DartSdk.Convert.Json.NumberCut

/-!
# Convert/Json/NumberCorrect — which numbers are read exactly

`parseNumber` computes the value of a numeral inside a chunk itself.  The integer part is collected
in 64 bits with an exact overflow test (`IntScan.addDigit`).  `Tracks` — the double is the mantissa
as long as that is below `2 ^ 53`, and at least `2 ^ 53` from then on: below, one rounded operation
with an exact power of ten gives the nearest double; from there on, and for large powers,
`double.parse` is called.

The one exception is an exponent above 400, for which zero or infinity is delivered without a look
at the number of digits of the mantissa.  `readNumeral_iff` — that is the only way to read a wrong
number.
-/

namespace Json

open List Double Scan Option Nat Except

variable {negative : Bool} {m : ℕ}

/-- The largest magnitude of a 64-bit integer with a sign. -/
def limit (negative : Bool) : ℕ := if negative then 2 ^ 63 else 2 ^ 63 - 1

/-- The sign as a factor. -/
def signOf (negative : Bool) : ℤ := if negative then -1 else 1

/-- What the variables hold after the digits of `m`. -/
structure IntScan (negative : Bool) (s : Scan) (m : ℕ) : Prop where
  sign : s.sign = signOf negative
  intValue : s.intValue = BitVec.ofInt 64 (-m)
  isDouble : s.isDouble = decide (limit negative < m)
  doubleValue : limit negative < m → s.doubleValue = ofRat false 9223372036854775808

theorem toInt_ofInt {x : ℤ} (h : -2 ^ 63 ≤ x) (h' : x < 2 ^ 63) :
    (BitVec.ofInt 64 x).toInt = x := by
  rw [BitVec.toInt_ofInt]
  exact Int.bmod_eq_of_le (by omega) (by omega)

theorem ofInt_sub_ofNat (x : ℤ) (n : ℕ) :
    BitVec.ofInt 64 x - BitVec.ofNat 64 n = BitVec.ofInt 64 (x - n) := by
  rw [← BitVec.ofInt_natCast, BitVec.sub_eq_add_neg, ← BitVec.ofInt_neg, ← BitVec.ofInt_add,
    ← sub_eq_add_neg]

theorem signOf_neg_iff (negative : Bool) : signOf negative < 0 ↔ negative = true := by
  cases negative <;> simp [signOf]

/-- The digit that overflows after `922337203685477580`. -/
theorem highDigit_eq (negative : Bool) (d : Fin 10) :
    (if signOf negative < 0 then ((d : ℕ) >>> 3) &&& d else (d : ℕ) >>> 3) =
      if limit negative < 9223372036854775800 + d then 1 else 0 := by
  revert negative d
  decide

variable {s : Scan}

/-- **One digit**: the overflow test is exact. -/
theorem IntScan.addDigit {n : ℕ} (h : IntScan negative s m)
    (d : Fin 10) (hlt : m < 10 ^ n) (hge : n = 0 ∨ 10 ^ (n - 1) ≤ m) :
    IntScan negative (s.addDigit n d) (10 * m + d) := by
  have hlimit : 9223372036854775807 ≤ limit negative ∧ limit negative ≤ 9223372036854775808 := by
    cases negative <;> decide
  have hhigh := highDigit_eq negative d
  rw [← h.sign] at hhigh
  -- The test, from the value so far.
  have htest : m ≤ limit negative → ((18 ≤ n && (n = 19 || (s.intValue - BitVec.ofNat 64
      (if s.sign < 0 then ((d : ℕ) >>> 3) &&& d else (d : ℕ) >>> 3)).toInt <
        -922337203685477580)) = decide (limit negative < 10 * m + d)) := by
    intro hm
    rcases lt_trichotomy n 18 with hn | rfl | hn
    · have hpow : (10 : ℕ) ^ n ≤ 10 ^ 17 := Nat.pow_le_pow_right (by decide) (by omega)
      simp only [show ¬ 18 ≤ n by omega, decide_false, Bool.false_and]
      exact (decide_eq_false (by omega)).symm
    · have hvalue : (s.intValue - BitVec.ofNat 64
          (if s.sign < 0 then ((d : ℕ) >>> 3) &&& d else (d : ℕ) >>> 3)).toInt =
          -m - (if limit negative < 9223372036854775800 + d then 1 else 0 : ℕ) := by
        rw [hhigh, h.intValue, ofInt_sub_ofNat, toInt_ofInt]
        all_goals split_ifs <;> push_cast <;> omega
      rw [hvalue]
      simp only [le_refl, decide_true, Bool.true_and, reduceEqDiff, decide_false,
        Bool.false_or, decide_eq_decide]
      split_ifs <;> push_cast <;> omega
    · have hpow : (10 : ℕ) ^ 18 ≤ 10 ^ (n - 1) := Nat.pow_le_pow_right (by decide) (by omega)
      have hn' : n = 19 := by
        by_contra hne
        have hpow : (10 : ℕ) ^ 19 ≤ 10 ^ (n - 1) := Nat.pow_le_pow_right (by decide) (by omega)
        omega
      have hbig : limit negative < 10 * m + d := by omega
      simp [hn', hbig]
  have hint : 10#64 * s.intValue - BitVec.ofNat 64 d =
      BitVec.ofInt 64 (-((10 * m + d : ℕ) : ℤ)) := by
    rw [h.intValue, show (10#64 : BitVec 64) = BitVec.ofInt 64 10 from rfl, ← BitVec.ofInt_mul,
      ofInt_sub_ofNat]
    congr 1
    push_cast
    ring
  rcases lt_or_ge (limit negative) m with hover | hm
  · have hdouble : s.isDouble = true := by rw [h.isDouble]; exact decide_eq_true hover
    have hnext : limit negative < 10 * m + d := by omega
    refine ⟨h.sign, hint, by simp [Scan.addDigit, hdouble, hnext], fun _ => ?_⟩
    simp only [Scan.addDigit, h.doubleValue hover, ite_self]
  have hdouble : s.isDouble = false := by rw [h.isDouble]; exact decide_eq_false (by omega)
  refine ⟨h.sign, hint, ?_, fun hnext => ?_⟩
  · simp only [Scan.addDigit, hdouble, Bool.false_or]
    exact htest hm
  · have htrue := (htest hm).trans (decide_eq_true hnext)
    simp only [Scan.addDigit, htrue, if_true]

/-- The digits of the integer part, the first `n` of them read. -/
def Scan.addDigits (s : Scan) : ℕ → List (Fin 10) → Scan
  | _, [] => s
  | n, d :: ds => (s.addDigit n d).addDigits (n + 1) ds

/-- The digits of a fraction in turn. -/
def Scan.addFractions (s : Scan) : List (Fin 10) → Scan
  | [] => s
  | d :: ds => (s.addFraction d).addFractions ds

theorem IntScan.addDigits {n : ℕ} (h : IntScan negative s m)
    (hlt : m < 10 ^ n) (hge : n = 0 ∨ 10 ^ (n - 1) ≤ m) (ds : List (Fin 10))
    (hds : n = 0 → ds.head? ≠ some 0) : IntScan negative (s.addDigits n ds) (valueFrom m ds) := by
  induction ds generalizing s m n with
  | nil => exact h
  | cons d ds ih =>
    refine ih (h.addDigit d hlt hge) ?_ (Or.inr ?_) (fun h => absurd h (Nat.succ_ne_zero n))
    · omega
    rw [Nat.add_sub_cancel]
    rcases hge with rfl | hge
    · have hne : d ≠ 0 := fun h => hds rfl (by rw [h]; rfl)
      omega
    rcases Nat.eq_zero_or_pos n with rfl | hn
    · omega
    · obtain ⟨k, rfl⟩ : ∃ k, n = k + 1 := ⟨n - 1, by omega⟩
      rw [Nat.add_sub_cancel] at hge
      omega

/-- One digit of the exponent: its value as long as that is at most 400, and whether it is. -/
theorem exponent_addDigit {exponent : BitVec 64}
    (hexp : m ≤ 400 → exponent = BitVec.ofNat 64 m) (d : Fin 10) :
    (10 * m + d ≤ 400 → 10#64 * exponent + BitVec.ofNat 64 d = BitVec.ofNat 64 (10 * m + d)) ∧
    (decide (400 < m) || decide (400 < (10#64 * exponent + BitVec.ofNat 64 d).toInt)) =
      decide (400 < 10 * m + d) := by
  have hnext : m ≤ 400 →
      10#64 * exponent + BitVec.ofNat 64 d = BitVec.ofNat 64 (10 * m + d) := by
    intro hle
    rw [hexp hle, BitVec.ofNat_add, BitVec.ofNat_mul]
  refine ⟨fun hle => hnext (by omega), ?_⟩
  rcases lt_or_ge 400 m with hlt | hge
  · simp [hlt, show 400 < 10 * m + d by omega]
  · rw [hnext hge, ← BitVec.ofInt_natCast, toInt_ofInt (by omega) (by omega),
      decide_eq_false (by omega : ¬ 400 < m), Bool.false_or, decide_eq_decide]
    omega

section

variable (chunkEnd : ℕ) (start : List ℕ) {c : ℕ} (hc : ¬ c ^^^ 0x30 ≤ 9) (rest : List ℕ)
include hc

theorem integerDigits_append (s : Scan) (n : ℕ) (d : Fin 10) (ds : List (Fin 10)) :
    integerDigits chunkEnd start s n d (ds.map digitChar ++ c :: rest) =
      afterInteger chunkEnd start (s.addDigits n (d :: ds)) c rest := by
  induction ds generalizing s n d with
  | nil => simp [integerDigits, hc, addDigits]
  | cons e ds ih =>
    have hdigit : digitChar e ^^^ 0x30 ≤ 9 := digit_iff.mpr ⟨e, rfl⟩
    rw [map_cons, cons_append, integerDigits, if_pos hdigit, digitChar_xor, ih]
    rfl

theorem fractionDigits_append (s : Scan) (d : Fin 10) (ds : List (Fin 10)) :
    fractionDigits chunkEnd start s d (ds.map digitChar ++ c :: rest) =
      afterFraction chunkEnd start (s.addFractions (d :: ds)) c rest := by
  induction ds generalizing s d with
  | nil => simp [fractionDigits, hc, addFractions]
  | cons e ds ih =>
    have hdigit : digitChar e ^^^ 0x30 ≤ 9 := digit_iff.mpr ⟨e, rfl⟩
    rw [map_cons, cons_append, fractionDigits, if_pos hdigit, digitChar_xor, ih]
    rfl

theorem exponentDigits_append (s : Scan) (expSign : ℤ) {exponent : BitVec 64} {m : ℕ}
    (hexp : m ≤ 400 → exponent = BitVec.ofNat 64 m) (d : Fin 10) (ds : List (Fin 10)) :
    ∃ exponent', (valueFrom m (d :: ds) ≤ 400 →
        exponent' = BitVec.ofNat 64 (valueFrom m (d :: ds))) ∧
      exponentDigits start s expSign exponent (decide (400 < m)) d
          (ds.map digitChar ++ c :: rest) = (do
        let value ← finishExponent start s expSign exponent'
          (decide (400 < valueFrom m (d :: ds))) (c :: rest)
        return (.number value, c :: rest)) := by
  induction ds generalizing exponent m d with
  | nil =>
    obtain ⟨hnext, hflag⟩ := exponent_addDigit hexp d
    refine ⟨_, hnext, ?_⟩
    rw [map_nil, nil_append, exponentDigits, if_neg hc, hflag]
    rfl
  | cons e ds ih =>
    obtain ⟨hnext, hflag⟩ := exponent_addDigit hexp d
    have hdigit : digitChar e ^^^ 0x30 ≤ 9 := digit_iff.mpr ⟨e, rfl⟩
    rw [map_cons, cons_append, exponentDigits, if_pos hdigit, digitChar_xor, hflag]
    exact ih hnext e

end

/-! ## The mantissa as a double

The mantissa is exact below `2 ^ 53`; above, it only has to stay there, and the number is parsed
again from its text. -/

/-- The double is the mantissa, or both are at least `2 ^ 53`. -/
def Tracks (d : Double) (m : ℕ) : Prop :=
  if m < 2 ^ 53 then d = ofRat false m else d.AtLeast 53

theorem Tracks.eq {d : Double} (h : Tracks d m) (hm : m < 2 ^ 53) : d = ofRat false m := by
  rwa [Tracks, if_pos hm] at h

theorem Tracks.atLeast {d : Double} (h : Tracks d m) (hm : 2 ^ 53 ≤ m) : d.AtLeast 53 := by
  rwa [Tracks, if_neg (not_lt.mpr hm)] at h

theorem tracks_ofRat (m : ℕ) : Tracks (ofRat false m) m := by
  rw [Tracks]
  split_ifs with hm
  · rfl
  · exact atLeast_ofRat (by exact_mod_cast not_lt.mp hm)

/-- **One digit of the fraction.** -/
theorem Tracks.addDigit {x : Double} (h : Tracks x m) (d : Fin 10) :
    Tracks (((ofInt 10).mul x).add (ofInt (d : ℕ))) (10 * m + d) := by
  have hd : (d : ℕ) ≤ 2 ^ 53 := d.isLt.le.trans (by norm_num)
  have hten : ofInt 10 = ofRat false ((10 : ℕ) : ℚ) := ofInt_natCast 10
  rw [hten, ofInt_natCast]
  rcases lt_or_ge m (2 ^ 53) with hm | hm
  · have hmul : (ofRat false ((10 : ℕ) : ℚ)).mul x = ofRat false ((10 * m : ℕ) : ℚ) := by
      rw [h.eq hm, mul_natCast false false (by norm_num)
        (representable_natCast hm.le), cast_mul]
      rfl
    rw [hmul]
    rcases lt_or_ge (2 ^ 53) (10 * m) with hlarge | hsmall
    · rw [Tracks, if_neg (by omega)]
      exact (atLeast_ofRat (by exact_mod_cast hlarge.le)).add hd
    · rw [add_natCast hsmall hd, ← cast_add]
      exact tracks_ofRat _
  · rw [Tracks, if_neg (by omega)]
    exact ((h.atLeast hm).mul (by norm_num) (by norm_num)).add hd

theorem Tracks.beq_zero {x : Double} (h : Tracks x m) : x.beq (ofRat false 0) = decide (m = 0) := by
  rw [← cast_zero]
  rcases lt_or_ge m (2 ^ 53) with hm | hm
  · rw [h.eq hm, beq_natCast hm.le (zero_le _)]
  · rw [(h.atLeast hm).beq_zero, decide_eq_false (by omega)]

/-- What the variables hold after the point: `f` digits of the fraction have been read. -/
structure FracScan (negative : Bool) (s : Scan) (m f : ℕ) : Prop where
  sign : s.sign = signOf negative
  isDouble : s.isDouble = true
  tracks : Tracks s.doubleValue m
  count : m < 2 ^ 53 → s.intValue = BitVec.ofInt 64 (-f)

theorem limit_bounds (negative : Bool) :
    9223372036854775807 ≤ limit negative ∧ limit negative ≤ 9223372036854775808 := by
  cases negative <;> decide

/-- An integer part that is an integer, as a double. -/
theorem IntScan.tracks (h : IntScan negative s m) : Tracks s.toDouble.doubleValue m := by
  have hlimit := limit_bounds negative
  rcases lt_or_ge (limit negative) m with hover | hm
  · have hdouble : s.isDouble = true := h.isDouble.trans (decide_eq_true hover)
    rw [toDouble, if_pos hdouble, h.doubleValue hover, Tracks, if_neg (by omega)]
    exact atLeast_ofRat (by norm_num)
  have hdouble : s.isDouble = false := h.isDouble.trans (decide_eq_false (by omega))
  have hvalue : s.intValue.toInt = -m := by
    rw [h.intValue, toInt_ofInt (by omega) (by omega)]
  have hzero : s.intValue = 0#64 ↔ m = 0 := by
    rw [← BitVec.toInt_inj, hvalue, BitVec.toInt_zero]
    omega
  simp only [toDouble, hdouble, Bool.false_eq_true, if_false, hzero, hvalue]
  split_ifs with hm
  · subst hm
    exact tracks_ofRat 0
  · rw [ofInt_neg_natCast hm, neg_ofRat]
    exact tracks_ofRat m

theorem Scan.toDouble_sign (s : Scan) : s.toDouble.sign = s.sign := by
  unfold toDouble
  split <;> rfl

theorem Scan.toDouble_isDouble (s : Scan) : s.toDouble.isDouble = true := by
  unfold toDouble
  split
  · assumption
  · rfl

/-- From the integer part to the fraction. -/
theorem IntScan.toFraction (h : IntScan negative s m) :
    FracScan negative { s.toDouble with intValue := 0#64 } m 0 :=
  ⟨s.toDouble_sign.trans h.sign, s.toDouble_isDouble, h.tracks, fun _ => rfl⟩

theorem IntScan.toExponent (h : IntScan negative s m) :
    FracScan negative (if s.isDouble then s else { s.toDouble with intValue := 0#64 }) m 0 := by
  split_ifs with hdouble
  · have hover : limit negative < m := by
      simpa [hdouble] using h.isDouble
    have hlimit := limit_bounds negative
    have htracks := h.tracks
    rw [toDouble, if_pos hdouble] at htracks
    exact ⟨h.sign, hdouble, htracks, fun hm => absurd hm (by omega)⟩
  · exact h.toFraction

theorem FracScan.addFraction {f : ℕ} (h : FracScan negative s m f)
    (d : Fin 10) : FracScan negative (s.addFraction d) (10 * m + d) (f + 1) := by
  refine ⟨h.sign, h.isDouble, h.tracks.addDigit d, fun hm => ?_⟩
  have hcount := h.count (by omega)
  have hnext : s.intValue - BitVec.ofNat 64 1 = BitVec.ofInt 64 (-(f + 1 : ℕ)) := by
    rw [hcount, ofInt_sub_ofNat, cast_add, neg_add, cast_one, sub_eq_add_neg]
  exact hnext

theorem FracScan.addFractions {f : ℕ} (h : FracScan negative s m f) (ds : List (Fin 10)) :
    FracScan negative (s.addFractions ds) (valueFrom m ds) (f + ds.length) := by
  induction ds generalizing s m f with
  | nil => exact h
  | cons d ds ih =>
    rw [length_cons, add_comm ds.length, ← add_assoc]
    exact ih (h.addFraction d)

theorem powersOfTen_eq : powersOfTen = (List.range 23).map (10 ^ ·) := by decide

theorem powerOfTen_eq {i : ℕ} (h : i ≤ 22) :
    powerOfTen i = .ok (ofRat false ((10 ^ i : ℕ) : ℚ)) := by
  have hlt : i < 23 := by omega
  simp [powerOfTen, powersOfTen_eq, hlt]

/-- The powers of ten that are doubles. -/
theorem representable_powerOfTen {i : ℕ} (h : i ≤ 22) :
    Binary64.Representable ((10 ^ i : ℕ) : ℚ) := by
  refine ⟨⟨5 ^ i, i, ?_, by omega, ?_⟩, ?_⟩
  · calc 5 ^ i ≤ 5 ^ 22 := Nat.pow_le_pow_right (by norm_num) h
      _ ≤ 2 ^ 53 := by norm_num
  · rw [zpow_natCast]
    push_cast
    rw [← mul_pow]
    norm_num
  · calc ((10 ^ i : ℕ) : ℚ) ≤ (10 ^ 22 : ℕ) := by
          exact_mod_cast Nat.pow_le_pow_right (by norm_num) h
      _ < 2 ^ 100 := by norm_num
      _ ≤ 2 ^ 1024 := pow_le_pow_right₀ (by norm_num) (by norm_num)

theorem mul_signOf (negative : Bool) (h : m < 2 ^ 53) :
    (ofRat false m).mul (ofInt (signOf negative)) = ofRat negative m := by
  have hsign : ofInt (signOf negative) = ofRat negative ((1 : ℕ) : ℚ) := by
    cases negative with
    | false => exact ofInt_natCast 1
    | true => exact ofInt_neg_natCast one_ne_zero
  rw [hsign, mul_natCast _ _ h.le (representable_natCast (by norm_num)), cast_one,
    mul_one, Bool.false_xor]

/-- **The value of a double**: one rounded operation, or `double.parse`. -/
theorem finishNumber_double {e : ℤ} {start rest : List ℕ}
    (hsign : s.sign = signOf negative) (hdouble : s.isDouble = true)
    (htracks : Tracks s.doubleValue m) (hexp : m < 2 ^ 53 → s.intValue.toInt = e)
    (hparse : parseDoubleBetween start rest = .ok (.double (ofRat negative (m * 10 ^ e)))) :
    finishNumber start s rest = .ok (.double (ofRat negative (m * 10 ^ e))) := by
  have hbound : (9007199254740992 : ℚ) = ((2 ^ 53 : ℕ) : ℚ) := by norm_num
  simp only [finishNumber, hdouble, Bool.not_true, Bool.false_eq_true, if_false, hsign, hbound]
  rcases Nat.lt_or_ge m (2 ^ 53) with hm | hm
  · rw [htracks.eq hm, hexp hm, lt_natCast hm.le le_rfl, decide_eq_true hm, mul_signOf _ hm]
    simp only [Bool.true_and, Bool.and_eq_true, decide_eq_true_eq]
    split_ifs with hneg hzero hpos
    · obtain ⟨k, rfl⟩ : ∃ k : ℕ, e = -k := ⟨(-e).toNat, by omega⟩
      have hk : k ≤ 22 := by omega
      rw [neg_neg, Int.toNat_natCast, powerOfTen_eq hk]
      refine congrArg (Except.ok ∘ Num.double) ?_
      rw [div_natCast _ _ hm.le (representable_powerOfTen hk) (by positivity),
        Bool.xor_false, zpow_neg, zpow_natCast, div_eq_mul_inv]
      push_cast
      rfl
    · rw [hzero, zpow_zero, mul_one]
    · obtain ⟨k, rfl⟩ : ∃ k : ℕ, e = k := ⟨e.toNat, by omega⟩
      have hk : k ≤ 22 := by omega
      rw [Int.toNat_natCast, powerOfTen_eq hk]
      refine congrArg (Except.ok ∘ Num.double) ?_
      rw [mul_natCast _ _ hm.le (representable_powerOfTen hk), Bool.xor_false, zpow_natCast]
      push_cast
      rfl
    · exact hparse
  · rw [(htracks.atLeast hm).not_lt le_rfl le_rfl]
    exact hparse

/-- The value of an integer. -/
theorem finishNumber_int (h : IntScan negative s m)
    (hm : m ≤ limit negative) (start rest : List ℕ) : finishNumber start s rest =
      .ok (.int (BitVec.ofInt 64 (if negative then -m else m))) := by
  have hdouble : s.isDouble = false := h.isDouble.trans (decide_eq_false (by omega))
  simp only [finishNumber, hdouble, Bool.not_false, if_true, h.sign, h.intValue]
  cases negative with
  | true =>
    have hflag : (-(BitVec.ofInt 64 (signOf true + 1))).sshiftRight 1 = 0#64 := by decide
    rw [hflag]
    simp
  | false =>
    have hflag : (-(BitVec.ofInt 64 (signOf false + 1))).sshiftRight 1 = BitVec.allOnes 64 := by
      decide
    rw [hflag, BitVec.xor_allOnes, ← BitVec.neg_one_eq_allOnes, BitVec.sub_eq_add_neg,
      BitVec.neg_neg, ← BitVec.neg_eq_not_add, BitVec.ofInt_neg, BitVec.neg_neg]
    rfl

theorem parseDoubleBetween_chars (l : Literal) (rest : List ℕ) :
    parseDoubleBetween (l.chars ++ rest) rest = .ok (.double l.toDouble) := by
  have htext : textBetween (l.chars ++ rest) rest = l.chars := by
    rw [textBetween, length_append, Nat.add_sub_cancel, take_left]
  rw [parseDoubleBetween, htext, parseDouble_chars]

namespace Literal

/-- **The number that `parseNumber` computes**, with the shortcut for large exponents. -/
def inChunk (l : Literal) : Num :=
  match l.exp with
  | none => l.toNum
  | some e =>
    if 400 < valueOf e.digits then
      .double (if l.mantissa = 0 ∨ e.isNegative then ofRat l.negative 0
        else .infinity l.negative)
    else l.toNum

variable {l : Literal}

theorem inChunk_of_large {e : Exponent} (he : l.exp = some e) (hlarge : 400 < valueOf e.digits)
    (hmantissa : l.mantissa ≠ 0) (hpos : e.isNegative = false) :
    l.inChunk = .double (.infinity l.negative) := by
  rw [inChunk, he]
  simp [hlarge, hmantissa, hpos]

theorem length_fracDigits_le (l : Literal) : l.fracDigits.length ≤ l.chars.length := by
  simp only [chars, length_append, fracChars, fracDigits]
  cases l.frac with
  | none => simp
  | some f =>
    simp only [elim_some, length_cons, length_map]
    omega

variable {s : Scan}

/-- The end of a numeral with an exponent. -/
theorem finishExponent_eq {e : Exponent} (he : l.exp = some e) {exponent : BitVec 64}
    (h : FracScan l.negative s l.mantissa l.fracDigits.length)
    (hexp : valueOf e.digits ≤ 400 → exponent = BitVec.ofNat 64 (valueOf e.digits))
    (hlen : l.fracDigits.length < 2 ^ 62) (rest : List ℕ) :
    finishExponent (l.chars ++ rest) s (signOf e.isNegative) exponent
      (decide (400 < valueOf e.digits)) rest = .ok l.inChunk := by
  have hzero : (s.doubleValue.beq (ofRat false 0) || decide (signOf e.isNegative < 0)) =
      decide (l.mantissa = 0 ∨ e.isNegative) := by
    rw [h.tracks.beq_zero, ← Bool.decide_or]
    simp [signOf_neg_iff]
  have hsign : decide (s.sign < 0) = l.negative := by
    rw [h.sign]
    simp [signOf_neg_iff, Bool.decide_eq_true]
  rw [finishExponent, inChunk, he, hzero, hsign]
  simp only [decide_eq_true_eq]
  split
  · split <;> rfl
  rename_i hsmall
  have hsmall : valueOf e.digits ≤ 400 := Nat.not_lt.mp hsmall
  rw [toNum_of_not_int (Or.inr (by simp [he]))]
  refine finishNumber_double h.sign h.isDouble h.tracks (fun hm => ?_)
    (parseDoubleBetween_chars l rest)
  have hscale : l.scale = -l.fracDigits.length + signOf e.isNegative * valueOf e.digits := by
    simp only [scale, he, Option.elim_some, Exponent.value, signOf]
    split_ifs <;> ring
  have hvalue : s.intValue + BitVec.ofInt 64 (signOf e.isNegative) * exponent =
      BitVec.ofInt 64 l.scale := by
    rw [h.count hm, hexp hsmall, ← BitVec.ofInt_natCast, ← BitVec.ofInt_mul, ← BitVec.ofInt_add,
      hscale]
  have hbound : |signOf e.isNegative * valueOf e.digits| ≤ 400 := by
    simp only [signOf]
    split_ifs <;> simp <;> omega
  rw [abs_le] at hbound
  rw [hvalue]
  exact toInt_ofInt (by omega) (by omega)

/-- A numeral that is only an integer part. -/
theorem finishNumber_integer (h : IntScan l.negative s (valueOf l.int.digits))
    (hfrac : l.frac = none) (hexp : l.exp = none) (rest : List ℕ) :
    finishNumber (l.chars ++ rest) s rest = .ok l.toNum := by
  have hlimit := limit_bounds l.negative
  have hbound : valueOf l.int.digits ≤ limit l.negative ↔ l.IsInt := by
    simp only [IsInt, hfrac, hexp, true_and, intValue, limit]
    split_ifs <;> omega
  by_cases hm : valueOf l.int.digits ≤ limit l.negative
  · rw [finishNumber_int h hm, toNum, if_pos (hbound.mp hm), intValue]
  have hdouble : s.isDouble = true := h.isDouble.trans (decide_eq_true (not_le.mp hm))
  have htracks := h.tracks
  rw [Scan.toDouble, if_pos hdouble] at htracks
  have hmagnitude : l.magnitude = valueOf l.int.digits * 10 ^ (0 : ℤ) := by
    simp [magnitude, mantissa, scale, hfrac, hexp, fracDigits]
  have hparse := parseDoubleBetween_chars l rest
  rw [toDouble, hmagnitude] at hparse
  rw [toNum, if_neg (hbound.not.mp hm), toDouble, hmagnitude]
  exact finishNumber_double h.sign hdouble htracks (fun hsmall => by omega) hparse

/-- A numeral with a fraction and no exponent. -/
theorem finishNumber_fraction
    (h : FracScan l.negative s l.mantissa l.fracDigits.length) (hfrac : l.frac.isSome)
    (hexp : l.exp = none) (hlen : l.fracDigits.length < 2 ^ 62) (rest : List ℕ) :
    finishNumber (l.chars ++ rest) s rest = .ok l.toNum := by
  have hscale : l.scale = -l.fracDigits.length := by simp [scale, hexp]
  rw [toNum_of_not_int (Or.inl hfrac)]
  refine finishNumber_double h.sign h.isDouble h.tracks (fun hm => ?_)
    (parseDoubleBetween_chars l rest)
  rw [h.count hm, hscale]
  exact toInt_ofInt (by omega) (by omega)

section

variable {c : ℕ} (hc : Stops c) (rest : List ℕ) (chunkEnd : ℕ)
  (hlen : l.fracDigits.length < 2 ^ 62)
include hc hlen

variable {s : Scan}

theorem exponentStart_chars {e : Exponent} (he : l.exp = some e)
    (h : FracScan l.negative s l.mantissa l.fracDigits.length) :
    exponentStart chunkEnd (l.chars ++ c :: rest) s (signOf e.isNegative) (digitChar e.head)
      (e.tail.map digitChar ++ c :: rest) = .ok (.number l.inChunk, c :: rest) := by
  have hdigit : digitChar e.head ^^^ 0x30 ≤ 9 := digit_iff.mpr ⟨e.head, rfl⟩
  have hinit : 0 ≤ 400 → 0#64 = BitVec.ofNat 64 0 := fun _ => rfl
  obtain ⟨exponent, hexp, hrun⟩ := exponentDigits_append (l.chars ++ c :: rest) hc.1 rest s
    (signOf e.isNegative) hinit e.head e.tail
  rw [exponentStart, if_neg (not_lt.mpr hdigit), digitChar_xor]
  refine hrun.trans ?_
  rw [show valueFrom 0 (e.head :: e.tail) = valueOf e.digits from rfl,
    finishExponent_eq he h hexp hlen]
  rfl

/-- What follows the mantissa. -/
theorem afterFraction_chars (hnone : l.exp = none →
      finishNumber (l.chars ++ c :: rest) s (c :: rest) = .ok l.inChunk)
    (hsome : FracScan l.negative (if s.isDouble then s else { s.toDouble with intValue := 0#64 })
      l.mantissa l.fracDigits.length) :
    ∃ x xs, l.expChars ++ c :: rest = x :: xs ∧ ¬ x ^^^ 0x30 ≤ 9 ∧ x ≠ 0x2e ∧
      afterFraction chunkEnd (l.chars ++ c :: rest) s x xs =
        .ok (.number l.inChunk, c :: rest) := by
  cases he : l.exp with
  | none =>
    refine ⟨c, rest, by rw [expChars, he]; rfl, hc.1, hc.2.1, ?_⟩
    rw [afterFraction, if_neg hc.2.2, hnone he]
    rfl
  | some e =>
    have hstart := exponentStart_chars hc rest chunkEnd hlen he hsome
    have hletter : (if e.upper then 0x45 else 0x65) ||| 0x20 = 0x65 := by
      cases e.upper <;> rfl
    refine ⟨if e.upper then 0x45 else 0x65, ((e.sign.elim [] fun s => [if s then 0x2d else 0x2b]) ++
      e.digits.map digitChar) ++ c :: rest, by rw [expChars, he]; rfl, ?_, ?_, ?_⟩
    · cases e.upper <;> decide
    · cases e.upper <;> decide
    rw [afterFraction, if_pos hletter]
    cases hsign : e.sign with
    | none =>
      have hplus : ¬ (digitChar e.head + 1) ||| 2 = 0x2e := by
        generalize e.head = d
        revert d
        decide
      have hpos : e.isNegative = false := by simp [Exponent.isNegative, hsign]
      rw [hpos] at hstart
      simp only [elim_none, nil_append, Exponent.digits, map_cons,
        cons_append, if_neg hplus]
      exact hstart
    | some b =>
      have hb : e.isNegative = b := by simp [Exponent.isNegative, hsign]
      have hminus : ((if b then 0x2d else 0x2b) + 1) ||| 2 = 0x2e := by cases b <;> rfl
      have hexpSign : (0x2c - (if b then 0x2d else 0x2b : ℕ) : ℤ) = signOf b := by
        cases b <;> rfl
      rw [hb] at hstart
      simp only [elim_some, Exponent.digits, map_cons, cons_append,
        nil_append, if_pos hminus, hexpSign]
      exact hstart

/-- What follows the integer part. -/
theorem afterInteger_chars (h : IntScan l.negative s (valueOf l.int.digits)) :
    ∃ x xs, l.fracChars ++ (l.expChars ++ c :: rest) = x :: xs ∧ ¬ x ^^^ 0x30 ≤ 9 ∧
      afterInteger chunkEnd (l.chars ++ c :: rest) s x xs = .ok (.number l.inChunk, c :: rest) := by
  cases hfrac : l.frac with
  | none =>
    have hmantissa : l.mantissa = valueOf l.int.digits := by simp [mantissa, fracDigits, hfrac]
    have hdigits : l.fracDigits.length = 0 := by simp [fracDigits, hfrac]
    obtain ⟨x, xs, htext, hdigit, hdot, hrun⟩ := afterFraction_chars hc rest chunkEnd hlen
      (fun hexp => by
        rw [finishNumber_integer h hfrac hexp, inChunk, hexp])
      (by rw [hmantissa, hdigits]; exact h.toExponent)
    refine ⟨x, xs, by rw [fracChars, hfrac]; exact htext, hdigit, ?_⟩
    rw [afterInteger, if_neg hdot, hrun]
  | some f =>
    have hscan := h.toFraction.addFractions (f.1 :: f.2)
    have hmantissa : valueFrom (valueOf l.int.digits) (f.1 :: f.2) = l.mantissa := by
      simp [mantissa, fracDigits, hfrac, valueOf, valueFrom_append]
    have hdigits : 0 + (f.1 :: f.2).length = l.fracDigits.length := by simp [fracDigits, hfrac]
    rw [hmantissa, hdigits] at hscan
    obtain ⟨x, xs, htext, hdigit, -, hrun⟩ := afterFraction_chars hc rest chunkEnd hlen
      (fun hexp => by
        rw [finishNumber_fraction hscan (by simp [hfrac]) hexp hlen, inChunk, hexp])
      (by rw [if_pos hscan.isDouble]; exact hscan)
    refine ⟨0x2e, (f.1 :: f.2).map digitChar ++ (l.expChars ++ c :: rest), by
      rw [fracChars, hfrac]; rfl, by decide, ?_⟩
    have hfirst : ¬ 9 < digitChar f.1 ^^^ 0x30 := not_lt.mpr (digit_iff.mpr ⟨f.1, rfl⟩)
    rw [afterInteger, if_pos rfl, htext]
    simp only [map_cons, cons_append, if_neg hfirst]
    rw [digitChar_xor, fractionDigits_append _ _ hdigit]
    exact hrun

/-- After the sign. -/
theorem firstDigit_chars : ∃ x xs, l.body ++ c :: rest = x :: xs ∧
      firstDigit chunkEnd (l.chars ++ c :: rest) (signOf l.negative) x xs =
        .ok (.number l.inChunk, c :: rest) := by
  have hinit : IntScan l.negative ⟨signOf l.negative, 0#64, ofRat false 0, false⟩ 0 :=
    ⟨rfl, rfl, by simp, fun h => absurd h (not_lt_zero _)⟩
  cases hint : l.int with
  | zero =>
    obtain ⟨x, xs, htext, hdigit, hrun⟩ := afterInteger_chars hc rest chunkEnd hlen
      (s := ⟨signOf l.negative, 0#64, ofRat false 0, false⟩) (by rw [hint]; exact hinit)
    refine ⟨0x30, x :: xs, ?_, ?_⟩
    · rw [body, append_assoc, append_assoc, htext, hint]
      rfl
    · unfold firstDigit
      simp only [if_neg hdigit]
      exact hrun
  | nonzero d hd ds =>
    have hscan := hinit.addDigits one_pos (Or.inl rfl) (d :: ds)
      (fun _ h => hd (some.inj h))
    obtain ⟨x, xs, htext, hdigit, hrun⟩ := afterInteger_chars hc rest chunkEnd hlen
      (by rw [hint]; exact hscan)
    refine ⟨digitChar d, ds.map digitChar ++ x :: xs, ?_, ?_⟩
    · rw [body, append_assoc, append_assoc, htext, hint]
      rfl
    have hle : ¬ 9 < (d : ℕ) := by omega
    have hne : ¬ (d : ℕ) = 0 := fun h => hd (Fin.ext h)
    unfold firstDigit
    simp only [digitChar_xor, if_neg hle, if_neg hne]
    rw [integerDigits_append _ _ hdigit]
    exact hrun

/-- **A numeral inside a chunk.** -/
theorem parseNumber_chars :
    parseNumber chunkEnd (l.chars ++ c :: rest) = .ok (.number l.inChunk, c :: rest) := by
  obtain ⟨x, xs, htext, hrun⟩ := firstDigit_chars hc rest chunkEnd hlen
  have hchars : l.chars ++ c :: rest = (if l.negative then [0x2d] else []) ++ x :: xs := by
    rw [l.chars_eq, append_assoc, htext]
  rw [hchars] at hrun ⊢
  unfold parseNumber
  cases hneg : l.negative with
  | true =>
    rw [hneg] at hrun
    exact hrun
  | false =>
    obtain ⟨d, t, hd⟩ := l.exists_body
    rw [hd] at htext
    obtain ⟨rfl, -⟩ := cons.inj htext
    have hminus : ∀ d, digitChar d ≠ 0x2d := by decide
    rw [hneg] at hrun
    exact (if_neg (hminus d)).trans hrun

end

/-! ## The shortcut for large exponents

An exponent above 400 gives zero or infinity without a look at the mantissa. -/

/-- An exponent above 400, and a mantissa with so many digits that the number is not rounded to zero
or infinity. -/
def Misread (l : Literal) : Prop :=
  ∃ e, l.exp = some e ∧ 400 < valueOf e.digits ∧ l.mantissa ≠ 0 ∧
    if e.isNegative then 2 ^ (-1075 : ℤ) < l.magnitude
    else l.magnitude < 2 ^ (1024 : ℤ) - 2 ^ (970 : ℤ)

theorem magnitude_nonneg (l : Literal) : 0 ≤ l.magnitude := by
  unfold magnitude
  positivity

/-- **The shortcut is right unless the mantissa is long.** -/
theorem inChunk_eq_toNum_iff (l : Literal) : l.inChunk = l.toNum ↔ ¬ l.Misread := by
  unfold inChunk Misread
  cases he : l.exp with
  | none => simp
  | some e =>
    have hnum : l.toNum = .double (ofRat l.negative l.magnitude) :=
      toNum_of_not_int (Or.inr (by simp [he]))
    simp only [some.injEq, exists_eq_left']
    by_cases hlarge : 400 < valueOf e.digits
    swap
    · simp only [if_neg hlarge, true_iff]
      exact fun h => hlarge h.1
    rw [if_pos hlarge, hnum, Num.double.injEq]
    by_cases hzero : l.mantissa = 0
    · have hmagnitude : l.magnitude = 0 := by simp [magnitude, hzero]
      simp [hzero, hmagnitude]
    cases hneg : e.isNegative with
    | true =>
      rw [if_pos (Or.inr rfl), eq_comm, ofRat_eq_zero_iff _ l.magnitude_nonneg, ← not_lt]
      simp [hlarge, hzero, ne_eq, not_false_eq_true, true_and]
    | false =>
      rw [if_neg (by simp [hzero]), eq_comm, ofRat_eq_infinity_iff _ l.magnitude_nonneg, ← not_lt]
      simp [Bool.false_eq_true, hlarge, hzero, ne_eq, not_false_eq_true, true_and]

end Literal

/-- **Numbers are read exactly**, except for the shortcut inside a chunk. -/
theorem readNumeral_iff (l : Literal) (chunkEnd : ℕ) (start : ChunkRest) (chunks : List (List ℕ))
    (rest : List ℕ) (htext : start.chars ++ chunks.flatten = l.chars ++ rest)
    (hstart : start.chars ≠ []) (hstop : Terminates rest) :
    readNumeral chunkEnd start chunks = .ok l.toNum ↔
      ¬ (l.chars.length < start.chars.length ∧ l.Misread) := by
  rcases lt_or_ge l.chars.length start.chars.length with hinside | hcut
  · obtain ⟨tail, htail⟩ : l.chars <+: start.chars :=
      prefix_of_prefix_length_le ⟨rest, rfl⟩ ⟨chunks.flatten, htext⟩ hinside.le
    cases tail with
    | nil => simp [← htail] at hinside
    | cons c tail =>
      have hrest : rest = c :: (tail ++ chunks.flatten) := by
        rw [← htail, append_assoc] at htext
        exact (append_cancel_left htext).symm
      have hc : Stops c := hstop c (by rw [hrest]; rfl)
      have hlen : l.fracDigits.length < 2 ^ 62 :=
        l.length_fracDigits_le.trans_lt (hinside.trans start.length_lt)
      rw [readNumeral, ← htail, l.parseNumber_chars hc tail chunkEnd hlen]
      simp only [ok.injEq, l.inChunk_eq_toNum_iff]
      rw [← htail] at hinside
      exact not_congr (and_iff_right hinside).symm
  · obtain ⟨left, hleft⟩ : start.chars <+: l.chars :=
      prefix_of_prefix_length_le ⟨chunks.flatten, htext⟩ ⟨rest, rfl⟩ hcut
    obtain ⟨state, hplace, hrun⟩ := parseNumber_unfinished hstart hleft.symm chunkEnd
    rw [readNumeral, hrun]
    exact iff_of_true (finishNumeral_eq hstop chunks hplace htext) fun h => absurd h.1 (by omega)

/-- `1.5e3`. -/
def fifteenHundred : Literal :=
  ⟨false, .nonzero 1 (by decide) [], some (5, []), some ⟨false, none, 3, []⟩⟩

theorem readNumeral_fifteenHundred :
    readNumeral 3 ⟨[0x31, 0x2e, 0x35], by decide⟩ [[0x65, 0x33, 0x2c]] =
      .ok fifteenHundred.toNum := by
  refine (readNumeral_iff fifteenHundred 3 ⟨[0x31, 0x2e, 0x35], by decide⟩ [[0x65, 0x33, 0x2c]]
    [0x2c] rfl (by decide) ?_).mpr fun h => absurd h.1 (by decide)
  rintro c ⟨⟩
  exact ⟨by decide, by decide, by decide⟩

/-- `0.00…01e401`, with 400 zeros after the point: the number 1. -/
def farOne : Literal :=
  ⟨false, .zero, some (0, List.replicate 399 0 ++ [1]), some ⟨false, none, 4, [0, 1]⟩⟩

theorem farOne_mantissa : farOne.mantissa = 1 := by decide +kernel

theorem farOne_magnitude : farOne.magnitude = 1 := by
  have hscale : farOne.scale = 0 := by decide +kernel
  simp [Literal.magnitude, farOne_mantissa, hscale]

theorem farOne_misread : farOne.Misread := by
  refine ⟨_, rfl, by decide, by rw [farOne_mantissa]; decide, ?_⟩
  have hhalf : (2 : ℚ) ^ (1024 : ℤ) = 2 * 2 ^ (1023 : ℤ) := Binary64.two_zpow_succ 1023
  have hle : (2 : ℚ) ^ (970 : ℤ) ≤ 2 ^ (1023 : ℤ) :=
    zpow_le_zpow_right₀ (by norm_num) (by norm_num)
  have hone : (1 : ℚ) < 2 ^ (1023 : ℤ) := one_lt_zpow₀ (by norm_num) (by norm_num)
  rw [farOne_magnitude, hhalf]
  generalize (2 : ℚ) ^ (1023 : ℤ) = a at hle hone
  generalize (2 : ℚ) ^ (970 : ℤ) = b at hle
  show 1 < 2 * a - b
  linarith

/-- The number 1, read as infinity. -/
theorem readNumeral_farOne : readNumeral 408 ⟨farOne.chars ++ [0x2c], by decide +kernel⟩ [] =
        .ok (.double (.infinity false)) ∧
      readNumeral 408 ⟨farOne.chars ++ [0x2c], by decide +kernel⟩ [] ≠ .ok farOne.toNum ∧
      farOne.toNum = .double (ofRat false 1) := by
  have hcomma : Stops 0x2c := ⟨by decide, by decide, by decide⟩
  have hread : readNumeral 408 ⟨farOne.chars ++ [0x2c], by decide +kernel⟩ [] =
      .ok farOne.inChunk := by
    rw [readNumeral, Literal.parseNumber_chars hcomma [] 408 (by decide +kernel)]
  have hinfinity : farOne.inChunk = .double (.infinity false) :=
    Literal.inChunk_of_large rfl (by decide) (by rw [farOne_mantissa]; decide) rfl
  refine ⟨by rw [hread, hinfinity], ?_, ?_⟩
  · rw [hread, ne_eq, ok.injEq, Literal.inChunk_eq_toNum_iff]
    exact not_not_intro farOne_misread
  · rw [toNum_of_not_int (Or.inl rfl), Literal.toDouble, farOne_magnitude]
    rfl

end Json
