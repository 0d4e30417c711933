import DartSdk.Compiler.Ranges.BoundarySound
import DartSdk.Compiler.Ranges.Words

/-!
# Compiler/Ranges/BinaryOpSound — the range of a binary operation is sound

`binaryOp_sound` — for every operation and all operand ranges whose constant forms are in order, the
computation on boundaries neither overflows nor fails an assertion, and the range that it gives
contains the 64-bit result on all operands in the ranges, whatever Smis the symbols stand for.
-/

namespace Ranges

open Dart Option Boundary BinaryOp

variable {T : Target} {left right : Range T} {length : Option (Symbol T)} {m M n N : ℤ} {x y : ℤ}
  {op : BinaryOp} {a b : BitVec 64} {t : ℕ} (hl : left.Bounds m M) (hr : right.Bounds n N)

/-- The operands of one execution.  If the left definition loads a length, it is a symbol that
stands for the left operand. -/
structure Operands (ρ : Assignment) (left right : Range T) (length : Option (Symbol T))
    (a b : BitVec 64) : Prop where
  leftHolds : left.Holds ρ
  rightHolds : right.Holds ρ
  leftContains : left.Contains ρ a.toInt
  rightContains : right.Contains ρ b.toInt
  isLength : ∀ s ∈ length, s.Holds ρ ∧ ρ s.id = a.toInt

/-- The computation has a result, with constant boundaries in order, that contains the value of the
operation. -/
def Sound (op : BinaryOp) (left right : Range T) (length : Option (Symbol T))
    (result : Checked (Range T)) : Prop :=
  ∃ r, result = some r ∧ r.inOrder = true ∧ ∀ ρ a b w, Operands ρ left right length a b →
    op.eval a b = some w → r.Contains ρ w.toInt

/-- The full range is always sound. -/
theorem sound_int64Range (op : BinaryOp) : Sound op left right length (some int64Range) :=
  ⟨_, rfl, rfl, fun _ _ _ w _ _ => isInt64_toInt w⟩

/-- **Constant results**: it is enough to look at words between the constant forms. -/
theorem sound_constantRange (hl : left.Bounds m M) (hr : right.Bounds n N)
    {lo hi : ℤ} (hlo : IsInt64 lo) (hhi : IsInt64 hi) (hle : lo ≤ hi)
    (h : ∀ a b w, (m ≤ a.toInt ∧ a.toInt ≤ M) → (n ≤ b.toInt ∧ b.toInt ≤ N) →
      op.eval a b = some w → lo ≤ w.toInt ∧ w.toInt ≤ hi) :
    Sound op left right length (constantRange lo hi) := by
  refine ⟨⟨.constant lo hlo, .constant hi hhi⟩, ?_, ?_, fun ρ a b w hab hw => ?_⟩
  · simp [constantRange, fromConstant, hlo, hhi]
  · simpa [Range.inOrder] using hle
  · exact h a b w (hl.mem ρ _ hab.leftHolds hab.leftContains)
      (hr.mem ρ _ hab.rightHolds hab.rightContains) hw

/-! ## Sums and differences

The boundaries are added as constants, or a constant to a symbol; where that overflows the full
range is taken. -/

/-- The boundary is symbolic. -/
def Boundary.IsSymbol : Boundary T → Prop
  | .constant _ _ => False
  | .symbol _ _ _ => True

theorem Target.ValidOffset.offset_isInt64 {offset : ℤ} (h : T.ValidOffset offset) :
    IsInt64 offset := by
  have hone := T.one_le_smiPow
  unfold Target.ValidOffset Target.smiMax Target.smiMin at h
  unfold IsInt64
  omega

theorem symbolic_spec (s : Symbol T) {offset : ℤ} {b : Boundary T}
    (hb : b ∈ symbolic s offset) : b.IsSymbol ∧ ∀ ρ, s.Holds ρ →
      b.Holds ρ ∧ b.value ρ = ρ s.id + offset := by
  unfold symbolic at hb
  split at hb
  · cases hb
    refine ⟨trivial, fun ρ hs => ⟨?_, rfl⟩⟩
    rwa [Holds]
  · cases hb

/-- A symbol with a new offset, unless that overflows, has the value of the operation. -/
theorem offset_spec {x y : Boundary T} {s : Symbol T} {overflow : Bool} {offset : ℤ}
    {result : Assignment → ℤ} (hint : overflow = false → IsInt64 offset)
    (hs : ∀ ρ, x.Holds ρ → y.Holds ρ → s.Holds ρ) (hresult : ∀ ρ, ρ s.id + offset = result ρ) :
    ∃ o, (if overflow then pure none
      else do return symbolic s (← checked offset) : Checked (Option (Boundary T))) = some o ∧
        ∀ b ∈ o, b.IsSymbol ∧ ∀ ρ, x.Holds ρ → y.Holds ρ → b.Holds ρ ∧ b.value ρ = result ρ := by
  cases hover : overflow with
  | true => exact ⟨none, rfl, fun b hb => by cases hb⟩
  | false =>
    refine ⟨symbolic s offset, by simp [checked_eq (hint hover)], fun b hb =>
      ⟨(symbolic_spec s hb).1, fun ρ hx hy => ?_⟩⟩
    rw [← hresult]
    exact (symbolic_spec s hb).2 ρ (hs ρ hx hy)

/-- `SymbolicAdd` gives a symbolic boundary with the value of the sum. -/
theorem symbolicAdd_spec (x y : Boundary T) : ∃ o, symbolicAdd x y = some o ∧ ∀ b ∈ o,
    b.IsSymbol ∧ ∀ ρ, x.Holds ρ → y.Holds ρ → b.Holds ρ ∧ b.value ρ = x.value ρ + y.value ρ := by
  cases x with
  | constant c hc =>
    cases y with
    | constant d hd => exact ⟨none, rfl, fun b hb => by cases hb⟩
    | symbol s offset hoff =>
      refine offset_spec (willAddOverflow_eq_false hoff.offset_isInt64).mp
        (fun ρ _ hs => hs) fun ρ => ?_
      rw [value, value]
      ring
  | symbol s offset hoff =>
    cases y with
    | constant c hc =>
      refine offset_spec (willAddOverflow_eq_false hoff.offset_isInt64).mp
        (fun ρ hs _ => hs) fun ρ => ?_
      rw [value, value]
      ring
    | symbol s' offset' hoff' => exact ⟨none, rfl, fun b hb => by cases hb⟩

/-- `SymbolicSub` gives a symbolic boundary with the value of the difference. -/
theorem symbolicSub_spec (x y : Boundary T) : ∃ o, symbolicSub x y = some o ∧ ∀ b ∈ o,
    b.IsSymbol ∧ ∀ ρ, x.Holds ρ → y.Holds ρ → b.Holds ρ ∧ b.value ρ = x.value ρ - y.value ρ := by
  cases x with
  | constant c hc => exact ⟨none, by cases y <;> rfl, fun b hb => by cases hb⟩
  | symbol s offset hoff =>
    cases y with
    | symbol s' offset' hoff' => exact ⟨none, rfl, fun b hb => by cases hb⟩
    | constant c hc =>
      refine offset_spec (willSubOverflow_eq_false hoff.offset_isInt64).mp
        (fun ρ hs _ => hs) fun ρ => ?_
      rw [value, value]
      ring

/-- The left boundaries hold of the left operand, as a length too. -/
theorem leftBoundaries_spec {ρ : Assignment} (h : Operands ρ left right length a b) :
    ((leftBoundaries left length).1.Holds ρ ∧ (leftBoundaries left length).1.value ρ ≤ a.toInt) ∧
      (leftBoundaries left length).2.Holds ρ ∧
        a.toInt ≤ (leftBoundaries left length).2.value ρ := by
  cases length with
  | none =>
    exact ⟨⟨h.leftHolds.1, h.leftContains.1⟩, h.leftHolds.2, h.leftContains.2⟩
  | some s =>
    obtain ⟨hs, hvalue⟩ := h.isLength s rfl
    have hholds : (fromDefinition s).Holds ρ := by rwa [fromDefinition, Holds]
    have heq : (fromDefinition s).value ρ = a.toInt := by
      rw [fromDefinition, value, hvalue, add_zero]
    exact ⟨⟨hholds, heq.le⟩, hholds, heq.ge⟩

/-- What a boundary of a sum or difference has to satisfy: it is on the right side (`R`) of the
value `f` of the operands, and it can only be constant as `c`. -/
structure BoundaryFor (left right : Range T) (length : Option (Symbol T)) (f : ℤ → ℤ → ℤ)
    (R : ℤ → ℤ → Prop) (c : ℤ) (b : Boundary T) : Prop where
  value : ∀ ρ x y, Operands ρ left right length x y →
    b.Holds ρ ∧ R (b.value ρ) (f x.toInt y.toInt)
  constant : ∀ v h, b = .constant v h → v = c

/-- A boundary of a sum or difference is the symbolic one or the constant one: either is on the
right side if the operation is there at the boundaries `l` and `r` of the operands. -/
theorem boundaryOr_spec {f : ℤ → ℤ → ℤ} {R : ℤ → ℤ → Prop} {c : ℤ} {l r : Boundary T}
    {sym : Checked (Option (Boundary T))} {overflow : Bool} {constant : Checked ℤ}
    (hsym : ∃ o, sym = some o ∧ ∀ b ∈ o, b.IsSymbol ∧ ∀ ρ, l.Holds ρ → r.Holds ρ →
      b.Holds ρ ∧ b.value ρ = f (l.value ρ) (r.value ρ))
    (hc : overflow = false → constant = some c ∧ IsInt64 c)
    (hR : ∀ ρ x y, Operands ρ left right length x y → (l.Holds ρ ∧ r.Holds ρ) ∧
      R (f (l.value ρ) (r.value ρ)) (f x.toInt y.toInt) ∧ R c (f x.toInt y.toInt)) :
    ∃ o, boundaryOr sym overflow constant = some o ∧
      ∀ b ∈ o, BoundaryFor left right length f R c b := by
  obtain ⟨sym, rfl, hsym⟩ := hsym
  cases sym with
  | some b =>
    obtain ⟨hsymbol, hvalue⟩ := hsym b rfl
    refine ⟨some b, rfl, fun b' hb => ?_⟩
    cases hb
    refine ⟨fun ρ x y hxy => ?_, fun v h heq => ?_⟩
    · obtain ⟨⟨hl, hr⟩, hside, -⟩ := hR ρ x y hxy
      obtain ⟨hb, heq⟩ := hvalue ρ hl hr
      exact ⟨hb, heq ▸ hside⟩
    · subst heq
      exact hsymbol.elim
  | none =>
    cases overflow with
    | true => exact ⟨none, rfl, fun b hb => by cases hb⟩
    | false =>
      obtain ⟨hconstant, hint⟩ := hc rfl
      refine ⟨some (.constant c hint), by simp [boundaryOr, hconstant, fromConstant, hint],
        fun b hb => ?_⟩
      cases hb
      refine ⟨fun ρ x y hxy => ⟨?_, (hR ρ x y hxy).2.2⟩, fun v h heq => ?_⟩
      · trivial
      · cases heq
        rfl

/-- **Two boundaries around the exact value keep the word operation from wrapping.** -/
theorem sound_rangeOrFull {f : ℤ → ℤ → ℤ}
    (hop : ∀ a b w, op.eval a b = some w → IsInt64 (f a.toInt b.toInt) →
      w.toInt = f a.toInt b.toInt) {min max : Option (Boundary T)} {lo hi : ℤ} (hle : lo ≤ hi)
    (hmin : ∀ b ∈ min, BoundaryFor left right length f (· ≤ ·) lo b)
    (hmax : ∀ b ∈ max, BoundaryFor left right length f (· ≥ ·) hi b) :
    Sound op left right length (some (rangeOrFull min max)) := by
  cases min with
  | none => exact sound_int64Range op
  | some min =>
    cases max with
    | none => exact sound_int64Range op
    | some max =>
      specialize hmin min rfl
      specialize hmax max rfl
      refine ⟨⟨min, max⟩, rfl, ?_, fun ρ a b w hab hw => ?_⟩
      · cases min with
        | symbol s offset h => rfl
        | constant v h =>
          cases max with
          | symbol s offset h => rfl
          | constant V h' =>
            rw [Range.inOrder, hmin.constant v h rfl, hmax.constant V h' rfl]
            simpa using hle
      · obtain ⟨hminHolds, hminLe⟩ := hmin.value ρ a b hab
        obtain ⟨hmaxHolds, hmaxLe⟩ := hmax.value ρ a b hab
        have hint := isInt64_of_le hminHolds.isInt64 hmaxHolds.isInt64 hminLe hmaxLe
        rw [Range.Contains, hop a b w hw hint]
        exact ⟨hminLe, hmaxLe⟩

theorem toInt_add_of_eval {w : BitVec 64} (h : eval a b .add = some w)
    (hint : IsInt64 (a.toInt + b.toInt)) : w.toInt = a.toInt + b.toInt := by
  cases h
  rw [BitVec.toInt_add, bmod_eq hint]

theorem toInt_sub_of_eval {w : BitVec 64} (h : eval a b .sub = some w)
    (hint : IsInt64 (a.toInt - b.toInt)) : w.toInt = a.toInt - b.toInt := by
  cases h
  rw [BitVec.toInt_sub, bmod_eq hint]

include hl hr in
theorem sound_rangeAdd : Sound .add left right length (rangeAdd left right length) := by
  have hconstant : ∀ {x y : ℤ}, IsInt64 x → willAddOverflow x y = false →
      add x y = some (x + y) ∧ IsInt64 (x + y) := fun hx hover =>
    have hint := (willAddOverflow_eq_false hx).mp hover
    ⟨add_eq hx hint, hint⟩
  obtain ⟨min, hmin, hminFor⟩ := boundaryOr_spec (R := (· ≤ ·))
    (symbolicAdd_spec (leftBoundaries left length).1 right.min)
    (hconstant (y := n) hl.isInt64_lower) fun ρ x y hxy =>
      have h := (leftBoundaries_spec hxy).1
      ⟨⟨h.1, hxy.rightHolds.1⟩, add_le_add h.2 hxy.rightContains.1,
        add_le_add (hl.mem ρ _ hxy.leftHolds hxy.leftContains).1
          (hr.mem ρ _ hxy.rightHolds hxy.rightContains).1⟩
  obtain ⟨max, hmax, hmaxFor⟩ := boundaryOr_spec (R := (· ≥ ·))
    (symbolicAdd_spec (leftBoundaries left length).2 right.max)
    (hconstant (y := N) hl.isInt64_upper) fun ρ x y hxy =>
      have h := (leftBoundaries_spec hxy).2
      ⟨⟨h.1, hxy.rightHolds.2⟩, add_le_add h.2 hxy.rightContains.2,
        add_le_add (hl.mem ρ _ hxy.leftHolds hxy.leftContains).2
          (hr.mem ρ _ hxy.rightHolds hxy.rightContains).2⟩
  have hresult : rangeAdd left right length = some (rangeOrFull min max) := by
    simp [rangeAdd, hl.lower, hl.upper, hr.lower, hr.upper, hmin, hmax]
  rw [hresult]
  exact sound_rangeOrFull (f := (· + ·)) (fun a b w => toInt_add_of_eval)
    (add_le_add hl.le hr.le) hminFor hmaxFor

include hl hr in
theorem sound_rangeSub : Sound .sub left right length (rangeSub left right length) := by
  have hconstant : ∀ {x y : ℤ}, IsInt64 x → willSubOverflow x y = false →
      sub x y = some (x - y) ∧ IsInt64 (x - y) := fun hx hover =>
    have hint := (willSubOverflow_eq_false hx).mp hover
    ⟨sub_eq hx hint, hint⟩
  obtain ⟨min, hmin, hminFor⟩ := boundaryOr_spec (R := (· ≤ ·))
    (symbolicSub_spec (leftBoundaries left length).1 right.max)
    (hconstant (y := N) hl.isInt64_lower) fun ρ x y hxy =>
      have h := (leftBoundaries_spec hxy).1
      ⟨⟨h.1, hxy.rightHolds.2⟩, sub_le_sub h.2 hxy.rightContains.2,
        sub_le_sub (hl.mem ρ _ hxy.leftHolds hxy.leftContains).1
          (hr.mem ρ _ hxy.rightHolds hxy.rightContains).2⟩
  obtain ⟨max, hmax, hmaxFor⟩ := boundaryOr_spec (R := (· ≥ ·))
    (symbolicSub_spec (leftBoundaries left length).2 right.min)
    (hconstant (y := n) hl.isInt64_upper) fun ρ x y hxy =>
      have h := (leftBoundaries_spec hxy).2
      ⟨⟨h.1, hxy.rightHolds.1⟩, sub_le_sub h.2 hxy.rightContains.1,
        sub_le_sub (hl.mem ρ _ hxy.leftHolds hxy.leftContains).2
          (hr.mem ρ _ hxy.rightHolds hxy.rightContains).1⟩
  have hresult : rangeSub left right length = some (rangeOrFull min max) := by
    simp [rangeSub, hl.lower, hl.upper, hr.lower, hr.upper, hmin, hmax]
  rw [hresult]
  exact sound_rangeOrFull (f := (· - ·)) (fun a b w => toInt_sub_of_eval)
    (sub_le_sub hl.le hr.le) hminFor hmaxFor

/-! ## Shifts

A shift by a constant is monotone in its left operand. -/

/-- A count that does not throw is between the adjusted counts. -/
theorem shiftCount_mem (hb : n ≤ b.toInt ∧ b.toInt ≤ N) (hneg : ¬ b.toInt < 0) :
    (max n 0).toNat ≤ b.toNat ∧ b.toNat ≤ (max N 0).toNat := by
  have hcast := toInt_eq_toNat (not_lt.mp hneg)
  omega

theorem amount_nonneg {p : Prop} [Decidable p] : 0 ≤ if p then max n 0 else max N 0 := by
  split
  · exact le_max_right n 0
  · exact le_max_right N 0

theorem shiftCounts_eq (hr : right.Bounds n N) : shiftCounts right = some (max n 0, max N 0) := by
  simp [shiftCounts, hr.constantMin, hr.constantMax]

theorem counts_le (hr : right.Bounds n N) : (max n 0).toNat ≤ (max N 0).toNat :=
  Int.toNat_le_toNat (max_le_max_right 0 hr.le)

/-- A left shift that does not overflow is a multiplication. -/
theorem shl_spec {value count : ℤ} (hv : IsInt64 value) (hcount : 0 ≤ count)
    (h : willShlOverflow value count = false) :
    shl value count = some (value * 2 ^ count.toNat) ∧ IsInt64 (value * 2 ^ count.toNat) := by
  have hint : IsInt64 (value * 2 ^ count.toNat) := by
    by_cases hzero : value = 0
    · rw [hzero, zero_mul]
      exact isInt64_zero
    simp only [willShlOverflow, hzero, ne_eq, not_false_eq_true, decide_true, Bool.true_and,
      Bool.or_eq_false_iff, decide_eq_false_iff_not, Bool.not_eq_false', isInt,
      Bool.or_eq_true, Bool.and_eq_true, decide_eq_true_eq] at h
    obtain ⟨hlt, hbits | ⟨hlo, hhi⟩⟩ := h
    · have hcount0 : count.toNat = 0 := by omega
      rwa [hcount0, pow_zero, mul_one]
    have hpos : (0 : ℤ) < 2 ^ count.toNat := by positivity
    have hsplit : (2 : ℤ) ^ ((64 - count).toNat - 1) * 2 ^ count.toNat = 2 ^ 63 := by
      rw [← pow_add]
      congr 1
      omega
    have h1 := mul_le_mul_of_nonneg_right hlo hpos.le
    have h2 := mul_lt_mul_of_pos_right hhi hpos
    rw [neg_mul, hsplit] at h1
    unfold IsInt64 minInt64 maxInt64
    constructor <;> omega
  refine ⟨?_, hint⟩
  have hword : (BitVec.ofInt 64 value <<< count.toNat).toInt = value * 2 ^ count.toNat := by
    have hvalue := toInt_ofInt hv
    rw [toInt_shiftLeft (by rwa [hvalue]), hvalue]
  by_cases hzero : value = 0
  · subst hzero
    simp [shl, h, hcount]
  · simp [shl, h, hcount, hzero, hword]

/-- The extreme products: a positive bound is furthest from zero with the greater count, a negative
one nearest. -/
theorem mul_pow_bounds {i j : ℤ} (hx : m ≤ x ∧ x ≤ M) (hi : i.toNat ≤ t) (hj : t ≤ j.toNat) :
    m * 2 ^ (if 0 < m then i else j).toNat ≤ x * 2 ^ t ∧
      x * 2 ^ t ≤ M * 2 ^ (if 0 < M then j else i).toNat := by
  have hit : (2 : ℤ) ^ i.toNat ≤ 2 ^ t := pow_le_pow_right₀ (by decide) hi
  have htj : (2 : ℤ) ^ t ≤ 2 ^ j.toNat := pow_le_pow_right₀ (by decide) hj
  have hpos : (0 : ℤ) < 2 ^ i.toNat := by positivity
  constructor
  all_goals split <;> nlinarith

include hl hr in
theorem sound_rangeShl : Sound .shl left right length (rangeShl left right) := by
  simp only [rangeShl, hl.constantMin, hl.constantMax, shiftCounts_eq hr, bind_eq_bind, bind_some]
  cases hover : willShlOverflow m (if 0 < m then max n 0 else max N 0) ||
      willShlOverflow M (if 0 < M then max N 0 else max n 0) with
  | true => exact sound_int64Range _
  | false =>
    rw [Bool.or_eq_false_iff] at hover
    obtain ⟨hmin, hminInt⟩ := shl_spec hl.isInt64_lower amount_nonneg hover.1
    obtain ⟨hmax, hmaxInt⟩ := shl_spec hl.isInt64_upper amount_nonneg hover.2
    simp only [hmin, hmax, bind_some, Bool.false_eq_true, if_false]
    refine sound_constantRange hl hr hminInt hmaxInt ?_ fun a b w ha hb hw => ?_
    · have hself := mul_pow_bounds ⟨le_rfl, hl.le⟩ le_rfl (counts_le hr)
      exact hself.1.trans hself.2
    by_cases hneg : b.toInt < 0
    · simp [eval, hneg] at hw
    rw [eval_shl hneg] at hw
    cases hw
    obtain ⟨hi, hj⟩ := shiftCount_mem hb hneg
    obtain ⟨h1, h2⟩ := mul_pow_bounds ha hi hj
    rw [toInt_shiftLeft (isInt64_of_le hminInt hmaxInt h1 h2)]
    exact ⟨h1, h2⟩

/-- A right shift of an `int64_t` by any count. -/
theorem shr_spec {value count : ℤ} (hv : IsInt64 value) (hcount : 0 ≤ count) :
    shr value count = some (value >>> count.toNat) := by
  have hlarge : 63 < count → value >>> count.toNat = if 0 ≤ value then 0 else -1 := by
    intro hcount'
    have hbits : InBits 63 value := by
      unfold IsInt64 minInt64 maxInt64 at hv
      unfold InBits
      omega
    have hsign := inBits_iff.mp (hbits.mono (show 63 ≤ count.toNat by omega))
    split
    · rename_i hnonneg
      have h : 0 ≤ value >>> count.toNat := Int.le_shiftRight_of_nonneg hnonneg
      omega
    · rename_i hneg
      have h := shiftRight_neg (not_le.mp hneg) count.toNat
      omega
  by_cases hsmall : count ≤ 63
  · simp [shr, hcount, hsmall]
  · simp [shr, hcount, hsmall, hlarge (not_le.mp hsmall)]

/-- The extreme right shifts. -/
theorem shiftRight_bounds {i j : ℤ} (hx : m ≤ x ∧ x ≤ M) (hi : i.toNat ≤ t) (hj : t ≤ j.toNat) :
    m >>> (if 0 < m then j else i).toNat ≤ x >>> t ∧
      x >>> t ≤ M >>> (if 0 < M then i else j).toNat := by
  constructor
  · split
    · rename_i hm
      exact (shiftRight_le_of_le hm.le hj).trans (shiftRight_mono hx.1 t)
    rename_i hm
    rcases lt_or_ge m 0 with hneg | hnonneg
    · exact (le_shiftRight_of_le hneg hi).trans (shiftRight_mono hx.1 t)
    · obtain rfl : m = 0 := le_antisymm (not_lt.mp hm) hnonneg
      rw [Int.zero_shiftRight]
      exact Int.le_shiftRight_of_nonneg hx.1
  · split
    · rename_i hM
      exact (shiftRight_mono hx.2 t).trans (shiftRight_le_of_le hM.le hi)
    rename_i hM
    rcases lt_or_ge M 0 with hneg | hnonneg
    · exact (shiftRight_mono hx.2 t).trans (le_shiftRight_of_le hneg hj)
    · obtain rfl : M = 0 := le_antisymm (not_lt.mp hM) hnonneg
      rw [Int.zero_shiftRight]
      exact (shiftRight_mono hx.2 t).trans_eq (Int.zero_shiftRight t)

/-- Shifting right stays an `int64_t`. -/
theorem isInt64_shiftRight (h : IsInt64 x) (k : ℕ) : IsInt64 (x >>> k) := by
  rcases lt_or_ge x 0 with hneg | hnonneg
  · exact isInt64_of_le h isInt64_zero (Int.le_shiftRight_of_nonpos hneg.le)
      (shiftRight_neg hneg k).le
  · exact isInt64_of_le isInt64_zero h (Int.le_shiftRight_of_nonneg hnonneg)
      (Int.shiftRight_le_of_nonneg hnonneg)

include hl hr in
theorem sound_rangeShr : Sound .shr left right length (rangeShr left right) := by
  simp only [rangeShr, hl.constantMin, hl.constantMax, shiftCounts_eq hr, bind_eq_bind,
    bind_some, shr_spec hl.isInt64_lower amount_nonneg, shr_spec hl.isInt64_upper amount_nonneg]
  refine sound_constantRange hl hr (isInt64_shiftRight hl.isInt64_lower _)
    (isInt64_shiftRight hl.isInt64_upper _) ?_ fun a b w ha hb hw => ?_
  · have hself := shiftRight_bounds ⟨le_rfl, hl.le⟩ le_rfl (counts_le hr)
    exact hself.1.trans hself.2
  by_cases hneg : b.toInt < 0
  · simp [eval, hneg] at hw
  simp only [eval, hneg, if_false, some.injEq] at hw
  obtain ⟨hi, hj⟩ := shiftCount_mem hb hneg
  rw [← hw, BitVec.toInt_sshiftRight]
  exact shiftRight_bounds ha hi hj

/-- A signed range as an unsigned one. -/
theorem convertRangeToUnsigned_spec (hm : IsInt64 m) (hM : IsInt64 M) (hle : m ≤ M) :
    ∃ u U, convertRangeToUnsigned m M = some (u, U) ∧ u ≤ U ∧ U < 2 ^ 64 ∧
      ∀ a : BitVec 64, m ≤ a.toInt ∧ a.toInt ≤ M → u ≤ a.toNat ∧ a.toNat ≤ U := by
  have hcast : ∀ x, IsInt64 x → (toUnsigned x : ℤ) = if 0 ≤ x then x else x + 2 ^ 64 := by
    intro x hx
    unfold IsInt64 minInt64 maxInt64 at hx
    rw [toUnsigned, BitVec.toNat_ofInt]
    split <;> omega
  have hword : ∀ a : BitVec 64, (a.toNat : ℤ) = if 0 ≤ a.toInt then a.toInt
      else a.toInt + 2 ^ 64 := by
    intro a
    rw [← hcast _ (isInt64_toInt a), toUnsigned, BitVec.ofInt_toInt]
  by_cases hwrap : m < 0 ∧ 0 ≤ M
  · refine ⟨0, 2 ^ 64 - 1, ?_, by decide, by decide, fun a _ => ⟨Nat.zero_le _, ?_⟩⟩
    · simp [convertRangeToUnsigned, hle, hwrap]
    · exact Nat.le_sub_one_of_lt a.isLt
  have h1 := hcast m hm
  have h2 := hcast M hM
  unfold IsInt64 minInt64 maxInt64 at hm hM
  refine ⟨toUnsigned m, toUnsigned M, ?_, ?_, ?_, fun a ha => ?_⟩
  · simp [convertRangeToUnsigned, hle, hwrap]
  · split at h1 <;> split at h2 <;> omega
  · split at h2 <;> omega
  · have h3 := hword a
    split at h1 <;> split at h2 <;> split at h3 <;> omega

/-- An unsigned range as a signed one. -/
theorem convertRangeToSigned_spec {u U : ℕ} (hle : u ≤ U) (hU : U < 2 ^ 64) :
    ∃ s S, convertRangeToSigned u U = some (s, S) ∧ IsInt64 s ∧ IsInt64 S ∧ s ≤ S ∧
      ∀ w : BitVec 64, u ≤ w.toNat ∧ w.toNat ≤ U → s ≤ w.toInt ∧ w.toInt ≤ S := by
  have hcast : ∀ k : ℕ, k < 2 ^ 64 →
      toSigned k = if k < 2 ^ 63 then (k : ℤ) else (k : ℤ) - 2 ^ 64 := by
    intro k hk
    rw [toSigned, BitVec.toInt_eq_toNat_cond, BitVec.toNat_ofNat, Nat.mod_eq_of_lt hk]
    split <;> split <;> omega
  have hword : ∀ w : BitVec 64,
      w.toInt = if w.toNat < 2 ^ 63 then (w.toNat : ℤ) else (w.toNat : ℤ) - 2 ^ 64 := by
    intro w
    rw [← hcast _ w.isLt, toSigned, BitVec.ofNat_toNat, BitVec.setWidth_eq]
  by_cases hwrap : u < 2 ^ 63 ∧ 2 ^ 63 ≤ U
  · refine ⟨minInt64, maxInt64, ?_, by decide, by decide, by decide, fun w _ => isInt64_toInt w⟩
    simp only [convertRangeToSigned, hle, if_pos hwrap]
    rfl
  have h1 := hcast u (hle.trans_lt hU)
  have h2 := hcast U hU
  refine ⟨toSigned u, toSigned U, ?_, isInt64_toInt _, isInt64_toInt _, ?_, fun w hw => ?_⟩
  · simp only [convertRangeToSigned, hle, hwrap, if_false]
    rfl
  · split at h1 <;> split at h2 <;> omega
  · have h3 := hword w
    split at h1 <;> split at h2 <;> split at h3 <;> omega

/-- The extreme unsigned shifts; a count above 63 clears the word. -/
theorem ushiftRight_bounds {u U x : ℕ} {i j : ℤ} (hx : u ≤ x ∧ x ≤ U) (hx64 : x < 2 ^ 64)
    (hi : i.toNat ≤ t) (hj : t ≤ j.toNat) : (if 64 ≤ j then 0 else u >>> j.toNat) ≤ x >>> t ∧
      x >>> t ≤ if 64 ≤ i then 0 else U >>> i.toNat := by
  constructor
  · split
    · exact Nat.zero_le _
    · rw [Nat.shiftRight_eq_div_pow, Nat.shiftRight_eq_div_pow]
      exact Nat.div_le_div hx.1 (Nat.pow_le_pow_right (by decide) hj) (by positivity)
  · split
    · rename_i hlarge
      have hpow : 2 ^ 64 ≤ 2 ^ t := Nat.pow_le_pow_right (by decide) (by omega)
      rw [Nat.shiftRight_eq_div_pow, Nat.div_eq_of_lt (hx64.trans_le hpow)]
    · rw [Nat.shiftRight_eq_div_pow, Nat.shiftRight_eq_div_pow]
      exact Nat.div_le_div hx.2 (Nat.pow_le_pow_right (by decide) hi) (by positivity)

include hl hr in
theorem sound_rangeUshr : Sound .ushr left right length (rangeUshr left right) := by
  obtain ⟨u, U, hunsigned, huU, hU, humem⟩ :=
    convertRangeToUnsigned_spec hl.isInt64_lower hl.isInt64_upper hl.le
  have hself := ushiftRight_bounds (u := u) (U := U) ⟨huU, le_rfl⟩ hU le_rfl (counts_le hr)
  have hupper : (if 64 ≤ max n 0 then 0 else U >>> (max n 0).toNat) < 2 ^ 64 := by
    split
    · decide
    · exact (Nat.shiftRight_le U _).trans_lt hU
  obtain ⟨s, S, hsigned, hs, hS, hsS, hsmem⟩ :=
    convertRangeToSigned_spec (hself.1.trans hself.2) hupper
  have hresult : rangeUshr left right = constantRange s S := by
    simp only [rangeUshr, hl.constantMin, hl.constantMax, shiftCounts_eq hr, hunsigned,
      bind_eq_bind, bind_some, hsigned]
  rw [hresult]
  refine sound_constantRange hl hr hs hS hsS fun a b w ha hb hw => ?_
  by_cases hneg : b.toInt < 0
  · simp [eval, hneg] at hw
  simp only [eval, hneg, if_false, some.injEq] at hw
  obtain ⟨hi, hj⟩ := shiftCount_mem hb hneg
  refine hsmem w ?_
  rw [← hw, BitVec.toNat_ushiftRight]
  exact ushiftRight_bounds (humem a ha) a.isLt hi hj

theorem bitSize_eq {r : Range T} (h : r.Bounds m M) :
    bitSize r = some (max (bitLength m) (bitLength M)) := by
  simp [bitSize, h.constantMin, h.constantMax]

/-- The constants of `BitwiseOp`. -/
theorem bitwise_constants : ∀ k ≤ 63, (-(1#64 <<< k)).toInt = -(2 ^ k) ∧
    ((1#64 <<< k) - 1#64).toInt = 2 ^ k - 1 := by
  decide

theorem sound_rangeBitwiseOp {f : BitVec 64 → BitVec 64 → BitVec 64}
    (hop : ∀ a b, op.eval a b = some (f a b))
    (hbits : ∀ {k a b}, InBits k a.toInt → InBits k b.toInt → InBits k (f a b).toInt)
    (hsign : ∀ a b, 0 ≤ a.toInt → 0 ≤ b.toInt → 0 ≤ (f a b).toInt)
    (hl : left.Bounds m M) (hr : right.Bounds n N) :
    Sound op left right length (rangeBitwiseOp left right) := by
  set k := max (max (bitLength m) (bitLength M)) (max (bitLength n) (bitLength N)) with hk
  have hk63 : k ≤ 63 := max_le
    (max_le (bitLength_le hl.isInt64_lower) (bitLength_le hl.isInt64_upper))
    (max_le (bitLength_le hr.isInt64_lower) (bitLength_le hr.isInt64_upper))
  obtain ⟨hneg, hpos⟩ := bitwise_constants k hk63
  have hpow : (1 : ℤ) ≤ 2 ^ k := one_le_pow₀ (by decide)
  have hresult : rangeBitwiseOp left right =
      constantRange (if 0 ≤ m ∧ 0 ≤ n then 0 else (-(1#64 <<< k)).toInt)
        ((1#64 <<< k) - 1#64).toInt := by
    simp [rangeBitwiseOp, bitSize_eq hl, bitSize_eq hr, hl.onlyGreaterThanOrEqualTo,
      hr.onlyGreaterThanOrEqualTo, hk]
  rw [hresult]
  refine sound_constantRange hl hr ?_ (isInt64_toInt _) ?_ fun a b w ha hb hw => ?_
  · split
    · exact isInt64_zero
    · exact isInt64_toInt _
  · split <;> omega
  rw [hop, some.injEq] at hw
  have hin : InBits k (f a b).toInt := hbits
    (inBits_of_between (le_max_of_le_left (le_max_left _ _))
      (le_max_of_le_left (le_max_right _ _)) ha.1 ha.2)
    (inBits_of_between (le_max_of_le_right (le_max_left _ _))
      (le_max_of_le_right (le_max_right _ _)) hb.1 hb.2)
  rw [← hw, hpos]
  refine ⟨?_, Int.le_sub_one_of_lt hin.2⟩
  split
  · rename_i hsigns
    exact hsign a b (hsigns.1.trans ha.1) (hsigns.2.trans hb.1)
  · rw [hneg]
    exact hin.1

include hl hr in
theorem sound_rangeOr : Sound .bitOr left right length (rangeBitwiseOp left right) := by
  refine sound_rangeBitwiseOp (fun _ _ => rfl) inBits_or (fun a b ha hb => ?_) hl hr
  rw [toInt_nonneg_iff] at *
  rw [BitVec.msb_or, ha, hb, Bool.or_false]

include hl hr in
theorem sound_rangeXor : Sound .bitXor left right length (rangeBitwiseOp left right) := by
  refine sound_rangeBitwiseOp (fun _ _ => rfl) inBits_xor (fun a b ha hb => ?_) hl hr
  rw [toInt_nonneg_iff] at *
  rw [BitVec.msb_xor, ha, hb, Bool.xor_false]

include hl hr in
/-- A mask with a range that is not negative gives its own bound; otherwise the bits do. -/
theorem sound_rangeAnd : Sound .bitAnd left right length (rangeAnd left right) := by
  simp only [rangeAnd, hl.constantMin, hl.constantMax, hr.constantMin, hr.constantMax,
    bind_eq_bind, bind_some]
  by_cases hn : 0 ≤ n
  · rw [if_pos hn]
    refine sound_constantRange hl hr isInt64_zero hr.isInt64_upper (hn.trans hr.le)
      fun a b w _ hb hw => ?_
    cases hw
    obtain ⟨h1, h2⟩ := toInt_and_le (a := a) (hn.trans hb.1)
    exact ⟨h1, h2.trans hb.2⟩
  rw [if_neg hn]
  by_cases hm : 0 ≤ m
  · rw [if_pos hm]
    refine sound_constantRange hl hr isInt64_zero hl.isInt64_upper (hm.trans hl.le)
      fun a b w ha _ hw => ?_
    cases hw
    rw [BitVec.and_comm]
    obtain ⟨h1, h2⟩ := toInt_and_le (a := b) (hm.trans ha.1)
    exact ⟨h1, h2.trans ha.2⟩
  · rw [if_neg hm]
    exact sound_rangeBitwiseOp (fun _ _ => rfl) inBits_and
      (fun a b _ hb => (toInt_and_le hb).1) hl hr

/-! ## Products and quotients

The extreme values are at the corners of the two ranges. -/

theorem absMin_nonneg : 0 ≤ absMin m M := by
  have hmax : (0 : ℤ) ≤ maxInt64 := by decide
  exact le_min (le_min (abs_nonneg m) hmax) (le_min (abs_nonneg M) hmax)

theorem absMax_le : absMax m M ≤ maxInt64 := max_le (min_le_right _ _) (min_le_right _ _)

theorem absMin_le_absMax : absMin m M ≤ absMax m M := (min_le_left _ _).trans (le_max_left _ _)

/-- Without saturation, all absolute values are below the greatest one. -/
theorem abs_le_absMax (hm : |m| ≤ maxInt64) (hM : |M| ≤ maxInt64) (hx : m ≤ x ∧ x ≤ M) :
    |x| ≤ absMax m M := by
  rw [absMax, min_eq_left hm, min_eq_left hM]
  exact abs_le_max_abs_abs hx.1 hx.2

theorem abs_le_of_absMax_lt (h : absMax m M < maxInt64) : |m| ≤ maxInt64 ∧ |M| ≤ maxInt64 := by
  obtain ⟨hm, hM⟩ := max_lt_iff.mp h
  exact ⟨((min_lt_iff.mp hm).resolve_right (lt_irrefl _)).le,
    ((min_lt_iff.mp hM).resolve_right (lt_irrefl _)).le⟩

/-- In a range of one sign all absolute values are above the least one. -/
theorem absMin_le_abs (hsign : 0 ≤ m ∨ M ≤ 0) (hx : m ≤ x ∧ x ≤ M) : absMin m M ≤ |x| := by
  rcases hsign with hm | hM
  · refine (min_le_left _ _).trans ((min_le_left _ _).trans ?_)
    rw [abs_of_nonneg hm, abs_of_nonneg (hm.trans hx.1)]
    exact hx.1
  · refine (min_le_right _ _).trans ((min_le_left _ _).trans ?_)
    rw [abs_of_nonpos hM, abs_of_nonpos (hx.2.trans hM)]
    exact neg_le_neg hx.2

theorem toInt_mul_of_abs {A B : ℤ} (ha : |a.toInt| ≤ A) (hb : |b.toInt| ≤ B)
    (hAB : A * B ≤ maxInt64) : (a * b).toInt = a.toInt * b.toInt ∧ |a.toInt * b.toInt| ≤ A * B := by
  have habs : |a.toInt * b.toInt| ≤ A * B := by
    rw [abs_mul]
    exact mul_le_mul ha hb (abs_nonneg _) ((abs_nonneg _).trans ha)
  refine ⟨?_, habs⟩
  have hbounds := abs_le.mp (habs.trans hAB)
  rw [BitVec.toInt_mul, bmod_eq]
  unfold IsInt64 minInt64
  unfold maxInt64 at *
  omega

include hl hr in
theorem sound_rangeMul : Sound .mul left right length (rangeMul left right) := by
  set A := absMax m M with hA
  set B := absMax n N with hB
  have hAnonneg : 0 ≤ A := absMin_nonneg.trans absMin_le_absMax
  have hBnonneg : 0 ≤ B := absMin_nonneg.trans absMin_le_absMax
  simp only [rangeMul, hl.constantAbsMax, hr.constantAbsMax, onlyPositiveOrZero,
    onlyNegativeOrZero, hl.onlyGreaterThanOrEqualTo, hr.onlyGreaterThanOrEqualTo,
    hl.onlyLessThanOrEqualTo, hr.onlyLessThanOrEqualTo, hl.constantAbsMin, hr.constantAbsMin,
    bind_eq_bind, bind_some, pure_def, ← hA, ← hB]
  by_cases hcond : A ≤ -T.smiMin ∧ B ≤ -T.smiMin ∧ (A = 0 ∨ B ≤ maxInt64 / A)
  swap
  · simp only [if_neg hcond]
    exact sound_int64Range _
  have hpow := T.smiPow_le
  have hsmi : -T.smiMin < maxInt64 := by
    unfold Target.smiMin maxInt64
    omega
  have hAB : A * B ≤ maxInt64 := by
    rcases hcond.2.2 with hzero | hdiv
    · rw [hzero, zero_mul]
      decide
    rcases hAnonneg.eq_or_lt with hzero | hpos
    · rw [← hzero, zero_mul]
      decide
    · rw [mul_comm]
      exact (Int.le_ediv_iff_mul_le hpos).mp hdiv
  have hABint : IsInt64 (A * B) := ⟨le_trans (by decide) (mul_nonneg hAnonneg hBnonneg), hAB⟩
  obtain ⟨hm, hM⟩ := abs_le_of_absMax_lt (hcond.1.trans_lt hsmi)
  obtain ⟨hn, hN⟩ := abs_le_of_absMax_lt (hcond.2.1.trans_lt hsmi)
  have hword : ∀ a b : BitVec 64, (m ≤ a.toInt ∧ a.toInt ≤ M) → (n ≤ b.toInt ∧ b.toInt ≤ N) →
      (a * b).toInt = a.toInt * b.toInt ∧ |a.toInt * b.toInt| ≤ A * B := fun a b ha hb =>
    toInt_mul_of_abs (abs_le_absMax hm hM ha) (abs_le_absMax hn hN hb) hAB
  simp only [if_pos hcond, checked_eq hABint, bind_some]
  cases hsigns : (decide (0 ≤ m) && decide (0 ≤ n)) || (decide (M ≤ 0) && decide (N ≤ 0)) with
  | true =>
    set C := absMin m M with hC
    set D := absMin n N with hD
    have hCD : C * D ≤ A * B :=
      mul_le_mul absMin_le_absMax absMin_le_absMax absMin_nonneg hAnonneg
    have hCDint : IsInt64 (C * D) :=
      ⟨le_trans (by decide) (mul_nonneg absMin_nonneg absMin_nonneg), hCD.trans hAB⟩
    simp only [if_true, checked_eq hCDint, bind_some]
    refine sound_constantRange hl hr hCDint hABint hCD fun a b w ha hb hw => ?_
    cases hw
    obtain ⟨heq, hle⟩ := hword a b ha hb
    -- of two values with one sign, the product is that of the absolute values
    have hsame : (0 ≤ m ∧ 0 ≤ n) ∨ (M ≤ 0 ∧ N ≤ 0) := by simpa using hsigns
    have hleft : C ≤ |a.toInt| := absMin_le_abs (hsame.imp And.left And.left) ha
    have hright : D ≤ |b.toInt| := absMin_le_abs (hsame.imp And.right And.right) hb
    have hproduct : |a.toInt * b.toInt| = a.toInt * b.toInt := by
      refine abs_of_nonneg ?_
      rcases hsame with ⟨hm, hn⟩ | ⟨hM, hN⟩
      · exact mul_nonneg (hm.trans ha.1) (hn.trans hb.1)
      · exact mul_nonneg_of_nonpos_of_nonpos (ha.2.trans hM) (hb.2.trans hN)
    rw [heq, ← hproduct]
    refine ⟨?_, hle⟩
    rw [abs_mul]
    exact mul_le_mul hleft hright absMin_nonneg (abs_nonneg _)
  | false =>
    have hneg : IsInt64 (-(A * B)) := by
      have hnonneg := mul_nonneg hAnonneg hBnonneg
      unfold IsInt64 minInt64 maxInt64 at *
      omega
    simp only [Bool.false_eq_true, if_false, checked_eq hneg, bind_some]
    have hnonneg := mul_nonneg hAnonneg hBnonneg
    refine sound_constantRange hl hr hneg hABint (by omega) fun a b w ha hb hw => ?_
    cases hw
    obtain ⟨heq, hle⟩ := hword a b ha hb
    rw [heq]
    exact abs_le.mp hle

theorem absMax_of_nonneg (hm : 0 ≤ m) (hle : m ≤ M) (hM : IsInt64 M) : absMax m M = M := by
  have hmax := hM.2
  rw [absMax, abs_of_nonneg hm, abs_of_nonneg (hm.trans hle), min_eq_left (hle.trans hmax),
    min_eq_left hmax, max_eq_right hle]

theorem absMin_of_nonneg (hm : 0 ≤ m) (hle : m ≤ M) (hM : IsInt64 M) : absMin m M = m := by
  have hmax := hM.2
  rw [absMin, abs_of_nonneg hm, abs_of_nonneg (hm.trans hle), min_eq_left (hle.trans hmax),
    min_eq_left hmax, min_eq_left hle]

/-- A greater divisor gives a smaller quotient. -/
theorem ediv_le_ediv_of_le {z : ℤ} (hx : 0 ≤ x) (hy : 1 ≤ y) (hyz : y ≤ z) : x / z ≤ x / y := by
  rw [Int.le_ediv_iff_mul_le (by omega)]
  calc x / z * y ≤ x / z * z := mul_le_mul_of_nonneg_left hyz (Int.ediv_nonneg hx (by omega))
    _ ≤ x := Int.ediv_mul_le x (by omega)

/-- Quotients of values that are not negative. -/
theorem tdiv_bounds (hm : 0 ≤ m) (hn : 1 ≤ n) (hx : m ≤ x ∧ x ≤ M)
    (hy : n ≤ y ∧ y ≤ N) : m.tdiv N ≤ x.tdiv y ∧ x.tdiv y ≤ M.tdiv n := by
  have hx0 := hm.trans hx.1
  rw [Int.tdiv_eq_ediv_of_nonneg hm, Int.tdiv_eq_ediv_of_nonneg hx0,
    Int.tdiv_eq_ediv_of_nonneg (hx0.trans hx.2)]
  constructor
  · calc m / N ≤ m / y := ediv_le_ediv_of_le hm (hn.trans hy.1) hy.2
      _ ≤ x / y := Int.ediv_le_ediv (by omega) hx.1
  · calc x / y ≤ M / y := Int.ediv_le_ediv (by omega) hx.2
      _ ≤ M / n := ediv_le_ediv_of_le (hx0.trans hx.2) hn hy.1

theorem isInt64_tdiv (hx : IsInt64 x) (hx0 : 0 ≤ x) (hy : 1 ≤ y) : IsInt64 (x.tdiv y) := by
  rw [Int.tdiv_eq_ediv_of_nonneg hx0]
  exact isInt64_of_le isInt64_zero hx (Int.ediv_nonneg hx0 (by omega)) (Int.ediv_le_self y hx0)

include hl hr in
theorem sound_rangeTruncDiv : Sound .truncDiv left right length (rangeTruncDiv left right) := by
  simp only [rangeTruncDiv, hl.onlyGreaterThanOrEqualTo, hr.onlyGreaterThanOrEqualTo,
    hl.constantAbsMax, hr.constantAbsMax, hl.constantAbsMin, hr.constantAbsMin,
    bind_eq_bind, bind_some, pure_def]
  cases hsigns : decide (0 ≤ m) && decide (1 ≤ n) with
  | false => exact sound_int64Range _
  | true =>
    obtain ⟨hm, hn⟩ : 0 ≤ m ∧ 1 ≤ n := by simpa using hsigns
    have hn0 : 0 ≤ n := le_trans (by decide) hn
    have hM := hm.trans hl.le
    have hN := hn.trans hr.le
    have hguard : n ≠ 0 ∧ N ≠ 0 := by omega
    simp only [if_true, absMax_of_nonneg hm hl.le hl.isInt64_upper,
      absMin_of_nonneg hm hl.le hl.isInt64_upper, absMax_of_nonneg hn0 hr.le hr.isInt64_upper,
      absMin_of_nonneg hn0 hr.le hr.isInt64_upper, hguard, not_false_eq_true, and_self, ne_eq]
    have hself := tdiv_bounds hm hn ⟨le_rfl, hl.le⟩ ⟨le_rfl, hr.le⟩
    refine sound_constantRange hl hr (isInt64_tdiv hl.isInt64_lower hm hN)
      (isInt64_tdiv hl.isInt64_upper hM hn) (hself.1.trans hself.2) fun a b w ha hb hw => ?_
    rw [eval] at hw
    split at hw
    · cases hw
    cases hw
    have hint := isInt64_tdiv (isInt64_toInt a) (hm.trans ha.1) (hn.trans hb.1)
    rw [BitVec.toInt_sdiv, bmod_eq hint]
    exact tdiv_bounds hm hn ha hb

include hl hr in
theorem sound_rangeMod : Sound .mod left right length (rangeMod right) := by
  have hword : ∀ a b w, eval a b .mod = some w →
      w.toInt = a.toInt % b.toInt ∧ 0 ≤ w.toInt ∧ w.toInt < |b.toInt| := by
    intro a b w hw
    rw [eval] at hw
    split at hw
    · cases hw
    rename_i hb
    cases hw
    have hb0 : b.toInt ≠ 0 := fun h => hb (BitVec.toInt_inj.mp (by simpa using h))
    have hnonneg := Int.emod_nonneg a.toInt hb0
    have hlt := Int.emod_lt_abs a.toInt hb0
    have hb64 := isInt64_toInt b
    have hint : IsInt64 (a.toInt % b.toInt) := by
      have habs : |b.toInt| ≤ 9223372036854775808 := by
        unfold IsInt64 minInt64 maxInt64 at hb64
        rw [abs_le]
        omega
      unfold IsInt64 minInt64 maxInt64
      omega
    rw [toInt_ofInt hint]
    exact ⟨rfl, hnonneg, hlt⟩
  simp only [rangeMod, hr.constantMin, hr.constantAbsMax, bind_eq_bind, bind_some]
  by_cases hmin : n = minInt64
  · simp only [hmin, ne_eq, not_true, if_false]
    refine sound_constantRange hl hr isInt64_zero (by decide) (by decide) fun a b w _ _ hw => ?_
    exact ⟨(hword a b w hw).2.1, (isInt64_toInt w).2⟩
  have hnonneg : 0 ≤ absMax n N := absMin_nonneg.trans absMin_le_absMax
  have hle : absMax n N ≤ maxInt64 := absMax_le
  have hint : IsInt64 (absMax n N - 1) := by
    unfold IsInt64 minInt64
    unfold maxInt64 at *
    omega
  simp only [ne_eq, hmin, not_false_eq_true, if_true, checked_eq hint, bind_some]
  have hmaxInt : IsInt64 (max (absMax n N - 1) 0) :=
    isInt64_of_le isInt64_zero (by decide : IsInt64 maxInt64) (le_max_right _ _)
      (max_le hint.2 (by decide))
  refine sound_constantRange hl hr isInt64_zero hmaxInt (le_max_right _ _)
    fun a b w _ hb hw => ?_
  obtain ⟨-, h1, h2⟩ := hword a b w hw
  have habs : |b.toInt| ≤ absMax n N := by
    refine abs_le_absMax ?_ ?_ hb
    all_goals
      have hn := hr.isInt64_lower
      have hN := hr.isInt64_upper
      unfold IsInt64 minInt64 maxInt64 at *
      rw [abs_le]
      omega
  exact ⟨h1, le_max_of_le_left (Int.le_sub_one_of_lt (h2.trans_le habs))⟩

include hl hr in
theorem sound_binaryOp : Sound op left right length (binaryOp op left right length) := by
  have hsound : ∀ {result : Checked (Range T)}, Sound op left right length result →
      Sound op left right length (do let result ← result; guard result.inOrder; return result) := by
    rintro _ ⟨r, rfl, horder, hcontains⟩
    exact ⟨r, by simp [horder], horder, hcontains⟩
  cases op with
  | add => exact hsound (sound_rangeAdd hl hr)
  | sub => exact hsound (sound_rangeSub hl hr)
  | mul => exact hsound (sound_rangeMul hl hr)
  | truncDiv => exact hsound (sound_rangeTruncDiv hl hr)
  | mod => exact hsound (sound_rangeMod hl hr)
  | bitAnd => exact hsound (sound_rangeAnd hl hr)
  | bitOr => exact hsound (sound_rangeOr hl hr)
  | bitXor => exact hsound (sound_rangeXor hl hr)
  | shl => exact hsound (sound_rangeShl hl hr)
  | shr => exact hsound (sound_rangeShr hl hr)
  | ushr => exact hsound (sound_rangeUshr hl hr)

/-- **The range of a binary operation is sound**, and computing it neither overflows nor fails an
assertion. -/
theorem binaryOp_sound (op : BinaryOp) (left right : Range T) (length : Option (Symbol T))
    (hl : left.Satisfiable) (hr : right.Satisfiable) : ∃ r, binaryOp op left right length = some r ∧
      ∀ ρ a b w, Operands ρ left right length a b → op.eval a b = some w →
        r.Contains ρ w.toInt := by
  obtain ⟨m, M, hleft⟩ := hl.exists_bounds
  obtain ⟨n, N, hright⟩ := hr.exists_bounds
  obtain ⟨r, hr, -, hcontains⟩ := sound_binaryOp hleft hright
  exact ⟨r, hr, hcontains⟩

/-- The 64-bit targets. -/
def target64 : Target := ⟨62, le_rfl⟩

/-- The ranges `[s, s + 10]`, for a Smi `s`, and `[1, 3]`. -/
def symbolRange : Range target64 :=
  ⟨fromDefinition (.unranged 0), .symbol (.unranged 0) 10 (by decide)⟩

/-- The integers from 1 to 3. -/
def smallRange : Range target64 := ⟨.constant 1 (by decide), .constant 3 (by decide)⟩

theorem satisfiable_smallRange : smallRange.Satisfiable := by
  intro m M hm hM
  have hmin : smallRange.constantMin = some 1 := by decide
  have hmax : smallRange.constantMax = some 3 := by decide
  cases hmin.symm.trans hm
  cases hmax.symm.trans hM
  decide

/-- With `s = 7`, the sum 12 + 2 is in the range of the addition. -/
theorem binaryOp_sound_symbolRange :
    ∃ r, binaryOp .add symbolRange smallRange none = some r ∧ r.Contains (fun _ => 7) 14 := by
  have hl : symbolRange.Satisfiable := by
    intro m M hm hM
    have hmin : symbolRange.constantMin = some (-4611686018427387904) := by decide
    have hmax : symbolRange.constantMax = some 4611686018427387913 := by decide
    cases hmin.symm.trans hm
    cases hmax.symm.trans hM
    decide
  obtain ⟨r, hresult, hcontains⟩ :=
    binaryOp_sound .add symbolRange smallRange none hl satisfiable_smallRange
  have hsymbol : (Symbol.unranged 0 : Symbol target64).Holds fun _ => 7 := by
    rw [Symbol.Holds, Target.IsSmi]
    decide
  have hab : Operands (fun _ => 7) symbolRange smallRange none 12#64 2#64 := by
    refine ⟨?_, ?_, by unfold Range.Contains; decide, by unfold Range.Contains; decide,
      fun s hs => by cases hs⟩
    · simpa [Range.Holds, symbolRange, fromDefinition, Holds] using hsymbol
    · simp [Range.Holds, smallRange, Holds]
  exact ⟨r, hresult, hcontains _ _ _ _ hab rfl⟩

end Ranges
