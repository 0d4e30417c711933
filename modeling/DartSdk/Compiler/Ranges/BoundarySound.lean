import DartSdk.Compiler.Ranges.BinaryOp

/-!
# Compiler/Ranges/BoundarySound — what boundaries stand for

An **assignment** gives the definitions their values.  It has to agree with the symbols of a
boundary (`Holds`): they are Smis, inside their own ranges.

The constant forms of a boundary never overflow, since a valid offset plus a Smi is an `int64_t`,
and they bound its value from below and above (`lowerBound_spec`, `upperBound_spec`).
-/

namespace Ranges

open Boundary

variable {T : Target} {x a b hi lo : ℤ}

theorem checked_eq (h : IsInt64 x) : checked x = some x := if_pos h

theorem willAddOverflow_eq_false (ha : IsInt64 a) :
    willAddOverflow a b = false ↔ IsInt64 (a + b) := by
  simp only [willAddOverflow, Bool.or_eq_false_iff, Bool.and_eq_false_iff, decide_eq_false_iff_not]
  unfold IsInt64 minInt64 maxInt64 at *
  omega

theorem willSubOverflow_eq_false (ha : IsInt64 a) :
    willSubOverflow a b = false ↔ IsInt64 (a - b) := by
  simp only [willSubOverflow, Bool.or_eq_false_iff, Bool.and_eq_false_iff, decide_eq_false_iff_not]
  unfold IsInt64 minInt64 maxInt64 at *
  omega

theorem add_eq (ha : IsInt64 a) (h : IsInt64 (a + b)) : add a b = some (a + b) := by
  simp [add, (willAddOverflow_eq_false ha).mpr h, checked_eq h]

theorem sub_eq (ha : IsInt64 a) (h : IsInt64 (a - b)) : sub a b = some (a - b) := by
  simp [sub, (willSubOverflow_eq_false ha).mpr h, checked_eq h]

theorem absWithSaturation_eq (h : IsInt64 x) : absWithSaturation x = some (min |x| maxInt64) := by
  rcases abs_cases x with ⟨habs, hx⟩ | ⟨habs, hx⟩
  · rw [absWithSaturation, if_neg (not_lt.mpr hx), habs, min_eq_left h.2]
  rw [absWithSaturation, if_pos hx, habs]
  split
  · rename_i hmin
    subst hmin
    decide
  · rename_i hmin
    have hneg : IsInt64 (-x) := by
      unfold IsInt64 minInt64 maxInt64 at *
      omega
    rw [checked_eq hneg, min_eq_left hneg.2]

/-- Clamping keeps a lower bound of a value inside the limits. -/
theorem clamp_le {y : ℤ} (hlo : lo ≤ x) (hy : y ≤ x) : clamp lo hi y ≤ x := by
  unfold clamp
  split
  · exact hlo
  split
  · rename_i hhi
    exact hhi.trans hy
  · exact hy

/-- …and an upper bound. -/
theorem le_clamp {y : ℤ} (hhi : x ≤ hi) (hy : x ≤ y) : x ≤ clamp lo hi y := by
  unfold clamp
  split
  · rename_i hlo
    exact hy.trans hlo
  · split
    · exact hhi
    · exact hy

theorem clamp_mem (h : lo ≤ hi) (x : ℤ) : lo ≤ clamp lo hi x ∧ clamp lo hi x ≤ hi := by
  unfold clamp
  split
  · exact ⟨le_rfl, h⟩
  · split
    · exact ⟨h, le_rfl⟩
    · constructor <;> omega

theorem clamp_int64 (h : IsInt64 x) : clamp minInt64 maxInt64 x = x := by
  unfold clamp IsInt64 at *
  split
  · omega
  · split <;> omega

/-- The values of the definitions. -/
abbrev Assignment := ℕ → ℤ

/-- What a boundary is, where the definitions have the given values. -/
def Boundary.value (ρ : Assignment) : Boundary T → ℤ
  | .constant value _ => value
  | .symbol s offset _ => ρ s.id + offset

/-- The value is a Smi. -/
def Target.IsSmi (T : Target) (x : ℤ) : Prop := T.smiMin ≤ x ∧ x ≤ T.smiMax

mutual

/-- The assignment agrees with the ranges of the symbols of a boundary. -/
def Boundary.Holds (ρ : Assignment) : Boundary T → Prop
  | .constant _ _ => True
  | .symbol s _ _ => s.Holds ρ

/-- A symbol is a Smi inside its range. -/
def Symbol.Holds (ρ : Assignment) : Symbol T → Prop
  | .unranged id => T.IsSmi (ρ id)
  | .ranged id min max => T.IsSmi (ρ id) ∧ (min.Holds ρ ∧ min.value ρ ≤ ρ id) ∧
      (max.Holds ρ ∧ ρ id ≤ max.value ρ)

end

theorem Symbol.Holds.isSmi {ρ : Assignment} {s : Symbol T} (h : s.Holds ρ) : T.IsSmi (ρ s.id) := by
  cases s with
  | unranged id =>
    exact h
  | ranged id min max =>
    exact h.1

theorem Target.smiMin_le_smiMax (T : Target) : T.smiMin ≤ T.smiMax := by
  have hone := T.one_le_smiPow
  unfold smiMin smiMax
  omega

/-- **A valid offset plus a Smi is an `int64_t`.** -/
theorem Target.ValidOffset.isInt64 {offset : ℤ} (h : T.ValidOffset offset) (hx : T.IsSmi x) :
    IsInt64 (x + offset) := by
  unfold Target.ValidOffset at h
  obtain ⟨hmin, hmax⟩ := hx
  unfold IsInt64
  omega

theorem Target.IsSmi.isInt64 (h : T.IsSmi x) : IsInt64 x := by
  have hint := T.validOffset_zero.isInt64 h
  rwa [add_zero] at hint

/-- The value of a boundary is an `int64_t`. -/
theorem Boundary.Holds.isInt64 {ρ : Assignment} {b : Boundary T} (h : b.Holds ρ) :
    IsInt64 (b.value ρ) := by
  cases b with
  | constant value hv => exact hv
  | symbol s offset hoff =>
    exact hoff.isInt64 h.isSmi

mutual

theorem Boundary.lowerBound_spec : ∀ b : Boundary T, ∃ m, b.lowerBound = some m ∧ IsInt64 m ∧
    ∀ ρ, b.Holds ρ → m ≤ b.value ρ
  | .constant value h => ⟨value, by rw [lowerBound], h, fun _ _ => le_rfl⟩
  | .symbol s offset h => by
    obtain ⟨m, hm, hsmi, hle⟩ := s.constantMinSmi_spec
    have hint := h.isInt64 hsmi
    refine ⟨m + offset, ?_, hint, fun ρ hρ => ?_⟩
    · rw [lowerBound, hm]
      exact add_eq hsmi.isInt64 hint
    · rw [Holds] at hρ
      exact add_le_add_left (hle ρ hρ) offset

theorem Symbol.constantMinSmi_spec : ∀ s : Symbol T, ∃ m, s.constantMinSmi = some m ∧ T.IsSmi m ∧
    ∀ ρ, s.Holds ρ → m ≤ ρ s.id
  | .unranged id => by
    refine ⟨T.smiMin, by rw [Symbol.constantMinSmi], ⟨le_rfl, T.smiMin_le_smiMax⟩, fun ρ hρ => ?_⟩
    exact hρ.isSmi.1
  | .ranged id min max => by
    obtain ⟨m, hm, -, hle⟩ := min.lowerBound_spec
    refine ⟨clamp T.smiMin T.smiMax m, ?_, clamp_mem T.smiMin_le_smiMax m, fun ρ hρ => ?_⟩
    · rw [Symbol.constantMinSmi, hm]
      rfl
    · have hsmi := hρ.isSmi
      rw [Symbol.Holds] at hρ
      exact clamp_le hsmi.1 ((hle ρ hρ.2.1.1).trans hρ.2.1.2)

end

mutual

theorem Boundary.upperBound_spec : ∀ b : Boundary T, ∃ m, b.upperBound = some m ∧ IsInt64 m ∧
    ∀ ρ, b.Holds ρ → b.value ρ ≤ m
  | .constant value h => ⟨value, by rw [upperBound], h, fun _ _ => le_rfl⟩
  | .symbol s offset h => by
    obtain ⟨m, hm, hsmi, hle⟩ := s.constantMaxSmi_spec
    have hint := h.isInt64 hsmi
    refine ⟨m + offset, ?_, hint, fun ρ hρ => ?_⟩
    · rw [upperBound, hm]
      exact add_eq hsmi.isInt64 hint
    · rw [Holds] at hρ
      exact add_le_add_left (hle ρ hρ) offset

theorem Symbol.constantMaxSmi_spec : ∀ s : Symbol T, ∃ m, s.constantMaxSmi = some m ∧ T.IsSmi m ∧
    ∀ ρ, s.Holds ρ → ρ s.id ≤ m
  | .unranged id => by
    refine ⟨T.smiMax, by rw [Symbol.constantMaxSmi], ⟨T.smiMin_le_smiMax, le_rfl⟩, fun ρ hρ => ?_⟩
    exact hρ.isSmi.2
  | .ranged id min max => by
    obtain ⟨m, hm, -, hle⟩ := max.upperBound_spec
    refine ⟨clamp T.smiMin T.smiMax m, ?_, clamp_mem T.smiMin_le_smiMax m, fun ρ hρ => ?_⟩
    · rw [Symbol.constantMaxSmi, hm]
      rfl
    · have hsmi := hρ.isSmi
      rw [Symbol.Holds] at hρ
      exact le_clamp hsmi.2 (hρ.2.2.2.trans (hle ρ hρ.2.2.1))

end

/-- The greatest absolute value of a constant form, with saturation. -/
def absMax (m M : ℤ) : ℤ := max (min |m| maxInt64) (min |M| maxInt64)

/-- …and the least one. -/
def absMin (m M : ℤ) : ℤ := min (min |m| maxInt64) (min |M| maxInt64)

namespace Range

/-- The assignment agrees with the symbols of a range. -/
def Holds (ρ : Assignment) (r : Range T) : Prop := r.min.Holds ρ ∧ r.max.Holds ρ

/-- The value is between the boundaries. -/
def Contains (ρ : Assignment) (r : Range T) (x : ℤ) : Prop :=
  r.min.value ρ ≤ x ∧ x ≤ r.max.value ρ

/-- The constant form of the range is in order. -/
def Satisfiable (r : Range T) : Prop :=
  ∀ m M, r.constantMin = some m → r.constantMax = some M → m ≤ M

/-- `m` and `M` are the constant form of the range, which is in order. -/
structure Bounds (r : Range T) (m M : ℤ) : Prop where
  lower : r.min.lowerBound = some m
  upper : r.max.upperBound = some M
  isInt64_lower : IsInt64 m
  isInt64_upper : IsInt64 M
  le : m ≤ M
  mem : ∀ ρ x, r.Holds ρ → r.Contains ρ x → m ≤ x ∧ x ≤ M

/-- **Every range has a constant form.** -/
theorem Satisfiable.exists_bounds {r : Range T} (h : r.Satisfiable) : ∃ m M, Bounds r m M := by
  obtain ⟨m, hm, hmint, hmle⟩ := r.min.lowerBound_spec
  obtain ⟨M, hM, hMint, hMle⟩ := r.max.upperBound_spec
  refine ⟨m, M, hm, hM, hmint, hMint, h m M ?_ ?_, fun ρ x hρ hx => ?_⟩
  · simp [constantMin, hm, clamp_int64 hmint]
  · simp [constantMax, hM, clamp_int64 hMint]
  · exact ⟨(hmle ρ hρ.1).trans hx.1, hx.2.trans (hMle ρ hρ.2)⟩

namespace Bounds

variable {r : Range T} {m M : ℤ} (h : r.Bounds m M)

include h

@[simp] theorem constantMin : r.constantMin = some m := by
  simp [Range.constantMin, h.lower, clamp_int64 h.isInt64_lower]

@[simp] theorem constantMax : r.constantMax = some M := by
  simp [Range.constantMax, h.upper, clamp_int64 h.isInt64_upper]

theorem onlyGreaterThanOrEqualTo (x : ℤ) :
    r.onlyGreaterThanOrEqualTo x = some (decide (x ≤ m)) := by
  simp [Range.onlyGreaterThanOrEqualTo, h.lower]

theorem onlyLessThanOrEqualTo (x : ℤ) : r.onlyLessThanOrEqualTo x = some (decide (M ≤ x)) := by
  simp [Range.onlyLessThanOrEqualTo, h.upper]

theorem constantAbsMax : r.constantAbsMax = some (absMax m M) := by
  simp [Range.constantAbsMax, h.constantMin, h.constantMax, absWithSaturation_eq h.isInt64_lower,
    absWithSaturation_eq h.isInt64_upper, absMax]

theorem constantAbsMin : r.constantAbsMin = some (absMin m M) := by
  simp [Range.constantAbsMin, h.constantMin, h.constantMax, absWithSaturation_eq h.isInt64_lower,
    absWithSaturation_eq h.isInt64_upper, absMin]

end Bounds

end Range

end Ranges
