import Mathlib.Tactic

/-!
# Core/DateTimeZone — wall-clock times of a time zone

Around a wall-clock time `w` a zone has the offset `a` before the instant `change` and `b` from it
on.  There are two candidates, `w - a` and `w - b`, and each is right if it falls on its own side.
**The probes find the earlier one, and take the old offset for a time that the change skips**
(`toLocalTimeOffset_correct`).
-/

namespace DateTime

/-- `Duration.microsecondsPerSecond`, and the hours and days below. -/
def microsecondsPerSecond : ℤ := 1000 * 1000
def microsecondsPerHour : ℤ := 60 * 60 * 1000 * 1000
def microsecondsPerDay : ℤ := 24 * 60 * 60 * 1000 * 1000

section

variable (offsetInSeconds : ℤ → ℤ) (w : ℤ)

/-- The second half of `_toLocalTimeOffset`: an offset that is right, or an earlier one. -/
def earlierOffset (offset : ℤ) : ℤ :=
  let offset4 := offsetInSeconds (w - offset - 2 * microsecondsPerHour) * microsecondsPerSecond
  if offset4 > offset then
    if offset4 = offset + 2 * microsecondsPerHour then offset4
    else
      let offset5 := offsetInSeconds (w - offset4) * microsecondsPerSecond
      if offset5 = offset4 then offset4 else offset
  else offset

/-- `_toLocalTimeOffset`, for the zone that `_timeZoneOffsetInSeconds` asks. -/
def toLocalTimeOffset : ℤ :=
  let offset := offsetInSeconds w * microsecondsPerSecond
  if offset ≠ 0 then
    let offset2 := offsetInSeconds (w - offset) * microsecondsPerSecond
    if offset2 ≠ offset then
      let offset3 := offsetInSeconds (w - offset2) * microsecondsPerSecond
      if offset2 ≤ offset3 then offset2 else offset3
    else earlierOffset offsetInSeconds w offset2
  else earlierOffset offsetInSeconds w offset

end

/-- A zone near `w`: its offset in microseconds is `a` before `change` and `b` after, for two days
around `w`.  Offsets are less than a day, and a change is of two hours at most. -/
structure ZoneAt (offsetInSeconds : ℤ → ℤ) (w change a b : ℤ) : Prop where
  offset_lt : ∀ t, |offsetInSeconds t * microsecondsPerSecond| < microsecondsPerDay
  offset_eq : ∀ t, |t - w| ≤ 2 * microsecondsPerDay →
    offsetInSeconds t * microsecondsPerSecond = if t < change then a else b
  step_le : |b - a| ≤ 2 * microsecondsPerHour

variable {o : ℤ → ℤ} {w change a b : ℤ}

/-- The instants whose wall-clock time is `w`. -/
def instants (o : ℤ → ℤ) (w : ℤ) : Set ℤ := {t | t + o t * microsecondsPerSecond = w}

namespace ZoneAt

variable (h : ZoneAt o w change a b)

include h

theorem offset_sub {x : ℤ} (hx : -(48 * microsecondsPerHour) ≤ x ∧ x ≤ 48 * microsecondsPerHour) :
    o (w - x) * microsecondsPerSecond = if w - x < change then a else b :=
  h.offset_eq _ (by rwa [sub_sub_cancel_left, abs_neg, abs_le])

/-- One of the offsets is in force at `w`, and the other is close to it. -/
theorem bounds :
    0 < microsecondsPerHour ∧ (-(26 * microsecondsPerHour) < a ∧ a < 26 * microsecondsPerHour) ∧
      -(26 * microsecondsPerHour) < b ∧ b < 26 * microsecondsPerHour := by
  have hstep := abs_le.1 h.step_le
  have hlt := abs_lt.1 (h.offset_lt (w - 0))
  rw [h.offset_sub (by decide)] at hlt
  simp only [microsecondsPerDay, microsecondsPerHour] at *
  split_ifs at hlt <;> omega

theorem mem_instants_iff {t : ℤ} :
    t ∈ instants o w ↔ t = w - a ∧ t < change ∨ t = w - b ∧ change ≤ t := by
  have hbounds := h.bounds
  have hdays : microsecondsPerDay = 24 * microsecondsPerHour := rfl
  constructor
  · intro ht
    have ht' : t + o t * microsecondsPerSecond = w := ht
    have hlt := abs_lt.1 (h.offset_lt t)
    have hoffset := h.offset_sub (x := w - t) (by omega)
    rw [sub_sub_cancel] at hoffset
    split_ifs at hoffset <;> omega
  · rintro (⟨rfl, ht⟩ | ⟨rfl, ht⟩)
    · have hoffset := h.offset_sub (x := a) (by omega)
      rw [if_pos ht] at hoffset
      exact (congrArg (w - a + ·) hoffset).trans (sub_add_cancel w a)
    · have hoffset := h.offset_sub (x := b) (by omega)
      rw [if_neg ht.not_gt] at hoffset
      exact (congrArg (w - b + ·) hoffset).trans (sub_add_cancel w b)

/-- Before the change there is no earlier offset. -/
theorem earlierOffset_before (ha : w - a < change) : earlierOffset o w a = a := by
  have hbounds := h.bounds
  have hprobe := h.offset_sub (x := a + 2 * microsecondsPerHour) (by omega)
  rw [← sub_sub, if_pos (by omega)] at hprobe
  rw [earlierOffset, hprobe, if_neg (lt_irrefl a)]

theorem earlierOffset_after (hb : change ≤ w - b) :
    earlierOffset o w b = if w - a < change then a else b := by
  have hbounds := h.bounds
  have hstep := abs_le.1 h.step_le
  have hprobe := h.offset_sub (x := b + 2 * microsecondsPerHour) (by omega)
  have hprobe' := h.offset_sub (x := a) (by omega)
  rw [← sub_sub] at hprobe
  by_cases hearly : w - b - 2 * microsecondsPerHour < change
  · simp only [earlierOffset, hprobe]
    split_ifs <;> omega
  · rw [if_neg hearly] at hprobe
    rw [earlierOffset, hprobe, if_neg (lt_irrefl b), if_neg (by omega)]

theorem toLocalTimeOffset_eq :
    toLocalTimeOffset o w = if w - a < change ∨ w - b < change then a else b := by
  have hbounds := h.bounds
  have hw := h.offset_sub (x := 0) (by omega)
  have ha := h.offset_sub (x := a) (by omega)
  have hb := h.offset_sub (x := b) (by omega)
  have hbefore := h.earlierOffset_before
  have hafter := h.earlierOffset_after
  rw [sub_zero] at hw
  by_cases hchange : w < change
  · rw [if_pos hchange] at hw
    by_cases hwa : w - a < change
    · rw [if_pos hwa] at ha
      simp only [toLocalTimeOffset, hw, ha, hbefore hwa]
      simp [hwa]
    · simp only [toLocalTimeOffset, hw, ha]
      split_ifs <;> omega
  · rw [if_neg hchange] at hw
    by_cases hwb : w - b < change
    · simp only [toLocalTimeOffset, hw, hb]
      split_ifs <;> omega
    · simp only [toLocalTimeOffset, hw, hb, hafter (not_lt.1 hwb)]
      split_ifs <;> omega

end ZoneAt

/-- **The earliest instant at a wall-clock time is found**, and for a time that is skipped the one
that the offset before the change gives. -/
theorem toLocalTimeOffset_correct (h : ZoneAt o w change a b) :
    ((instants o w).Nonempty → IsLeast (instants o w) (w - toLocalTimeOffset o w)) ∧
      (instants o w = ∅ → w - toLocalTimeOffset o w = w - a) := by
  have hmem (t : ℤ) := h.mem_instants_iff (t := t)
  rw [h.toLocalTimeOffset_eq]
  refine ⟨fun ⟨t, ht⟩ => ?_, fun hnone => ?_⟩
  · refine ⟨(hmem _).2 ?_, fun t' ht' => ?_⟩
    · have := (hmem t).1 ht
      split_ifs <;> omega
    · have := (hmem t').1 ht'
      split_ifs <;> omega
  · by_contra hlater
    exact Set.eq_empty_iff_forall_notMem.1 hnone (w - b) ((hmem _).2 (by omega))

/-- Clocks go back an hour at the epoch: the first of the two half past midnights. -/
theorem toLocalTimeOffset_correct_back : let o := fun t : ℤ => if t < 0 then (3600 : ℤ) else 0
    (instants o (1800 * microsecondsPerSecond)).Nonempty ∧
      IsLeast (instants o (1800 * microsecondsPerSecond))
        (1800 * microsecondsPerSecond - toLocalTimeOffset o (1800 * microsecondsPerSecond)) := by
  intro o
  have hzone : ZoneAt o (1800 * microsecondsPerSecond) 0 (3600 * microsecondsPerSecond) 0 :=
    ⟨fun t => by simp only [o]; split_ifs <;> decide,
      fun t _ => by simp only [o]; split_ifs <;> rfl, by decide⟩
  have hsome : (instants o (1800 * microsecondsPerSecond)).Nonempty :=
    ⟨_, hzone.mem_instants_iff.2 (.inr ⟨rfl, by decide⟩)⟩
  exact ⟨hsome, (toLocalTimeOffset_correct hzone).1 hsome⟩

end DateTime
