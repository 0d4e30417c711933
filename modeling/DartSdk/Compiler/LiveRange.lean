import Mathlib.Order.Bounds.Basic

/-!
# Compiler/LiveRange — the intervals of live ranges

`FirstIntersection` of the register allocator walks two lists of intervals.  What it returns is the
least position they share (`firstIntersection_isLeast`).  Lifetime positions are below
`kMaxPosition`; `kIllegalPosition` is `none`.
-/

namespace LinearScan

/-- Above every lifetime position. -/
def kMaxPosition : ℕ := 0x7FFFFFFF

/-- **A half-open interval of liveness.**  `AddUseInterval` asserts that it is not empty. -/
structure UseInterval where
  start : ℕ
  end_ : ℕ
  start_lt : start < end_
  end_le : end_ ≤ kMaxPosition

/-- The positions of an interval. -/
def UseInterval.Contains (i : UseInterval) (pos : ℕ) : Prop := i.start ≤ pos ∧ pos < i.end_

/-- The least position of both intervals. -/
def UseInterval.intersect (i other : UseInterval) : Option ℕ :=
  if i.start ≤ other.start then
    if other.start < i.end_ then some other.start else none
  else if i.start < other.end_ then some i.start else none

/-- The walk over two lists. -/
def firstIntersection : List UseInterval → List UseInterval → ℕ
  | [], _ | _, [] => kMaxPosition
  | a :: as, u :: us =>
    match a.intersect u with
    | some pos => pos
    | none =>
      if a.start < u.start then firstIntersection as (u :: us) else firstIntersection (a :: as) us
termination_by a u => a.length + u.length

/-- In order, and disjoint. -/
def Sorted (l : List UseInterval) : Prop := l.Pairwise fun i j => i.end_ ≤ j.start

/-- Some interval has the position. -/
def Covers (l : List UseInterval) (pos : ℕ) : Prop := ∃ i ∈ l, i.Contains pos

variable {i a u : UseInterval} {l as us : List UseInterval} {pos : ℕ}

@[simp] theorem covers_cons : Covers (i :: l) pos ↔ i.Contains pos ∨ Covers l pos := by
  simp [Covers]

theorem Sorted.le_of_covers (h : Sorted (i :: l)) (hp : Covers (i :: l) pos) : i.start ≤ pos := by
  obtain hi | ⟨j, hj, hjp⟩ := covers_cons.1 hp
  · exact hi.1
  · have hij : i.end_ ≤ j.start := List.rel_of_pairwise_cons h hj
    have := i.start_lt
    have := hjp.1
    omega

theorem intersect_eq_some (h : a.intersect u = some pos) :
    pos = max a.start u.start ∧ a.Contains pos ∧ u.Contains pos := by
  have := a.start_lt
  have := u.start_lt
  unfold UseInterval.intersect at h
  unfold UseInterval.Contains
  grind

/-- Without a common position, the interval that starts first ends before the other. -/
theorem intersect_eq_none (h : a.intersect u = none) :
    if a.start < u.start then a.end_ ≤ u.start else u.end_ ≤ a.start := by
  have := a.start_lt
  have := u.start_lt
  unfold UseInterval.intersect at h
  grind

theorem Sorted.covers_and (hu : Sorted (u :: us)) (h : a.end_ ≤ u.start) :
    Covers (a :: as) pos ∧ Covers (u :: us) pos ↔ Covers as pos ∧ Covers (u :: us) pos := by
  refine and_congr_left fun hp => covers_cons.trans (or_iff_right fun ha => ?_)
  have := hu.le_of_covers hp
  have := ha.2
  omega

theorem firstIntersection_spec {a u : List UseInterval} (ha : Sorted a) (hu : Sorted u) :
    IsLeast {pos | Covers a pos ∧ Covers u pos} (firstIntersection a u) ∨
      firstIntersection a u = kMaxPosition ∧ ∀ pos, ¬ (Covers a pos ∧ Covers u pos) := by
  fun_induction firstIntersection a u with
  | case1 | case2 => exact .inr ⟨rfl, by simp [Covers]⟩
  | case3 a as u us pos hi =>
    obtain ⟨rfl, hap, hup⟩ := intersect_eq_some hi
    exact .inl ⟨⟨covers_cons.2 (.inl hap), covers_cons.2 (.inl hup)⟩,
      fun pos hp => max_le (ha.le_of_covers hp.1) (hu.le_of_covers hp.2)⟩
  | case4 a as u us hi hlt ih =>
    have hend := intersect_eq_none hi
    rw [if_pos hlt] at hend
    simpa only [hu.covers_and hend] using ih ha.of_cons hu
  | case5 a as u us hi hlt ih =>
    have hend := intersect_eq_none hi
    rw [if_neg hlt] at hend
    simpa only [and_comm (a := Covers (a :: as) _), ha.covers_and hend] using ih ha hu.of_cons

/-- **`FirstIntersection` is exact.** -/
theorem firstIntersection_isLeast {a u : List UseInterval} (ha : Sorted a) (hu : Sorted u) :
    ((∃ pos, Covers a pos ∧ Covers u pos) →
      IsLeast {pos | Covers a pos ∧ Covers u pos} (firstIntersection a u)) ∧
    (firstIntersection a u = kMaxPosition ↔ ¬ ∃ pos, Covers a pos ∧ Covers u pos) := by
  obtain h | ⟨heq, hnone⟩ := firstIntersection_spec ha hu
  · obtain ⟨i, -, hi⟩ := h.1.1
    have := i.end_le
    exact ⟨fun _ => h, iff_of_false (by have := hi.2; omega) (not_not.2 ⟨_, h.1⟩)⟩
  · rw [← not_exists] at hnone
    exact ⟨fun hp => absurd hp hnone, iff_of_true heq hnone⟩

/-- Two intervals each, which touch twice before they meet. -/
def twoIntervals : List UseInterval × List UseInterval :=
  ([⟨0, 4, by decide, by decide⟩, ⟨10, 20, by decide, by decide⟩],
    [⟨4, 10, by decide, by decide⟩, ⟨18, 30, by decide, by decide⟩])

theorem firstIntersection_isLeast_two : firstIntersection twoIntervals.1 twoIntervals.2 = 18 ∧
    IsLeast {pos | Covers twoIntervals.1 pos ∧ Covers twoIntervals.2 pos}
      (firstIntersection twoIntervals.1 twoIntervals.2) := by
  have hsorted : Sorted twoIntervals.1 ∧ Sorted twoIntervals.2 := by
    constructor <;> exact List.pairwise_pair.mpr (by decide)
  refine ⟨by simp [twoIntervals, firstIntersection, UseInterval.intersect],
    (firstIntersection_isLeast hsorted.1 hsorted.2).1 ⟨18, ?_⟩⟩
  simp [Covers, UseInterval.Contains, twoIntervals]

end LinearScan
