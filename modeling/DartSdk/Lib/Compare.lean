import Mathlib.Tactic

/-!
# Lib/Compare — comparison functions with an integer result

A comparison `c x y` is negative, zero or positive as `x` comes before, with or after `y`.
`IsTotalPreorder` is what a sort or a search tree needs of it: swapping the arguments flips the
sign, and `c x y ≤ 0` is transitive.
-/

/-- **A consistent comparison**: `c x y ≤ 0` is a total preorder and `c x y = 0` its equivalence. -/
structure IsTotalPreorder {α : Type*} (c : α → α → ℤ) : Prop where
  swap : ∀ x y, c x y < 0 ↔ 0 < c y x
  le_trans : ∀ x y z, c x y ≤ 0 → c y z ≤ 0 → c x z ≤ 0

namespace IsTotalPreorder

variable {α : Type*} {c : α → α → ℤ} (h : IsTotalPreorder c) {x y z : α}

include h

theorem le_iff : c x y ≤ 0 ↔ 0 ≤ c y x := by
  have := h.swap y x
  omega

theorem refl (x : α) : c x x = 0 := by
  have := h.swap x x
  omega

theorem eq_comm : c x y = 0 ↔ c y x = 0 := by
  have h1 := h.swap x y
  have h2 := h.swap y x
  omega

theorem lt_of_lt_of_le (h1 : c x y < 0) (h2 : c y z ≤ 0) : c x z < 0 := by
  by_contra hn
  have := h.le_trans y z x h2 (h.le_iff.mpr (not_lt.mp hn))
  have := h.swap x y
  omega

theorem lt_of_le_of_lt (h1 : c x y ≤ 0) (h2 : c y z < 0) : c x z < 0 := by
  by_contra hn
  have := h.le_trans z x y (h.le_iff.mpr (not_lt.mp hn)) h1
  have := h.swap y z
  omega

theorem lt_trans (h1 : c x y < 0) (h2 : c y z < 0) : c x z < 0 := h.lt_of_lt_of_le h1 h2.le

theorem eq_trans (h1 : c x y = 0) (h2 : c y z = 0) : c x z = 0 :=
  le_antisymm (h.le_trans x y z h1.le h2.le)
    (h.le_iff.mp (h.le_trans z y x (h.eq_comm.mp h2).le (h.eq_comm.mp h1).le))

end IsTotalPreorder
