import DartSdk.Lib.Compare

/-!
# Lib/Segment — the contents of a segment of an array

An array is read as a function on the integers; `count f l r e` is how often `e` occurs on the
segment `l..r`, both ends included.  A rearrangement of the segment is an equality of counts, so a
program that moves elements one assignment at a time is followed by linear arithmetic
(`count_update`).
-/

namespace Segment

open Function Finset

variable {E : Type*} [DecidableEq E] {f g : ℤ → E} {l r : ℤ}

/-- One occurrence of `e`. -/
def ind (x e : E) : ℕ := if x = e then 1 else 0

/-- **The number of occurrences of `e`** on the segment `l..r`. -/
noncomputable def count (f : ℤ → E) (l r : ℤ) (e : E) : ℕ := ∑ i ∈ Finset.Icc l r, ind (f i) e

/-- The segment `l..r` of `g` is a rearrangement of that of `f`. -/
def SameContents (f g : ℤ → E) (l r : ℤ) : Prop := ∀ e, count f l r e = count g l r e

theorem count_congr (h : ∀ i, l ≤ i → i ≤ r → f i = g i) (e : E) : count f l r e = count g l r e :=
  sum_congr rfl fun i hi => by
    rw [mem_Icc] at hi
    rw [h i hi.1 hi.2]

/-- **An assignment** trades one occurrence of the old element for one of the new. -/
theorem count_update (f : ℤ → E) {i : ℤ} (hl : l ≤ i) (hr : i ≤ r) (x e : E) :
    count (update f i x) l r e + ind (f i) e = count f l r e + ind x e := by
  have hi : i ∈ Finset.Icc l r := mem_Icc.mpr ⟨hl, hr⟩
  rw [count, count, ← add_sum_erase _ _ hi, ← add_sum_erase _ _ hi, update_self]
  have : ∑ j ∈ (Finset.Icc l r).erase i, ind (update f i x j) e
      = ∑ j ∈ (Finset.Icc l r).erase i, ind (f j) e :=
    sum_congr rfl fun j hj => by rw [update_of_ne (ne_of_mem_erase hj)]
  omega

/-- Cutting a segment in two. -/
theorem count_split (f : ℤ → E) {m : ℤ} (hl : l ≤ m + 1) (hr : m ≤ r) (e : E) :
    count f l r e = count f l m e + count f (m + 1) r e := by
  have hunion : Finset.Icc l r = Finset.Icc l m ∪ Finset.Icc (m + 1) r := by
    ext i
    simp only [mem_union, mem_Icc]
    omega
  have hdisj : Disjoint (Finset.Icc l m) (Finset.Icc (m + 1) r) := by
    rw [disjoint_left]
    intro i hi hi'
    rw [mem_Icc] at hi hi'
    omega
  rw [count, hunion, sum_union hdisj]
  rfl

theorem count_self (f : ℤ → E) (l : ℤ) (e : E) : count f l l e = ind (f l) e := by
  simp [count]

theorem count_eq_zero_of_lt (f : ℤ → E) (h : r < l) (e : E) : count f l r e = 0 := by
  simp [count, Finset.Icc_eq_empty_of_lt h]

theorem count_pos_iff (f : ℤ → E) (l r : ℤ) (e : E) :
    0 < count f l r e ↔ ∃ i, l ≤ i ∧ i ≤ r ∧ f i = e := by
  simp only [count, sum_pos_iff, mem_Icc, ind]
  constructor
  · rintro ⟨i, ⟨h1, h2⟩, h3⟩
    exact ⟨i, h1, h2, by by_contra h; simp [h] at h3⟩
  · rintro ⟨i, h1, h2, rfl⟩
    exact ⟨i, ⟨h1, h2⟩, by simp⟩

/-- **What holds of every element** of a segment holds after a rearrangement. -/
theorem SameContents.forall (h : SameContents f g l r) {p : E → Prop}
    (hp : ∀ i, l ≤ i → i ≤ r → p (f i)) : ∀ i, l ≤ i → i ≤ r → p (g i) := by
  intro i hl hr
  obtain ⟨j, hj1, hj2, hj⟩ := (count_pos_iff f l r (g i)).mp
    (h (g i) ▸ (count_pos_iff g l r (g i)).mpr ⟨i, hl, hr, rfl⟩)
  exact hj ▸ hp j hj1 hj2

theorem SameContents.extend {l' r' : ℤ} (h : SameContents f g l r)
    (hout : ∀ i, i < l ∨ r < i → g i = f i) (hl : l' ≤ l) (hr : r ≤ r') :
    SameContents f g l' r' := by
  intro e
  rcases le_or_gt l (r + 1) with hlr | hlr
  · have hbelow : count f l' (l - 1) e = count g l' (l - 1) e :=
      count_congr (fun i _ h2 => (hout i (by omega)).symm) e
    have habove : count f (r + 1) r' e = count g (r + 1) r' e :=
      count_congr (fun i h1 _ => (hout i (by omega)).symm) e
    have hmid := h e
    rw [count_split f (m := l - 1) (by omega) (by omega), count_split g (m := l - 1) (by omega)
      (by omega), show l - 1 + 1 = l by omega, count_split f (m := r) hlr hr,
      count_split g (m := r) hlr hr]
    omega
  · exact count_congr (fun i _ _ => (hout i (by omega)).symm) e

/-- `f` with the elements at `i` and `j` exchanged. -/
def swapAt (f : ℤ → E) (i j : ℤ) : ℤ → E :=
  update (update f i (f j)) j (f i)

omit [DecidableEq E] in
theorem swapAt_apply (f : ℤ → E) (i j x : ℤ) :
    swapAt f i j x = if x = j then f i else if x = i then f j else f x := by
  simp [swapAt, update_apply]

omit [DecidableEq E] in
theorem swapAt_self (f : ℤ → E) (i : ℤ) : swapAt f i i = f := by
  funext x
  rw [swapAt_apply]
  split_ifs with h <;> simp [h]

theorem sameContents_swapAt (f : ℤ → E) {i j : ℤ} (hi : l ≤ i ∧ i ≤ r) (hj : l ≤ j ∧ j ≤ r) :
    SameContents f (swapAt f i j) l r := by
  intro e
  have h1 := count_update f hi.1 hi.2 (f j) e
  have h2 := count_update (update f i (f j)) hj.1 hj.2 (f i) e
  have h3 : update f i (f j) j = f j := by
    rw [update_apply]
    split_ifs <;> rfl
  rw [h3] at h2
  rw [swapAt]
  omega

theorem SameContents.trans {h : ℤ → E} (h1 : SameContents f g l r)
    (h2 : SameContents g h l r) : SameContents f h l r := fun e => (h1 e).trans (h2 e)

variable {c : E → E → ℤ} {f : ℤ → E} {l m r : ℤ}

/-- The segment `l..r` is in non-decreasing order. -/
def SortedOn (c : E → E → ℤ) (f : ℤ → E) (l r : ℤ) : Prop :=
  ∀ i j, l ≤ i → i ≤ j → j ≤ r → c (f i) (f j) ≤ 0

omit [DecidableEq E]

/-- **Two sorted segments with a value between them** are one sorted segment. -/
theorem SortedOn.join (hc : IsTotalPreorder c) (h1 : SortedOn c f l m)
    (h2 : SortedOn c f (m + 1) r) {p : E} (hp1 : ∀ i, l ≤ i → i ≤ m → c (f i) p ≤ 0)
    (hp2 : ∀ i, m + 1 ≤ i → i ≤ r → c p (f i) ≤ 0) : SortedOn c f l r := by
  intro i j hi hij hj
  rcases le_or_gt j m with hjm | hjm
  · exact h1 i j hi hij hjm
  · rcases le_or_gt i m with him | him
    · exact hc.le_trans _ p _ (hp1 i hi him) (hp2 j (by omega) hj)
    · exact h2 i j (by omega) hij hj

/-- **Two sorted segments around a value.** -/
theorem SortedOn.around (hc : IsTotalPreorder c) {p : E} {k j : ℤ} (hm : f m = p)
    (h1 : SortedOn c f l k) (h2 : SortedOn c f j r) (hk : k + 1 = m) (hj : m + 1 = j)
    (hp1 : ∀ i, l ≤ i → i ≤ k → c (f i) p ≤ 0) (hp2 : ∀ i, j ≤ i → i ≤ r → c p (f i) ≤ 0) :
    SortedOn c f l r := by
  subst hm hk hj
  refine h1.join hc (fun i j hi hij hj => ?_) hp1 fun i hi hir => ?_
  · rcases eq_or_lt_of_le hi with rfl | hi
    · rcases eq_or_lt_of_le hij with rfl | hij
      · exact (hc.refl _).le
      · exact hp2 j hij hj
    · exact h2 i j hi hij hj
  · rcases eq_or_lt_of_le hi with rfl | hi
    · exact (hc.refl _).le
    · exact hp2 i hi hir

theorem SortedOn.congr {g : ℤ → E} (h : SortedOn c f l r)
    (hfg : ∀ i, l ≤ i → i ≤ r → g i = f i) : SortedOn c g l r := by
  intro i j hi hij hj
  rw [hfg i hi (by omega), hfg j (by omega) hj]
  exact h i j hi hij hj

end Segment
