import Mathlib.Tactic

/-!
# Lib/BinaryHeap — the order of a binary heap in an array

The keys are a function on positions, of which the first `n` count; the children of `i` are
`2 * i + 1` and `2 * i + 2`.  Bubbling exchanges neighbours.  While an entry bubbles, the order
holds away from it, and across it between its parent and its children: `OrderedUp` for an entry
that may be too small for its place, `OrderedDown` for one that may be too large.
-/

namespace BinaryHeap

open Function Equiv

variable {α : Type*} [LinearOrder α] {f : ℕ → α} {n k c : ℕ} {i : ℕ}

def parent (i : ℕ) : ℕ := (i - 1) / 2

theorem parent_lt (hi : 0 < i) : parent i < i := by
  rw [parent]
  omega

theorem parent_eq_iff (hi : 0 < i) : parent i = k ↔ i = 2 * k + 1 ∨ i = 2 * k + 2 := by
  rw [parent]
  omega

/-- No entry is less than its parent. -/
def Ordered (f : ℕ → α) (n : ℕ) : Prop := ∀ i, 0 < i → i < n → f (parent i) ≤ f i

/-- The children of `k` are not less than its parent. -/
def Across (f : ℕ → α) (n k : ℕ) : Prop :=
  0 < k → ∀ i, 0 < i → i < n → parent i = k → f (parent k) ≤ f i

/-- In order, but for `k` and its parent. -/
structure OrderedUp (f : ℕ → α) (n k : ℕ) : Prop where
  away : ∀ i, 0 < i → i < n → i ≠ k → f (parent i) ≤ f i
  across : Across f n k

/-- In order, but for `k` and its children. -/
structure OrderedDown (f : ℕ → α) (n k : ℕ) : Prop where
  away : ∀ i, 0 < i → i < n → parent i ≠ k → f (parent i) ≤ f i
  across : Across f n k

/-- **The root is least.** -/
theorem Ordered.root_le (h : Ordered f n) (hi : i < n) : f 0 ≤ f i := by
  induction i using Nat.strong_induction_on with
  | _ i ih =>
  rcases Nat.eq_zero_or_pos i with rfl | hpos
  · exact le_rfl
  · have hlt := parent_lt hpos
    exact (ih (parent i) hlt (hlt.trans hi)).trans (h i hpos hi)

theorem Ordered.mono {m : ℕ} (h : Ordered f n) (hm : m ≤ n) : Ordered f m :=
  fun i hpos hi => h i hpos (Nat.lt_of_lt_of_le hi hm)

section

variable {g : ℕ → α}

/-- Only the first `n` keys count. -/
theorem Ordered.congr (h : Ordered f n) (hg : ∀ i < n, g i = f i) : Ordered g n := by
  intro i hpos hi
  rw [hg i hi, hg _ ((parent_lt hpos).trans hi)]
  exact h i hpos hi

theorem Across.congr (h : Across f n k) (hg : ∀ i < n, g i = f i) : Across g n k := by
  intro hpos i hi hin hpar
  have hki : k < i := hpar ▸ parent_lt hi
  rw [hg i hin, hg _ (((parent_lt hpos).trans hki).trans hin)]
  exact h hpos i hi hin hpar

theorem OrderedDown.congr (h : OrderedDown f n k) (hg : ∀ i < n, g i = f i) :
    OrderedDown g n k := by
  refine ⟨fun i hpos hi hne => ?_, h.across.congr hg⟩
  rw [hg i hi, hg _ ((parent_lt hpos).trans hi)]
  exact h.away i hpos hi hne

end

section

variable (h : Ordered f n) (hk : k < n)

include h hk

theorem Ordered.across : Across f n k := by
  rintro hpos i hi hin rfl
  exact (h _ hpos hk).trans (h i hi hin)

theorem Ordered.up : OrderedUp f n k :=
  ⟨fun i hpos hi _ => h i hpos hi, h.across hk⟩

theorem Ordered.across_update (x : α) : Across (Function.update f k x) n k := by
  intro hpos i hi hin hpar
  have hki : k < i := hpar ▸ parent_lt hi
  rw [update_of_ne (parent_lt hpos).ne, update_of_ne hki.ne']
  exact h.across hk hpos i hi hin hpar

theorem Ordered.update_up {x : α} (hpos : 0 < k)
    (hx : x ≤ f (parent k)) : OrderedUp (Function.update f k x) n k := by
  refine ⟨fun i hi hin hne => ?_, h.across_update hk x⟩
  rw [update_of_ne hne]
  by_cases hpar : parent i = k
  · rw [hpar, update_self]
    exact hx.trans (h.across hk hpos i hi hin hpar)
  · rw [update_of_ne hpar]
    exact h i hi hin

theorem Ordered.update_down {x : α} (hx : 0 < k → f (parent k) ≤ x) :
    OrderedDown (Function.update f k x) n k := by
  refine ⟨fun i hi hin hne => ?_, h.across_update hk x⟩
  rw [update_of_ne hne]
  by_cases hik : i = k
  · subst hik
    rw [update_self]
    exact hx hi
  · rw [update_of_ne hik]
    exact h i hi hin

end

/-- A new last key. -/
theorem Ordered.append (h : Ordered f n) : OrderedUp f (n + 1) n := by
  refine ⟨fun i hi hin hne => h i hi (by omega), fun _ i hi hin hpar => ?_⟩
  have := parent_lt hi
  omega

theorem OrderedUp.done (h : OrderedUp f n k) (hk : 0 < k → f (parent k) ≤ f k) : Ordered f n := by
  intro i hpos hi
  by_cases hik : i = k
  · subst hik
    exact hk hpos
  · exact h.away i hpos hi hik

theorem OrderedUp.swap (h : OrderedUp f n k) (hpos : 0 < k) (hk : k < n)
    (hlt : f k < f (parent k)) :
    OrderedUp (f ∘ swap (parent k) k) n (parent k) := by
  have hpk := parent_lt hpos
  refine ⟨fun i hi hin hne => ?_, fun hpos' i hi hin hpar => ?_⟩
  · by_cases hik : i = k
    · subst hik
      simpa using hlt.le
    have hi' : Equiv.swap (parent k) k i = i := Equiv.swap_apply_of_ne_of_ne hne hik
    rw [comp_apply, comp_apply, hi']
    by_cases hpi : parent i = parent k
    · -- the brother of `k`
      rw [hpi, swap_apply_left]
      exact hlt.le.trans (hpi ▸ h.away i hi hin hik)
    · by_cases hpi' : parent i = k
      · rw [hpi', swap_apply_right]
        exact h.across hpos i hi hin hpi'
      · rw [swap_apply_of_ne_of_ne hpi hpi']
        exact h.away i hi hin hik
  · have hgrand := parent_lt hpos'
    have hup : f (parent (parent k)) ≤ f (parent k) :=
      h.away (parent k) hpos' (hpk.trans hk) hpk.ne
    rw [comp_apply, comp_apply, swap_apply_of_ne_of_ne hgrand.ne (hgrand.trans hpk).ne]
    by_cases hik : i = k
    · rw [hik, swap_apply_right]
      exact hup
    have hine : i ≠ parent k := by
      rintro rfl
      exact absurd hpar hgrand.ne
    rw [swap_apply_of_ne_of_ne hine hik]
    exact hup.trans (hpar ▸ h.away i hi hin hik)

theorem OrderedDown.done (h : OrderedDown f n k)
    (hk : ∀ i, 0 < i → i < n → parent i = k → f k ≤ f i) : Ordered f n := by
  intro i hpos hi
  by_cases hik : parent i = k
  · exact hik ▸ hk i hpos hi hik
  · exact h.away i hpos hi hik

theorem OrderedDown.swap (h : OrderedDown f n k) (hpos : 0 < c) (hc : parent c = k) (hcn : c < n)
    (hlt : f c < f k) (hleast : ∀ i, 0 < i → i < n → parent i = k → f c ≤ f i) :
    OrderedDown (f ∘ swap k c) n c := by
  have hkc : k < c := hc ▸ parent_lt hpos
  refine ⟨fun i hi hin hne => ?_, fun _ i hi hin hpar => ?_⟩
  · rw [comp_apply, comp_apply]
    by_cases hik : i = k
    · -- the parent of `k` sees the child now
      subst hik
      have hpi := parent_lt hi
      rw [swap_apply_left, swap_apply_of_ne_of_ne hpi.ne (hpi.trans hkc).ne]
      exact h.across hi c hpos hcn hc
    by_cases hpi : parent i = k
    · rw [hpi, swap_apply_left]
      by_cases hic : i = c
      · rw [hic, swap_apply_right]
        exact hlt.le
      · rw [swap_apply_of_ne_of_ne hik hic]
        exact hleast i hi hin hpi
    · have hic : i ≠ c := by
        rintro rfl
        exact hpi hc
      rw [swap_apply_of_ne_of_ne hik hic, swap_apply_of_ne_of_ne hpi hne]
      exact h.away i hi hin hpi
  · have hlti := hpar ▸ parent_lt hi
    rw [comp_apply, comp_apply, hc, swap_apply_left,
      swap_apply_of_ne_of_ne (hkc.trans hlti).ne' hlti.ne']
    exact hpar ▸ h.away i hi hin (hpar ▸ hkc.ne')

end BinaryHeap

variable {ι V : Type*} {g : ι → Option V} {m : V → Option ι}

/-- The map finds each value of the table at its place. -/
def Inverse (g : ι → Option V) (m : V → Option ι) : Prop := ∀ v i, m v = some i ↔ g i = some v

namespace Inverse

open Function

variable (h : Inverse g m)

include h

theorem inj (hi : g i = some v) (hj : g j = some v) : i = j :=
  Option.some.inj (((h v i).2 hi).symm.trans ((h v j).2 hj))

variable [DecidableEq ι] [DecidableEq V] {i j : ι} {a b v : V}

/-- A new value in a free place. -/
theorem put (hi : g i = none) (hv : m v = none) :
    Inverse (update g i (some v)) (update m v (some i)) := by
  intro w k
  have hw := h w k
  simp only [update_apply]
  split_ifs <;> grind

theorem drop (hi : g i = some v) : Inverse (update g i none) (update m v none) := by
  intro w k
  have hw := h w k
  have hik : g k = some v → i = k := h.inj hi
  simp only [update_apply]
  split_ifs <;> grind

/-- A value that goes to a free place. -/
theorem move (hi : g i = none) (hj : g j = some v) : Inverse (update (update g j none) i (some v))
      (update m v (some i)) := by
  have hput := (h.drop hj).put (i := i) (v := v)
    (by by_cases hij : i = j <;> simp [hij, hi]) (by simp)
  rwa [update_idem] at hput

/-- Two values that change places. -/
theorem swap (hi : g i = some a) (hj : g j = some b) : Inverse (g ∘ Equiv.swap i j)
      (update (update m b (some i)) a (some j)) := by
  intro w k
  have hw := h w k
  have hik : g k = some a → i = k := h.inj hi
  have hjk : g k = some b → j = k := h.inj hj
  simp only [update_apply, comp_apply, Equiv.swap_apply_def]
  split_ifs <;> grind

end Inverse
