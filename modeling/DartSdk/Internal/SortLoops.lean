import DartSdk.Internal.Sort
import DartSdk.Lib.Segment

/-!
# Internal/SortLoops — what the loops of the sort do

A list is followed through its contents `f : ℤ → E` (`Rep`), every access staying in a window
`lo..hi`; each loop of the source then has an invariant on `f`.

* `insertionSort_spec` — the insertion sort.
* `partitionLoop_spec` — the three-way partition, whatever it asks of an element.
* `partitionEqual_spec` — the Dutch national flag, with its unguarded search.
-/

namespace DartSort

open Function List Prog Segment

variable {E : Type} [Inhabited E] {i : ℤ}

/-- The element at an index, or the default element out of bounds. -/
def DartList.val (a : DartList E) (i : ℤ) : E :=
  if 0 ≤ i then a.elems.getD i.toNat default else default

/-- **`a` has the contents `f`**, and has been accessed in `lo..hi` only. -/
structure Rep (n : ℕ) (lo hi : ℤ) (f : ℤ → E) (a : DartList E) : Prop where
  lo_nonneg : 0 ≤ lo
  hi_lt : hi < n
  length_eq : a.elems.length = n
  accessed : ∀ i ∈ a.accessed, lo ≤ i ∧ i ≤ hi
  val_eq : a.val = f

variable {n : ℕ} {lo hi : ℤ} {f : ℤ → E} {a : DartList E} (hR : Rep n lo hi f a)
  (hi' : lo ≤ i ∧ i ≤ hi)

include hR hi'

theorem Rep.lt_length : 0 ≤ i ∧ i.toNat < a.elems.length := by
  have hlo := hR.lo_nonneg
  have hlt := hR.hi_lt
  rw [hR.length_eq]
  omega

theorem wp_getAt {Q : E → DartList E → Prop} (hQ : ∀ a', Rep n lo hi f a' → Q (f i) a') :
    wp (getAt i) Q a := by
  obtain ⟨h0, hlt⟩ := hR.lt_length hi'
  refine ⟨f i, { a with accessed := i :: a.accessed }, ?_, hQ _ ⟨hR.lo_nonneg, hR.hi_lt,
    hR.length_eq, forall_mem_cons.mpr ⟨hi', hR.accessed⟩, hR.val_eq⟩⟩
  have hf : f i = a.elems[i.toNat] := by
    rw [← hR.val_eq, DartList.val, if_pos h0]
    simp [hlt]
  rw [getAt, if_pos h0, getElem?_eq_getElem hlt, hf]
  rfl

theorem wp_setAt {x : E} {Q : Unit → DartList E → Prop}
    (hQ : ∀ a', Rep n lo hi (Function.update f i x) a' → Q () a') : wp (setAt i x) Q a := by
  obtain ⟨h0, hlt⟩ := hR.lt_length hi'
  refine ⟨(), ⟨a.elems.set i.toNat x, i :: a.accessed⟩, if_pos ⟨h0, hlt⟩, hQ _ ⟨hR.lo_nonneg,
    hR.hi_lt, (length_set ..).trans hR.length_eq,
    forall_mem_cons.mpr ⟨hi', hR.accessed⟩, ?_⟩⟩
  funext j
  rw [← hR.val_eq]
  rcases eq_or_ne j i with rfl | hne
  · simp [DartList.val, h0, getD_eq_getElem?_getD, hlt]
  rw [update_of_ne hne]
  by_cases hj : 0 ≤ j
  · have hne' : i.toNat ≠ j.toNat := by omega
    simp [DartList.val, hj, getD_eq_getElem?_getD, getElem?_set_ne hne']
  · simp [DartList.val, hj]

variable [DecidableEq E] {c : E → E → ℤ}

omit hR hi'

/-- **`g` is `f` with the segment `l..r` sorted.** -/
structure Sorts (c : E → E → ℤ) (f g : ℤ → E) (l r : ℤ) : Prop where
  outside : ∀ i, i < l ∨ r < i → g i = f i
  contents : SameContents f g l r
  sorted : SortedOn c g l r

/-- The inner loop of the insertion sort: `el` sinks to `j`, the elements it passed move up. -/
structure Sinking (c : E → E → ℤ) (f g : ℤ → E) (el : E) (l i j : ℤ) : Prop where
  le : l ≤ j ∧ j ≤ i
  val : ∀ x, g x = if j < x ∧ x ≤ i then f (x - 1) else f x
  passed : ∀ x, j ≤ x → x < i → 0 < c (f x) el
  contents : ∀ e, count g l i e + ind el e = count f l i e + ind (g j) e

omit [Inhabited E] in
theorem Sinking.step {g : ℤ → E} {el : E} {l j : ℤ} (h : Sinking c f g el l i j) (hlj : l < j)
    (hc : 0 < c (f (j - 1)) el) : Sinking c f (Function.update g j (g (j - 1))) el l i (j - 1) := by
  have hle := h.le
  refine ⟨by omega, fun x => ?_, fun x h1 h2 => ?_, fun e => ?_⟩
  · have h1 := h.val x
    have h2 := h.val (j - 1)
    rw [if_neg (by omega)] at h2
    rcases eq_or_ne x j with rfl | hx
    · rw [update_self, h2, if_pos (by omega)]
    · rw [update_of_ne hx, h1]
      refine if_congr ?_ rfl rfl
      omega
  · rcases eq_or_ne x (j - 1) with rfl | hx
    · exact hc
    · exact h.passed x (by omega) h2
  · have h1 := count_update g (l := l) (r := i) (i := j) (by omega) (by omega) (g (j - 1)) e
    have h2 := h.contents e
    rw [update_of_ne (by omega : j - 1 ≠ j)]
    omega

omit [Inhabited E] in
theorem Sinking.sorts (hc : IsTotalPreorder c) {g : ℤ → E} {el : E} {l j : ℤ}
    (h : Sinking c f g el l i j) (hsorted : ∀ x y, l ≤ x → x ≤ y → y < i → c (f x) (f y) ≤ 0)
    (hstop : j = l ∨ c (f (j - 1)) el ≤ 0) : Sorts c f (Function.update g j el) l i := by
  have hle := h.le
  refine ⟨fun x hx => ?_, fun e => ?_, fun x y hx hxy hy => ?_⟩
  · rw [update_of_ne (by omega), h.val, if_neg (by omega)]
  · have h1 := count_update g (l := l) (r := i) (i := j) (by omega) (by omega) el e
    have h2 := h.contents e
    omega
  -- what stands before `j` is at most `el`, what stands after it is more
  have hbefore : ∀ x, l ≤ x → x < j → c (f x) el ≤ 0 := fun x h1 h2 => by
    rcases hstop with h3 | h3
    · omega
    · exact hc.le_trans _ _ _ (hsorted x (j - 1) h1 (by omega) (by omega)) h3
  have hafter : ∀ x, j ≤ x → x < i → c el (f x) ≤ 0 := fun x h1 h2 =>
    hc.le_iff.mpr (h.passed x h1 h2).le
  simp only [update_apply, h.val]
  split_ifs <;> first
    | omega
    | exact (hc.refl _).le
    | exact hbefore _ (by omega) (by omega)
    | exact hafter _ (by omega) (by omega)
    | exact hsorted _ _ (by omega) (by omega) (by omega)

/-- **`insertionSort` sorts its range.** -/
theorem insertionSort_spec (hc : IsTotalPreorder c) (hR : Rep n lo hi f a) {left right : ℤ}
    (hl : lo ≤ left) (hr : right ≤ hi) {fuel : ℕ} (hfuel : right - left + 1 < fuel)
    (hfuel0 : 0 < fuel) : wp (insertionSort c fuel left right)
      (fun _ a' => ∃ g, Rep n lo hi g a' ∧ Sorts c f g left right) a := by
  refine wp_loop (fun i a => left < i ∧ (i ≤ right + 1 ∨ i = left + 1) ∧ ∃ g, Rep n lo hi g a ∧
      (∀ x, x < left ∨ right < x → g x = f x) ∧ SameContents f g left right ∧
      ∀ x y, left ≤ x → x ≤ y → y < i → c (g x) (g y) ≤ 0)
    (fun i => (right + 1 - i).toNat) ?_ fuel
    ⟨by omega, Or.inr rfl, f, hR, fun _ _ => rfl, fun _ => rfl, fun x y h1 h2 h3 => ?_⟩ (by omega)
  · rintro i a ⟨hli, hir, g, hR, hout, hcont, hsort⟩
    refine wp_ite (fun hend => ?_) (fun hend => ?_)
    · refine wp_bind (wp_getAt hR (by omega) fun a1 hR1 => ?_)
      refine wp_bind (wp_mono (wp_loop (fun j a => ∃ g', Rep n lo hi g' a ∧
          Sinking c g g' (g i) left i j) (fun j => (j - left).toNat)
        (Q := fun j a => ∃ g', Rep n lo hi g' a ∧ Sinking c g g' (g i) left i j ∧
          (j = left ∨ c (g (j - 1)) (g i) ≤ 0)) ?_ fuel
        ⟨g, hR1, by omega, fun x => by rw [if_neg (by omega)], fun x _ _ => by omega,
          fun e => rfl⟩ (by omega)) ?_)
      · rintro j a ⟨g', hR', hS⟩
        have hval := hS.val (j - 1)
        have hle := hS.le
        rw [if_neg (by omega)] at hval
        refine wp_ite (fun hj => ?_) (fun hj => wp_pure ⟨g', hR', hS, Or.inl (by omega)⟩)
        refine wp_bind (wp_getAt hR' (by omega) fun a2 hR2 => ?_)
        refine wp_ite (fun hcmp => ?_)
          (fun hcmp => wp_pure ⟨g', hR2, hS, Or.inr (by rw [← hval]; omega)⟩)
        refine wp_bind (wp_getAt hR2 (by omega) fun a3 hR3 => ?_)
        refine wp_bind (wp_setAt hR3 (by omega) fun a4 hR4 => ?_)
        exact wp_pure ⟨⟨_, hR4, hS.step hj (hval ▸ hcmp)⟩, by omega⟩
      · rintro j a2 ⟨g', hR2, hS, hstop⟩
        have hle := hS.le
        refine wp_bind (wp_setAt hR2 (by omega) fun a3 hR3 => wp_pure ⟨?_, by omega⟩)
        have hnew := hS.sorts hc hsort hstop
        refine ⟨by omega, by omega, _, hR3, fun x hx => ?_, fun e => ?_, fun x y h1 h2 h3 => ?_⟩
        · rw [hnew.outside x (by omega), hout x hx]
        · rw [hcont e, count_split g (m := i) (by omega) hend, hnew.contents e,
            count_split (update g' j (g i)) (l := left) (m := i) (by omega) hend]
          congr 1
          exact count_congr (fun x h1 _ => (hnew.outside x (by omega)).symm) e
        · exact hnew.sorted x y h1 h2 (by omega)
    · exact wp_pure ⟨g, hR, hout, hcont, fun x y h1 h2 h3 => hsort x y h1 h2 (by omega)⟩
  · obtain rfl : x = y := by omega
    exact (hc.refl _).le

section

omit [DecidableEq E]

variable {k less great : ℤ} {Q : Unit → DartList E → Prop} (hR : Rep n lo hi f a)
  (hk : lo ≤ k ∧ k ≤ hi)

include hR hk

theorem wp_exchangeLess (hl : lo ≤ less ∧ less ≤ hi)
    (hQ : ∀ a', Rep n lo hi (swapAt f k less) a' → Q () a') :
    wp (exchangeLess k less (f k)) Q a := by
  refine wp_ite (fun _ => ?_) (fun h => wp_pure (hQ a ?_))
  · refine wp_bind (wp_getAt hR hl fun a1 hR1 => ?_)
    exact wp_bind (wp_setAt hR1 hk fun a2 hR2 => wp_setAt hR2 hl hQ)
  · rw [not_not.mp h, swapAt_self]
    exact hR

theorem wp_exchangeGreat (hg : lo ≤ great ∧ great ≤ hi)
    (hQ : ∀ a', Rep n lo hi (swapAt f k great) a' → Q () a') :
    wp (exchangeGreat k great (f k)) Q a := by
  refine wp_bind (wp_getAt hR hg fun a1 hR1 => ?_)
  exact wp_bind (wp_setAt hR1 hk fun a2 hR2 => wp_setAt hR2 hg hQ)

theorem wp_tripleExchange (hl : lo ≤ less ∧ less ≤ hi) (hg : lo ≤ great ∧ great ≤ hi)
    (hlk : less ≤ k) (hkg : k < great)
    (hQ : ∀ a', Rep n lo hi (swapAt (swapAt f k great) k less) a' → Q () a') :
    wp (tripleExchange k less great (f k)) Q a := by
  refine wp_bind (wp_getAt hR hl fun a1 hR1 => ?_)
  refine wp_bind (wp_setAt hR1 hk fun a2 hR2 => ?_)
  refine wp_bind (wp_getAt hR2 hg fun a3 hR3 => ?_)
  refine wp_bind (wp_setAt hR3 hl fun a4 hR4 => wp_setAt hR4 hg fun a5 hR5 => hQ a5 ?_)
  convert hR5 using 1
  funext x
  simp only [swapAt_apply, update_apply]
  split_ifs <;> first | rfl | omega

end

/-! ## The three-way partition

`A` holds of every element; `L`, `M` and `H` hold of the elements of the three parts. -/

/-- **The partitioned array**: `l..less-1`, then `less..great`, then `great+1..r`. -/
structure Parts (L M H : E → Prop) (f g : ℤ → E) (l r less great : ℤ) : Prop where
  bounds : l ≤ less ∧ less ≤ great + 1 ∧ great ≤ r
  outside : ∀ i, i < l ∨ r < i → g i = f i
  contents : SameContents f g l r
  low : ∀ i, l ≤ i → i < less → L (g i)
  mid : ∀ i, less ≤ i → i ≤ great → M (g i)
  high : ∀ i, great < i → i ≤ r → H (g i)

/-- The partitioning loop at `k`: the elements from `k` to `great` are not partitioned yet. -/
structure Partitioning (L M H : E → Prop) (f g : ℤ → E) (l r k less great : ℤ) : Prop where
  bounds : l ≤ less ∧ less ≤ k ∧ less ≤ great + 1 ∧ great ≤ r
  outside : ∀ i, i < l ∨ r < i → g i = f i
  contents : SameContents f g l r
  low : ∀ i, l ≤ i → i < less → L (g i)
  mid : ∀ i, less ≤ i → i < k → i ≤ great → M (g i)
  high : ∀ i, great < i → i ≤ r → H (g i)

section

variable {L M H : E → Prop} {g : ℤ → E} {l r k less great : ℤ}

section

variable (h : Partitioning L M H f g l r k less great)

omit [Inhabited E]

include h

theorem Partitioning.parts (hk : great < k) : Parts L M H f g l r less great :=
  ⟨⟨h.bounds.1, h.bounds.2.2⟩, h.outside, h.contents, h.low,
    fun i h1 h2 => h.mid i h1 (by omega) h2, h.high⟩

/-- `a[k]` stays in the middle. -/
theorem Partitioning.stay (hM : M (g k)) : Partitioning L M H f g l r (k + 1) less great := by
  obtain ⟨h1, h2, h3, h4⟩ := h.bounds
  refine ⟨by omega, h.outside, h.contents, h.low, fun i hi hk hg => ?_, h.high⟩
  rcases eq_or_ne i k with rfl | hne
  · exact hM
  · exact h.mid i hi (by omega) hg

/-- `a[k]` joins the first part. -/
theorem Partitioning.toLow (hk : k ≤ great)
    (hL : L (g k)) : Partitioning L M H f (swapAt g k less) l r (k + 1) (less + 1) great := by
  obtain ⟨h1, h2, h3, h4⟩ := h.bounds
  refine ⟨by omega, fun i hi => ?_, h.contents.trans (sameContents_swapAt g (by omega) (by omega)),
    fun i hi hl => ?_, fun i hi hk' hg => ?_, fun i hg hi => ?_⟩
  · rw [swapAt_apply, if_neg (by omega), if_neg (by omega), h.outside i hi]
  · rw [swapAt_apply]
    split_ifs with h5 h6
    · exact hL
    · omega
    · exact h.low i hi (by omega)
  · rw [swapAt_apply, if_neg (by omega)]
    split_ifs with h6
    · exact h.mid less le_rfl (by omega) (by omega)
    · exact h.mid i (by omega) (by omega) hg
  · rw [swapAt_apply, if_neg (by omega), if_neg (by omega)]
    exact h.high i hg hi

/-- The end of the range moves down past an element of the last part. -/
theorem Partitioning.shrink (hk : less < great + 1)
    (hH : H (g great)) : Partitioning L M H f g l r k less (great - 1) := by
  obtain ⟨h1, h2, h3, h4⟩ := h.bounds
  refine ⟨by omega, h.outside, h.contents, h.low, fun i hi hk' hg => h.mid i hi hk' (by omega),
    fun i hg hi => ?_⟩
  rcases eq_or_ne i great with rfl | hne
  · exact hH
  · exact h.high i (by omega) hi

/-- Past the end of the range, `k` may move on. -/
theorem Partitioning.skip (hk : great < k) : Partitioning L M H f g l r (k + 1) less great := by
  obtain ⟨h1, h2, h3, h4⟩ := h.bounds
  exact ⟨by omega, h.outside, h.contents, h.low, fun i hi _ hg => h.mid i hi (by omega) hg, h.high⟩

/-- Elements of the last part, or not partitioned yet, change places. -/
theorem Partitioning.swap {i j : ℤ}
    (hi : less ≤ i ∧ (k ≤ i ∨ great < i) ∧ i ≤ r) (hj : less ≤ j ∧ (k ≤ j ∨ great < j) ∧ j ≤ r)
    (hH : great < i ∨ great < j → H (g i) ∧ H (g j)) :
    Partitioning L M H f (swapAt g i j) l r k less great := by
  obtain ⟨h1, h2, h3, h4⟩ := h.bounds
  refine ⟨h.bounds, fun x hx => ?_, h.contents.trans (sameContents_swapAt g (by omega) (by omega)),
    fun x hx hl => ?_, fun x hx hk hg => ?_, fun x hg hx => ?_⟩
  · rw [swapAt_apply, if_neg (by omega), if_neg (by omega), h.outside x hx]
  · rw [swapAt_apply, if_neg (by omega), if_neg (by omega)]
    exact h.low x hx hl
  · rw [swapAt_apply, if_neg (by omega), if_neg (by omega)]
    exact h.mid x hx hk hg
  · rw [swapAt_apply]
    split_ifs with h5 h6
    · exact (hH (by omega)).1
    · exact (hH (by omega)).2
    · exact h.high x hg hx

theorem Partitioning.toHigh (hk : k < great) (hM : M (g great)) (hH : H (g k)) :
    Partitioning L M H f (swapAt g k great) l r (k + 1) less (great - 1) := by
  obtain ⟨h1, h2, h3, h4⟩ := h.bounds
  refine ((h.swap (by omega) (by omega) (by omega)).stay ?_).shrink (by omega) ?_
  · rwa [swapAt_apply, if_neg (by omega), if_pos rfl]
  · rwa [swapAt_apply, if_pos rfl]

/-- `a[k]` joins the last part, `a[great]` the first. -/
theorem Partitioning.triple (hk : k < great) (hL : L (g great)) (hH : H (g k)) :
    Partitioning L M H f (swapAt (swapAt g k great) k less) l r (k + 1) (less + 1) (great - 1) := by
  obtain ⟨h1, h2, h3, h4⟩ := h.bounds
  refine ((h.swap (by omega) (by omega) (by omega)).shrink (by omega) ?_).toLow (by omega) ?_
  · rwa [swapAt_apply, if_pos rfl]
  · rwa [swapAt_apply, if_neg (by omega), if_pos rfl]

end

omit [Inhabited E] in
theorem Partitioning.init (hl : l ≤ r + 1) : Partitioning L M H f f l r l l r :=
  ⟨by omega, fun _ _ => rfl, fun _ => rfl, fun i _ _ => by omega, fun i _ _ _ => by omega,
    fun i _ _ => by omega⟩

/-- **The partitioning loop partitions**, whatever the three questions it asks mean. -/
theorem partitionLoop_spec {isLow isHigh isLow' : E → Bool} {A : E → Prop}
    (hlow : ∀ x, A x → isLow x = true → L x)
    (hmid : ∀ x, A x → isLow x = false → isHigh x = false → M x)
    (hhigh : ∀ x, A x → isHigh x = true → H x)
    (hlow' : ∀ x, A x → isHigh x = false → isLow' x = true → L x)
    (hmid' : ∀ x, A x → isHigh x = false → isLow' x = false → M x)
    (hA : ∀ i, l ≤ i → i ≤ r → A (f i)) (hR : Rep n lo hi f a) (hl : lo ≤ l) (hr : r ≤ hi)
    (hlr : l ≤ r + 1) {fuel : ℕ} (hfuel : r + 1 - l < fuel) :
    wp (partitionLoop isLow isHigh isLow' fuel l r)
      (fun p a' => ∃ g, Rep n lo hi g a' ∧ Parts L M H f g l r p.1 p.2) a := by
  refine wp_loop (fun p a => ∃ g, Rep n lo hi g a ∧ Partitioning L M H f g l r p.1 p.2.1 p.2.2)
    (fun p => (p.2.2 + 1 - p.1).toNat) ?_ fuel ⟨f, hR, .init hlr⟩ (by simp only; omega)
  rintro ⟨k, less, great⟩ a ⟨g, hR, hP⟩
  dsimp only at hP ⊢
  obtain ⟨h1, h2, h3, h4⟩ := hP.bounds
  refine wp_ite (fun hk => ?_) (fun hk => wp_pure ⟨g, hR, hP.parts (by omega)⟩)
  have hAg : ∀ i, l ≤ i → i ≤ r → A (g i) := hP.contents.forall hA
  refine wp_bind (wp_getAt hR (by omega) fun a1 hR1 => ?_)
  refine wp_ite (fun hlo => ?_) (fun hlo => wp_ite (fun hhi => ?_) (fun hhi => ?_))
  · refine wp_bind (wp_exchangeLess hR1 (by omega) (by omega) fun a2 hR2 => wp_pure ?_)
    exact ⟨⟨_, hR2, hP.toLow hk (hlow _ (hAg k (by omega) (by omega)) hlo)⟩, by simp only; omega⟩
  · refine wp_bind (wp_mono (wp_loop (fun great' a => k ≤ great' ∧ great' ≤ great ∧
        Rep n lo hi g a ∧ Partitioning L M H f g l r k less great')
          (fun great' => (great' - k).toNat)
      (Q := fun p a => p.2 ≤ great ∧ ∃ g, Rep n lo hi g a ∧
        Partitioning L M H f g l r (k + 1) p.1 p.2) ?_ fuel
      ⟨hk, le_rfl, hR1, hP⟩ (by omega)) ?_)
    · rintro great' a2 ⟨hkg, hgg, hR2, hP2⟩
      obtain ⟨h5, h6, h7, h8⟩ := hP2.bounds
      have hAk := hAg k (by omega) (by omega)
      have hAgr := hAg great' (by omega) (by omega)
      refine wp_bind (wp_getAt hR2 (by omega) fun a3 hR3 => ?_)
      refine wp_ite (fun hg => ?_) (fun hg => ?_)
      · have hP3 := hP2.shrink (by omega) (hhigh _ hAgr hg)
        refine wp_ite (fun hlt => wp_pure ⟨by simp only; omega, g, hR3, hP3.skip hlt⟩)
          (fun hlt => wp_pure ⟨⟨by omega, by omega, hR3, hP3⟩, by omega⟩)
      -- `a[k]` is in the last part and `a[great]` is not, so they are not the same
      have hne : k ≠ great' := by
        rintro rfl
        exact hg hhi
      refine wp_bind (wp_getAt hR3 (by omega) fun a4 hR4 => ?_)
      refine wp_ite (fun hlo' => ?_) (fun hlo' => ?_)
      · refine wp_bind (wp_tripleExchange hR4 (by omega) (by omega) (by omega) h6 (by omega)
          fun a5 hR5 => wp_pure ⟨by omega, _, hR5, ?_⟩)
        exact hP2.triple (by omega) (hlow' _ hAgr (by simpa using hg) hlo') (hhigh _ hAk hhi)
      · refine wp_bind (wp_exchangeGreat hR4 (by omega) (by omega)
          fun a5 hR5 => wp_pure ⟨by omega, _, hR5, ?_⟩)
        exact hP2.toHigh (by omega) (hmid' _ hAgr (by simpa using hg) (by simpa using hlo'))
          (hhigh _ hAk hhi)
    · rintro ⟨less', great'⟩ a2 ⟨hgg, g', hR2, hP2⟩
      exact wp_pure ⟨⟨g', hR2, hP2⟩, by simp only at hgg ⊢; omega⟩
  · exact wp_pure ⟨⟨g, hR1, hP.stay (hmid _ (hAg k (by omega) (by omega)) (by simpa using hlo)
      (by simpa using hhi))⟩, by simp only; omega⟩

omit [Inhabited E] in
/-- The search from the right ran past `k`: the last element of the middle part and `a[k]` change
places, and both now lie behind the range. -/
theorem Partitioning.toHighBack (h : Partitioning L M H f g l r k less (k - 1)) (hk : less < k)
    (hkr : k ≤ r) (hMH : H (g (k - 1))) (hH : H (g k)) :
    Partitioning L M H f (swapAt g k (k - 1)) l r (k + 1) less (k - 1 - 1) :=
  ((h.shrink (by omega) hMH).swap (by omega) (by omega) fun _ => ⟨hH, hMH⟩).skip (by omega)

end

variable {g : ℤ → E} {p : E} {l r : ℤ}

omit [Inhabited E] [DecidableEq E] in
/-- An element equal to the pivot survives an exchange below `great`, unless it is moved out. -/
theorem exists_swapAt {u v : ℤ} {l' r' : ℤ} (hex : ∃ i, l ≤ i ∧ i ≤ r ∧ c (g i) p = 0)
    (hu : l' ≤ u ∧ u ≤ r' ∨ c (g v) p ≠ 0) (hv : l' ≤ v ∧ v ≤ r' ∨ c (g u) p ≠ 0)
    (hin : ∀ i, l ≤ i → i ≤ r → i ≠ u → i ≠ v → l' ≤ i ∧ i ≤ r' ∨ c (g i) p ≠ 0) :
    ∃ i, l' ≤ i ∧ i ≤ r' ∧ c (swapAt g u v i) p = 0 := by
  obtain ⟨i, h1, h2, h3⟩ := hex
  rcases eq_or_ne i v with rfl | hiv
  · obtain hu := hu.resolve_right (not_not.mpr h3)
    refine ⟨u, hu.1, hu.2, ?_⟩
    rw [swapAt_apply, if_pos rfl]
    split_ifs with h4
    · rw [h4]; exact h3
    · exact h3
  rcases eq_or_ne i u with rfl | hiu
  · obtain hv := hv.resolve_right (not_not.mpr h3)
    refine ⟨v, hv.1, hv.2, ?_⟩
    rw [swapAt_apply, if_pos rfl]
    exact h3
  · obtain hi := (hin i h1 h2 hiu hiv).resolve_right (not_not.mpr h3)
    refine ⟨i, hi.1, hi.2, ?_⟩
    rw [swapAt_apply, if_neg hiv, if_neg hiu]
    exact h3

/-- **The Dutch national flag.**  An element equal to the pivot stops the unguarded search; when it
is the one before `k`, an equal element is left in the last part. -/
theorem partitionEqual_spec (hex : ∃ i, l ≤ i ∧ i ≤ r ∧ c (f i) p = 0) (hR : Rep n lo hi f a)
    (hl : lo ≤ l) (hr : r ≤ hi) {fuel : ℕ} (hfuel : r + 1 - l < fuel) :
    wp (partitionEqual c fuel p l r) (fun q a' => ∃ g, Rep n lo hi g a' ∧
        Parts (c · p < 0) (c · p = 0) (0 ≤ c · p) f g l r q.1 q.2) a := by
  have hlr : l ≤ r := by
    obtain ⟨i, h1, h2, -⟩ := hex
    omega
  refine wp_loop (fun q a => ∃ g, Rep n lo hi g a ∧
      Partitioning (c · p < 0) (c · p = 0) (0 ≤ c · p) f g l r q.1 q.2.1 q.2.2 ∧
      (q.1 ≤ q.2.2 → ∃ i, q.2.1 ≤ i ∧ i ≤ q.2.2 ∧ c (g i) p = 0))
    (fun q => (q.2.2 + 1 - q.1).toNat) ?_ fuel
    ⟨f, hR, .init (by omega), fun _ => hex⟩ (by simp only; omega)
  rintro ⟨k, less, great⟩ a ⟨g, hR, hP, hex⟩
  dsimp only at hP hex ⊢
  obtain ⟨h1, h2, h3, h4⟩ := hP.bounds
  refine wp_ite (fun hk => ?_) (fun hk => wp_pure ⟨g, hR, hP.parts (by omega)⟩)
  replace hex := hex hk
  refine wp_bind (wp_getAt hR (by omega) fun a1 hR1 => ?_)
  refine wp_ite (fun hc0 => ?_) (fun hc0 => wp_ite (fun hc1 => ?_) (fun hc1 => ?_))
  · exact wp_pure ⟨⟨g, hR1, hP.stay hc0, fun _ => hex⟩, by simp only; omega⟩
  · refine wp_bind (wp_exchangeLess hR1 (by omega) (by omega) fun a2 hR2 => wp_pure ?_)
    refine ⟨⟨_, hR2, hP.toLow hk hc1, fun _ => ?_⟩, by simp only; omega⟩
    dsimp only
    refine exists_swapAt hex ?_ (Or.inr hc0) fun i _ _ _ _ => Or.inl (by omega)
    rcases eq_or_ne k less with rfl | hne
    · exact Or.inr hc0
    · exact Or.inl (by omega)
  · have hgt : 0 < c (g k) p := by omega
    refine wp_bind (wp_mono (wp_loop (fun great' a => k - 1 ≤ great' ∧ great' ≤ great ∧
        Rep n lo hi g a ∧
        Partitioning (c · p < 0) (c · p = 0) (0 ≤ c · p) f g l r k less great' ∧
        ∃ i, less ≤ i ∧ i ≤ great' ∧ c (g i) p = 0) (fun great' => (great' + 1 - k).toNat)
      (Q := fun q a => q.2 ≤ great ∧ ∃ g, Rep n lo hi g a ∧
        Partitioning (c · p < 0) (c · p = 0) (0 ≤ c · p) f g l r (k + 1) q.1 q.2 ∧
        (k + 1 ≤ q.2 → ∃ i, q.1 ≤ i ∧ i ≤ q.2 ∧ c (g i) p = 0)) ?_ fuel
      ⟨by omega, le_rfl, hR1, hP, hex⟩ (by omega)) ?_)
    · rintro great' a2 ⟨hkg, hgg, hR2, hP2, hex2⟩
      obtain ⟨h5, h6, h7, h8⟩ := hP2.bounds
      have hlg : less ≤ great' := by
        obtain ⟨i, h, h', -⟩ := hex2
        omega
      -- the search has not passed the middle part
      have hback : great' = k - 1 → c (g great') p = 0 := fun h =>
        hP2.mid great' hlg (by omega) le_rfl
      have hne : c (g great') p ≤ 0 → great' ≠ k := fun h h' => by
        rw [h'] at h
        omega
      refine wp_bind (wp_getAt hR2 (by omega) fun a3 hR3 => ?_)
      refine wp_ite (fun hg => ?_) (fun hg => wp_ite (fun hg' => ?_) (fun hg' => ?_))
      · refine wp_pure ⟨⟨by omega, by omega, hR3, hP2.shrink (by omega) hg.le, ?_⟩, by omega⟩
        obtain ⟨i, hi1, hi2, hi3⟩ := hex2
        have hig : i ≠ great' := fun h => by
          rw [← h, hi3] at hg
          omega
        exact ⟨i, hi1, by omega, hi3⟩
      · have hgk : k < great' := by
          have := hne hg'.le
          omega
        refine wp_bind (wp_tripleExchange hR3 (by omega) (by omega) (by omega) h6 hgk
          fun a4 hR4 => wp_pure ⟨by omega, _, hR4, hP2.triple hgk hg' hgt.le, fun _ => ?_⟩)
        have hex3 : ∃ i, less ≤ i ∧ i ≤ great' - 1 ∧ c (swapAt g k great' i) p = 0 := by
          refine exists_swapAt hex2 (Or.inr hg'.ne) (Or.inr hc0) fun i h _ _ h' => Or.inl ?_
          omega
        have hk' : c (swapAt g k great' k) p ≠ 0 := by
          rw [swapAt_apply, if_neg (by omega), if_pos rfl]
          exact hg'.ne
        refine exists_swapAt hex3 ?_ (Or.inr hk') fun i _ _ _ _ => Or.inl (by omega)
        rcases eq_or_ne k less with rfl | hkl
        · exact Or.inr hk'
        · exact Or.inl (by omega)
      · have hg0 : c (g great') p = 0 := by omega
        refine wp_bind (wp_exchangeGreat hR3 (by omega) (by omega)
          fun a4 hR4 => wp_pure ⟨by omega, _, hR4, ?_⟩)
        rcases lt_or_ge k great' with hkg' | hkg'
        · refine ⟨hP2.toHigh hkg' hg0 hgt.le, fun _ => ⟨k, h6, by omega, ?_⟩⟩
          rw [swapAt_apply, if_neg (by omega), if_pos rfl]
          exact hg0
        · obtain rfl : great' = k - 1 := by omega
          exact ⟨hP2.toHighBack (by omega) (by omega) hg0.ge hgt.le, fun h => by omega⟩
    · rintro ⟨less', great'⟩ a2 ⟨hgg, g', hR2, hP2, hex2⟩
      exact wp_pure ⟨⟨g', hR2, hP2, hex2⟩, by simp only at hgg ⊢; omega⟩

end DartSort
