import DartSdk.Internal.SortLoops

/-!
# Internal/SortCorrect — the dual-pivot quicksort sorts

The recursion of `_doSort` is on its fuel; one call of `_dualPivotQuicksort` takes the pivots out of
the list, partitions what is left, puts the pivots between the parts, and sorts each part.

* `takePivots_spec`, `putPivots_spec` — the list without its pivots.
* `doSort_spec` — the recursive descent.
* `sort_correct` — the whole algorithm.
-/

namespace DartSort

open Function List Prog Segment

variable {E : Type} [Inhabited E] {n : ℕ} {lo hi : ℤ} {f : ℤ → E} {a : DartList E}
  [DecidableEq E] {c : E → E → ℤ}

variable {l r left right great less : ℤ} {p1 p2 : E}

/-! ## The pivots

Five elements are sorted by a network of exchanges; the second and the fourth are the pivots. -/

section

omit [Inhabited E]

variable {x y z : E}

omit [DecidableEq E] in
theorem exchange_le (hc : IsTotalPreorder c) : c (exchange c x y).1 (exchange c x y).2 ≤ 0 := by
  unfold exchange
  split_ifs with h
  · exact hc.le_iff.mpr h.le
  · exact not_lt.mp h

omit [DecidableEq E] in
theorem le_exchange_fst (hx : c z x ≤ 0) (hy : c z y ≤ 0) : c z (exchange c x y).1 ≤ 0 := by
  unfold exchange
  split_ifs <;> assumption

omit [DecidableEq E] in
theorem exchange_fst_le (hc : IsTotalPreorder c) (h : c x z ≤ 0 ∨ c y z ≤ 0) :
    c (exchange c x y).1 z ≤ 0 := by
  unfold exchange
  split_ifs with hxy
  · rcases h with h | h
    · exact hc.le_trans y x z (hc.le_iff.mpr hxy.le) h
    · exact h
  · rcases h with h | h
    · exact h
    · exact hc.le_trans x y z (not_lt.mp hxy) h

omit [DecidableEq E] in
/-- The larger of two elements is above whatever one of them is above. -/
theorem le_exchange_snd (hc : IsTotalPreorder c) (h : c z x ≤ 0 ∨ c z y ≤ 0) :
    c z (exchange c x y).2 ≤ 0 := by
  unfold exchange
  split_ifs with hxy
  · rcases h with h | h
    · exact h
    · exact hc.le_trans z y x h (hc.le_iff.mpr hxy.le)
  · rcases h with h | h
    · exact hc.le_trans z x y h (not_lt.mp hxy)
    · exact h

omit [DecidableEq E] in
theorem exchange_snd_le (hx : c x z ≤ 0) (hy : c y z ≤ 0) : c (exchange c x y).2 z ≤ 0 := by
  unfold exchange
  split_ifs <;> assumption

theorem ind_exchange (e : E) :
    ind (exchange c x y).1 e + ind (exchange c x y).2 e = ind x e + ind y e := by
  unfold exchange
  split_ifs
  · exact Nat.add_comm _ _
  · rfl

/-- **The network orders its three middle elements** and loses none. -/
theorem sortFive_spec (hc : IsTotalPreorder c) (x1 x2 x3 x4 x5 : E) :
    let r := sortFive c x1 x2 x3 x4 x5
    c r.2.1 r.2.2.1 ≤ 0 ∧ c r.2.2.1 r.2.2.2.1 ≤ 0 ∧
      ∀ e, ind r.1 e + ind r.2.1 e + ind r.2.2.1 e + ind r.2.2.2.1 e + ind r.2.2.2.2 e
        = ind x1 e + ind x2 e + ind x3 e + ind x4 e + ind x5 e := by
  intro r
  set p1 := exchange c x1 x2 with h1
  set p2 := exchange c x4 x5 with h2
  set p3 := exchange c p1.1 x3 with h3
  set p4 := exchange c p1.2 p3.2 with h4
  set p5 := exchange c p3.1 p2.1 with h5
  set p6 := exchange c p4.2 p5.2 with h6
  set p7 := exchange c p4.1 p2.2 with h7
  set p8 := exchange c p7.1 p6.1 with h8
  set p9 := exchange c p6.2 p7.2 with h9
  change c p8.1 p8.2 ≤ 0 ∧ c p8.2 p9.1 ≤ 0 ∧ ∀ e,
    ind p5.1 e + ind p8.1 e + ind p8.2 e + ind p9.1 e + ind p9.2 e = _
  have h31 : c p3.1 p4.1 ≤ 0 := le_exchange_fst
    (exchange_fst_le hc (Or.inl (exchange_le hc))) (exchange_le hc)
  have h34 : c p4.1 p6.2 ≤ 0 := le_exchange_snd hc (Or.inl (exchange_le hc))
  have h71 : c p7.1 p6.2 ≤ 0 := exchange_fst_le hc (Or.inl h34)
  have h52 : c p5.2 p7.2 ≤ 0 := exchange_snd_le (le_exchange_snd hc (Or.inl h31))
    (le_exchange_snd hc (Or.inr (exchange_le hc)))
  have h61 : c p6.1 p7.2 ≤ 0 := exchange_fst_le hc (Or.inr h52)
  refine ⟨exchange_le hc, exchange_snd_le (le_exchange_fst h71 (exchange_le hc))
    (le_exchange_fst (exchange_le hc) h61), fun e => ?_⟩
  have i1 : ind p1.1 e + ind p1.2 e = ind x1 e + ind x2 e := ind_exchange e
  have i2 : ind p2.1 e + ind p2.2 e = ind x4 e + ind x5 e := ind_exchange e
  have i3 : ind p3.1 e + ind p3.2 e = ind p1.1 e + ind x3 e := ind_exchange e
  have i4 : ind p4.1 e + ind p4.2 e = ind p1.2 e + ind p3.2 e := ind_exchange e
  have i5 : ind p5.1 e + ind p5.2 e = ind p3.1 e + ind p2.1 e := ind_exchange e
  have i6 : ind p6.1 e + ind p6.2 e = ind p4.2 e + ind p5.2 e := ind_exchange e
  have i7 : ind p7.1 e + ind p7.2 e = ind p4.1 e + ind p2.2 e := ind_exchange e
  have i8 : ind p8.1 e + ind p8.2 e = ind p7.1 e + ind p6.1 e := ind_exchange e
  have i9 : ind p9.1 e + ind p9.2 e = ind p6.2 e + ind p7.2 e := ind_exchange e
  omega

end

omit [Inhabited E] in
/-- Cutting both ends off a segment. -/
theorem count_ends (g : ℤ → E) (h : l < r) (e : E) :
    count g l r e = ind (g l) e + count g (l + 1) (r - 1) e + ind (g r) e := by
  rw [count_split g (m := l) (by omega) (by omega), count_self,
    count_split g (l := l + 1) (m := r - 1) (by omega) (by omega), show r - 1 + 1 = r by omega,
    count_self]
  omega

/-- **The pivots are taken out of the list**: the contents of the range are those of its interior
and the two pivots. -/
structure PivotsTaken (c : E → E → ℤ) (f g : ℤ → E) (left right : ℤ) (p1 p2 : E) : Prop where
  outside : ∀ i, i < left ∨ right < i → g i = f i
  contents : ∀ e, count g (left + 1) (right - 1) e + ind p1 e + ind p2 e = count f left right e
  le : c p1 p2 ≤ 0
  sentinel : c p1 p2 = 0 → ∃ i, left + 1 ≤ i ∧ i ≤ right - 1 ∧ c (g i) p1 = 0

theorem takePivots_spec (hc : IsTotalPreorder c) (hR : Rep n lo hi f a)
    (hl : lo ≤ left) (hr : right ≤ hi) (hlr : 32 < right - left) : wp (takePivots c left right)
      (fun p a' => ∃ g, Rep n lo hi g a' ∧ PivotsTaken c f g left right p.1 p.2) a := by
  have hlo := hR.lo_nonneg
  have hsix : (right - left + 1).tdiv 6 = (right - left + 1) / 6 :=
    Int.tdiv_eq_ediv_of_nonneg (by omega)
  have htwo : (left + right).tdiv 2 = (left + right) / 2 := Int.tdiv_eq_ediv_of_nonneg (by omega)
  rw [takePivots, hsix, htwo]
  -- the five indices, apart from each other and from both ends
  generalize hs : (right - left + 1) / 6 = sixth
  generalize h3 : (left + right) / 2 = i3
  generalize h1 : left + sixth = i1
  generalize h5 : right - sixth = i5
  generalize h2 : i3 - sixth = i2
  generalize h4 : i3 + sixth = i4
  have hord : left < i1 ∧ i1 < i2 ∧ i2 < i3 ∧ i3 < i4 ∧ i4 < i5 ∧ i5 < right := by omega
  clear h1 h2 h3 h4 h5 hs hsix htwo
  obtain ⟨o1, o2, o3, o4, o5, o6⟩ := hord
  refine wp_bind (wp_getAt hR (by omega) fun a1 hR1 => ?_)
  refine wp_bind (wp_getAt hR1 (by omega) fun a2 hR2 => ?_)
  refine wp_bind (wp_getAt hR2 (by omega) fun a3 hR3 => ?_)
  refine wp_bind (wp_getAt hR3 (by omega) fun a4 hR4 => ?_)
  refine wp_bind (wp_getAt hR4 (by omega) fun a5 hR5 => ?_)
  obtain ⟨h23, h34, hind⟩ := sortFive_spec hc (f i1) (f i2) (f i3) (f i4) (f i5)
  generalize sortFive c (f i1) (f i2) (f i3) (f i4) (f i5) = five at *
  obtain ⟨e1, e2, e3, e4, e5⟩ := five
  simp only at h23 h34 hind
  refine wp_bind (wp_setAt hR5 (by omega) fun a6 hR6 => ?_)
  refine wp_bind (wp_setAt hR6 (by omega) fun a7 hR7 => ?_)
  refine wp_bind (wp_setAt hR7 (by omega) fun a8 hR8 => ?_)
  refine wp_bind (wp_getAt hR8 (by omega) fun a9 hR9 => ?_)
  refine wp_bind (wp_setAt hR9 (by omega) fun a10 hR10 => ?_)
  refine wp_bind (wp_getAt hR10 (by omega) fun a11 hR11 => ?_)
  refine wp_bind (wp_setAt hR11 (by omega) fun a12 hR12 => ?_)
  refine wp_pure ⟨_, hR12, fun i hi => ?_, fun e => ?_, hc.le_trans _ _ _ h23 h34, fun heq => ?_⟩
  · simp only [update_apply]
    split_ifs <;> first | rfl | omega
  · set g1 := update f i1 e1 with hg1
    set g2 := update g1 i3 e3 with hg2
    set g3 := update g2 i5 e5 with hg3
    set g4 := update g3 i2 (g3 left) with hg4
    have v2 : g1 i3 = f i3 := update_of_ne (by omega) _ _
    have v3 : g2 i5 = f i5 := by
      rw [hg2, update_of_ne (by omega), hg1, update_of_ne (by omega)]
    have v4 : g3 i2 = f i2 := by
      rw [hg3, update_of_ne (by omega), hg2, update_of_ne (by omega), hg1, update_of_ne (by omega)]
    have v5 : g4 i4 = f i4 := by
      rw [hg4, update_of_ne (by omega), hg3, update_of_ne (by omega), hg2,
        update_of_ne (by omega), hg1, update_of_ne (by omega)]
    have k1 : count g1 left right e + ind (f i1) e = count f left right e + ind e1 e :=
      count_update f (by omega) (by omega) e1 e
    have k2 : count g2 left right e + ind (g1 i3) e = count g1 left right e + ind e3 e :=
      count_update g1 (by omega) (by omega) e3 e
    have k3 : count g3 left right e + ind (g2 i5) e = count g2 left right e + ind e5 e :=
      count_update g2 (by omega) (by omega) e5 e
    have k4 : count g4 left right e + ind (g3 i2) e = count g3 left right e + ind (g3 left) e :=
      count_update g3 (by omega) (by omega) (g3 left) e
    have k5 := count_update g4 (l := left) (r := right) (i := i4) (by omega) (by omega) (g4 right) e
    have k6 := count_ends (update g4 i4 (g4 right)) (l := left) (r := right) (by omega) e
    have w1 : update g4 i4 (g4 right) left = g3 left := by
      rw [update_of_ne (by omega), hg4, update_of_ne (by omega)]
    have w2 : update g4 i4 (g4 right) right = g4 right := update_of_ne (by omega) _ _
    have hi := hind e
    rw [v2] at k2
    rw [v3] at k3
    rw [v4] at k4
    rw [v5] at k5
    rw [w1, w2] at k6
    change count (update g4 i4 (g4 right)) (left + 1) (right - 1) e + ind e2 e + ind e4 e = _
    omega
  · refine ⟨i3, by omega, by omega, ?_⟩
    rw [update_of_ne (by omega), update_of_ne (by omega), update_of_ne (by omega), update_self]
    have h42 := hc.eq_comm.mp heq
    exact le_antisymm (hc.le_trans _ _ _ h34 h42.le) (hc.le_iff.mp h23)

/-- **The pivots are back**, between the parts; the parts take up the ends of the range. -/
structure PivotsPut (g g' : ℤ → E) (left right less great : ℤ) (p1 p2 : E) : Prop where
  outside : ∀ i, i < left ∨ right < i → g' i = g i
  contents : ∀ e, count g' left right e = count g (left + 1) (right - 1) e + ind p1 e + ind p2 e
  low : ∀ i, left ≤ i → i ≤ less - 2 → ∃ j, left + 1 ≤ j ∧ j < less ∧ g' i = g j
  pivot1 : g' (less - 1) = p1
  mid : ∀ i, less ≤ i → i ≤ great → g' i = g i
  pivot2 : g' (great + 1) = p2
  high : ∀ i, great + 2 ≤ i → i ≤ right → ∃ j, great < j ∧ j ≤ right - 1 ∧ g' i = g j

theorem putPivots_spec (hR : Rep n lo hi f a) (hl : lo ≤ left)
    (hr : right ≤ hi) (hb : left + 1 ≤ less ∧ less ≤ great + 1 ∧ great ≤ right - 1) :
    wp (putPivots left right p1 p2 less great)
      (fun _ a' => ∃ g, Rep n lo hi g a' ∧ PivotsPut f g left right less great p1 p2) a := by
  obtain ⟨hb1, hb2, hb3⟩ := hb
  refine wp_bind (wp_getAt hR (by omega) fun a1 hR1 => ?_)
  refine wp_bind (wp_setAt hR1 (by omega) fun a2 hR2 => ?_)
  refine wp_bind (wp_setAt hR2 (by omega) fun a3 hR3 => ?_)
  refine wp_bind (wp_getAt hR3 (by omega) fun a4 hR4 => ?_)
  refine wp_bind (wp_setAt hR4 (by omega) fun a5 hR5 => ?_)
  refine wp_setAt hR5 (by omega) fun a6 hR6 => ⟨_, hR6, ?_⟩
  set g1 := update f left (f (less - 1)) with hg1
  set g2 := update g1 (less - 1) p1 with hg2
  have hg2g : g2 (great + 1) = f (great + 1) := by
    rw [hg2, update_of_ne (by omega), hg1, update_of_ne (by omega)]
  set g3 := update g2 right (g2 (great + 1)) with hg3
  have hval : ∀ i, update g3 (great + 1) p2 i = if i = great + 1 then p2
      else if i = right then f (great + 1) else if i = less - 1 then p1
      else if i = left then f (less - 1) else f i := fun i => by
    rw [update_apply, hg3, update_apply, hg2g, hg2, update_apply, hg1, update_apply]
  refine ⟨fun i hi => ?_, fun e => ?_, fun i h1 h2 => ?_, ?_, fun i h1 h2 => ?_, ?_,
    fun i h1 h2 => ?_⟩
  · rw [hval]
    split_ifs <;> first | omega | rfl
  · have v2 : g1 (less - 1) = f (less - 1) := by
      rw [hg1, update_apply]
      split_ifs <;> rfl
    have v3 : g2 right = f right := by
      rw [hg2, update_of_ne (by omega), hg1, update_of_ne (by omega)]
    have v4 : g3 (great + 1) = f (great + 1) := by
      rw [hg3, update_apply]
      split_ifs
      all_goals exact hg2g
    have k1 : count g1 left right e + ind (f left) e =
        count f left right e + ind (f (less - 1)) e :=
      count_update f (by omega) (by omega) _ e
    have k2 : count g2 left right e + ind (g1 (less - 1)) e = count g1 left right e + ind p1 e :=
      count_update g1 (by omega) (by omega) p1 e
    have k3 : count g3 left right e + ind (g2 right) e
        = count g2 left right e + ind (g2 (great + 1)) e :=
      count_update g2 (by omega) (by omega) _ e
    have k4 := count_update g3 (l := left) (r := right) (i := great + 1) (by omega) (by omega) p2 e
    have k5 := count_ends f (l := left) (r := right) (by omega) e
    rw [v2] at k2
    rw [v3, hg2g] at k3
    rw [v4] at k4
    omega
  · rw [hval, if_neg (by omega), if_neg (by omega), if_neg (by omega)]
    split_ifs with h3
    · exact ⟨less - 1, by omega, by omega, rfl⟩
    · exact ⟨i, by omega, by omega, rfl⟩
  · rw [hval, if_neg (by omega), if_neg (by omega), if_pos rfl]
  · rw [hval]
    split_ifs <;> first | omega | rfl
  · rw [hval, if_pos rfl]
  · rw [hval, if_neg (by omega)]
    split_ifs with h3 h4 h5
    · exact ⟨great + 1, by omega, by omega, rfl⟩
    · omega
    · omega
    · exact ⟨i, by omega, by omega, rfl⟩

omit [Inhabited E] in
/-- **Sorted parts around their pivots are a sorted range.** -/
theorem sorts_of_parts (hc : IsTotalPreorder c) {L M H : E → Prop} {g g1 g2 g3 g4 g5 : ℤ → E}
    (hT : PivotsTaken c f g left right p1 p2)
    (hP : Parts L M H g g1 (left + 1) (right - 1) less great)
    (hput : PivotsPut g1 g2 left right less great p1 p2)
    (hs1 : Sorts c g2 g3 left (less - 2)) (hs2 : Sorts c g3 g4 (great + 2) right)
    (hs3 : Sorts c g4 g5 less great) (hL : ∀ x, L x → c x p1 ≤ 0)
    (hM : ∀ x, M x → c p1 x ≤ 0 ∧ c x p2 ≤ 0) (hH : ∀ x, H x → c p2 x ≤ 0) :
    Sorts c f g5 left right := by
  obtain ⟨hb1, hb2, hb3⟩ := hP.bounds
  have hlow : ∀ i, left ≤ i → i ≤ less - 2 → c (g5 i) p1 ≤ 0 := by
    intro i h1 h2
    rw [hs3.outside i (by omega), hs2.outside i (by omega)]
    refine hs1.contents.forall (p := (c · p1 ≤ 0)) (fun i h1 h2 => ?_) i h1 h2
    obtain ⟨j, hj1, hj2, hj⟩ := hput.low i h1 h2
    exact hj ▸ hL _ (hP.low j hj1 hj2)
  have hmid : ∀ i, less ≤ i → i ≤ great → c p1 (g5 i) ≤ 0 ∧ c (g5 i) p2 ≤ 0 := by
    refine hs3.contents.forall (p := fun x => c p1 x ≤ 0 ∧ c x p2 ≤ 0) fun i h1 h2 => ?_
    rw [hs2.outside i (by omega), hs1.outside i (by omega), hput.mid i h1 h2]
    exact hM _ (hP.mid i h1 h2)
  have hhigh : ∀ i, great + 2 ≤ i → i ≤ right → c p2 (g5 i) ≤ 0 := by
    intro i h1 h2
    rw [hs3.outside i (by omega)]
    refine hs2.contents.forall (p := (c p2 · ≤ 0)) (fun i h1 h2 => ?_) i h1 h2
    rw [hs1.outside i (by omega)]
    obtain ⟨j, hj1, hj2, hj⟩ := hput.high i h1 h2
    exact hj ▸ hH _ (hP.high j hj1 hj2)
  have hv1 : g5 (less - 1) = p1 := by
    rw [hs3.outside _ (by omega), hs2.outside _ (by omega), hs1.outside _ (by omega), hput.pivot1]
  have hv2 : g5 (great + 1) = p2 := by
    rw [hs3.outside _ (by omega), hs2.outside _ (by omega), hs1.outside _ (by omega), hput.pivot2]
  refine ⟨fun i hi => ?_, fun e => ?_, ?_⟩
  · rw [hs3.outside i (by omega), hs2.outside i (by omega), hs1.outside i (by omega),
      hput.outside i hi, hP.outside i (by omega), hT.outside i hi]
  · have h1 : count g2 left right e = count g3 left right e :=
      hs1.contents.extend hs1.outside (by omega) (by omega) e
    have h2 : count g3 left right e = count g4 left right e :=
      hs2.contents.extend hs2.outside (by omega) (by omega) e
    have h3 : count g4 left right e = count g5 left right e :=
      hs3.contents.extend hs3.outside (by omega) (by omega) e
    have h4 := hput.contents e
    have h5 := hP.contents e
    have h6 := hT.contents e
    omega
  · have s1 : SortedOn c g5 left (less - 2) := hs1.sorted.congr fun i h1 h2 => by
      rw [hs3.outside i (by omega), hs2.outside i (by omega)]
    have s3 : SortedOn c g5 (great + 2) right := hs2.sorted.congr fun i h1 h2 => by
      rw [hs3.outside i (by omega)]
    have s12 : SortedOn c g5 left great :=
      s1.around hc hv1 hs3.sorted (by omega) (by omega) hlow fun i h1 h2 => (hmid i h1 h2).1
    refine s12.around hc hv2 s3 rfl (by omega) (fun i h1 h2 => ?_) hhigh
    rcases lt_trichotomy i (less - 1) with hlt | rfl | hgt
    · exact hc.le_trans _ p1 _ (hlow i h1 (by omega)) hT.le
    · exact hv1 ▸ hT.le
    · exact (hmid i (by omega) h2).2

/-- **The second pass** clears the middle part of elements equal to a pivot.  The pivots around it
stop the two searches. -/
theorem partitionMiddle_spec (hc : IsTotalPreorder c) (hR : Rep n lo hi f a)
    (hl : lo < l) (hr : r < hi) (hlr : l ≤ r + 1) (hp1 : f (l - 1) = p1) (hp2 : f (r + 1) = p2)
    (hlt : c p1 p2 < 0) (hge : ∀ i, l ≤ i → i ≤ r → 0 ≤ c (f i) p1) {fuel : ℕ}
    (hfuel : r + 1 - l < fuel) : wp (partitionMiddle c fuel p1 p2 l r)
      (fun q a' => ∃ g, Rep n lo hi g a' ∧
        Parts (c · p1 = 0) (fun _ => True) (c · p2 = 0) f g l r q.1 q.2) a := by
  have h21 : c p2 p1 ≠ 0 := fun h => by
    have := hc.eq_comm.mp h
    omega
  let I (less : ℤ) (a : DartList E) : Prop :=
    Rep n lo hi f a ∧ l ≤ less ∧ less ≤ r + 1 ∧ ∀ i, l ≤ i → i < less → c (f i) p1 = 0
  refine wp_bind (wp_mono (wp_loop I (fun less => (r + 1 - less).toNat) (Q := I) ?_ fuel
    ⟨hR, le_rfl, hlr, fun i _ _ => by omega⟩ (by omega)) ?_)
  · rintro less a ⟨hR, h1, h2, h3⟩
    refine wp_bind (wp_getAt hR (by omega) fun a1 hR1 => ?_)
    refine wp_ite (fun h4 => ?_) (fun _ => wp_pure ⟨hR1, h1, h2, h3⟩)
    have hne : less ≠ r + 1 := by
      rintro rfl
      exact h21 (hp2 ▸ h4)
    refine wp_pure ⟨⟨hR1, by omega, by omega, fun i hi1 hi2 => ?_⟩, by omega⟩
    rcases eq_or_ne i less with rfl | hil
    · exact h4
    · exact h3 i hi1 (by omega)
  rintro less a1 ⟨hR1, h1, h2, h3⟩
  -- the element before `less` is a pivot, or equal to it
  have hstop : c (f (less - 1)) p2 ≠ 0 := fun h => by
    have h4 : c (f (less - 1)) p1 = 0 := by
      rcases eq_or_ne less l with rfl | hne
      · rw [hp1, hc.refl]
      · exact h3 _ (by omega) (by omega)
    have := hc.eq_trans (hc.eq_comm.mp h4) h
    omega
  let J (great : ℤ) (a : DartList E) : Prop :=
    Rep n lo hi f a ∧ less - 1 ≤ great ∧ great ≤ r ∧ ∀ i, great < i → i ≤ r → c (f i) p2 = 0
  refine wp_bind (wp_mono (wp_loop J (fun great => (great + 1 - less).toNat) (Q := J) ?_ fuel
    ⟨hR1, by omega, le_rfl, fun i _ _ => by omega⟩ (by omega)) ?_)
  · rintro great a ⟨hR, h4, h5, h6⟩
    refine wp_bind (wp_getAt hR (by omega) fun a2 hR2 => ?_)
    refine wp_ite (fun h7 => ?_) (fun _ => wp_pure ⟨hR2, h4, h5, h6⟩)
    have hne : great ≠ less - 1 := by
      rintro rfl
      exact hstop h7
    refine wp_pure ⟨⟨hR2, by omega, by omega, fun i hi1 hi2 => ?_⟩, by omega⟩
    rcases eq_or_ne i great with rfl | hig
    · exact h7
    · exact h6 i (by omega) hi2
  rintro great a2 ⟨hR2, h4, h5, h6⟩
  refine wp_mono (partitionLoop_spec (L := (c · p1 = 0)) (M := fun _ => True) (H := (c · p2 = 0))
    (A := (0 ≤ c · p1)) (l := less) (r := great) (fun x _ h => of_decide_eq_true h)
    (fun _ _ _ _ => trivial) (fun x _ h => of_decide_eq_true h)
    (fun x h1 _ h2 => absurd (of_decide_eq_true h2) (not_lt.mpr h1)) (fun _ _ _ _ => trivial)
    (fun i hi1 hi2 => hge i (by omega) (by omega)) hR2 (by omega) (by omega) (by omega)
    (by omega)) ?_
  rintro ⟨less', great'⟩ a3 ⟨g, hR3, hP⟩
  obtain ⟨h7, h8, h9⟩ := hP.bounds
  refine ⟨g, hR3, by omega, fun i hi => hP.outside i (by omega),
    hP.contents.extend hP.outside h1 h5, fun i hi1 hi2 => ?_, fun _ _ _ => trivial,
    fun i hi1 hi2 => ?_⟩
  · rcases lt_or_ge i less with hlt' | hge'
    · rw [hP.outside i (Or.inl hlt')]
      exact h3 i hi1 hlt'
    · exact hP.low i hge' hi2
  · rcases lt_or_ge great i with hlt' | hge'
    · rw [hP.outside i (Or.inr hlt')]
      exact h6 i hlt' hi2
    · exact hP.high i hi1 hge'

omit [Inhabited E] in
/-- A middle part cleared of its pivots and sorted is sorted with them. -/
theorem sorts_of_middle (hc : IsTotalPreorder c) {g h : ℤ → E}
    (hP : Parts (c · p1 = 0) (fun _ => True) (c · p2 = 0) f g l r less great)
    (hs : Sorts c g h less great)
    (hmid : ∀ i, l ≤ i → i ≤ r → 0 ≤ c (f i) p1 ∧ c (f i) p2 ≤ 0) : Sorts c f h l r := by
  obtain ⟨hb1, hb2, hb3⟩ := hP.bounds
  have hcont : SameContents f h l r := hP.contents.trans (hs.contents.extend hs.outside hb1 hb3)
  have hbet : ∀ i, l ≤ i → i ≤ r → 0 ≤ c (h i) p1 ∧ c (h i) p2 ≤ 0 :=
    hcont.forall (p := fun x => 0 ≤ c x p1 ∧ c x p2 ≤ 0) hmid
  have hlow : ∀ i, l ≤ i → i ≤ less - 1 → c (h i) p1 = 0 := fun i h1 h2 => by
    rw [hs.outside i (by omega)]
    exact hP.low i h1 (by omega)
  have hhigh : ∀ i, great + 1 ≤ i → i ≤ r → c (h i) p2 = 0 := fun i h1 h2 => by
    rw [hs.outside i (by omega)]
    exact hP.high i (by omega) h2
  refine ⟨fun i hi => by rw [hs.outside i (by omega), hP.outside i hi], hcont, ?_⟩
  have s1 : SortedOn c h l (less - 1) := fun i j h1 h2 h3 =>
    (hc.eq_trans (hlow i h1 (by omega)) (hc.eq_comm.mp (hlow j (by omega) h3))).le
  have s3 : SortedOn c h (great + 1) r := fun i j h1 h2 h3 =>
    (hc.eq_trans (hhigh i h1 (by omega)) (hc.eq_comm.mp (hhigh j (by omega) h3))).le
  have s12 : SortedOn c h l great :=
    s1.join hc (p := p1) (by rw [show less - 1 + 1 = less by omega]; exact hs.sorted)
      (fun i h1 h2 => (hlow i h1 h2).le)
      fun i h1 h2 => hc.le_iff.mpr (hbet i (by omega) (by omega)).1
  exact s12.join hc (p := p2) s3 (fun i h1 h2 => (hbet i h1 (by omega)).2)
    fun i h1 h2 => (hc.eq_comm.mp (hhigh i h1 h2)).le

/-- `sorter` sorts every range of fewer than `size` elements. -/
def SortsBelow (n : ℕ) (lo hi : ℤ) (c : E → E → ℤ) (size : ℤ)
    (sorter : ℤ → ℤ → Prog (DartList E) Unit) : Prop :=
  ∀ {f : ℤ → E} {a : DartList E} {left right : ℤ}, Rep n lo hi f a → lo ≤ left → right ≤ hi →
    right - left + 1 < size →
    wp (sorter left right) (fun _ a' => ∃ g, Rep n lo hi g a' ∧ Sorts c f g left right) a

variable {sorter : ℤ → ℤ → Prog (DartList E) Unit} (hR : Rep n lo hi f a) (hl : lo ≤ left)
  (hr : right ≤ hi) (hsort : SortsBelow n lo hi c (right - left + 1) sorter)

include hR hl hr hsort

/-- The two outer parts, sorted in turn. -/
theorem sorts_outer (hb : left + 1 ≤ less ∧ less ≤ great + 1 ∧ great ≤ right - 1)
    {rest : Prog (DartList E) Unit} {Q : Unit → DartList E → Prop}
    (hrest : ∀ g1 g2 a', Rep n lo hi g2 a' → Sorts c f g1 left (less - 2) →
      Sorts c g1 g2 (great + 2) right → wp rest Q a') :
    wp (do sorter left (less - 2); sorter (great + 2) right; rest) Q a := by
  obtain ⟨hb1, hb2, hb3⟩ := hb
  refine wp_bind (wp_mono (hsort hR hl (by omega) (by omega)) ?_)
  rintro - a1 ⟨g1, hR1, hs1⟩
  refine wp_bind (wp_mono (hsort hR1 (by omega) hr (by omega)) ?_)
  rintro - a2 ⟨g2, hR2, hs2⟩
  exact hrest g1 g2 a2 hR2 hs1 hs2

/-- **One call of `_dualPivotQuicksort`**, with a recursive descent that sorts smaller ranges. -/
theorem dualPivotQuicksort_spec (hc : IsTotalPreorder c) (hlr : 32 < right - left) {fuel : ℕ}
    (hfuel : right - left < fuel) : wp (dualPivotQuicksort c sorter fuel left right)
      (fun _ a' => ∃ g, Rep n lo hi g a' ∧ Sorts c f g left right) a := by
  refine wp_bind (wp_mono (takePivots_spec hc hR hl hr hlr) ?_)
  rintro ⟨p1, p2⟩ a1 ⟨g, hR1, hT⟩
  by_cases heq : c p1 p2 = 0
  · simp only [heq, if_true]
    refine wp_bind (wp_mono (partitionEqual_spec (hT.sentinel heq) hR1 (by omega) (by omega)
      (by omega)) ?_)
    rintro ⟨less, great⟩ a2 ⟨g1, hR2, hP⟩
    refine wp_bind (wp_mono (putPivots_spec hR2 hl hr hP.bounds) ?_)
    rintro - a3 ⟨g2, hR3, hput⟩
    refine sorts_outer hR3 hl hr hsort hP.bounds fun g3 g4 a4 hR4 hs1 hs2 =>
      wp_pure ⟨g4, hR4, sorts_of_parts hc hT hP hput hs1 hs2
        ⟨fun _ _ => rfl, fun _ => rfl, fun i j h1 h2 h3 => ?_⟩ (fun x h => h.le)
        (fun x h => ?_) fun x h => ?_⟩
    · -- the middle part is equal to the pivot
      have hval : ∀ i, less ≤ i → i ≤ great → c (g4 i) p1 = 0 := fun i h1 h2 => by
        rw [hs2.outside i (by omega), hs1.outside i (by omega), hput.mid i h1 h2]
        exact hP.mid i h1 h2
      exact (hc.eq_trans (hval i h1 (by omega)) (hc.eq_comm.mp (hval j (by omega) h3))).le
    · exact ⟨(hc.eq_comm.mp h).le, (hc.eq_trans h heq).le⟩
    · exact hc.le_trans _ p1 _ (hc.eq_comm.mp heq).le (hc.le_iff.mpr h)
  · have hlt : c p1 p2 < 0 := lt_of_le_of_ne hT.le heq
    simp only [heq, if_false]
    refine wp_bind (wp_mono (partitionLoop_spec (L := (c · p1 < 0))
      (M := fun x => 0 ≤ c x p1 ∧ c x p2 ≤ 0) (H := (0 < c · p2)) (A := fun _ => True)
      (fun x _ h => of_decide_eq_true h)
      (fun x _ h1 h2 => ⟨not_lt.mp (of_decide_eq_false h1), not_lt.mp (of_decide_eq_false h2)⟩)
      (fun x _ h => of_decide_eq_true h) (fun x _ _ h => of_decide_eq_true h)
      (fun x _ h1 h2 => ⟨not_lt.mp (of_decide_eq_false h2), not_lt.mp (of_decide_eq_false h1)⟩)
      (fun _ _ _ => trivial) hR1 (by omega) (by omega) (by omega) (by omega)) ?_)
    rintro ⟨less, great⟩ a2 ⟨g1, hR2, hP⟩
    obtain ⟨hb1, hb2, hb3⟩ := hP.bounds
    refine wp_bind (wp_mono (putPivots_spec hR2 hl hr hP.bounds) ?_)
    rintro - a3 ⟨g2, hR3, hput⟩
    refine sorts_outer hR3 hl hr hsort hP.bounds fun g3 g4 a4 hR4 hs1 hs2 => ?_
    have hdone : ∀ g5, Sorts c g4 g5 less great → Sorts c f g5 left right := fun g5 hs3 =>
      sorts_of_parts hc hT hP hput hs1 hs2 hs3 (fun x h => h.le)
        (fun x h => ⟨hc.le_iff.mpr h.1, h.2⟩) fun x h => hc.le_iff.mpr h.le
    have hmid : ∀ i, less ≤ i → i ≤ great → 0 ≤ c (g4 i) p1 ∧ c (g4 i) p2 ≤ 0 := fun i h1 h2 => by
      rw [hs2.outside i (by omega), hs1.outside i (by omega), hput.mid i h1 h2]
      exact hP.mid i h1 h2
    refine wp_ite (fun hbig => ?_) (fun _ => ?_)
    · refine wp_bind (wp_mono (partitionMiddle_spec hc hR4 (by omega) (by omega) hb2
        (by rw [hs2.outside _ (by omega), hs1.outside _ (by omega), hput.pivot1])
        (by rw [hs2.outside _ (by omega), hs1.outside _ (by omega), hput.pivot2]) hlt
        (fun i h1 h2 => (hmid i h1 h2).1) (by omega)) ?_)
      rintro ⟨less', great'⟩ a5 ⟨g5, hR5, hP5⟩
      obtain ⟨hb4, hb5, hb6⟩ := hP5.bounds
      refine wp_mono (hsort hR5 (by omega) (by omega) (by omega)) ?_
      rintro - a6 ⟨g6, hR6, hs6⟩
      exact ⟨g6, hR6, hdone g6 (sorts_of_middle hc hP5 hs6 hmid)⟩
    · refine wp_mono (hsort hR4 (by omega) (by omega) (by omega)) ?_
      rintro - a5 ⟨g5, hR5, hs5⟩
      exact ⟨g5, hR5, hdone g5 hs5⟩

omit hR hl hr hsort

/-- **`_doSort` sorts**, with one unit of fuel for each element of the range. -/
theorem doSort_spec (hc : IsTotalPreorder c) :
    ∀ fuel : ℕ, 1 < fuel → SortsBelow n lo hi c (fuel - 1) (doSort c fuel)
  | 0, h => by omega
  | fuel + 1, h => by
    intro hR hl hr hsize
    refine wp_ite (fun hsmall => ?_) (fun hlarge => ?_)
    · exact insertionSort_spec hc hR hl hr (by omega) (by omega)
    · rw [insertionSortThreshold] at hlarge
      refine dualPivotQuicksort_spec hR hl hr (fun hR' hl' hr' hsize' =>
        doSort_spec hc fuel (by omega) hR' hl' hr' ?_) hc (by omega) (by omega)
      omega

omit [Inhabited E] [DecidableEq E]

/-- A slice of a list counts as the segment of its contents. -/
theorem count_slice [Inhabited E] [DecidableEq E] (a : DartList E) (e : E) :
    ∀ (l k : ℕ), l + k ≤ a.elems.length →
      ((a.elems.drop l).take k).count e = count a.val l (l + k - 1) e
  | l, 0, _ => by simp [count_eq_zero_of_lt]
  | l, k + 1, h => by
    have hk : k < (a.elems.drop l).length := by simp; omega
    have hlk : l + k < a.elems.length := by omega
    have hv : a.val ((l : ℤ) + k - 1 + 1) = a.elems[l + k] := by
      rw [DartList.val, if_pos (by omega), show ((l : ℤ) + k - 1 + 1).toNat = l + k by omega]
      simp [hlk]
    have hend : (l : ℤ) + ((k + 1 : ℕ) : ℤ) - 1 = (l : ℤ) + k - 1 + 1 := by push_cast; ring
    rw [take_succ_eq_append_getElem hk, count_append, count_slice a e l k (by omega),
      hend, count_split a.val (l := l) (r := (l : ℤ) + k - 1 + 1) (m := (l : ℤ) + k - 1) (by omega)
        (by omega), count_self, hv, getElem_drop, ind, count_singleton]
    simp [beq_iff_eq]

/-- What sorting the elements from `start` up to `stop` means. -/
structure Sorted (c : E → E → ℤ) (start stop : ℕ) (elems : List E) (a : DartList E) : Prop where
  perm : ((a.elems.drop start).take (stop - start)).Perm ((elems.drop start).take (stop - start))
  sorted : ((a.elems.drop start).take (stop - start)).Pairwise (c · · ≤ 0)
  before : a.elems.take start = elems.take start
  after : a.elems.drop stop = elems.drop stop
  accessed : ∀ i ∈ a.accessed, start ≤ i ∧ i < stop

theorem Rep.getElem [Inhabited E]
    (hR : Rep n lo hi f a) {i : ℕ} (hi' : i < a.elems.length) : a.elems[i] = f i := by
  rw [← hR.val_eq, DartList.val, if_pos (by omega)]
  simp [hi']

theorem Sorts.sorted_list [Inhabited E] [DecidableEq E] {c : E → E → ℤ} {start stop : ℕ}
    {elems : List E} {g : ℤ → E} (hle : start ≤ stop) (hstop : stop ≤ elems.length)
    (hR : Rep elems.length start (stop - 1) g a)
    (hs : Sorts c (DartList.val ⟨elems, []⟩) g start (stop - 1)) : Sorted c start stop elems a := by
  have hlen : a.elems.length = elems.length := hR.length_eq
  have hR0 : Rep elems.length start (stop - 1) (DartList.val ⟨elems, []⟩) ⟨elems, []⟩ :=
    ⟨hR.lo_nonneg, hR.hi_lt, rfl, by simp, rfl⟩
  have hout : ∀ i (h1 : i < a.elems.length) (h2 : i < elems.length), i < start ∨ stop ≤ i →
      a.elems[i] = elems[i] := fun i h1 h2 h3 => by
    rw [hR.getElem h1, hs.outside i (by omega)]
    exact (hR0.getElem h2).symm
  refine ⟨perm_iff_count.mpr fun e => ?_, pairwise_iff_getElem.mpr fun i j hi hj hij => ?_,
    ext_getElem (by simp [hlen]) fun i h1 h2 => ?_,
    ext_getElem (by simp [hlen]) fun i h1 h2 => ?_, fun i hi => ?_⟩
  · have hend : (start : ℤ) + ((stop - start : ℕ) : ℤ) - 1 = stop - 1 := by omega
    rw [count_slice a e start _ (by omega), hend, hR.val_eq, ← hs.contents e]
    have := count_slice (⟨elems, []⟩ : DartList E) e start (stop - start) (by simp; omega)
    rw [hend] at this
    exact this.symm
  · simp only [length_take, length_drop] at hi hj
    rw [getElem_take, getElem_take, getElem_drop, getElem_drop,
      hR.getElem (by omega), hR.getElem (by omega)]
    exact hs.sorted _ _ (by omega) (by omega) (by omega)
  · simp only [length_take] at h1 h2
    rw [getElem_take, getElem_take]
    exact hout i (by omega) (by omega) (by omega)
  · simp only [length_drop] at h1 h2
    rw [getElem_drop, getElem_drop]
    exact hout _ (by omega) (by omega) (by omega)
  · have := hR.accessed i hi
    omega

/-- **`_doSort` sorts a list from `start` up to `stop`.** -/
theorem doSort_sorted {c : E → E → ℤ} (hc : IsTotalPreorder c) {elems : List E} {start stop : ℕ}
    (hle : start ≤ stop) (hstop : stop ≤ elems.length) {fuel : ℕ}
    (hfuel : elems.length + 1 < fuel) :
    ∃ a, doSort c fuel start (stop - 1) ⟨elems, []⟩ = some ((), a) ∧
      Sorted c start stop elems a := by
  classical
  cases elems with
  | nil =>
    -- no element to stand for the default: but nothing is read either
    obtain rfl : stop = 0 := by simpa using hstop
    obtain rfl : start = 0 := by omega
    obtain ⟨fuel, rfl⟩ : ∃ k, fuel = k + 2 := ⟨fuel - 2, by omega⟩
    exact ⟨⟨[], []⟩, rfl, by simp, by simp, rfl, rfl, by simp⟩
  | cons x xs =>
    have : Inhabited E := ⟨x⟩
    have hR : Rep (x :: xs).length start (stop - 1) (DartList.val ⟨x :: xs, []⟩) ⟨x :: xs, []⟩ :=
      ⟨by omega, by omega, rfl, by simp, rfl⟩
    obtain ⟨⟨⟩, a, ha, g, hRg, hs⟩ := doSort_spec hc fuel (by omega) hR le_rfl le_rfl (by omega)
    exact ⟨a, ha, hs.sorted_list hle hstop hRg⟩

/-- **`Sort.sort` sorts the whole list and `Sort.sortRange` its range**: for a consistent comparison
and enough fuel both succeed, rearrange the range into non-decreasing order, leave the other
elements alone, and access no index outside the range. -/
theorem sort_correct {c : E → E → ℤ} (hc : IsTotalPreorder c) (elems : List E) {fuel : ℕ}
    (hfuel : elems.length + 1 < fuel) :
    (∃ a, sort c fuel ⟨elems, []⟩ = some ((), a) ∧ a.elems.Perm elems ∧
      a.elems.Pairwise (c · · ≤ 0) ∧ ∀ i ∈ a.accessed, 0 ≤ i ∧ i < elems.length) ∧
    ∀ start stop : ℕ, start ≤ stop → stop ≤ elems.length →
      ∃ a, sortRange c fuel start stop ⟨elems, []⟩ = some ((), a) ∧
        Sorted c start stop elems a := by
  refine ⟨?_, fun start stop hle hstop => ?_⟩
  · obtain ⟨a, ha, hs⟩ := doSort_sorted hc (Nat.zero_le elems.length) le_rfl hfuel
    have hlen : a.elems.length ≤ elems.length := by
      have := congrArg List.length hs.after
      simp at this
      omega
    have hall : ((a.elems.drop 0).take (elems.length - 0)) = a.elems := by
      simpa using take_of_length_le hlen
    have hall' : ((elems.drop 0).take (elems.length - 0)) = elems := by simp
    refine ⟨a, ha, ?_, ?_, fun i hi => by simpa using hs.accessed i hi⟩
    · have := hs.perm
      rwa [hall, hall'] at this
    · have := hs.sorted
      rwa [hall] at this
  · obtain ⟨a, ha, hs⟩ := doSort_sorted hc hle hstop hfuel
    refine ⟨a, ?_, hs⟩
    change (if _ then _ else _ : Prog (DartList E) Unit) _ = _
    rw [if_neg (by simp; omega)]
    exact ha

theorem sort_correct_sub : ∃ a, sort (fun x y : ℤ => x - y) 5 ⟨[3, 1, 2], []⟩ = some ((), a) ∧
    a.elems.Perm [3, 1, 2] ∧ a.elems.Pairwise fun x y => x - y ≤ 0 := by
  obtain ⟨⟨a, ha, hperm, hsorted, -⟩, -⟩ := sort_correct (c := fun x y : ℤ => x - y)
    ⟨fun x y => by omega, fun x y z => by omega⟩ [3, 1, 2]
      (by decide : [3, 1, 2].length + 1 < 5)
  exact ⟨a, ha, hperm, hsorted⟩

end DartSort
