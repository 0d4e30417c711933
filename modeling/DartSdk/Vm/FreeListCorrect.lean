import DartSdk.Lib.Extent
import DartSdk.Lib.Run
import DartSdk.Vm.FreeList

/-!
# Vm/FreeListCorrect — what the free lists keep

The system is the free lists together with the blocks that have been handed out and not been freed.
`Valid` says what holds of it: the bits, the sizes, the blocks that do not overlap and the cached
maximum.  All but the last are kept by every call (`step_spec`); the maximum is kept by every call
**but a pruning that empties the list of the largest small size** (`Fits`).
-/

namespace FreeList

open Function List Element Extent FreeList.Lists

section

variable {addr size : ℕ}

/-- A size that a block can have. -/
structure IsSize (size : ℕ) : Prop where
  le : kObjectAlignment ≤ size
  aligned : size % kObjectAlignment = 0

instance (size : ℕ) : Decidable (IsSize size) :=
  decidable_of_iff (kObjectAlignment ≤ size ∧ size % kObjectAlignment = 0)
    ⟨fun h => ⟨h.1, h.2⟩, fun h => ⟨h.1, h.2⟩⟩

/-- The block of an element. -/
def Element.extent (e : Element) : Extent := ⟨e.addr, e.heapSize⟩

/-- The header holds the size. -/
theorem heapSize_asElement (h : IsSize size) : (asElement addr size).heapSize = size := by
  obtain ⟨hle, haligned⟩ := h
  rw [kObjectAlignment] at hle haligned
  rw [heapSize, asElement]
  by_cases hmax : size ≤ kMaxSizeTag
  · have hround : size >>> kObjectAlignmentLog2 <<< kObjectAlignmentLog2 = size := by
      rw [Nat.shiftRight_eq_div_pow, Nat.shiftLeft_eq, kObjectAlignmentLog2]
      omega
    simp only [if_pos hmax, hround]
    rw [if_pos (show size ≠ 0 by omega)]
  · simp [hmax, Nat.lt_of_not_le hmax]

theorem indexForSize_le (size : ℕ) : indexForSize size ≤ kNumLists := by
  rw [indexForSize]
  split_ifs <;> omega

/-- The list of a size. -/
theorem indexForSize_spec (h : IsSize size) :
    (indexForSize size < kNumLists ∧ size = indexForSize size * kObjectAlignment ∧
      indexForSize size ≠ 0) ∨
    indexForSize size = kNumLists ∧ kNumLists * kObjectAlignment ≤ size := by
  obtain ⟨hle, haligned⟩ := h
  have hshift : size >>> kObjectAlignmentLog2 = size / 16 := Nat.shiftRight_eq_div_pow size 4
  rw [indexForSize, hshift]
  rw [kObjectAlignment, kNumLists] at *
  split_ifs <;> omega

end

/-! ## The lists

What the lists must satisfy: each block is in the list of its size, the map says which lists are not
empty, and no list has a block twice. -/

namespace Lists

variable {s s' : Lists} {i j size : ℕ} {e : Element}

/-- The free blocks. -/
def freeExtents (s : Lists) : List Extent :=
  (List.range (kNumLists + 1)).flatMap fun i => (s.freeLists i).map extent

/-- An element is in the list of its size. -/
structure Belongs (i : ℕ) (e : Element) : Prop where
  isSize : IsSize e.heapSize
  index : indexForSize e.heapSize = i

/-- What holds of the lists by themselves.  The cached maximum is only known to be a bound. -/
structure Ok (s : Lists) : Prop where
  freeMap : ∀ i < kNumLists, s.freeMap.test i = true ↔ s.freeLists i ≠ []
  belongs : ∀ i ≤ kNumLists, ∀ e ∈ s.freeLists i, Belongs i e
  bound : ∀ i < kNumLists, s.freeLists i ≠ [] → ((i * kObjectAlignment : ℕ) : ℤ) ≤
    s.lastFreeSmallSize

/-- **`last_free_small_size_` as it is declared**: the largest available small size in bytes, or
negative if there is none. -/
def LastOk (s : Lists) : Prop :=
  (∃ i < kNumLists, s.freeLists i ≠ [] ∧ s.lastFreeSmallSize = (i * kObjectAlignment : ℕ) ∧
    ∀ j < kNumLists, s.freeLists j ≠ [] → j ≤ i) ∨
  (∀ i < kNumLists, s.freeLists i = []) ∧ s.lastFreeSmallSize < 0

/-- A call keeps the lists, and the maximum if it was right. -/
structure Evolves (s s' : Lists) : Prop where
  ok : s'.Ok
  last : s.LastOk → s'.LastOk

theorem Evolves.trans {s'' : Lists} (h : Evolves s s') (h' : Evolves s' s'') : Evolves s s'' :=
  ⟨h'.ok, fun hl => h'.last (h.last hl)⟩

/-- The free blocks when an element leaves a list. -/
theorem freeExtents_perm (rest : List Element) (hi : i ≤ kNumLists)
    (hp : (s.freeLists i).Perm (e :: rest)) (hs' : s'.freeLists = update s.freeLists i rest) :
    s.freeExtents.Perm (e.extent :: s'.freeExtents) := by
  have hmap : (fun k => (s'.freeLists k).map extent) =
      update (fun k => (s.freeLists k).map extent) i (rest.map extent) := by
    funext k
    rw [hs']
    by_cases hk : k = i
    · subst hk
      rw [update_self, update_self]
    · rw [update_of_ne hk, update_of_ne hk]
  rw [freeExtents, freeExtents, hmap]
  exact flatMap_update_perm nodup_range (mem_range.2 (Nat.lt_succ_of_le hi)) (hp.map _)

theorem mul_kObjectAlignment (i : ℕ) : i <<< kObjectAlignmentLog2 = i * kObjectAlignment :=
  Nat.shiftLeft_eq i 4

variable {l : List Element}

/-- A change to one list. -/
theorem Ok.update (h : s.Ok)
    (hlists : s'.freeLists = update s.freeLists i l) (hl : ∀ e ∈ l, Belongs i e)
    (hmap : ∀ j < kNumLists, s'.freeMap.test j = if j = i then !l.isEmpty else s.freeMap.test j)
    (hbound : ∀ j < kNumLists, s'.freeLists j ≠ [] → ((j * kObjectAlignment : ℕ) : ℤ) ≤
      s'.lastFreeSmallSize) : s'.Ok := by
  refine ⟨fun j hj => ?_, fun j hj e he => ?_, hbound⟩
  · rw [hmap j hj, hlists]
    by_cases hji : j = i
    · subst hji
      cases l <;> simp
    · rw [if_neg hji, update_of_ne hji, h.freeMap j hj]
  · rw [hlists] at he
    by_cases hji : j = i
    · subst hji
      rw [update_self] at he
      exact hl e he
    · rw [update_of_ne hji] at he
      exact h.belongs j hj e he

/-- The maximum depends on which small lists are empty. -/
theorem LastOk.congr (h : s.LastOk)
    (hlists : ∀ j < kNumLists, (s'.freeLists j = [] ↔ s.freeLists j = []))
    (hlast : s'.lastFreeSmallSize = s.lastFreeSmallSize) : s'.LastOk := by
  obtain ⟨i, hi, hne, heq, hmax⟩ | ⟨hnone, hneg⟩ := h
  · refine .inl ⟨i, hi, fun hnil => hne ((hlists i hi).1 hnil), hlast.trans heq, fun j hj hj' => ?_⟩
    exact hmax j hj fun hnil => hj' ((hlists j hj).2 hnil)
  · exact .inr ⟨fun i hi => (hlists i hi).2 (hnone i hi), hlast ▸ hneg⟩

theorem Ok.evolves_update (h : s.Ok)
    (hlists : s'.freeLists = Function.update s.freeLists i l) (hl : ∀ e ∈ l, Belongs i e)
    (hempty : i < kNumLists → (l = [] ↔ s.freeLists i = [])) (hmap : s'.freeMap = s.freeMap)
    (hlast : s'.lastFreeSmallSize = s.lastFreeSmallSize) : Evolves s s' := by
  have hiff : ∀ j < kNumLists, (s'.freeLists j = [] ↔ s.freeLists j = []) := by
    intro j hj
    rw [hlists]
    by_cases hji : j = i
    · subst hji
      rw [update_self, hempty hj]
    · rw [update_of_ne hji]
  refine ⟨h.update hlists hl (fun j hj => ?_) (fun j hj hne => ?_), fun h => h.congr hiff hlast⟩
  · rw [hmap]
    by_cases hji : j = i
    · subst hji
      rw [if_pos rfl, Bool.eq_iff_iff, h.freeMap j hj, Bool.not_eq_true', isEmpty_eq_false_iff,
        ne_eq, ne_eq, hempty hj]
    · rw [if_neg hji]
  · rw [hlast]
    exact h.bound j hj fun hnil => hne ((hiff j hj).2 hnil)

theorem enqueueElement_freeLists (s : Lists) (e : Element) (i : ℕ) :
    (s.enqueueElement e i).freeLists = update s.freeLists i (e :: s.freeLists i) := by
  rw [enqueueElement]
  split_ifs <;> rfl

theorem enqueueElement_perm (s : Lists) (hi : i ≤ kNumLists) :
    (s.enqueueElement e i).freeExtents.Perm (e.extent :: s.freeExtents) := by
  refine freeExtents_perm (s.freeLists i) hi ?_ ?_
  · rw [enqueueElement_freeLists, update_self]
  · rw [enqueueElement_freeLists, update_idem, update_eq_self]

theorem enqueueElement_evolves (h : s.Ok) (he : Belongs i e) (hi : i ≤ kNumLists) :
    Evolves s (s.enqueueElement e i) := by
  have hlists := enqueueElement_freeLists s e i
  have hl : ∀ e' ∈ e :: s.freeLists i, Belongs i e' := forall_mem_cons.2 ⟨he, h.belongs i hi⟩
  by_cases hnew : s.freeLists i = [] ∧ i ≠ kNumLists
  · have hlt : i < kNumLists := Nat.lt_of_le_of_ne hi hnew.2
    have hmap : (s.enqueueElement e i).freeMap = s.freeMap.set i true := by
      rw [enqueueElement]
      simp [if_pos hnew]
    have hlast : (s.enqueueElement e i).lastFreeSmallSize =
        max s.lastFreeSmallSize (i * kObjectAlignment : ℕ) := by
      rw [enqueueElement, ← mul_kObjectAlignment]
      simp [if_pos hnew]
    have hbound : ∀ j < kNumLists, (s.enqueueElement e i).freeLists j ≠ [] →
        j = i ∨ s.freeLists j ≠ [] := by
      intro j _ hne
      refine or_iff_not_imp_left.2 fun hji => ?_
      rwa [hlists, update_of_ne hji] at hne
    refine ⟨h.update hlists hl (fun j hj => ?_) (fun j hj hne => ?_), fun hok => ?_⟩
    · rw [hmap, BitSet.test_set hlt]
      rfl
    · rw [hlast]
      obtain rfl | hne := hbound j hj hne
      · exact le_max_right _ _
      · exact (h.bound j hj hne).trans (le_max_left _ _)
    have hne : (s.enqueueElement e i).freeLists i ≠ [] := by
      rw [hlists, update_self]
      exact cons_ne_nil _ _
    obtain ⟨k, hk, hne', heq, hmax⟩ | ⟨hnone, hneg⟩ := hok
    · rcases Nat.le_total i k with hik | hki
      · refine .inl ⟨k, hk, ?_, ?_, fun j hj hj' => ?_⟩
        · have hki : k ≠ i := fun hki => hne' (hki ▸ hnew.1)
          rw [hlists, update_of_ne hki]
          exact hne'
        · rw [hlast, heq]
          exact max_eq_left (Int.ofNat_le.2 (Nat.mul_le_mul_right _ hik))
        · obtain rfl | hj' := hbound j hj hj'
          · exact hik
          · exact hmax j hj hj'
      · refine .inl ⟨i, hlt, hne, ?_, fun j hj hj' => ?_⟩
        · rw [hlast, heq]
          exact max_eq_right (Int.ofNat_le.2 (Nat.mul_le_mul_right _ hki))
        · obtain rfl | hj' := hbound j hj hj'
          · exact le_rfl
          · exact (hmax j hj hj').trans hki
    · refine .inl ⟨i, hlt, hne, ?_, fun j hj hj' => ?_⟩
      · rw [hlast]
        exact max_eq_right (hneg.le.trans (Int.natCast_nonneg _))
      · obtain rfl | hj' := hbound j hj hj'
        · exact le_rfl
        · exact absurd (hnone j hj) hj'
  · have hsame : s.enqueueElement e i =
        { s with freeLists := update s.freeLists i (e :: s.freeLists i) } := by
      rw [enqueueElement]
      simp [if_neg hnew]
    rw [hsame] at hlists ⊢
    refine h.evolves_update hlists hl (fun hlt => iff_of_false (by simp) fun hnil => ?_) rfl rfl
    exact hnew ⟨hnil, hlt.ne⟩

theorem lastOk_of_isLast {p : ℤ}
    (hmap : ∀ j < kNumLists, s.freeMap.test j = true ↔ s.freeLists j ≠ []) (hp : s.freeMap.IsLast p)
    (hlast : s.lastFreeSmallSize = p * kObjectAlignment) : s.LastOk := by
  obtain ⟨rfl, hnone⟩ | ⟨j, rfl, htest, habove⟩ := hp
  · refine .inr ⟨fun i hi => ?_, by rw [hlast]; decide⟩
    by_contra hne
    rw [← ne_eq, ← hmap i hi, hnone i] at hne
    exact absurd hne (by decide)
  have hj : j < kNumLists := by
    by_contra hge
    rw [BitSet.test_of_le (by rw [kNumLists] at hge; omega)] at htest
    exact absurd htest (by decide)
  refine .inl ⟨j, hj, (hmap j hj).1 htest, by rw [hlast]; rfl, fun k hk hne => ?_⟩
  by_contra hlt
  rw [← hmap k hk, habove k (by omega)] at hne
  exact absurd hne (by decide)

theorem LastOk.bound (h : s.LastOk) : ∀ i < kNumLists, s.freeLists i ≠ [] →
    ((i * kObjectAlignment : ℕ) : ℤ) ≤ s.lastFreeSmallSize := by
  intro i hi hne
  obtain ⟨j, -, -, heq, hmax⟩ | ⟨hnone, -⟩ := h
  · rw [heq]
    exact Int.ofNat_le.2 (Nat.mul_le_mul_right _ (hmax i hi hne))
  · exact absurd (hnone i hi) hne

variable (h : s.Ok) (hi : i < kNumLists) (hne : s.freeLists i ≠ [])
  (hlists : s'.freeLists = Function.update s.freeLists i [])

include h hi hne hlists

theorem Ok.evolves_clearLast (hmax : ((i * kObjectAlignment : ℕ) : ℤ) = s.lastFreeSmallSize)
    (hmap : s'.freeMap = (s.freeMap.clearLastAndFindPrevious i).2)
    (hlast : s'.lastFreeSmallSize = (s.freeMap.clearLastAndFindPrevious i).1 * kObjectAlignment) :
    Evolves s s' := by
  have habove : ∀ j, i < j → s.freeMap.test j = false := by
    intro j hij
    rcases Nat.lt_or_ge j kNumLists with hj | hj
    · refine Bool.eq_false_iff.2 fun htest => ?_
      have hle := h.bound j hj ((h.freeMap j hj).1 htest)
      rw [← hmax, Int.ofNat_le, kObjectAlignment] at hle
      omega
    · exact BitSet.test_of_le hj
  obtain ⟨hisLast, htests⟩ :=
    BitSet.clearLastAndFindPrevious_spec ((h.freeMap i hi).2 hne) habove
  rw [← hmap] at hisLast htests
  have hnonempty : ∀ j < kNumLists, s'.freeMap.test j = true ↔ s'.freeLists j ≠ [] := by
    intro j hj
    rw [htests, hlists]
    by_cases hji : j = i
    · subst hji
      simp
    · rw [if_neg hji, update_of_ne hji, h.freeMap j hj]
  have hok : s'.LastOk := lastOk_of_isLast hnonempty hisLast hlast
  exact ⟨h.update hlists (by simp) (fun j _ => htests j) hok.bound, fun _ => hok⟩

/-- The list of another small size becomes empty. -/
theorem Ok.evolves_clear (hmax : ((i * kObjectAlignment : ℕ) : ℤ) ≠ s.lastFreeSmallSize)
    (hmap : s'.freeMap = s.freeMap.set i false)
    (hlast : s'.lastFreeSmallSize = s.lastFreeSmallSize) : Evolves s s' := by
  have hsub : ∀ j, s'.freeLists j ≠ [] → s.freeLists j ≠ [] := by
    intro j hj
    rw [hlists] at hj
    by_cases hji : j = i
    · exact hji ▸ hne
    · rwa [update_of_ne hji] at hj
  refine ⟨h.update hlists (by simp) (fun j _ => ?_) (fun j hj hne => ?_), fun hok => ?_⟩
  · rw [hmap, BitSet.test_set hi]
    rfl
  · rw [hlast]
    exact h.bound j hj (hsub j hne)
  · obtain ⟨k, hk, hkne, hkeq, hkmax⟩ | ⟨hnone, -⟩ := hok
    · have hki : k ≠ i := fun hki => hmax (hki ▸ hkeq.symm)
      refine .inl ⟨k, hk, ?_, hlast.trans hkeq, fun j hj hne => hkmax j hj (hsub j hne)⟩
      rw [hlists, update_of_ne hki]
      exact hkne
    · exact absurd (hnone i hi) hne

omit h hi hne hlists

/-- **Taking the first element of a list.** -/
theorem dequeueElement_spec (h : s.Ok) (hi : i ≤ kNumLists) (hne : s.freeLists i ≠ []) :
    ∃ e s', s.dequeueElement i = some (e, s') ∧ Belongs i e ∧ Evolves s s' ∧
      s.freeExtents.Perm (e.extent :: s'.freeExtents) := by
  obtain ⟨e, next, heq⟩ := exists_cons_of_ne_nil hne
  have hl : ∀ e' ∈ next, Belongs i e' := fun e' he' =>
    h.belongs i hi e' (heq ▸ mem_cons_of_mem e he')
  have he : Belongs i e := h.belongs i hi e (heq ▸ mem_cons_self)
  have hperm : ∀ s' : Lists, s'.freeLists = update s.freeLists i next →
      s.freeExtents.Perm (e.extent :: s'.freeExtents) := fun s' hs' =>
    freeExtents_perm next hi (by rw [heq]) hs'
  rw [dequeueElement, heq]
  dsimp only
  by_cases hlast : next = [] ∧ i ≠ kNumLists
  · obtain ⟨rfl, hne'⟩ := hlast
    have hlt : i < kNumLists := Nat.lt_of_le_of_ne hi hne'
    rw [if_pos ⟨rfl, hne'⟩, mul_kObjectAlignment]
    by_cases hmax : ((i * kObjectAlignment : ℕ) : ℤ) = s.lastFreeSmallSize
    · rw [if_pos hmax]
      exact ⟨e, _, rfl, he, h.evolves_clearLast hlt hne rfl hmax rfl rfl, hperm _ rfl⟩
    · rw [if_neg hmax]
      exact ⟨e, _, rfl, he, h.evolves_clear hlt hne rfl hmax rfl rfl, hperm _ rfl⟩
  · rw [if_neg hlast]
    refine ⟨e, _, rfl, he, ?_, hperm _ rfl⟩
    refine h.evolves_update rfl hl (fun hlt => iff_of_false (fun hnil => ?_) hne) rfl rfl
    exact hlast ⟨hnil, hlt.ne⟩

/-- The rest of a block goes back to the lists. -/
theorem splitElementAfterAndEnqueue_spec {l : List Extent} (h : s.Ok) (he : IsSize e.heapSize)
    (hsize : IsSize size) (hle : size ≤ e.heapSize) (hl : l.Perm (e.extent :: s.freeExtents)) :
    ∃ s', s.splitElementAfterAndEnqueue e size = some s' ∧ Evolves s s' ∧
      Carve l ⟨e.addr, size⟩ s'.freeExtents := by
  rw [splitElementAfterAndEnqueue, if_neg (Nat.not_lt.2 hle)]
  by_cases hzero : e.heapSize - size = 0
  · have heq : e.extent = ⟨e.addr, size⟩ := by
      rw [extent, show e.heapSize = size by omega]
    exact ⟨s, if_pos hzero, ⟨h, id⟩, .inl (heq ▸ hl)⟩
  have hrem : IsSize (e.heapSize - size) := by
    obtain ⟨-, halign⟩ := he
    obtain ⟨-, halign'⟩ := hsize
    rw [kObjectAlignment] at halign halign'
    constructor <;> rw [kObjectAlignment] <;> omega
  have hheap : (asElement (e.addr + size) (e.heapSize - size)).heapSize = e.heapSize - size :=
    heapSize_asElement hrem
  have hbelongs : Belongs (indexForSize (e.heapSize - size))
      (asElement (e.addr + size) (e.heapSize - size)) :=
    ⟨by rwa [hheap], by rw [hheap]⟩
  refine ⟨_, if_neg hzero, enqueueElement_evolves h hbelongs (indexForSize_le _),
    .inr ⟨e.heapSize - size, s.freeExtents, ?_, ?_⟩⟩
  · rw [Nat.add_sub_cancel' hle]
    exact hl
  · have hperm := enqueueElement_perm (e := asElement (e.addr + size) (e.heapSize - size)) s
      (indexForSize_le (e.heapSize - size))
    rwa [extent, hheap] at hperm

/-- What an allocation does: the block comes out of the free ones, or nothing changes. -/
structure Allocates (s : Lists) (size : ℕ) (r : Option ℕ) (s' : Lists) : Prop where
  evolves : Evolves s s'
  taken : ∀ addr, r = some addr → Carve s.freeExtents ⟨addr, size⟩ s'.freeExtents
  same : r = none → s'.freeExtents = s.freeExtents

theorem Allocates.none (h : s.Ok) : Allocates s size none s :=
  ⟨⟨h, id⟩, by simp, fun _ => rfl⟩

theorem Allocates.some {addr : ℕ} (h : Evolves s s')
    (hcarve : Carve s.freeExtents ⟨addr, size⟩ s'.freeExtents) : Allocates s size (some addr) s' :=
  ⟨h, fun _ heq => Option.some.inj heq ▸ hcarve, by simp⟩

/-- The search budget says nothing about the blocks. -/
theorem Allocates.setBudget {r : Option ℕ} (h : Allocates s size r s') (budget : ℤ) :
    Allocates s size r { s' with freelistSearchBudget := budget } :=
  ⟨⟨⟨h.evolves.ok.freeMap, h.evolves.ok.belongs, h.evolves.ok.bound⟩, h.evolves.last⟩, h.taken,
    h.same⟩

theorem Belongs.heapSize (h : Belongs i e) (hi : i < kNumLists) :
    e.heapSize = i * kObjectAlignment := by
  obtain ⟨-, heq, -⟩ | ⟨heq, -⟩ := indexForSize_spec h.isSize
  · rwa [h.index] at heq
  · exact absurd (h.index.symm.trans heq) hi.ne

theorem allocateSmall_spec (h : s.Ok) (hsize : IsSize size) : s.allocateSmall size = some none ∨
    ∃ addr s', s.allocateSmall size = some (some (addr, s')) ∧ Allocates s size (some addr) s' := by
  by_cases hfirst : indexForSize size ≠ kNumLists ∧ s.freeMap.test (indexForSize size) = true
  · have hlt := Nat.lt_of_le_of_ne (indexForSize_le size) hfirst.1
    obtain ⟨e, s', hdeq, hbelongs, hevolves, hperm⟩ :=
      dequeueElement_spec h hlt.le ((h.freeMap _ hlt).1 hfirst.2)
    have heq : e.heapSize = size := by
      obtain ⟨-, heq, -⟩ | ⟨heq, -⟩ := indexForSize_spec hsize
      · rw [hbelongs.heapSize hlt, ← heq]
      · exact absurd heq hfirst.1
    refine .inr ⟨e.addr, s', ?_, .some hevolves (.inl ?_)⟩
    · simp only [allocateSmall, if_pos hfirst, hdeq]
      rfl
    · rwa [extent, heq] at hperm
  by_cases hsmall : indexForSize size + 1 < kNumLists
  swap
  · refine .inl ?_
    simp only [allocateSmall, if_neg hfirst, if_neg hsmall]
    rfl
  obtain ⟨hnext, -⟩ | ⟨j, hnext, hij, htest, -⟩ := s.freeMap.next_isNext (indexForSize size + 1)
  · refine .inl ?_
    simp only [allocateSmall, if_neg hfirst, if_pos hsmall, hnext]
    rfl
  have hj : j < kNumLists := by
    by_contra hge
    rw [BitSet.test_of_le (Nat.not_lt.1 hge)] at htest
    exact absurd htest (by decide)
  obtain ⟨e, s1, hdeq, hbelongs, hevolves, hperm⟩ :=
    dequeueElement_spec h hj.le ((h.freeMap j hj).1 htest)
  have hle : size ≤ e.heapSize := by
    obtain ⟨-, heq, -⟩ | ⟨heq, -⟩ := indexForSize_spec hsize
    · rw [hbelongs.heapSize hj, heq]
      exact Nat.mul_le_mul_right _ (by omega)
    · omega
  obtain ⟨s', hsplit, hevolves', hcarve⟩ :=
    splitElementAfterAndEnqueue_spec hevolves.ok hbelongs.isSize hsize hle hperm
  refine .inr ⟨e.addr, s', ?_, .some (hevolves.trans hevolves') hcarve⟩
  simp only [allocateSmall, if_neg hfirst, if_pos hsmall, hnext]
  rw [if_pos (show (j : ℤ) ≠ -1 by omega), Int.toNat_natCast]
  simp only [hdeq, hsplit, bind, Option.bind]
  rfl

/-- An element that the search finds is large enough, and the others stay. -/
theorem search_found {others : List Element} {t t' : ℤ} (h : search size l t = .found e others t') :
    l.Perm (e :: others) ∧ size ≤ e.heapSize := by
  induction l generalizing t others with
  | nil => exact absurd h (by simp [search])
  | cons current next ih =>
    rw [search] at h
    split_ifs at h with hlarge htries
    · obtain ⟨rfl, rfl, -⟩ := Search.found.inj h
      exact ⟨.rfl, hlarge⟩
    split at h
    · next hrest =>
      obtain ⟨rfl, rfl, rfl⟩ := Search.found.inj h
      obtain ⟨hperm, hle⟩ := ih hrest
      exact ⟨(hperm.cons current).trans (.swap _ _ _), hle⟩
    · next hno => exact absurd h (hno _ _ _)

/-- An element is taken out of the last list. -/
theorem unlinkLarge_spec {others : List Element} (h : s.Ok)
    (hperm : (s.freeLists kNumLists).Perm (e :: others)) :
    Belongs kNumLists e ∧ Evolves s (s.unlinkLarge others) ∧
      s.freeExtents.Perm (e.extent :: (s.unlinkLarge others).freeExtents) := by
  have hbelongs : ∀ e' ∈ e :: others, Belongs kNumLists e' := fun e' he' =>
    h.belongs kNumLists le_rfl e' (hperm.mem_iff.2 he')
  obtain ⟨he, hothers⟩ := forall_mem_cons.1 hbelongs
  exact ⟨he, h.evolves_update rfl hothers (fun hlt => absurd hlt (lt_irrefl _)) rfl rfl,
    freeExtents_perm others le_rfl hperm rfl⟩

theorem tryAllocate_spec (h : s.Ok) (hsize : IsSize size) :
    ∃ r s', s.tryAllocate size = some (r, s') ∧ Allocates s size r s' := by
  obtain hsmall | ⟨addr, s', hsmall, halloc⟩ := allocateSmall_spec h hsize
  all_goals simp only [tryAllocate, hsmall, bind, Option.bind]
  · cases hsearch : search size (s.freeLists kNumLists) (s.triesLeft size) with
    | found e others t =>
      obtain ⟨hperm, hle⟩ := search_found hsearch
      obtain ⟨hbelongs, hevolves, hextents⟩ := unlinkLarge_spec h hperm
      obtain ⟨s', hsplit, hevolves', hcarve⟩ :=
        splitElementAfterAndEnqueue_spec hevolves.ok hbelongs.isSize hsize hle hextents
      have halloc : Allocates s size (some e.addr) s' := .some (hevolves.trans hevolves') hcarve
      refine ⟨some e.addr, _, ?_, halloc.setBudget (min t kInitialFreeListSearchBudget)⟩
      simp only [hsplit]
      rfl
    | outOfTries => exact ⟨none, _, rfl, (Allocates.none h).setBudget kInitialFreeListSearchBudget⟩
    | notFound => exact ⟨none, s, rfl, .none h⟩
  · exact ⟨some addr, s', rfl, halloc⟩

theorem tryAllocateSmall_spec (h : s.Ok) (hsize : IsSize size) :
    ∃ r s', s.tryAllocateSmall size = some (r, s') ∧ Allocates s size r s' := by
  by_cases hlast : size > s.lastFreeSmallSize
  · exact ⟨none, s, by simp only [tryAllocateSmall, if_pos hlast]; rfl, .none h⟩
  obtain hsmall | ⟨addr, s', hsmall, halloc⟩ := allocateSmall_spec h hsize
  all_goals simp only [tryAllocateSmall, if_neg hlast, hsmall, bind, Option.bind]
  · exact ⟨none, s, rfl, .none h⟩
  · exact ⟨some addr, s', rfl, halloc⟩

/-- The element is handed out whole. -/
theorem tryAllocateLarge_spec (h : s.Ok) (size : ℕ) :
    (∃ e s', s.tryAllocateLarge size = (some e, s') ∧ size ≤ e.heapSize ∧
      Allocates s e.heapSize (some e.addr) s') ∨
    ∃ s', s.tryAllocateLarge size = (none, s') ∧ Allocates s size none s' := by
  rw [tryAllocateLarge]
  cases hsearch : search size (s.freeLists kNumLists) (s.triesLeft size) with
  | found e others t =>
    obtain ⟨hperm, hle⟩ := search_found hsearch
    obtain ⟨-, hevolves, hextents⟩ := unlinkLarge_spec h hperm
    exact .inl ⟨e, _, rfl, hle, (Allocates.some hevolves (.inl hextents)).setBudget _⟩
  | outOfTries => exact .inr ⟨_, rfl, (Allocates.none h).setBudget _⟩
  | notFound => exact .inr ⟨s, rfl, .none h⟩

variable {isEvacuationCandidate : ℕ → Bool}

theorem pruneChunk_eq (l kept : List Element) : pruneChunk isEvacuationCandidate l kept =
    (l.filter fun e => !isEvacuationCandidate (pageOf e.addr)).reverse ++ kept := by
  induction l generalizing kept with
  | nil => rfl
  | cons e l ih =>
    rw [pruneChunk, ih, ih]
    cases hpage : isEvacuationCandidate (pageOf e.addr) <;> simp [hpage]

theorem rebuildMap_test (f : ℕ → List Element) (b : BitSet 2) {k : ℕ} (hk : k ≤ kNumLists) :
    (rebuildMap f b k).test j = if j < k then !(f j).isEmpty else b.test j := by
  induction k with
  | zero => rw [rebuildMap, if_neg (Nat.not_lt_zero j)]
  | succ k ih =>
    have hlt : k < 2 * 64 := hk
    rw [rebuildMap, BitSet.test_set hlt, ih (by omega)]
    by_cases hjk : j = k
    · subst hjk
      rw [if_pos rfl, if_pos (Nat.lt_succ_self j)]
    · rw [if_neg hjk]
      refine if_congr ?_ rfl rfl
      omega

theorem pruneFreeLists_freeLists (s : Lists) (i : ℕ) :
    (s.pruneFreeLists isEvacuationCandidate).freeLists i =
      ((s.freeLists i).filter fun e => !isEvacuationCandidate (pageOf e.addr)).reverse := by
  rw [pruneFreeLists]
  exact (pruneChunk_eq _ _).trans (append_nil _)

/-- The free blocks that stay. -/
theorem pruneFreeLists_perm (isEvacuationCandidate : ℕ → Bool) (s : Lists) :
    (s.pruneFreeLists isEvacuationCandidate).freeExtents.Perm
      (s.freeExtents.filter fun b => !isEvacuationCandidate (pageOf b.start)) := by
  rw [freeExtents, freeExtents, filter_flatMap]
  refine List.Perm.flatMap_left _ fun i _ => ?_
  rw [pruneFreeLists_freeLists, filter_map]
  exact (reverse_perm _).map _

theorem pruneFreeLists_ok (h : s.Ok) : (s.pruneFreeLists isEvacuationCandidate).Ok := by
  have hsub : ∀ i, ∀ e ∈ (s.pruneFreeLists isEvacuationCandidate).freeLists i,
      e ∈ s.freeLists i := by
    intro i e he
    rw [pruneFreeLists_freeLists, mem_reverse] at he
    exact mem_of_mem_filter he
  refine ⟨fun i hi => ?_, fun i hi e he => h.belongs i hi e (hsub i e he), fun i hi hne => ?_⟩
  · have htest : (s.pruneFreeLists isEvacuationCandidate).freeMap.test i =
        !((s.pruneFreeLists isEvacuationCandidate).freeLists i).isEmpty := by
      rw [pruneFreeLists]
      rw [rebuildMap_test _ _ le_rfl, if_pos hi]
    rw [htest, Bool.not_eq_true', isEmpty_eq_false_iff]
  · obtain ⟨e, he⟩ := exists_mem_of_ne_nil _ hne
    exact h.bound i hi (ne_nil_of_mem (hsub i e he))

/-- The list of the largest small size keeps an element, or there is no such list. -/
def PruneFits (isEvacuationCandidate : ℕ → Bool) (s : Lists) : Prop :=
  (∀ i < kNumLists, s.freeLists i = []) ∨
  ∃ i < kNumLists, (∃ e ∈ s.freeLists i, isEvacuationCandidate (pageOf e.addr) = false) ∧
    ∀ j < kNumLists, s.freeLists j ≠ [] → j ≤ i

/-- **Pruning leaves the maximum as it is**, so it is right exactly if its list keeps an element. -/
theorem pruneFreeLists_lastOk_iff (h : s.LastOk) :
    (s.pruneFreeLists isEvacuationCandidate).LastOk ↔ PruneFits isEvacuationCandidate s := by
  have hne : ∀ i, (s.pruneFreeLists isEvacuationCandidate).freeLists i ≠ [] ↔
      ∃ e ∈ s.freeLists i, isEvacuationCandidate (pageOf e.addr) = false := by
    intro i
    rw [pruneFreeLists_freeLists, ne_eq, reverse_eq_nil_iff, filter_eq_nil_iff]
    simp
  have hlast : (s.pruneFreeLists isEvacuationCandidate).lastFreeSmallSize =
      s.lastFreeSmallSize := rfl
  constructor
  · rintro (⟨i, hi, hnei, heq, -⟩ | ⟨-, hneg⟩)
    · obtain ⟨k, hk, -, hkeq, hkmax⟩ | ⟨-, hneg⟩ := h
      · obtain rfl : i = k := by
          rw [hlast, hkeq, Int.ofNat_inj, kObjectAlignment] at heq
          omega
        exact .inr ⟨i, hi, (hne i).1 hnei, hkmax⟩
      · exact absurd (heq ▸ hneg) (by omega)
    · obtain ⟨k, -, -, hkeq, -⟩ | ⟨hnone, -⟩ := h
      · omega
      · exact .inl hnone
  · rintro (hnone | ⟨i, hi, hkept, hmax⟩)
    · refine .inr ⟨fun i hi => ?_, ?_⟩
      · rw [pruneFreeLists_freeLists, hnone i hi]
        rfl
      · obtain ⟨k, hk, hkne, -⟩ | ⟨-, hneg⟩ := h
        · exact absurd (hnone k hk) hkne
        · exact hneg
    · obtain ⟨e, he, -⟩ := id hkept
      obtain ⟨k, hk, hkne, hkeq, hkmax⟩ | ⟨hnone, -⟩ := h
      · obtain rfl : i = k := le_antisymm (hkmax i hi (ne_nil_of_mem he)) (hmax k hk hkne)
        refine .inl ⟨i, hi, (hne i).2 hkept, hkeq, fun j hj hnej => ?_⟩
        obtain ⟨e', he', -⟩ := (hne j).1 hnej
        exact hmax j hj (ne_nil_of_mem he')
      · exact absurd (hnone i hi) (ne_nil_of_mem he)

end Lists

/-! ## The system

The memory is divided between the lists and what is handed out, in every run. -/

/-- The lists, and the blocks handed out and not freed. -/
structure System where
  lists : Lists
  out : List Extent

/-- What the heap asks of the free list. -/
inductive Op where
  | free (addr size : ℕ)
  | tryAllocate (size : ℕ)
  | tryAllocateSmall (size : ℕ)
  | tryAllocateLarge (minimumSize : ℕ)
  | reset
  | prune (isEvacuationCandidate : ℕ → Bool)

/-- The block of a successful allocation. -/
def handOut (out : List Extent) (size : ℕ) : Option ℕ → List Extent
  | some addr => ⟨addr, size⟩ :: out
  | none => out

namespace System

/-- Nothing is free, and nothing is handed out. -/
def new : System := ⟨.new, []⟩

/-- One request, on the lists and on what is handed out. -/
def step (s : System) : Op → Option System
  | .free addr size => some ⟨s.lists.free addr size, release ⟨addr, size⟩ s.out⟩
  | .tryAllocate size => do
    let (r, lists) ← s.lists.tryAllocate size
    return ⟨lists, handOut s.out size r⟩
  | .tryAllocateSmall size => do
    let (r, lists) ← s.lists.tryAllocateSmall size
    return ⟨lists, handOut s.out size r⟩
  | .tryAllocateLarge minimumSize =>
    match s.lists.tryAllocateLarge minimumSize with
    | (some e, lists) => some ⟨lists, e.extent :: s.out⟩
    | (none, lists) => some ⟨lists, s.out⟩
  | .reset => some ⟨s.lists.reset, s.out⟩
  | .prune isEvacuationCandidate =>
    some ⟨s.lists.pruneFreeLists isEvacuationCandidate, s.out⟩

/-- What callers must see to: sizes are aligned, and no memory is freed that is free. -/
def Allowed (s : System) : Op → Prop
  | .free addr size => IsSize size ∧ ∀ b ∈ s.lists.freeExtents, Apart ⟨addr, size⟩ b
  | .tryAllocate size => IsSize size
  | .tryAllocateSmall size => IsSize size
  | _ => True

/-- **What the free lists are to keep.** -/
structure Valid (s : System) : Prop where
  freeMap : ∀ i < kNumLists, s.lists.freeMap.test i = true ↔ s.lists.freeLists i ≠ []
  small : ∀ i < kNumLists, ∀ e ∈ s.lists.freeLists i, e.heapSize = i * kObjectAlignment
  large : ∀ e ∈ s.lists.freeLists kNumLists, kNumLists * kObjectAlignment ≤ e.heapSize
  apart : (s.lists.freeExtents ++ s.out).Pairwise Apart
  last : s.lists.LastOk

/-- The memory that is free or handed out. -/
def total (s : System) : ℕ := Extent.total s.lists.freeExtents + Extent.total s.out

/-- **Memory is conserved**: an allocation and the freeing of a block handed out leave the total as
it is, other memory that is freed joins it, and blocks dropped by the collector leave it. -/
def Conserves (s : System) (op : Op) (s' : System) : Prop :=
  match op with
  | .free addr size => s'.total + overlaps ⟨addr, size⟩ s.out = s.total + size ∧
      (⟨addr, size⟩ ∈ s.out → s'.total = s.total)
  | .reset => s'.total + Extent.total s.lists.freeExtents = s.total
  | .prune isEvacuationCandidate => s'.total + Extent.total (s.lists.freeExtents.filter fun b =>
    isEvacuationCandidate (pageOf b.start)) = s.total
  | _ => s'.total = s.total

/-- The call succeeds, memory is conserved and the lists are as they should be. -/
def Keeps (s : System) (op : Op) : Prop := ∃ s', s.step op = some s' ∧ s'.Valid ∧ s.Conserves op s'

/-- A pruning leaves an element in the list of the largest small size. -/
def Fits (s : System) : Op → Prop
  | .prune isEvacuationCandidate => PruneFits isEvacuationCandidate s.lists
  | _ => True

/-- What holds after every call. -/
structure Core (s : System) : Prop where
  ok : s.lists.Ok
  apart : (s.lists.freeExtents ++ s.out).Pairwise Apart

variable {s s' : System}

theorem Core.valid_iff (h : s.Core) : s.Valid ↔ s.lists.LastOk := by
  refine ⟨Valid.last, fun hlast =>
    ⟨h.ok.freeMap, fun i hi e he => ?_, fun e he => ?_, h.apart, hlast⟩⟩
  · exact (h.ok.belongs i hi.le e he).heapSize hi
  · have hbelongs := h.ok.belongs kNumLists le_rfl e he
    obtain ⟨hlt, -⟩ | ⟨-, hle⟩ := indexForSize_spec hbelongs.isSize
    · exact absurd hbelongs.index hlt.ne
    · exact hle

/-- What every call does, apart from the maximum. -/
structure Does (s : System) (op : Op) (s' : System) : Prop where
  step : s.step op = some s'
  core : s'.Core
  conserves : s.Conserves op s'

theorem Core.allocate {size : ℕ} {r : Option ℕ} {lists : Lists} (h : s.Core)
    (ha : Allocates s.lists size r lists) :
    Core ⟨lists, handOut s.out size r⟩ ∧ total ⟨lists, handOut s.out size r⟩ = s.total := by
  cases r with
  | none =>
    have hsame := ha.same rfl
    refine ⟨⟨ha.evolves.ok, ?_⟩, ?_⟩
    · rw [hsame]
      exact h.apart
    · change Extent.total lists.freeExtents + Extent.total s.out = s.total
      rw [hsame]
      rfl
  | some addr =>
    have hcarve := ha.taken addr rfl
    refine ⟨⟨ha.evolves.ok, hcarve.apart h.apart⟩, ?_⟩
    change Extent.total lists.freeExtents + Extent.total (⟨addr, size⟩ :: s.out) = s.total
    rw [total, hcarve.total_eq, total_cons]
    omega

theorem Core.free {addr size : ℕ} (h : s.Core) (hop : s.Allowed (.free addr size)) :
    ∃ s', s.Does (.free addr size) s' ∧ Evolves s.lists s'.lists := by
  obtain ⟨hsize, hfree⟩ := hop
  have hheap : (asElement addr size).heapSize = size := heapSize_asElement hsize
  have hevolves : Evolves s.lists (s.lists.free addr size) :=
    enqueueElement_evolves h.ok ⟨by rwa [hheap], by rw [hheap]⟩ (indexForSize_le size)
  have hperm : (s.lists.free addr size).freeExtents.Perm (⟨addr, size⟩ :: s.lists.freeExtents) := by
    have hperm := enqueueElement_perm (e := asElement addr size) s.lists (indexForSize_le size)
    rwa [extent, hheap] at hperm
  have htotal : total ⟨s.lists.free addr size, release ⟨addr, size⟩ s.out⟩ +
      overlaps ⟨addr, size⟩ s.out = s.total + size := by
    have hout := total_release ⟨addr, size⟩ s.out
    simp only [total, total_perm hperm, total_cons]
    omega
  refine ⟨_, ⟨rfl, ⟨hevolves.ok, pairwise_give h.apart hfree hperm⟩, htotal, fun hmem => ?_⟩,
    hevolves⟩
  have hover := overlaps_of_mem (pairwise_append.1 h.apart).2.1 hmem
  dsimp only at hover
  omega

theorem reset_ok (s : Lists) : s.reset.Ok :=
  ⟨fun i _ => iff_of_false (by rw [reset, BitSet.test_reset]; decide) (fun h => h rfl),
    fun i _ e he => absurd he not_mem_nil, fun i _ hne => absurd rfl hne⟩

theorem reset_lastOk (s : Lists) : s.reset.LastOk :=
  .inr ⟨fun _ _ => rfl, show (-1 : ℤ) < 0 by decide⟩

theorem reset_freeExtents (s : Lists) : s.reset.freeExtents = [] :=
  flatMap_eq_nil_iff.2 fun _ _ => rfl

theorem Core.reset (h : s.Core) : s.Does .reset ⟨s.lists.reset, s.out⟩ := by
  have hempty := reset_freeExtents s.lists
  refine ⟨rfl, ⟨reset_ok _, ?_⟩, ?_⟩
  · rw [hempty]
    exact (pairwise_append.1 h.apart).2.1
  · change Extent.total s.lists.reset.freeExtents + _ + _ = Extent.total _ + _
    rw [hempty]
    simp only [total_nil]
    omega

theorem Core.prune (h : s.Core) (isEvacuationCandidate : ℕ → Bool) :
    s.Does (.prune isEvacuationCandidate)
      ⟨s.lists.pruneFreeLists isEvacuationCandidate, s.out⟩ := by
  have hperm := pruneFreeLists_perm isEvacuationCandidate s.lists
  refine ⟨rfl, ⟨pruneFreeLists_ok h.ok, ?_⟩, ?_⟩
  · refine pairwise_perm (hperm.symm.append_right _) (h.apart.sublist ?_)
    exact filter_sublist.append_right _
  have htotal := total_filter s.lists.freeExtents
    fun b => isEvacuationCandidate (pageOf b.start)
  change Extent.total (s.lists.pruneFreeLists isEvacuationCandidate).freeExtents + _ + _ =
    Extent.total _ + _
  rw [total_perm hperm]
  dsimp only
  omega

/-- **What one call does.**  Everything is kept but the maximum, and that too if the call fits. -/
theorem step_spec (h : s.Core) {op : Op} (hop : s.Allowed op) :
    ∃ s', s.Does op s' ∧ (s.lists.LastOk → (s'.lists.LastOk ↔ s.Fits op)) := by
  cases op with
  | free addr size =>
    obtain ⟨s', hdoes, hevolves⟩ := h.free hop
    exact ⟨s', hdoes, fun hlast => iff_of_true (hevolves.last hlast) trivial⟩
  | tryAllocate size =>
    obtain ⟨r, lists, heq, ha⟩ := tryAllocate_spec h.ok hop
    obtain ⟨hcore, htotal⟩ := h.allocate ha
    refine ⟨_, ⟨?_, hcore, htotal⟩, fun hlast => iff_of_true (ha.evolves.last hlast) trivial⟩
    rw [step, heq]
    rfl
  | tryAllocateSmall size =>
    obtain ⟨r, lists, heq, ha⟩ := tryAllocateSmall_spec h.ok hop
    obtain ⟨hcore, htotal⟩ := h.allocate ha
    refine ⟨_, ⟨?_, hcore, htotal⟩, fun hlast => iff_of_true (ha.evolves.last hlast) trivial⟩
    rw [step, heq]
    rfl
  | tryAllocateLarge minimumSize =>
    obtain ⟨e, lists, heq, -, ha⟩ | ⟨lists, heq, ha⟩ :=
      tryAllocateLarge_spec h.ok minimumSize
    all_goals
      obtain ⟨hcore, htotal⟩ := h.allocate ha
      refine ⟨_, ⟨?_, hcore, htotal⟩, fun hlast => iff_of_true (ha.evolves.last hlast) trivial⟩
      simp only [step, heq]
      rfl
  | reset => exact ⟨_, h.reset, fun _ => iff_of_true (reset_lastOk _) trivial⟩
  | prune isEvacuationCandidate =>
    exact ⟨_, h.prune isEvacuationCandidate, fun hlast => pruneFreeLists_lastOk_iff hlast⟩

theorem keeps_iff_fits (h : s.Core) (hlast : s.lists.LastOk) {op : Op} (hop : s.Allowed op) :
    s.Keeps op ↔ s.Fits op := by
  obtain ⟨s', hdoes, hiff⟩ := step_spec h hop
  rw [← hiff hlast, ← hdoes.core.valid_iff]
  constructor
  · rintro ⟨s'', hstep, hvalid, -⟩
    rwa [Option.some.inj (hdoes.step.symm.trans hstep)]
  · exact fun hvalid => ⟨s', hdoes.step, hvalid, hdoes.conserves⟩

theorem core_new : new.Core := ⟨reset_ok _, by rw [new, Lists.new, reset_freeExtents]; exact .nil⟩

/-- **Along every run, all but the maximum is kept by every call.** -/
theorem run_does (ops : List Op) (hops : Run.Along step Allowed new ops) :
    Run.Along step (fun s op => ∃ s', s.Does op s') new ops := by
  refine (Run.along_iff Core (fun s op hs hop => ?_) (fun s op s' hs hop _ hstep => ?_)
    core_new hops).2 hops
  · obtain ⟨s', hdoes, -⟩ := step_spec hs hop
    exact iff_of_true ⟨s', hdoes⟩ hop
  · obtain ⟨s'', hdoes, -⟩ := step_spec hs hop
    exact Option.some.inj (hdoes.step.symm.trans hstep) ▸ hdoes.core

/-- **Along every run from the new lists, all calls keep the invariants exactly if each pruning
leaves an element in the list of the largest small size.** -/
theorem run_keeps_iff_fits (ops : List Op) (hops : Run.Along step Allowed new ops) :
    Run.Along step Keeps new ops ↔ Run.Along step Fits new ops := by
  refine Run.along_iff (fun s => s.Core ∧ s.lists.LastOk)
    (fun s op hs hop => keeps_iff_fits hs.1 hs.2 hop) (fun s op s' hs hop hfits hstep => ?_)
    ⟨core_new, reset_lastOk _⟩ hops
  obtain ⟨s'', hdoes, hiff⟩ := step_spec hs.1 hop
  obtain rfl : s'' = s' := Option.some.inj (hdoes.step.symm.trans hstep)
  exact ⟨hdoes.core, (hiff hs.2).2 hfits⟩

theorem allowed_first : new.Allowed (.free 4096 64) := by
  refine ⟨by decide, fun b hb => ?_⟩
  rw [new, Lists.new, reset_freeExtents] at hb
  exact absurd hb not_mem_nil

/-- A block of 64 bytes and, in the next page, one of 32; 16 bytes are cut from the smaller one, and
the rest of it is pruned with its page. -/
def splitAndPrune : List Op :=
  [.free 4096 64, .free (kPageSize + 4096) 32, .tryAllocate 16, .prune fun page => page ≠ 0]

theorem allowed_splitAndPrune : Run.Along step Allowed new splitAndPrune := by
  refine ⟨allowed_first, fun s hs => ⟨⟨by decide, fun b hb => ?_⟩, fun _ _ =>
    ⟨show IsSize 16 by decide, fun _ _ => ⟨trivial, fun _ _ => trivial⟩⟩⟩⟩
  obtain rfl := Option.some.inj hs
  have hb :=
    (enqueueElement_perm (e := asElement 4096 64) Lists.new (indexForSize_le 64)).mem_iff.mp hb
  rw [Lists.new, reset_freeExtents] at hb
  rw [mem_singleton.mp hb]
  decide

theorem run_does_pruned :
    Run.Along step (fun s op => ∃ s', s.Does op s') new splitAndPrune :=
  run_does _ allowed_splitAndPrune

set_option maxRecDepth 20000 in
/-- The largest small block stays. -/
theorem run_keeps_unpruned : Run.Along step Keeps new splitAndPrune := by
  refine (run_keeps_iff_fits _ allowed_splitAndPrune).2
    ⟨trivial, fun s1 h1 => ⟨trivial, fun s2 h2 =>
    ⟨trivial, fun s3 h3 => ⟨.inr ⟨4, by decide, ?_, fun j _ hne => ?_⟩, fun _ _ => trivial⟩⟩⟩⟩
  all_goals
    obtain rfl := Option.some.inj h1
    obtain rfl := Option.some.inj h2
    have hlists : s3.lists.freeLists = update (update (update (update (fun _ => []) 4
        [asElement 4096 64]) 2 [asElement (kPageSize + 4096) 32]) 2 []) 1
          [asElement (kPageSize + 4096 + 16) 16] := by
      obtain rfl := Option.some.inj h3
      rfl
  · rw [hlists]
    exact ⟨asElement 4096 64, mem_cons_self, rfl⟩
  by_contra hj
  refine hne ?_
  rw [hlists, update_of_ne (by omega), update_of_ne (by omega), update_of_ne (by omega),
    update_of_ne (by omega)]

/-- The block is in an evacuated page.  There is no small block left, and the maximum is still
64. -/
theorem run_pruned : ∃ s s', new.Allowed (.free 4096 64) ∧ new.step (.free 4096 64) = some s ∧
    s.step (.prune fun _ => true) = some s' ∧ (∀ i < kNumLists, s'.lists.freeLists i = []) ∧
    s'.lists.lastFreeSmallSize = 64 ∧ ¬ s'.Valid := by
  have hempty : ∀ (s : Lists) (i : ℕ), (s.pruneFreeLists fun _ => true).freeLists i = [] := by
    intro s i
    rw [pruneFreeLists_freeLists]
    simp
  refine ⟨_, _, allowed_first, rfl, rfl, fun i _ => hempty _ i, rfl, fun hvalid => ?_⟩
  obtain ⟨i, -, hne, -⟩ | ⟨-, hneg⟩ := hvalid.last
  · exact hne (hempty _ i)
  · exact absurd hneg (show ¬ (64 : ℤ) < 0 by decide)

end System

end FreeList
