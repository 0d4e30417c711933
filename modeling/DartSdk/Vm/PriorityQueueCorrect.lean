import DartSdk.Lib.BinaryHeap
import DartSdk.Lib.Run
import DartSdk.Vm.HashMapCorrect
import DartSdk.Vm.PriorityQueue

/-!
# Vm/PriorityQueueCorrect — when the timeout queue stays a queue

`Valid` says what the queue is for: the array is a heap, the map finds each value and the root is
least.  One call keeps it **exactly when** the call `Fits` (`step_valid_iff`).  The calls that do
not fit are removals from the middle whose last entry is less than the parent of the removed one: it
is bubbled down and never up.
-/

namespace PriorityQueue

open Function List Option Queue BinaryHeap

variable {q q' : Queue} {i j : ℕ} {e : Entry} {v : BitVec 64}

namespace Queue

variable {l : List Entry}

/-! ## The map and the positions -/

/-- The priority at a position. -/
def key (q : Queue) (i : ℕ) : ℤ := ((q.minHeap[i]?).map fun e => e.priority.toInt).getD 0

/-- The value at a position. -/
def valueAt (q : Queue) (i : ℕ) : Option (BitVec 64) := (q.minHeap[i]?).map Entry.value

/-- The map is well-formed and sends exactly the stored values to their positions; none of them is
null. -/
structure Indexed (q : Queue) : Prop where
  map : q.hashmap.WellFormed hashKey
  count : q.hashmap.occupancy = q.size
  position : Inverse q.valueAt q.hashmap.get
  nonnull : ∀ e ∈ q.minHeap, e.value ≠ 0

/-- The same entries in an array of the same length. -/
structure Rearranged (q q' : Queue) : Prop where
  perm : q'.minHeap.Perm q.minHeap
  minHeapSize : q'.minHeapSize = q.minHeapSize

theorem Rearranged.refl (q : Queue) : q.Rearranged q := ⟨.rfl, rfl⟩

theorem Rearranged.trans {q'' : Queue} (h : q.Rearranged q') (h' : q'.Rearranged q'') :
    q.Rearranged q'' :=
  ⟨h'.perm.trans h.perm, h'.minHeapSize.trans h.minHeapSize⟩

theorem Rearranged.size (h : q.Rearranged q') : q'.size = q.size := h.perm.length_eq

theorem key_of_getElem? (h : q.minHeap[i]? = some e) : q.key i = e.priority.toInt := by
  simp [key, h]

theorem valueAt_of_getElem? (h : q.minHeap[i]? = some e) : q.valueAt i = some e.value := by
  simp [valueAt, h]

theorem valueAt_eq_none (h : q.size ≤ i) : q.valueAt i = none := by
  simp [valueAt, getElem?_eq_none_iff.2 h]

theorem exists_getElem? (hi : i < q.size) : ∃ e, q.minHeap[i]? = some e :=
  ⟨q.minHeap.get ⟨i, hi⟩, getElem?_eq_getElem hi⟩

theorem lt_size (h : q.minHeap[i]? = some e) : i < q.size := (List.getElem?_eq_some_iff.1 h).1

theorem Indexed.value_ne_zero (h : q.Indexed) (he : q.minHeap[i]? = some e) : e.value ≠ 0 :=
  h.nonnull e (mem_of_getElem? he)

theorem Indexed.hashmap_value (h : q.Indexed) (he : q.minHeap[i]? = some e) :
    q.hashmap.get e.value = some i :=
  (h.position _ _).2 (valueAt_of_getElem? he)

theorem Indexed.exists_of_hashmap (h : q.Indexed) (hv : q.hashmap.get v = some i) :
    ∃ e, q.minHeap[i]? = some e ∧ e.value = v := by
  simpa [valueAt] using (h.position v i).1 hv

section

variable (h : q.hashmap.WellFormed hashKey) (hv : v ≠ 0)

include h hv

theorem findMapEntry_eq : q.findMapEntry v = some (q.hashmap.get v) := by
  obtain ⟨o, hlookup, hsome, hvalue⟩ := HashMap.lookup_spec h hv
  rw [findMapEntry, hlookup]
  cases o with
  | none =>
    have hget : q.hashmap.get v = none := by simpa using hsome.symm
    rw [hget]
    rfl
  | some p =>
    obtain ⟨s, hp, hget⟩ := hvalue p rfl
    rw [hget]
    change (q.hashmap.slots[p]?.bind _) = _
    rw [hp]
    rfl

theorem setMapEntry_spec (i : ℕ) : ∃ m, q.setMapEntry v i = some { q with hashmap := m } ∧
    m.WellFormed hashKey ∧
    m.occupancy = q.hashmap.occupancy + (if (q.hashmap.get v).isSome then 0 else 1) ∧
    m.get = update q.hashmap.get v (some i) := by
  obtain ⟨m, hstore, hm, hcount, hget⟩ := HashMap.store_spec h hv i
  refine ⟨m, ?_, hm, hcount, hget⟩
  rw [setMapEntry, hstore]
  rfl

theorem removeMapEntry_spec (hmem : q.hashmap.get v ≠ none) :
    ∃ m, q.removeMapEntry v = some { q with hashmap := m } ∧ m.WellFormed hashKey ∧
      m.occupancy + 1 = q.hashmap.occupancy ∧ m.get = update q.hashmap.get v none := by
  obtain ⟨m, hremove, hm, hcount, hget⟩ := HashMap.remove_spec h hv hmem
  refine ⟨m, ?_, hm, hcount, hget⟩
  rw [removeMapEntry, findMapEntry_eq h hv]
  simp [hmem, hremove]

end

/-- One entry is exchanged for another. -/
theorem cons_set_perm {a : Entry} (b : Entry) (ha : l[i]? = some a) :
    (a :: l.set i b).Perm (b :: l) := by
  obtain ⟨hi, rfl⟩ := List.getElem?_eq_some_iff.1 ha
  calc (l[i] :: l.set i b).Perm (l[i] :: b :: l.eraseIdx i) :=
        (set_perm_cons_eraseIdx hi b).cons _
    _ |>.Perm (b :: l[i] :: l.eraseIdx i) := .swap _ _ _
    _ |>.Perm (b :: l) := (getElem_cons_eraseIdx_perm hi).cons _

theorem getElem?_swap {a b : Entry} (ha : l[i]? = some a) (hb : l[j]? = some b)
    (k : ℕ) : ((l.set i b).set j a)[k]? = l[Equiv.swap i j k]? := by
  grind

/-- **A swap moves two entries and their positions.** -/
theorem swap_spec (h : q.Indexed) (hi : i < q.size) (hj : j < q.size) :
    ∃ q', q.swap i j = some q' ∧ q'.Indexed ∧ q.Rearranged q' ∧
      q'.key = q.key ∘ Equiv.swap i j := by
  obtain ⟨a, ha⟩ := exists_getElem? hi
  obtain ⟨b, hb⟩ := exists_getElem? hj
  have hget := getElem?_swap ha hb
  have hperm : ((q.minHeap.set i b).set j a).Perm q.minHeap := by
    have hb' : (q.minHeap.set i b)[j]? = some b := by
      rw [getElem?_set]
      split_ifs with hij hlt
      · rfl
      · exact absurd hi hlt
      · exact hb
    exact ((cons_set_perm a hb').trans (cons_set_perm b ha)).cons_inv
  -- The map gets two entries, both of them for keys that it has.
  obtain ⟨m₁, hset₁, hm₁, hcount₁, hget₁⟩ :=
    setMapEntry_spec (q := { q with minHeap := (q.minHeap.set i b).set j a }) h.map
      (h.value_ne_zero hb) i
  obtain ⟨m₂, hset₂, hm₂, hcount₂, hget₂⟩ := setMapEntry_spec
    (q := ⟨(q.minHeap.set i b).set j a, q.minHeapSize, m₁⟩) hm₁ (h.value_ne_zero ha) j
  have hfound₁ : (m₁.get a.value).isSome := by
    rw [hget₁, update_apply]
    split_ifs
    · rfl
    · rw [h.hashmap_value ha]
      rfl
  have hcount : m₂.occupancy = q.hashmap.occupancy := by
    rw [hcount₂, if_pos hfound₁, hcount₁, h.hashmap_value hb]
    rfl
  rw [hget₁] at hget₂
  refine ⟨⟨(q.minHeap.set i b).set j a, q.minHeapSize, m₂⟩, ?_, ⟨hm₂, ?_, ?_, ?_⟩,
    ⟨hperm, rfl⟩, ?_⟩
  · simp only [swap, ha, hb, bind_eq_bind, bind_some, hset₁, hset₂]
  · exact (hcount.trans h.count).trans hperm.length_eq.symm
  · rw [hget₂]
    have hswap := h.position.swap (valueAt_of_getElem? ha) (valueAt_of_getElem? hb)
    convert hswap using 1
    funext k
    simp [valueAt, hget, comp_apply]
  · intro e he
    exact h.nonnull e (hperm.mem_iff.1 he)
  · funext k
    simp [key, hget, comp_apply]

/-- **An entry that is too small for its place finds one**: every round keeps `OrderedUp`. -/
theorem bubbleUp_spec {fuel : ℕ} (h : q.Indexed) (hi : i < q.size)
    (hup : OrderedUp q.key q.size i) (hfuel : i < fuel) :
    ∃ q', q.bubbleUp fuel i = some q' ∧ q'.Indexed ∧ q.Rearranged q' ∧ Ordered q'.key q'.size := by
  induction fuel generalizing q i with
  | zero => omega
  | succ fuel ih =>
    rw [bubbleUp]
    rcases Nat.eq_zero_or_pos i with rfl | hpos
    · exact ⟨q, if_pos rfl, h, .refl q, hup.done (fun hlt => absurd hlt (lt_irrefl 0))⟩
    have hpar : (i - 1) / 2 = parent i := rfl
    have hlt := parent_lt hpos
    obtain ⟨above, habove⟩ := exists_getElem? (hlt.trans hi)
    obtain ⟨e, he⟩ := exists_getElem? hi
    have hkey := key_of_getElem? habove
    have hkey' := key_of_getElem? he
    rw [if_neg hpos.ne']
    simp only [hpar, habove, he, bind_eq_bind, bind_some]
    by_cases hgt : above.priority.toInt > e.priority.toInt
    · obtain ⟨q1, hq1, hindexed, hre, hkeys⟩ := swap_spec h (hlt.trans hi) hi
      rw [if_pos hgt, hq1, bind_some]
      have hup' := hup.swap hpos hi (by omega)
      rw [← hkeys, ← hre.size] at hup'
      obtain ⟨q2, hq2, hindexed', hre', hord⟩ :=
        ih hindexed (hre.size ▸ hlt.trans hi) hup' (by omega)
      exact ⟨q2, hq2, hindexed', hre.trans hre', hord⟩
    · rw [if_neg hgt]
      have hord := hup.done fun _ => by omega
      exact ih h (hlt.trans hi) (hord.up (hlt.trans hi)) (by omega)

/-- The position that bubbling down goes on with. -/
theorem smallestIndex_spec (hi : 2 * i + 1 < q.size) :
    ∃ c, q.smallestIndex i = some c ∧ c < q.size ∧
      (c = i ∨ 0 < c ∧ parent c = i ∧ q.key c < q.key i) ∧
      q.key c ≤ q.key i ∧ ∀ k, 0 < k → k < q.size → parent k = i → q.key c ≤ q.key k := by
  have hself : i < q.size := by omega
  obtain ⟨left, hleft⟩ := exists_getElem? hi
  obtain ⟨e, he⟩ := exists_getElem? hself
  have hkl := key_of_getElem? hleft
  have hke := key_of_getElem? he
  have hpl : parent (2 * i + 1) = i := (parent_eq_iff (by omega)).2 (.inl rfl)
  have hpr : parent (2 * i + 1 + 1) = i := (parent_eq_iff (by omega)).2 (.inr rfl)
  -- the lesser of the entry and its left child
  obtain ⟨s, hs, hs', hsi, hsl, hsm⟩ : ∃ s,
      (if left.priority.toInt < e.priority.toInt then 2 * i + 1 else i) = s ∧
      (s = i ∨ 0 < s ∧ parent s = i ∧ q.key s < q.key i) ∧ q.key s ≤ q.key i ∧
      q.key s ≤ q.key (2 * i + 1) ∧ s < q.size := by
    by_cases hlt : left.priority.toInt < e.priority.toInt
    · exact ⟨_, if_pos hlt, .inr ⟨by omega, hpl, by omega⟩, by omega, le_rfl, hi⟩
    · exact ⟨_, if_neg hlt, .inl rfl, le_rfl, by omega, hself⟩
  obtain ⟨least, hleast⟩ := exists_getElem? hsm
  have hks := key_of_getElem? hleast
  rw [smallestIndex]
  simp only [hleft, he, hs, bind_eq_bind, bind_some]
  by_cases hr : 2 * i + 1 + 1 < q.size
  · obtain ⟨right, hright⟩ := exists_getElem? hr
    have hkr := key_of_getElem? hright
    simp only [hright, hleast, if_pos hr, bind_some]
    by_cases hlt : right.priority.toInt < least.priority.toInt
    · refine ⟨2 * i + 1 + 1, by rw [if_pos hlt]; rfl, hr,
        .inr ⟨by omega, hpr, by omega⟩, by omega, fun k hk hkn hpk => ?_⟩
      rcases (parent_eq_iff hk).1 hpk with rfl | rfl
      · omega
      · exact le_rfl
    · refine ⟨s, by rw [if_neg hlt]; rfl, hsm, hs', hsi, fun k hk hkn hpk => ?_⟩
      rcases (parent_eq_iff hk).1 hpk with rfl | rfl
      · exact hsl
      · change q.key s ≤ q.key (2 * i + 1 + 1)
        omega
  · refine ⟨s, by rw [if_neg hr]; rfl, hsm, hs', hsi, fun k hk hkn hpk => ?_⟩
    rcases (parent_eq_iff hk).1 hpk with rfl | rfl
    · exact hsl
    · omega

/-- **An entry that is too large for its place finds one.** -/
theorem bubbleDown_spec {fuel : ℕ} (h : q.Indexed) (hi : i < q.size)
    (hdown : OrderedDown q.key q.size i) (hfuel : q.size ≤ fuel + i) :
    ∃ q', q.bubbleDown fuel i = some q' ∧ q'.Indexed ∧ q.Rearranged q' ∧
      Ordered q'.key q'.size := by
  induction fuel generalizing q i with
  | zero => omega
  | succ fuel ih =>
    rw [bubbleDown]
    by_cases hleft : 2 * i + 1 < q.size
    · obtain ⟨c, hc, hcn, hcase, hle, hleast⟩ := smallestIndex_spec hleft
      simp only [if_pos hleft, hc, bind_eq_bind, bind_some]
      rcases hcase with rfl | ⟨hpos, hpar, hlt⟩
      · exact ⟨q, if_pos rfl, h, .refl q, hdown.done hleast⟩
      have hic : i < c := hpar ▸ parent_lt hpos
      obtain ⟨q1, hq1, hindexed, hre, hkeys⟩ := swap_spec h hi hcn
      rw [if_neg hic.ne, hq1, bind_some]
      have hdown' := hdown.swap hpos hpar hcn hlt hleast
      rw [← hkeys, ← hre.size] at hdown'
      obtain ⟨q2, hq2, hindexed', hre', hord⟩ :=
        ih hindexed (hre.size ▸ hcn) hdown' (by rw [hre.size]; omega)
      exact ⟨q2, hq2, hindexed', hre.trans hre', hord⟩
    · rw [if_neg hleft]
      refine ⟨q, rfl, h, .refl q, hdown.done fun k hk hkn hpk => ?_⟩
      rcases (parent_eq_iff hk).1 hpk with rfl | rfl <;> omega

/-! ## The operations -/

/-- What holds between the calls, but for the root. -/
structure Core (q : Queue) : Prop where
  indexed : q.Indexed
  ordered : Ordered q.key q.size
  size_le : q.size ≤ q.minHeapSize
  kMinimumSize_le : kMinimumSize ≤ q.minHeapSize

theorem core_new : Core .new where
  indexed := by
    refine ⟨HashMap.wellFormed_initialized (k := 4), rfl, fun v i => ?_, by simp [new]⟩
    simp [new, valueAt, HashMap.get_initialized]
  ordered := fun i _ hi => absurd hi (Nat.not_lt_zero i)
  size_le := Nat.zero_le _
  kMinimumSize_le := le_rfl

variable {p : BitVec 64}

/-- The array grows when it is full. -/
theorem Core.grow (h : q.Core) : ∃ n, q.size < n ∧ kMinimumSize ≤ n ∧ ∀ k : Queue → Option Queue,
      (if q.size = q.minHeapSize then (q.resize (q.minHeapSize * 2)).bind k else k q) =
        k { q with minHeapSize := n } := by
  have hsize := h.size_le
  have hmin := h.kMinimumSize_le
  have hpos : 0 < kMinimumSize := by decide
  by_cases hfull : q.size = q.minHeapSize
  · refine ⟨q.minHeapSize * 2, by omega, by omega, fun k => ?_⟩
    rw [if_pos hfull, resize, if_pos ⟨by omega, by omega⟩, bind_some]
  · exact ⟨q.minHeapSize, by omega, hmin, fun k => if_neg hfull⟩

/-- A new last entry. -/
theorem set_spec (h : q.Indexed) (hsize : q.size < q.minHeapSize) (hv : v ≠ 0)
    (hnew : q.hashmap.get v = none) :
    ∃ q', q.set ⟨p, v⟩ = some q' ∧ q'.Indexed ∧ q'.minHeap = q.minHeap ++ [⟨p, v⟩] ∧
      q'.minHeapSize = q.minHeapSize := by
  obtain ⟨m, hset, hm, hcount, hget⟩ :=
    setMapEntry_spec (q := { q with minHeap := q.minHeap ++ [⟨p, v⟩] }) h.map hv q.size
  rw [hnew, h.count] at hcount
  refine ⟨⟨q.minHeap ++ [⟨p, v⟩], q.minHeapSize, m⟩, ?_, ⟨hm, ?_, ?_, ?_⟩, rfl, rfl⟩
  · rw [set, if_pos hsize, hset]
  · simpa [size] using hcount
  · rw [hget]
    have hput := h.position.put (valueAt_eq_none le_rfl) hnew
    convert hput using 1
    funext k
    rw [update_apply, valueAt, valueAt]
    split_ifs with hk
    · simp [hk, size]
    · rcases Nat.lt_or_ge k q.size with hlt | hge
      · rw [getElem?_append_left hlt]
      · rw [getElem?_eq_none_iff.2 hge, getElem?_eq_none_iff.2]
        simp only [length_append, length_singleton]
        exact Nat.lt_of_le_of_ne hge (Ne.symm hk)
  · intro e he
    rcases mem_append.1 he with he | he
    · exact h.nonnull e he
    · rw [mem_singleton.1 he]
      exact hv

theorem insert_spec (h : q.Core) (hv : v ≠ 0) (hnew : q.hashmap.get v = none) :
    ∃ q', q.insert p v = some q' ∧ q'.Core ∧ q'.minHeap.Perm (⟨p, v⟩ :: q.minHeap) := by
  obtain ⟨n, hlt, hmin, hgrow⟩ := h.grow
  obtain ⟨q1, hset, hindexed, hheap, hcap⟩ :=
    set_spec (q := { q with minHeapSize := n }) (p := p)
      ⟨h.indexed.map, h.indexed.count, h.indexed.position, h.indexed.nonnull⟩ hlt hv hnew
  have hsize : q1.size = q.size + 1 := by simp [size, hheap]
  have hkeys : ∀ i < q.size, q1.key i = q.key i := by
    intro i hi
    rw [key, key, hheap, getElem?_append_left hi]
  have hup : OrderedUp q1.key q1.size q.size := by
    rw [hsize]
    exact (h.ordered.congr hkeys).append
  obtain ⟨q2, hbubble, hindexed', hre, hord⟩ :=
    bubbleUp_spec hindexed (by omega) hup (Nat.lt_succ_self _)
  refine ⟨q2, ?_, ⟨hindexed', hord, ?_, ?_⟩, ?_⟩
  · rw [insert, findMapEntry_eq h.indexed.map hv, hnew]
    simp only [bind_eq_bind, bind_some, ne_eq, not_true_eq_false, if_false, hgrow, hset]
    exact hbubble
  · rw [hre.size, hre.minHeapSize, hcap, hsize]
    exact hlt
  · rw [hre.minHeapSize, hcap]
    exact hmin
  · exact hre.perm.trans (hheap ▸ perm_append_singleton _ _)

/-- The array shrinks when a quarter of it is enough. -/
theorem Core.shrink (h : q.Core) :
    ∃ q', (if q.size ≤ q.minHeapSize / 4 ∧ kMinimumSize ≤ q.minHeapSize / 2 then
        q.resize (q.minHeapSize / 2) else some q) = some q' ∧ q'.Core ∧ q'.minHeap = q.minHeap := by
  have hpos : 0 < kMinimumSize := by decide
  split_ifs with hsmall
  · have hlt : q.size < q.minHeapSize / 2 ∧ q.minHeapSize / 2 ≠ q.minHeapSize := by omega
    refine ⟨{ q with minHeapSize := q.minHeapSize / 2 }, if_pos hlt, ?_, rfl⟩
    exact ⟨⟨h.indexed.map, h.indexed.count, h.indexed.position, h.indexed.nonnull⟩, h.ordered,
      hlt.1.le, hsmall.2⟩
  · exact ⟨q, rfl, h, rfl⟩

/-- The entries before the last one. -/
theorem take_perm {last : Entry} (hlast : l[l.length - 1]? = some last) :
    l.Perm (last :: l.take (l.length - 1)) := by
  obtain ⟨hlt, rfl⟩ := List.getElem?_eq_some_iff.1 hlast
  have hsplit : l.take (l.length - 1) ++ [l[l.length - 1]] = l := by
    rw [← take_succ_eq_append_getElem hlt, Nat.sub_add_cancel (by omega), take_length]
  calc l.Perm (l.take (l.length - 1) ++ [l[l.length - 1]]) := .of_eq hsplit.symm
    _ |>.Perm (l[l.length - 1] :: l.take (l.length - 1)) := perm_append_singleton _ _

theorem Indexed.take_nonnull (h : q.Indexed) (hl : q.minHeap.Perm (e :: l)) :
    ∀ e' ∈ l, e'.value ≠ 0 :=
  fun e' he' => h.nonnull e' (hl.mem_iff.2 (mem_cons_of_mem _ he'))

/-- The state of `removeAt` before it bubbles: the last entry is in the place of the removed one. -/
theorem replace_spec (h : q.Indexed) (he : q.minHeap[i]? = some e) (hi : i < q.size - 1) :
    ∃ q0 q1 : Queue, q.replace i (q.size - 1) = some q0 ∧
      { q0 with minHeap := q0.minHeap.take (q.size - 1) } = q1 ∧ q1.Indexed ∧
      q1.minHeapSize = q.minHeapSize ∧ q1.size = q.size - 1 ∧ q.minHeap.Perm (e :: q1.minHeap) ∧
      ∀ k < q.size - 1, q1.key k = update q.key i (q.key (q.size - 1)) k := by
  obtain ⟨last, hlast⟩ := exists_getElem? (q := q) (i := q.size - 1) (by omega)
  have hmem : q.hashmap.get e.value ≠ none := by simp [h.hashmap_value he]
  have hlen : (q.minHeap.set i last).length = q.size := length_set
  have hperm : q.minHeap.Perm (e :: (q.minHeap.set i last).take (q.size - 1)) := by
    have hlast' : (q.minHeap.set i last)[(q.minHeap.set i last).length - 1]? = some last := by
      rw [hlen, getElem?_set_ne hi.ne]
      exact hlast
    have htake := (take_perm hlast').cons e
    rw [hlen] at htake
    exact (((cons_set_perm last he).symm.trans htake).trans (.swap _ _ _)).cons_inv
  -- The map loses the removed value, and has another position for the last one.
  obtain ⟨m₁, hremove, hm₁, hcount₁, hget₁⟩ := removeMapEntry_spec h.map (h.value_ne_zero he) hmem
  obtain ⟨m₂, hset, hm₂, hcount₂, hget₂⟩ :=
    setMapEntry_spec (q := { q with hashmap := m₁ }) hm₁ (h.value_ne_zero hlast) i
  change m₂.occupancy = m₁.occupancy + (if (m₁.get last.value).isSome then 0 else 1) at hcount₂
  have hne : last.value ≠ e.value := by
    intro heq
    have hsame := h.hashmap_value hlast
    rw [heq, h.hashmap_value he] at hsame
    exact hi.ne (some.inj hsame)
  have hfound : (m₁.get last.value).isSome := by
    rw [hget₁, update_of_ne hne, h.hashmap_value hlast]
    rfl
  rw [if_pos hfound] at hcount₂
  rw [hget₁] at hget₂
  have hcount := h.count
  refine ⟨⟨q.minHeap.set i last, q.minHeapSize, m₂⟩, _, ?_, rfl,
    ⟨hm₂, ?_, ?_, h.take_nonnull hperm⟩, rfl, by simp [size], hperm, ?_⟩
  · simp only [replace, he, bind_eq_bind, bind_some, hremove, hlast, hset]
    rfl
  · change m₂.occupancy = ((q.minHeap.set i last).take (q.size - 1)).length
    rw [length_take, hlen]
    omega
  · have hmove := (h.position.drop (valueAt_of_getElem? he)).move (i := i) (j := q.size - 1)
      (v := last.value) (by simp) (by simp [hi.ne', valueAt_of_getElem? hlast])
    convert hmove using 1
    funext k
    have hbeyond : q.size ≤ k → q.valueAt k = none := valueAt_eq_none
    simp only [valueAt, update_apply, getElem?_take, getElem?_set] at hbeyond ⊢
    grind
  · intro k hk
    have hkl := key_of_getElem? hlast
    simp only [key, update_apply, getElem?_take_of_lt hk, getElem?_set] at hkl ⊢
    grind

/-- The state of `removeAt` when the last entry is removed. -/
theorem take_spec (h : q.Core) (he : q.minHeap[q.size - 1]? = some e) :
    ∃ q1 : Queue, q.removeMapEntry e.value = some { q1 with minHeap := q.minHeap } ∧
      q1.minHeap = q.minHeap.take (q.size - 1) ∧ q1.Core := by
  have hmem : q.hashmap.get e.value ≠ none := by simp [h.indexed.hashmap_value he]
  have hperm : q.minHeap.Perm (e :: q.minHeap.take (q.size - 1)) := take_perm he
  have hsize := h.size_le
  obtain ⟨m, hremove, hm, hcount, hget⟩ :=
    removeMapEntry_spec h.indexed.map (h.indexed.value_ne_zero he) hmem
  obtain ⟨q1, hq1⟩ : ∃ q1 : Queue, q1 = ⟨q.minHeap.take (q.size - 1), q.minHeapSize, m⟩ :=
    ⟨_, rfl⟩
  have hsize1 : q1.size = q.size - 1 := by simp [hq1, size]
  have hcap : q1.minHeapSize = q.minHeapSize := by rw [hq1]
  have hbefore := h.indexed.count
  refine ⟨q1, ?_, by rw [hq1], ⟨⟨?_, ?_, ?_, ?_⟩, ?_, by omega, hcap ▸ h.kMinimumSize_le⟩⟩
  · rw [hremove, hq1]
  · rw [hq1]
    exact hm
  · rw [hsize1, hq1]
    change m.occupancy = q.size - 1
    omega
  · have hdrop := h.indexed.position.drop (valueAt_of_getElem? he)
    rw [hq1]
    convert hdrop using 1
    funext k
    have hbeyond : q.size ≤ k → q.valueAt k = none := valueAt_eq_none
    simp only [valueAt, update_apply, getElem?_take] at hbeyond ⊢
    grind
  · rw [hq1]
    exact h.indexed.take_nonnull hperm
  · rw [hsize1]
    refine (h.ordered.mono (Nat.sub_le q.size 1)).congr fun k hk => ?_
    rw [key, key, hq1, getElem?_take_of_lt hk]

/-- The last entry fits in the place `i` as far as the parent of that place goes. -/
def LastFits (q : Queue) (i : ℕ) : Prop :=
  i = q.size - 1 ∨ i = 0 ∨ q.key (parent i) ≤ q.key (q.size - 1)

instance (q : Queue) (i : ℕ) : Decidable (q.LastFits i) := inferInstanceAs (Decidable (_ ∨ _))

/-- What `removeAt` does away from the last place. -/
theorem removeAt_eq {q0 : Queue} (hi : i < q.size - 1) (hq0 : q.replace i (q.size - 1) = some q0) :
    q.removeAt i =
      ({ q0 with minHeap := q0.minHeap.take (q.size - 1) }.bubbleDown (q.size - 1 + 1) i).bind
        fun q' => if q.size - 1 ≤ q'.minHeapSize / 4 ∧ kMinimumSize ≤ q'.minHeapSize / 2 then
          q'.resize (q'.minHeapSize / 2) else some q' := by
  have hlt : i < q.size := by omega
  rw [removeAt]
  simp [hlt, not_true_eq_false, if_neg hi.ne, hq0, Option.bind_eq_bind,
    Option.bind_some, Option.pure_def]

/-- **A removal whose last entry fits keeps the queue.** -/
theorem removeAt_spec (h : q.Core) (he : q.minHeap[i]? = some e) (hfits : q.LastFits i) :
    ∃ q', q.removeAt i = some q' ∧ q'.Core ∧ q.minHeap.Perm (e :: q'.minHeap) := by
  have hlt := lt_size he
  have hsize := h.size_le
  rcases Nat.lt_or_ge i (q.size - 1) with hi | hi
  · obtain ⟨q0, q1, hq0, hq1, hindexed, hcap, hsize1, hperm, hkeys⟩ := replace_spec h.indexed he hi
    have hdown : OrderedDown q1.key q1.size i := by
      rw [hsize1]
      refine ((h.ordered.mono (Nat.sub_le _ 1)).update_down hi fun hpos => ?_).congr hkeys
      rcases hfits with hlast | hzero | hle
      · omega
      · omega
      · exact hle
    obtain ⟨q2, hq2, hindexed', hre, hord⟩ :=
      bubbleDown_spec hindexed (by omega) hdown (show q1.size ≤ q.size - 1 + 1 + i by omega)
    have hsize2 : q2.size = q.size - 1 := hre.size.trans hsize1
    have hcap2 : q2.minHeapSize = q.minHeapSize := hre.minHeapSize.trans hcap
    have hcore : q2.Core := ⟨hindexed', hord, by omega, hcap2 ▸ h.kMinimumSize_le⟩
    obtain ⟨q3, hq3, hcore', hheap⟩ := hcore.shrink
    refine ⟨q3, ?_, hcore', hheap ▸ hperm.trans (hre.perm.symm.cons e)⟩
    rw [removeAt_eq hi hq0, hq1, hq2, bind_some, ← hsize2]
    exact hq3
  · obtain rfl : i = q.size - 1 := by omega
    obtain ⟨q1, hq1, hheap, hcore⟩ := take_spec h he
    have hsize1 : q1.size = q.size - 1 := by simp [size, hheap]
    obtain ⟨q2, hq2, hcore', hheap'⟩ := hcore.shrink
    refine ⟨q2, ?_, hcore', ?_⟩
    · rw [removeAt]
      simp only [hlt, not_true_eq_false, if_false, if_true, he, Option.bind_eq_bind,
        Option.bind_some, Option.pure_def, hq1, ← hheap]
      rw [← hsize1]
      exact hq2
    · rw [hheap', hheap]
      exact take_perm he

/-- **A removal whose last entry does not fit breaks the order**: the entry is less than all below
it, so it stays, and it is less than its parent. -/
theorem not_ordered_removeAt (h : q.Core) (he : q.minHeap[i]? = some e) (hfits : ¬ q.LastFits i)
    (hq' : q.removeAt i = some q') : ¬ Ordered q'.key q'.size := by
  have hlt := lt_size he
  simp only [LastFits, not_or, not_le] at hfits
  obtain ⟨hne, hpos, hless⟩ := hfits
  have hi : i < q.size - 1 := by omega
  have hpi := parent_lt (Nat.pos_of_ne_zero hpos)
  obtain ⟨q0, q1, hq0, hq1, hindexed, hcap, hsize1, hperm, hkeys⟩ := replace_spec h.indexed he hi
  have hself : q1.key i = q.key (q.size - 1) := by rw [hkeys i hi, update_self]
  have hparent : q1.key (parent i) = q.key (parent i) := by
    rw [hkeys _ (hpi.trans hi), update_of_ne hpi.ne]
  have hchild : ∀ k, 0 < k → k < q1.size → parent k = i → q1.key i < q1.key k := by
    intro k hk hkn hpk
    have hik : i < k := hpk ▸ parent_lt hk
    rw [hself, hkeys k (by omega), update_of_ne hik.ne']
    exact hless.trans_le (h.ordered.across hlt (Nat.pos_of_ne_zero hpos) k hk (by omega) hpk)
  have hstay : q1.bubbleDown (q.size - 1 + 1) i = some q1 := by
    rw [bubbleDown]
    by_cases hleft : 2 * i + 1 < q1.size
    · obtain ⟨c, hc, hcn, hcase, -⟩ := smallestIndex_spec hleft
      rcases hcase with rfl | ⟨hcpos, hcpar, hclt⟩
      · simp [hleft, hc]
      · exact absurd (hchild c hcpos hcn hcpar) hclt.not_gt
    · rw [if_neg hleft]
  rw [removeAt_eq hi hq0, hq1, hstay, bind_some] at hq'
  have hheap : q'.minHeap = q1.minHeap := by
    split_ifs at hq'
    · rw [resize] at hq'
      split_ifs at hq'
      rw [← some.inj hq']
    · rw [← some.inj hq']
  intro hord
  have hbad := hord i (Nat.pos_of_ne_zero hpos) (by rw [size, hheap]; change i < q1.size; omega)
  rw [key, key, hheap] at hbad
  change q1.key (parent i) ≤ q1.key i at hbad
  omega

/-- The difference of the new priority to that of the parent is an `intptr_t`. -/
def DiffFits (q : Queue) (i : ℕ) (p : BitVec 64) : Prop :=
  i = 0 ∨ -2 ^ 63 ≤ p.toInt - q.key (parent i) ∧ p.toInt - q.key (parent i) < 2 ^ 63

instance (q : Queue) (i : ℕ) (p : BitVec 64) : Decidable (q.DiffFits i p) :=
  inferInstanceAs (Decidable (_ ∨ _))

variable (h : q.Core) (he : q.minHeap[i]? = some e)

include h he

/-- The state of `changePriority` before it bubbles. -/
theorem setPriority_spec (p : BitVec 64) :
    ∃ q1 : Queue, q.minHeap.set i { e with priority := p } = q1.minHeap ∧
      { q with minHeap := q1.minHeap } = q1 ∧ q1.Indexed ∧
      q1.size = q.size ∧ q1.minHeapSize = q.minHeapSize ∧
      (e :: q1.minHeap).Perm (⟨p, e.value⟩ :: q.minHeap) ∧
      q1.key = update q.key i p.toInt := by
  have hperm := cons_set_perm ⟨p, e.value⟩ he
  have hvalue := h.indexed.value_ne_zero he
  refine ⟨{ q with minHeap := q.minHeap.set i { e with priority := p } }, rfl, rfl,
    ⟨h.indexed.map, ?_, ?_, fun e' he' => ?_⟩, by simp [size], rfl, hperm, ?_⟩
  · simpa [size] using h.indexed.count
  · convert h.indexed.position using 1
    funext k
    simp only [valueAt, getElem?_set]
    grind
  · rcases mem_or_eq_of_mem_set he' with hmem | rfl
    · exact h.indexed.nonnull e' hmem
    · exact hvalue
  · funext k
    simp only [key, update_apply, getElem?_set]
    grind

theorem changePriority_spec (hfits : q.DiffFits i p) :
    ∃ q', q.changePriority i p = some q' ∧ q'.Core ∧
      (e :: q'.minHeap).Perm (⟨p, e.value⟩ :: q.minHeap) := by
  have hi := lt_size he
  obtain ⟨q1, hheap, hq1, hindexed, hsize, hcap, hperm, hkeys⟩ := setPriority_spec h he p
  have hcore : ∀ q2, q2.Indexed → q1.Rearranged q2 → Ordered q2.key q2.size →
      q2.Core ∧ (e :: q2.minHeap).Perm (⟨p, e.value⟩ :: q.minHeap) := by
    intro q2 hindexed' hre hord
    refine ⟨⟨hindexed', hord, ?_, ?_⟩, (hre.perm.cons e).trans hperm⟩
    · rw [hre.size, hre.minHeapSize, hsize, hcap]
      exact h.size_le
    · rw [hre.minHeapSize, hcap]
      exact h.kMinimumSize_le
  have hdown (hle : 0 < i → q.key (parent i) ≤ p.toInt) :
      ∃ q2, q1.bubbleDown (q1.size + 1) i = some q2 ∧ q2.Core ∧
        (e :: q2.minHeap).Perm (⟨p, e.value⟩ :: q.minHeap) := by
    have hord := h.ordered.update_down hi hle
    rw [← hkeys, ← hsize] at hord
    obtain ⟨q2, hq2, hindexed', hre, hord'⟩ :=
      bubbleDown_spec hindexed (hsize ▸ hi) hord (show q1.size ≤ q1.size + 1 + i by omega)
    exact ⟨q2, hq2, hcore q2 hindexed' hre hord'⟩
  rw [changePriority]
  simp only [he, hq1, hheap, bind_eq_bind, bind_some]
  rcases Nat.eq_zero_or_pos i with rfl | hpos
  · exact hdown fun hlt => absurd hlt (Nat.lt_irrefl 0)
  have hpar : (i - 1) / 2 = parent i := rfl
  have hpi := parent_lt hpos
  obtain ⟨above, habove⟩ := exists_getElem? (q := q1) (i := parent i) (by omega)
  have hkey : above.priority.toInt = q.key (parent i) := by
    rw [← key_of_getElem? habove, hkeys, update_of_ne hpi.ne]
  have hdiff : diff p above.priority = some (p.toInt - q.key (parent i)) := by
    rcases hfits with rfl | hrange
    · omega
    · rw [diff, hkey]
      exact if_pos hrange
  simp only [if_neg hpos.ne', hpar, habove, hdiff, bind_some]
  have hup (hle : p.toInt ≤ q.key (parent i)) : OrderedUp q1.key q1.size i := by
    rw [hkeys, hsize]
    exact h.ordered.update_up hi hpos hle
  by_cases hneg : p.toInt - q.key (parent i) < 0
  · rw [if_pos hneg]
    obtain ⟨q2, hq2, hindexed', hre, hord⟩ :=
      bubbleUp_spec hindexed (hsize ▸ hi) (hup (by omega)) (Nat.lt_succ_self i)
    exact ⟨q2, hq2, hcore q2 hindexed' hre hord⟩
  rw [if_neg hneg]
  by_cases hgt : p.toInt - q.key (parent i) > 0
  · rw [if_pos hgt]
    exact hdown fun _ => by omega
  -- the priority of the parent: nothing to do
  rw [if_neg hgt]
  refine ⟨q1, rfl, hcore q1 hindexed (.refl q1) ((hup (by omega)).done fun _ => ?_)⟩
  rw [hkeys, update_of_ne hpi.ne, update_self]
  omega

theorem changePriority_eq_none (hfits : ¬ q.DiffFits i p) : q.changePriority i p = none := by
  simp only [DiffFits, not_or] at hfits
  obtain ⟨hne, hrange⟩ := hfits
  have hi := lt_size he
  have hpi := parent_lt (Nat.pos_of_ne_zero hne)
  obtain ⟨q1, hheap, hq1, hindexed, hsize, -, -, hkeys⟩ := setPriority_spec h he p
  obtain ⟨above, habove⟩ := exists_getElem? (q := q1) (i := parent i) (by omega)
  have hkey : above.priority.toInt = q.key (parent i) := by
    rw [← key_of_getElem? habove, hkeys, update_of_ne hpi.ne]
  have hdiff : diff p above.priority = none := by
    rw [diff, hkey]
    exact if_neg hrange
  have hpar : (i - 1) / 2 = parent i := rfl
  rw [changePriority]
  simp [he, hq1, hheap, bind_eq_bind, bind_some, if_neg hne, hpar, habove, hdiff, bind_none]

end Queue

/-- **A correct indexed queue**: the array is a heap, the map sends exactly the stored values to
their positions, and the minimum is least. -/
structure Valid (q : Queue) : Prop extends q.Core where
  minimum : ∀ e, q.minimum = some e → ∀ e' ∈ q.minHeap, e.priority.toInt ≤ e'.priority.toInt

theorem Queue.Core.valid (h : q.Core) : Valid q := by
  refine ⟨h, fun e he e' he' => ?_⟩
  obtain ⟨i, hi⟩ := mem_iff_getElem?.1 he'
  rw [← key_of_getElem? he, ← key_of_getElem? hi]
  exact h.ordered.root_le (lt_size hi)

/-- What the callers see to: values are distinct, and only a queue with entries has a minimum. -/
def Allowed (q : Queue) : Op → Prop
  | .insert _ value => q.hashmap.get value = none
  | .removeMinimum => q.minHeap ≠ []
  | _ => True

instance (q : Queue) : ∀ op, Decidable (Allowed q op)
  | .insert _ value => inferInstanceAs (Decidable (q.hashmap.get value = none))
  | .removeMinimum => inferInstanceAs (Decidable (q.minHeap ≠ []))
  | .insertOrChangePriority _ _ | .removeByValue _ => inferInstanceAs (Decidable True)

/-- How the entries change. -/
def Changes (q q' : Queue) : Op → Prop
  | .insert priority value => q'.minHeap.Perm (⟨priority, value⟩ :: q.minHeap)
  | .insertOrChangePriority priority value =>
    match q.hashmap.get value with
    | none => q'.minHeap.Perm (⟨priority, value⟩ :: q.minHeap)
    | some _ => ∃ e, e.value = value ∧ (e :: q'.minHeap).Perm (⟨priority, value⟩ :: q.minHeap)
  | .removeByValue value =>
    match q.hashmap.get value with
    | none => q' = q
    | some _ => ∃ e, e.value = value ∧ q.minHeap.Perm (e :: q'.minHeap)
  | .removeMinimum => ∃ e, q.minimum = some e ∧ q.minHeap.Perm (e :: q'.minHeap)

/-- The call gives a queue again, with the entries it should have. -/
def Keeps (q : Queue) (op : Op) : Prop := ∃ q', step q op = some q' ∧ Valid q' ∧ Changes q q' op

/-- The value is a key of the map; the difference to the parent of a changed entry does not
overflow; the last entry is not less than the parent of one removed from the middle. -/
def Fits (q : Queue) : Op → Prop
  | .insert _ value => value ≠ 0
  | .insertOrChangePriority priority value =>
    value ≠ 0 ∧ ∀ i ∈ q.hashmap.get value, q.DiffFits i priority
  | .removeByValue value => value ≠ 0 ∧ ∀ i ∈ q.hashmap.get value, q.LastFits i
  | .removeMinimum => True

instance (q : Queue) : ∀ op, Decidable (Fits q op)
  | .insert _ value => inferInstanceAs (Decidable (value ≠ 0))
  | .insertOrChangePriority priority value => inferInstanceAs (Decidable
      (value ≠ 0 ∧ ∀ i ∈ q.hashmap.get value, q.DiffFits i priority))
  | .removeByValue value =>
    inferInstanceAs (Decidable (value ≠ 0 ∧ ∀ i ∈ q.hashmap.get value, q.LastFits i))
  | .removeMinimum => inferInstanceAs (Decidable True)

theorem findMapEntry_zero : q.findMapEntry 0 = none := by
  simp [findMapEntry, HashMap.lookup, HashMap.probe]

theorem keeps_insert_iff {p : BitVec 64} (h : Valid q) (hnew : q.hashmap.get v = none) :
    Keeps q (.insert p v) ↔ v ≠ 0 := by
  constructor
  · rintro ⟨q', hstep, -⟩ rfl
    rw [step, Queue.insert, findMapEntry_zero] at hstep
    exact absurd hstep (by simp)
  · intro hv
    obtain ⟨q', hq', hcore, hperm⟩ := insert_spec (p := p) h.toCore hv hnew
    exact ⟨q', hq', hcore.valid, hperm⟩

theorem keeps_insertOrChangePriority_iff {p : BitVec 64} (h : Valid q) :
    Keeps q (.insertOrChangePriority p v) ↔ Fits q (.insertOrChangePriority p v) := by
  rw [Fits]
  by_cases hv : v = 0
  · subst hv
    refine iff_of_false ?_ fun hfits => hfits.1 rfl
    rintro ⟨q', hstep, -⟩
    rw [step, insertOrChangePriority, findMapEntry_zero] at hstep
    exact absurd hstep (by simp)
  simp only [Keeps, step, insertOrChangePriority, findMapEntry_eq h.indexed.map hv,
    bind_eq_bind, bind_some, Changes]
  cases hmap : q.hashmap.get v with
  | none =>
    obtain ⟨q', hq', hcore, hperm⟩ := insert_spec (p := p) h.toCore hv hmap
    simp only [hq']
    exact iff_of_true ⟨q', rfl, hcore.valid, hperm⟩ ⟨hv, by simp⟩
  | some i =>
    obtain ⟨e, he, rfl⟩ := h.indexed.exists_of_hashmap hmap
    by_cases hfits : q.DiffFits i p
    · obtain ⟨q', hq', hcore, hperm⟩ := changePriority_spec h.toCore he hfits
      simp only [hq']
      refine iff_of_true ⟨q', rfl, hcore.valid, e, rfl, hperm⟩ ⟨hv, fun j hj => ?_⟩
      rwa [← some.inj hj]
    · simp [changePriority_eq_none h.toCore he hfits, hfits]

theorem keeps_removeByValue_iff (h : Valid q) :
    Keeps q (.removeByValue v) ↔ Fits q (.removeByValue v) := by
  rw [Fits]
  by_cases hv : v = 0
  · subst hv
    refine iff_of_false ?_ fun hfits => hfits.1 rfl
    rintro ⟨q', hstep, -⟩
    rw [step, removeByValue, findMapEntry_zero] at hstep
    exact absurd hstep (by simp)
  simp only [Keeps, step, removeByValue, findMapEntry_eq h.indexed.map hv, bind_eq_bind, bind_some,
    Changes]
  cases hmap : q.hashmap.get v with
  | none => exact iff_of_true ⟨q, rfl, h, rfl⟩ ⟨hv, by simp⟩
  | some i =>
    obtain ⟨e, he, rfl⟩ := h.indexed.exists_of_hashmap hmap
    by_cases hfits : q.LastFits i
    · obtain ⟨q', hq', hcore, hperm⟩ := removeAt_spec h.toCore he hfits
      simp only [hq', bind_some, if_pos hcore.indexed.count]
      refine iff_of_true ⟨q', rfl, hcore.valid, e, rfl, hperm⟩ ⟨hv, fun j hj => ?_⟩
      rwa [← some.inj hj]
    refine iff_of_false ?_ fun hall => hfits (hall.2 i rfl)
    rintro ⟨q', hq', hvalid, -⟩
    obtain ⟨⟨_, q''⟩, hremove, rfl⟩ := map_eq_some_iff.1 hq'
    obtain ⟨q1, hq1, hpair⟩ := bind_eq_some_iff.1 hremove
    split_ifs at hpair
    obtain ⟨-, rfl⟩ := Prod.mk.inj (some.inj hpair)
    exact not_ordered_removeAt h.toCore he hfits hq1 hvalid.ordered

theorem keeps_removeMinimum (h : Valid q) (hne : q.minHeap ≠ []) : Keeps q .removeMinimum := by
  obtain ⟨e, he⟩ := exists_getElem? (q := q) (length_pos_of_ne_nil hne)
  obtain ⟨q', hq', hcore, hperm⟩ := removeAt_spec h.toCore he (.inr (.inl rfl))
  exact ⟨q', hq', hcore.valid, e, he, hperm⟩

/-- **One call keeps the queue exactly when it fits.** -/
theorem step_valid_iff (h : Valid q) {op : Op} (hop : Allowed q op) : Keeps q op ↔ Fits q op := by
  cases op with
  | insert p v => exact keeps_insert_iff h hop
  | insertOrChangePriority p v => exact keeps_insertOrChangePriority_iff h
  | removeByValue v => exact keeps_removeByValue_iff h
  | removeMinimum => exact iff_of_true (keeps_removeMinimum h hop) trivial

/-- **Every call of a run from the new queue keeps the queue exactly when all calls fit.** -/
theorem run_keeps_iff (ops : List Op) (hops : Run.Along step Allowed .new ops) :
    Run.Along step Keeps .new ops ↔ Run.Along step Fits .new ops := by
  refine Run.along_iff Valid (fun q op hq hop => step_valid_iff hq hop) ?_ core_new.valid hops
  intro q op q' hq hop hfits hstep
  obtain ⟨q'', hstep', hvalid, -⟩ := (step_valid_iff hq hop).2 hfits
  rwa [Option.some.inj (hstep.symm.trans hstep')]

/-- Four entries.  One of them comes up to the root by its new priority, one is removed from the
middle, and then the minimum. -/
def fourTimeouts : List Op :=
  [.insert 5 101, .insert 3 102, .insert 9 103, .insert 7 104, .insertOrChangePriority 1 103,
    .removeByValue 102, .removeMinimum]

theorem run_keeps_fourTimeouts : Run.Along step Allowed .new fourTimeouts ∧
    Run.Along step Keeps .new fourTimeouts :=
  have hops : Run.Along step Allowed .new fourTimeouts := by decide +kernel
  ⟨hops, (run_keeps_iff fourTimeouts hops).2 (by decide +kernel)⟩

/-- Seven entries; `4` is the last one in the array, and `11` is removed from below `10`. -/
def sevenTimeouts : List Op :=
  [.insert 1 101, .insert 10 102, .insert 2 103, .insert 11 104, .insert 12 105, .insert 20 106,
    .insert 4 107, .removeByValue 104, .removeMinimum, .removeMinimum]

/-- In the end the minimum is `10`, and `4` is still there. -/
theorem run_sevenTimeouts : ∃ q e, run .new sevenTimeouts = some q ∧ q.minimum = some e ∧
    ∃ e' ∈ q.minHeap, e'.priority.toInt < e.priority.toInt := by
  have hrun : (run .new sevenTimeouts).map minHeap =
      some [⟨10, 102⟩, ⟨4, 107⟩, ⟨20, 106⟩, ⟨12, 105⟩] := by decide +kernel
  obtain ⟨q, hq, hheap⟩ := map_eq_some_iff.1 hrun
  refine ⟨q, ⟨10, 102⟩, hq, by rw [Queue.minimum, hheap]; rfl, ⟨4, 107⟩, by simp [hheap], by decide⟩

end PriorityQueue
