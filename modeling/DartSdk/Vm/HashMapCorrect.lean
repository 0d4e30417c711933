import Mathlib.Data.List.Basic
import Mathlib.Logic.Function.Basic
import DartSdk.Vm.HashMap

/-!
# Vm/HashMapCorrect — the hash map is a finite map

The search for a key starts at the slot of its hash value and goes on to the next empty slot.  It
finds the key wherever it is, because the slots from the start to the place of an entry are used
(`Sound.path`).  An insertion only uses one more slot.  A removal leaves a hole; the entries behind
it are moved back as long as their way passes the hole (`Hole`).

* `lookup_spec`, `store_spec` and `remove_spec` — on a well-formed map, the operations are those of
  a finite map, and the map stays well-formed.
-/

namespace HashMap

open List Slot

/-! ## Steps around the table

All indices are below the capacity, and the distance from a slot to another is the number of steps
of a search. -/

/-- The steps from a slot to another. -/
def dist (n a b : ℕ) : ℕ := if a ≤ b then b - a else b + n - a

section

variable {n a b c p q x z : ℕ}

theorem dist_self : dist n a a = 0 := by simp [dist]

theorem dist_lt (ha : a < n) (hb : b < n) : dist n a b < n := by
  unfold dist
  split_ifs <;> omega

theorem dist_inj (ha : a < n) (hp : p < n) (hq : q < n) (h : dist n a p = dist n a q) : p = q := by
  unfold dist at h
  split_ifs at h <;> omega

theorem advance_lt (hp : p < n) : advance n p < n := by
  unfold advance
  split_ifs <;> omega

theorem dist_advance (ha : a < n) (h : advance n p ≠ a) :
    dist n a (advance n p) = dist n a p + 1 := by
  unfold dist advance at *
  split_ifs at * <;> omega

theorem dist_advance_left (hp : p < n) (hb : b < n) (h : p ≠ b) :
    dist n (advance n p) b + 1 = dist n p b := by
  unfold dist advance
  split_ifs <;> omega

/-- The condition of `Remove`: the way from the start to `x` passes the candidate. -/
theorem moves_iff (hc : c < n) (hx : x < n) (ha : a < n) :
    x > c ∧ (a ≤ c ∨ a > x) ∨ x < c ∧ (a ≤ c ∧ a > x) ↔ dist n a c < dist n a x := by
  unfold dist
  split_ifs <;> omega

theorem dist_lt_of_pass (ha : a < n) (hc : c < n) (hx : x < n) (hp : p < n)
    (h : dist n a c < dist n a p) (hx' : dist n c x < dist n c p) : dist n a x < dist n a p := by
  unfold dist at *
  split_ifs at * <;> omega

theorem startOf_lt {k hash : ℕ} (hn : n = 2 ^ k) : startOf n hash < n := by
  rw [startOf, hn, Nat.and_two_pow_sub_one_eq_mod]
  exact Nat.mod_lt _ (Nat.two_pow_pos k)

end

variable {hashOf : BitVec 64 → ℕ} {slots : List Slot} {key k : BitVec 64} {hash n : ℕ}

/-- The steps of the search for a hash value to a slot. -/
abbrev way (slots : List Slot) (hash p : ℕ) : ℕ := dist slots.length (startOf slots.length hash) p

theorem way_set {p q : ℕ} {t : Slot} : way (slots.set p t) hash q = way slots hash q := by
  rw [way, length_set]

/-- **The entries of a table can be found.**  Only the slots that are not skipped count; a skipped
one is a hole that is about to be filled or cleared. -/
structure Sound (hashOf : BitVec 64 → ℕ) (skip : ℕ → Prop) (slots : List Slot) : Prop where
  hash : ∀ {p s}, ¬ skip p → slots[p]? = some s → s.Used → s.hash = hashOf s.key
  distinct : ∀ {p q s t}, ¬ skip p → ¬ skip q → slots[p]? = some s → slots[q]? = some t → s.Used →
    s.key = t.key → p = q
  path : ∀ {p q s t}, ¬ skip p → ¬ skip q → slots[p]? = some s → slots[q]? = some t → s.Used →
    way slots s.hash q < way slots s.hash p → t.Used

/-- No slot is skipped. -/
def nowhere : ℕ → Prop := fun _ => False

theorem not_nowhere {p : ℕ} : ¬ nowhere p := id

/-- An entry of the table. -/
def Has (skip : ℕ → Prop) (slots : List Slot) (key : BitVec 64) (value : ℕ) : Prop :=
  ∃ p s, ¬ skip p ∧ slots[p]? = some s ∧ s.key = key ∧ s.value = value

/-- The number of entries. -/
def used (slots : List Slot) : ℕ := slots.countP fun s => s.Used

theorem exists_unused (h : used slots < slots.length) :
    ∃ (p : ℕ) (t : Slot), slots[p]? = some t ∧ ¬ t.Used := by
  by_contra hall
  push Not at hall
  refine h.ne (countP_eq_length.mpr fun s hs => ?_)
  obtain ⟨p, hp⟩ := mem_iff_getElem?.mp hs
  exact decide_eq_true (hall p s hp)

theorem used_set {p : ℕ} {s t : Slot} (hp : slots[p]? = some s) :
    used (slots.set p t) + (if s.Used then 1 else 0) = used slots + if t.Used then 1 else 0 := by
  obtain ⟨hlt, rfl⟩ := List.getElem?_eq_some_iff.mp hp
  have hle : (if slots[p].Used then 1 else 0) ≤ used slots := by
    split_ifs with hused
    · exact countP_pos_iff.mpr ⟨_, getElem_mem hlt, decide_eq_true hused⟩
    · exact Nat.zero_le _
  have hset := countP_set (p := fun s => decide s.Used) (a := t) hlt
  rw [← used, ← used] at hset
  simp only [decide_eq_true_eq] at hset
  omega

theorem getElem?_set_of_some {p q : ℕ} {s t : Slot} (hp : slots[p]? = some s) :
    (slots.set p t)[q]? = if q = p then some t else slots[q]? := by
  obtain ⟨hlt, -⟩ := List.getElem?_eq_some_iff.mp hp
  rw [getElem?_set]
  by_cases heq : q = p
  · rw [if_pos heq.symm, if_pos hlt, if_pos heq]
  · rw [if_neg (Ne.symm heq), if_neg heq]

theorem lt_of_getElem? {p : ℕ} {s : Slot} (h : slots[p]? = some s) : p < slots.length :=
  (List.getElem?_eq_some_iff.mp h).1

theorem ne_of_used {p q : ℕ} {s t : Slot} (hp : slots[p]? = some s) (hq : slots[q]? = some t)
    (hs : s.Used) (ht : ¬ t.Used) : p ≠ q := by
  rintro rfl
  rw [hp] at hq
  exact ht (Option.some.inj hq ▸ hs)

section

variable {p x : ℕ} {s t : Slot} {skip skip' : ℕ → Prop} (hp : slots[p]? = some s)

include hp

/-- The entries are the one at a slot and the others. -/
theorem has_at : Has skip slots k x ↔
    ¬ skip p ∧ s.key = k ∧ s.value = x ∨ Has (fun q => q = p ∨ skip q) slots k x := by
  constructor
  · rintro ⟨q, u, hq, hqu, hk, hv⟩
    by_cases hcase : q = p
    · rw [hcase, hp] at hqu
      obtain rfl := Option.some.inj hqu
      exact .inl ⟨hcase ▸ hq, hk, hv⟩
    · exact .inr ⟨q, u, not_or.mpr ⟨hcase, hq⟩, hqu, hk, hv⟩
  · rintro (⟨hq, hk, hv⟩ | ⟨q, u, hq, hqu, hk, hv⟩)
    · exact ⟨p, s, hq, hp, hk, hv⟩
    · exact ⟨q, u, fun hskip => hq (.inr hskip), hqu, hk, hv⟩

theorem has_set : Has skip (slots.set p t) k x ↔
    ¬ skip p ∧ t.key = k ∧ t.value = x ∨ Has (fun q => q = p ∨ skip q) slots k x := by
  have hself : (slots.set p t)[p]? = some t := by rw [getElem?_set_of_some hp, if_pos rfl]
  rw [has_at hself]
  refine or_congr_right (exists_congr fun q => exists_congr fun u => and_congr_right fun hq => ?_)
  rw [getElem?_set_of_some hp, if_neg fun heq => hq (.inl heq)]

/-- **One slot is replaced.**  The entries stay where they are found if the new one is, and if none
of the others needs a slot that gets empty. -/
theorem Sound.set (h : Sound hashOf skip slots) (hskip : ∀ q, q ≠ p → ¬ skip' q → ¬ skip q)
    (hhash : t.Used → t.hash = hashOf t.key)
    (hused : t.Used → ∀ q u, q ≠ p → ¬ skip' q → slots[q]? = some u →
      u.key ≠ t.key ∧ (way slots t.hash q < way slots t.hash p → u.Used))
    (hempty : ¬ t.Used → ∀ q u, q ≠ p → ¬ skip' q → slots[q]? = some u → u.Used →
      ¬ way slots u.hash p < way slots u.hash q) : Sound hashOf skip' (slots.set p t) := by
  have hget := fun q => getElem?_set_of_some (q := q) (t := t) hp
  refine ⟨fun {q u} hq hqu hu => ?_, fun {q q' u u'} hq hq' hqu hqu' hu heq => ?_,
    fun {q q' u u'} hq hq' hqu hqu' hu hdist => ?_⟩
  · rw [hget] at hqu
    split_ifs at hqu with hcase
    · obtain rfl := Option.some.inj hqu
      exact hhash hu
    · exact h.hash (hskip q hcase hq) hqu hu
  · rw [hget] at hqu hqu'
    split_ifs at hqu hqu' with hcase hcase' hcase'
    · rw [hcase, hcase']
    · obtain rfl := Option.some.inj hqu
      exact absurd heq.symm (hused hu q' u' hcase' hq' hqu').1
    · obtain rfl := Option.some.inj hqu'
      exact absurd heq (hused (fun hzero => hu (heq.trans hzero)) q u hcase hq hqu).1
    · exact h.distinct (hskip q hcase hq) (hskip q' hcase' hq') hqu hqu' hu heq
  · rw [way_set, way_set] at hdist
    rw [hget] at hqu hqu'
    split_ifs at hqu hqu' with hcase hcase' hcase'
    · exact absurd hdist (by rw [hcase, hcase']; exact lt_irrefl _)
    · obtain rfl := Option.some.inj hqu
      exact (hused hu q' u' hcase' hq' hqu').2 (hcase ▸ hdist)
    · obtain rfl := Option.some.inj hqu'
      by_contra hunused
      exact hempty hunused q u hcase hq hqu hu (hcase' ▸ hdist)
    · exact h.path (hskip q hcase hq) (hskip q' hcase' hq') hqu hqu' hu hdist

end

/-- The loop of a search stops at an empty slot, or at the entry it looks for. -/
theorem probeLoop_spec (key : BitVec 64) (hash : ℕ) {a e : ℕ} {t : Slot} (ha : a < slots.length)
    (he : slots[e]? = some t) (hempty : ¬ t.Used) : ∀ fuel p : ℕ, p < slots.length →
      dist slots.length p e < fuel →
    dist slots.length a p ≤ dist slots.length a e →
    (∀ q s, slots[q]? = some s → dist slots.length a q < dist slots.length a p →
      s.Used ∧ (hash ≠ s.hash ∨ key ≠ s.key)) →
    ∃ p' s, probeLoop slots key hash fuel p = some p' ∧ slots[p']? = some s ∧
      ¬ (s.Used ∧ (hash ≠ s.hash ∨ key ≠ s.key)) ∧
      ∀ q s, slots[q]? = some s → dist slots.length a q < dist slots.length a p' →
        s.Used ∧ (hash ≠ s.hash ∨ key ≠ s.key)
  | 0, _, _, hfuel, _, _ => absurd hfuel (Nat.not_lt_zero _)
  | fuel + 1, p, hp, hfuel, hle, hbefore => by
    have hlt := lt_of_getElem? he
    obtain ⟨s, hs⟩ : ∃ s, slots[p]? = some s := ⟨_, getElem?_eq_getElem hp⟩
    by_cases hgo : s.Used ∧ (hash ≠ s.hash ∨ key ≠ s.key)
    · have hne := ne_of_used hs he hgo.1 hempty
      have hstep := dist_advance_left hp hlt hne
      have hless : dist slots.length a p < dist slots.length a e :=
        lt_of_le_of_ne hle fun heq => hne (dist_inj ha hp hlt heq)
      have hnext : dist slots.length a (advance slots.length p) = dist slots.length a p + 1 := by
        refine dist_advance ha fun heq => ?_
        unfold dist advance at *
        split_ifs at * <;> omega
      obtain ⟨p', s', hloop, hp', hstop, hall⟩ := probeLoop_spec key hash ha he hempty
        fuel _ (advance_lt hp) (by omega) (by omega) fun q s' hq hdist => by
          rw [hnext] at hdist
          rcases Nat.lt_succ_iff_lt_or_eq.mp hdist with hdist | heq
          · exact hbefore q s' hq hdist
          · obtain rfl := dist_inj ha (lt_of_getElem? hq) hp heq
            rw [hs] at hq
            exact Option.some.inj hq ▸ hgo
      refine ⟨p', s', ?_, hp', hstop, hall⟩
      rw [probeLoop, hs]
      change (if _ then _ else _) = _
      rw [if_pos hgo, hloop]
    · refine ⟨p, s, ?_, hs, hgo, hbefore⟩
      rw [probeLoop, hs]
      change (if _ then _ else _) = _
      rw [if_neg hgo]

/-- **A well-formed map**: a power of two slots, an entry in its place, and room for searches to
end. -/
structure WellFormed (hashOf : BitVec 64 → ℕ) (m : HashMap) : Prop where
  pow : ∃ k, m.capacity = 2 ^ k
  sound : Sound hashOf nowhere m.slots
  occupancy : m.occupancy = used m.slots
  room : m.occupancy + m.occupancy / 4 < m.capacity

variable {m m' : HashMap}

theorem WellFormed.lt (h : m.WellFormed hashOf) : m.occupancy < m.capacity :=
  (Nat.le_add_right _ _).trans_lt h.room

/-- **`Probe`** finds the key, or the empty slot where it would be. -/
theorem WellFormed.probe (h : m.WellFormed hashOf) (hkey : key ≠ 0) :
    ∃ p s, m.probe key (hashOf key) = some p ∧ m.slots[p]? = some s ∧
      (s.Used ∧ s.key = key ∨ ¬ s.Used ∧
        (∀ (q : ℕ) (t : Slot), m.slots[q]? = some t → t.key ≠ key) ∧
        ∀ (q : ℕ) (t : Slot), m.slots[q]? = some t →
          way m.slots (hashOf key) q < way m.slots (hashOf key) p → t.Used) := by
  obtain ⟨k, hpow⟩ := h.pow
  have ha : startOf m.capacity (hashOf key) < m.capacity := startOf_lt hpow
  obtain ⟨e, t, he, hempty⟩ := exists_unused (h.occupancy ▸ h.lt : used m.slots < m.slots.length)
  obtain ⟨p, s, hloop, hp, hstop, hall⟩ := probeLoop_spec key (hashOf key) ha he hempty
    m.capacity _ ha (dist_lt ha (lt_of_getElem? he)) (by rw [dist_self]; exact Nat.zero_le _)
    (by simp [dist_self])
  refine ⟨p, s, ?_, hp, ?_⟩
  · rw [HashMap.probe, if_pos ⟨hkey, h.lt⟩]
    exact hloop
  by_cases hused : s.Used
  · refine .inl ⟨hused, ?_⟩
    by_contra hne
    exact hstop ⟨hused, .inr (Ne.symm hne)⟩
  refine .inr ⟨hused, fun q t hq heq => ?_, fun q t hq hdist => (hall q t hq hdist).1⟩
  have htused : t.Used := by
    rw [Used, heq]
    exact hkey
  have hhash := h.sound.hash not_nowhere hq htused
  rw [heq] at hhash
  have hne := ne_of_used hq hp htused hused
  rcases Nat.lt_or_ge (way m.slots (hashOf key) p) (way m.slots (hashOf key) q) with hlt | hge
  · rw [← hhash] at hlt
    exact hused (h.sound.path not_nowhere not_nowhere hq hp htused hlt)
  · have hlt := lt_of_le_of_ne hge fun heq' =>
      hne (dist_inj ha (lt_of_getElem? hq) (lt_of_getElem? hp) heq')
    rcases (hall q t hq hlt).2 with hne' | hne'
    · exact hne' hhash.symm
    · exact hne' heq.symm

/-- The value of a key. -/
def get (m : HashMap) (key : BitVec 64) : Option ℕ :=
  if key = 0 then none else (m.slots.find? fun s => s.key = key).map Slot.value

theorem get_eq_some (hsound : Sound hashOf nowhere m.slots) (hkey : key ≠ 0) {value : ℕ} :
    m.get key = some value ↔ Has nowhere m.slots key value := by
  rw [get, if_neg hkey, Option.map_eq_some_iff]
  constructor
  · rintro ⟨s, hfind, rfl⟩
    obtain ⟨p, hp⟩ := mem_iff_getElem?.mp (mem_of_find?_eq_some hfind)
    exact ⟨p, s, not_nowhere, hp, by simpa using find?_some hfind, rfl⟩
  · rintro ⟨p, s, -, hp, hs, rfl⟩
    cases hfind : m.slots.find? fun s => s.key = key with
    | none => exact absurd (find?_eq_none.mp hfind s (mem_of_getElem? hp)) (by simpa using hs)
    | some t =>
      have ht : t.key = key := by simpa using find?_some hfind
      obtain ⟨q, hq⟩ := mem_iff_getElem?.mp (mem_of_find?_eq_some hfind)
      obtain rfl := hsound.distinct not_nowhere not_nowhere hp hq (hs ▸ hkey : s.key ≠ 0)
        (hs.trans ht.symm)
      rw [hp] at hq
      exact ⟨s, by rw [Option.some.inj hq], rfl⟩

/-- Maps with the same entries. -/
theorem get_eq_of_has {f : BitVec 64 → Option ℕ}
    (hsound : Sound hashOf nowhere m'.slots) (hzero : f 0 = none)
    (h : ∀ k value, k ≠ 0 → (Has nowhere m'.slots k value ↔ f k = some value)) : m'.get = f := by
  funext k
  by_cases hk : k = 0
  · rw [hk, hzero, get, if_pos rfl]
  · exact Option.ext fun value => (get_eq_some hsound hk).trans (h k value hk)

theorem get_zero : m.get 0 = none := if_pos rfl

/-- **`Lookup`** without an insertion. -/
theorem lookup_spec (h : m.WellFormed hashOf) (hkey : key ≠ 0) :
    ∃ o, m.lookup key (hashOf key) = some o ∧ o.isSome = (m.get key).isSome ∧
      ∀ p ∈ o, ∃ s, m.slots[p]? = some s ∧ m.get key = some s.value := by
  obtain ⟨p, s, hprobe, hp, hcases⟩ := h.probe hkey
  rw [lookup, hprobe]
  change ∃ o, (m.slots[p]?.bind fun s => some (if s.Used then some p else none)) = some o ∧ _
  rw [hp]
  rcases hcases with ⟨hused, hs⟩ | ⟨hunused, habsent, -⟩
  · have hget : m.get key = some s.value :=
      (get_eq_some h.sound hkey).mpr ⟨p, s, not_nowhere, hp, hs, rfl⟩
    refine ⟨some p, by simp [hused], by simp [hget], ?_⟩
    rintro q ⟨⟩
    exact ⟨s, hp, hget⟩
  · have hget : m.get key = none := by
      refine Option.eq_none_iff_forall_ne_some.mpr fun value hvalue => ?_
      obtain ⟨q, t, -, hq, ht, -⟩ := (get_eq_some h.sound hkey).mp hvalue
      exact habsent q t hq ht
    exact ⟨none, by simp [hunused], by simp [hget], by simp⟩

section

variable {p : ℕ} {s : Slot} (hp : slots[p]? = some s)

include hp

/-- A new entry in an empty slot. -/
theorem Sound.insert (h : Sound hashOf nowhere slots) (hkey : key ≠ 0)
    (habsent : ∀ (q : ℕ) (t : Slot), slots[q]? = some t → t.key ≠ key)
    (hpath : ∀ (q : ℕ) (t : Slot), slots[q]? = some t →
      way slots (hashOf key) q < way slots (hashOf key) p → t.Used) :
    Sound hashOf nowhere (slots.set p ⟨key, 0, hashOf key⟩) :=
  h.set hp (fun _ _ => id) (fun _ => rfl)
    (fun _ q t _ _ hq => ⟨habsent q t hq, hpath q t hq⟩) (absurd hkey)

theorem has_insert {value : ℕ} (hs : ¬ s.Used) (hk : k ≠ 0) :
    Has nowhere (slots.set p ⟨key, 0, hash⟩) k value ↔
      k = key ∧ value = 0 ∨ Has nowhere slots k value := by
  have hne : s.key ≠ k := fun heq => hs fun hzero => hk (heq.symm.trans hzero)
  have hold : Has nowhere slots k value ↔ _ := has_at hp
  rw [has_set hp, hold, and_iff_right not_nowhere, eq_comm, eq_comm (b := value)]
  simp only [hne, false_and, and_false, false_or]

theorem Sound.setValue (h : Sound hashOf nowhere slots) (value : ℕ) :
    Sound hashOf nowhere (slots.set p { s with value }) := by
  refine h.set hp (fun _ _ => id) (h.hash (s := s) not_nowhere hp) (fun hs q t hne _ hq => ?_)
    fun hs q t _ _ hq ht hlt => hs (h.path (t := s) not_nowhere not_nowhere hq hp ht hlt)
  exact ⟨fun heq => hne (h.distinct (s := s) not_nowhere not_nowhere hp hq hs heq.symm).symm,
    h.path (s := s) not_nowhere not_nowhere hp hq hs⟩

theorem has_setValue (h : Sound hashOf nowhere slots) (hs : s.Used) {value x : ℕ} :
    Has nowhere (slots.set p { s with value }) k x ↔
      if k = s.key then x = value else Has nowhere slots k x := by
  have hold : Has nowhere slots k x ↔ _ := has_at hp
  rw [has_set hp, hold]
  split_ifs with heq
  · have hnot : ¬ Has (fun q => q = p ∨ nowhere q) slots k x := by
      rintro ⟨q, t, hq, hqt, ht, -⟩
      exact hq (.inl (h.distinct not_nowhere not_nowhere hp hqt hs (ht.trans heq).symm).symm)
    rw [or_iff_left hnot, and_iff_right not_nowhere, and_iff_right heq.symm, eq_comm]
  · simp only [Ne.symm heq, false_and, and_false]

end

/-- The value of an entry. -/
theorem WellFormed.setValue (h : m.WellFormed hashOf) {p : ℕ} {s : Slot}
    (hp : m.slots[p]? = some s) (hs : s.Used) (value : ℕ) :
    ∃ m', m.setValue p value = some m' ∧ m'.WellFormed hashOf ∧ m'.capacity = m.capacity ∧
      m'.occupancy = m.occupancy ∧ ∀ k x, Has nowhere m'.slots k x ↔
        if k = s.key then x = value else Has nowhere m.slots k x := by
  refine ⟨{ m with slots := m.slots.set p { s with value } }, ?_,
    ⟨?_, h.sound.setValue hp value, ?_, ?_⟩, length_set, rfl, fun k x => has_setValue hp h.sound hs⟩
  · rw [HashMap.setValue, hp]
    rfl
  · rw [capacity, length_set]
    exact h.pow
  · have hcount := used_set (t := { s with value }) hp
    rw [if_pos hs, if_pos (show Used { s with value } from hs)] at hcount
    change m.occupancy = used (m.slots.set p { s with value })
    have hbefore := h.occupancy
    omega
  · rw [capacity, length_set]
    exact h.room

/-- **`Lookup` with an insertion** of a key that is not there, while there is room. -/
theorem lookupInsert_new (h : m.WellFormed hashOf) (hkey : key ≠ 0)
    (habsent : ∀ x, ¬ Has nowhere m.slots key x)
    (hroom : m.occupancy + 1 + (m.occupancy + 1) / 4 < m.capacity) (nested : ℕ) :
    ∃ p m', lookupInsert nested m key (hashOf key) = some (p, m') ∧ m'.WellFormed hashOf ∧
      m'.slots[p]? = some ⟨key, 0, hashOf key⟩ ∧ m'.capacity = m.capacity ∧
      m'.occupancy = m.occupancy + 1 ∧ ∀ k x, k ≠ 0 →
        (Has nowhere m'.slots k x ↔ k = key ∧ x = 0 ∨ Has nowhere m.slots k x) := by
  obtain ⟨p, s, hprobe, hp, hcases⟩ := h.probe hkey
  obtain ⟨hunused, hnot, hpath⟩ := hcases.resolve_left fun hfound =>
    habsent s.value ⟨p, s, not_nowhere, hp, hfound.2, rfl⟩
  have hcount := used_set (t := ⟨key, 0, hashOf key⟩) hp
  rw [if_neg hunused, if_pos (show Used ⟨key, 0, hashOf key⟩ from hkey)] at hcount
  refine ⟨p, ⟨m.slots.set p ⟨key, 0, hashOf key⟩, m.occupancy + 1⟩, ?_, ⟨?_, ?_, ?_, ?_⟩, ?_,
    length_set, rfl, fun k x hk => has_insert hp hunused hk⟩
  · have hnot' : ¬ m.occupancy + 1 + (m.occupancy + 1) / 4 ≥
        (m.slots.set p ⟨key, 0, hashOf key⟩).length := by
      rw [length_set]
      exact not_le.mpr hroom
    rw [lookupInsert, hprobe]
    change (m.slots[p]?.bind _) = _
    rw [hp]
    change (if s.Used then _ else _) = _
    rw [if_neg hunused]
    change (if _ ≥ (m.slots.set p ⟨key, 0, hashOf key⟩).length then _ else _) = _
    rw [if_neg hnot']
    rfl
  · rw [capacity, length_set]
    exact h.pow
  · exact h.sound.insert hp hkey hnot hpath
  · change m.occupancy + 1 = used (m.slots.set p ⟨key, 0, hashOf key⟩)
    have hbefore := h.occupancy
    omega
  · rw [capacity, length_set]
    exact hroom
  · rw [getElem?_set_of_some hp, if_pos rfl]

theorem capacity_initialized : (initialized n).capacity = n := length_replicate

theorem wellFormed_initialized {k : ℕ} : (initialized (2 ^ k)).WellFormed hashOf := by
  have hempty : ∀ {p : ℕ} {s : Slot}, (initialized (2 ^ k)).slots[p]? = some s → ¬ s.Used := by
    intro p s hp
    rw [initialized, getElem?_replicate] at hp
    split_ifs at hp
    rw [← Option.some.inj hp]
    decide
  refine ⟨⟨k, capacity_initialized⟩, ⟨fun _ hp hs => absurd hs (hempty hp),
    fun _ _ hp _ hs => absurd hs (hempty hp), fun _ _ hp _ hs => absurd hs (hempty hp)⟩, ?_, ?_⟩
  · refine (countP_eq_zero.mpr fun s hs => ?_).symm
    obtain ⟨p, hp⟩ := mem_iff_getElem?.mp hs
    simpa using hempty hp
  · rw [capacity_initialized]
    have hpos := Nat.two_pow_pos k
    change 0 + 0 / 4 < 2 ^ k
    omega

theorem not_has_initialized {capacity value : ℕ} (hk : k ≠ 0) :
    ¬ Has nowhere (initialized capacity).slots k value := by
  rintro ⟨p, s, -, hp, rfl, -⟩
  rw [initialized, getElem?_replicate] at hp
  split_ifs at hp
  exact hk (by rw [← Option.some.inj hp]; rfl)

/-- A new map is empty. -/
theorem get_initialized : (initialized n).get k = none := by
  rw [get]
  split_ifs with hk
  · rfl
  · rw [Option.map_eq_none_iff, find?_eq_none]
    intro s hs heq
    rw [eq_of_mem_replicate hs, decide_eq_true_eq] at heq
    exact hk heq.symm

/-- **The loop of `Resize`** moves all entries. -/
theorem rehash_spec (nested : ℕ) {l : List Slot} (h : m.WellFormed hashOf)
    (hhash : ∀ s ∈ l, s.Used → s.hash = hashOf s.key)
    (hdistinct : l.Pairwise fun s t => s.Used → s.key ≠ t.key)
    (habsent : ∀ s ∈ l, s.Used → ∀ x, ¬ Has nowhere m.slots s.key x)
    (hroom : m.occupancy + used l + (m.occupancy + used l) / 4 < m.capacity) :
    ∃ m', rehash (lookupInsert nested) l m = some m' ∧ m'.WellFormed hashOf ∧
      m'.occupancy = m.occupancy + used l ∧ ∀ k x, k ≠ 0 → (Has nowhere m'.slots k x ↔
        Has nowhere m.slots k x ∨ ∃ s ∈ l, s.key = k ∧ s.value = x) := by
  induction l generalizing m with
  | nil => exact ⟨m, rfl, h, rfl, fun k x _ => by simp⟩
  | cons s l ih =>
    rw [pairwise_cons] at hdistinct
    have hhash' := fun t ht => hhash t (mem_cons_of_mem s ht)
    rw [rehash]
    by_cases hs : s.Used
    · have hcount : used (s :: l) = used l + 1 := countP_cons_of_pos (decide_eq_true hs)
      rw [hcount] at hroom
      obtain ⟨p, m₁, hlookup, hm₁, hp, hcapacity, hoccupancy, hhas₁⟩ := lookupInsert_new h hs
        (habsent s mem_cons_self hs) (by omega) nested
      obtain ⟨m₂, hset, hm₂, hcapacity₂, hoccupancy₂, hhas₂⟩ := hm₁.setValue hp hs s.value
      have hhas : ∀ k x, k ≠ 0 → (Has nowhere m₂.slots k x ↔
          k = s.key ∧ x = s.value ∨ Has nowhere m.slots k x) := by
        intro k x hk
        rw [hhas₂]
        split_ifs with heq
        · have hnot := habsent s mem_cons_self hs x
          rw [← heq] at hnot
          rw [and_iff_right heq, or_iff_left hnot]
        · rw [hhas₁ k x hk]
          simp [heq]
      obtain ⟨m', hrest, hm', hoccupancy', hhas'⟩ := ih hm₂ hhash' hdistinct.2 (by
        intro t ht hused x hx
        rcases (hhas t.key x hused).mp hx with ⟨heq, -⟩ | hx
        · exact hdistinct.1 t ht hs heq.symm
        · exact habsent t (mem_cons_of_mem s ht) hused x hx) (by omega)
      refine ⟨m', ?_, hm', by omega, fun k x hk => ?_⟩
      · rw [if_pos hs, hhash s mem_cons_self hs, hlookup]
        change (m₁.setValue p s.value).bind _ = _
        rw [hset]
        exact hrest
      · rw [hhas' k x hk, hhas k x hk, exists_mem_cons_iff]
        constructor
        · rintro ((⟨rfl, rfl⟩ | hold) | hrest)
          · exact .inr (.inl ⟨rfl, rfl⟩)
          · exact .inl hold
          · exact .inr (.inr hrest)
        · rintro (hold | ⟨rfl, rfl⟩ | hrest)
          · exact .inl (.inr hold)
          · exact .inl (.inl ⟨rfl, rfl⟩)
          · exact .inr hrest
    · have hcount : used (s :: l) = used l := countP_cons_of_neg (by simpa using hs)
      rw [hcount] at hroom
      rw [if_neg hs]
      obtain ⟨m', hrest, hm', hoccupancy', hhas'⟩ := ih h hhash' hdistinct.2
        (fun t ht => habsent t (mem_cons_of_mem s ht)) hroom
      refine ⟨m', hrest, hm', by omega, fun k x hk => ?_⟩
      rw [hhas' k x hk, exists_mem_cons_iff]
      have hne : s.key ≠ k := by
        rintro rfl
        exact hs hk
      simp [hne]

/-- **`Resize`** keeps the entries. -/
theorem resize_spec (nested : ℕ) (hpow : ∃ k, m.capacity = 2 ^ k)
    (hsound : Sound hashOf nowhere m.slots) :
    ∃ m', resize (lookupInsert nested) m = some m' ∧ m'.WellFormed hashOf ∧
      m'.occupancy = used m.slots ∧ ∀ k x, k ≠ 0 →
        (Has nowhere m'.slots k x ↔ Has nowhere m.slots k x) := by
  obtain ⟨j, hj⟩ := hpow
  have hdouble : m.capacity * 2 = 2 ^ (j + 1) := by rw [hj, pow_succ]
  have hle : used m.slots ≤ m.capacity := countP_le_length
  have hpos : 0 < m.capacity := hj ▸ Nat.two_pow_pos j
  obtain ⟨m', hrehash, hm', hoccupancy, hhas⟩ := rehash_spec nested (l := m.slots)
    (wellFormed_initialized : (initialized (2 ^ (j + 1))).WellFormed hashOf)
    (fun s hs hused => by
      obtain ⟨p, hp⟩ := mem_iff_getElem?.mp hs
      exact hsound.hash not_nowhere hp hused)
    (pairwise_iff_getElem.mpr fun p q hp hq hlt hused heq =>
      hlt.ne (hsound.distinct not_nowhere not_nowhere (getElem?_eq_getElem hp)
        (getElem?_eq_getElem hq) hused heq))
    (fun s _ hused x => not_has_initialized hused)
    (by
      rw [capacity_initialized, ← hdouble]
      change 0 + used m.slots + (0 + used m.slots) / 4 < _
      omega)
  refine ⟨m', ?_, hm', hoccupancy.trans (Nat.zero_add _), fun k x hk => ?_⟩
  · rw [resize, hdouble]
    exact hrehash
  · rw [hhas k x hk, or_iff_right (not_has_initialized hk)]
    constructor
    · rintro ⟨s, hs, hkey, hvalue⟩
      obtain ⟨p, hp⟩ := mem_iff_getElem?.mp hs
      exact ⟨p, s, not_nowhere, hp, hkey, hvalue⟩
    · rintro ⟨p, s, -, hp, hkey, hvalue⟩
      exact ⟨s, mem_of_getElem? hp, hkey, hvalue⟩

/-- **`Lookup` with an insertion**: the key is there, and the other entries are as before. -/
theorem lookupInsert_spec (h : m.WellFormed hashOf) (hkey : key ≠ 0) :
    ∃ p m' s, lookupInsert 1 m key (hashOf key) = some (p, m') ∧ m'.WellFormed hashOf ∧
      m'.slots[p]? = some s ∧ s.key = key ∧
      m'.occupancy = m.occupancy + (if (m.get key).isSome then 0 else 1) ∧
      ∀ k x, k ≠ 0 → k ≠ key → (Has nowhere m'.slots k x ↔ Has nowhere m.slots k x) := by
  obtain ⟨p, s, hprobe, hp, hcases⟩ := h.probe hkey
  rcases hcases with ⟨hused, hs⟩ | ⟨hunused, hnot, hpath⟩
  · have hget := (get_eq_some h.sound hkey).mpr ⟨p, s, not_nowhere, hp, hs, rfl⟩
    refine ⟨p, m, s, ?_, h, hp, hs, by simp [hget], fun _ _ _ _ => Iff.rfl⟩
    rw [lookupInsert, hprobe]
    change (m.slots[p]?.bind _) = _
    rw [hp]
    change (if s.Used then _ else _) = _
    rw [if_pos hused]
    rfl
  have habsent : ∀ x, ¬ Has nowhere m.slots key x := by
    rintro x ⟨q, t, -, hq, ht, -⟩
    exact hnot q t hq ht
  have hget : m.get key = none := Option.eq_none_iff_forall_ne_some.mpr fun value hvalue =>
    habsent value ((get_eq_some h.sound hkey).mp hvalue)
  rw [hget, if_neg (by simp)]
  by_cases hroom : m.occupancy + 1 + (m.occupancy + 1) / 4 < m.capacity
  · obtain ⟨p', m', hlookup, hm', hp', -, hoccupancy, hhas⟩ :=
      lookupInsert_new h hkey habsent hroom 1
    exact ⟨p', m', _, hlookup, hm', hp', rfl, hoccupancy,
      fun k x hk hne => by simp [hhas k x hk, hne]⟩
  -- The table is four fifths full.
  obtain ⟨m₁, hm₁⟩ : ∃ m₁ : HashMap,
      m₁ = ⟨m.slots.set p ⟨key, 0, hashOf key⟩, m.occupancy + 1⟩ := ⟨_, rfl⟩
  have hcapacity : m₁.capacity = m.capacity := by
    rw [hm₁]
    exact length_set
  have hsound : Sound hashOf nowhere m₁.slots := by
    rw [hm₁]
    exact h.sound.insert hp hkey hnot hpath
  have hhas₁ : ∀ k x, k ≠ 0 → (Has nowhere m₁.slots k x ↔
      k = key ∧ x = 0 ∨ Has nowhere m.slots k x) := by
    rw [hm₁]
    exact fun k x hk => has_insert hp hunused hk
  have hcount : used m₁.slots = m.occupancy + 1 := by
    have hset := used_set (t := ⟨key, 0, hashOf key⟩) hp
    rw [if_neg hunused, if_pos (show Used ⟨key, 0, hashOf key⟩ from hkey)] at hset
    rw [hm₁, h.occupancy]
    exact hset
  obtain ⟨m₂, hresize, hm₂, hoccupancy₂, hhas₂⟩ := resize_spec 0 (hcapacity ▸ h.pow) hsound
  obtain ⟨p', s', hprobe', hp', hcases'⟩ := hm₂.probe hkey
  have hfound : s'.key = key := by
    refine (hcases'.resolve_right fun hmissing => ?_).2
    obtain ⟨q, t, -, hq, ht, -⟩ := (hhas₂ key 0 hkey).mpr ((hhas₁ key 0 hkey).mpr (.inl ⟨rfl, rfl⟩))
    exact hmissing.2.1 q t hq ht
  refine ⟨p', m₂, s', ?_, hm₂, hp', hfound, hoccupancy₂.trans hcount, fun k x hk hne => ?_⟩
  · rw [lookupInsert, hprobe]
    change (m.slots[p]?.bind _) = _
    rw [hp]
    change (if s.Used then _ else _) = _
    rw [if_neg hunused]
    change (if m.occupancy + 1 + (m.occupancy + 1) / 4 ≥
      (⟨m.slots.set p ⟨key, 0, hashOf key⟩, m.occupancy + 1⟩ : HashMap).capacity then
        (resize (lookupInsert 0) ⟨m.slots.set p ⟨key, 0, hashOf key⟩, m.occupancy + 1⟩).bind _
      else _) = _
    rw [← hm₁, hcapacity, if_pos (not_lt.mp hroom), hresize]
    change (m₂.probe key (hashOf key)).bind _ = _
    rw [hprobe']
    rfl
  · rw [hhas₂ k x hk, hhas₁ k x hk]
    simp [hne]

/-- **Storing a value** updates the finite map. -/
theorem store_spec (h : m.WellFormed hashOf) (hkey : key ≠ 0) (value : ℕ) :
    ∃ m', m.store key (hashOf key) value = some m' ∧ m'.WellFormed hashOf ∧
      m'.occupancy = m.occupancy + (if (m.get key).isSome then 0 else 1) ∧
      m'.get = Function.update m.get key (some value) := by
  obtain ⟨p, m₁, s, hlookup, hm₁, hp, hs, hoccupancy, hhas₁⟩ := lookupInsert_spec h hkey
  obtain ⟨m', hset, hm', -, hsame, hhas⟩ := hm₁.setValue hp (by rw [Used, hs]; exact hkey) value
  refine ⟨m', ?_, hm', hsame.trans hoccupancy, get_eq_of_has hm'.sound ?_ fun k x hk => ?_⟩
  · rw [store, hlookup]
    exact hset
  · rw [Function.update_of_ne hkey.symm, get_zero]
  · rw [hhas, hs, Function.update_apply]
    split_ifs with heq
    · rw [Option.some_inj, eq_comm]
    · rw [hhas₁ k x hk heq, get_eq_some h.sound hk]

/-- **A table with a hole** at the candidate, in which everything but the key to remove is left. -/
structure Hole (hashOf : BitVec 64 → ℕ) (old slots : List Slot) (key : BitVec 64) (c : ℕ) :
    Prop where
  length : slots.length = old.length
  sound : Sound hashOf (· = c) slots
  candidate : ∃ s, slots[c]? = some s ∧ s.Used
  count : used slots = used old
  has : ∀ k x, k ≠ 0 → (Has (· = c) slots k x ↔ k ≠ key ∧ Has nowhere old k x)

variable {old : List Slot} {c x e : ℕ}

/-- No entry behind the hole, up to the slot looked at, has the hole on its way. -/
def Passed (slots : List Slot) (c x : ℕ) : Prop :=
  ∀ q s, slots[q]? = some s → q ≠ c → dist slots.length c q ≤ dist slots.length c x →
    ¬ way slots s.hash c < way slots s.hash q

/-- **One move**: the entry at `x` goes into the hole, and leaves one behind. -/
theorem Hole.move (h : Hole hashOf old slots key c) {s : Slot} (hx : slots[x]? = some s)
    (hused : s.Used) (hne : x ≠ c)
    (hpass : way slots s.hash c < way slots s.hash x) :
    Hole hashOf old (slots.set c s) key x := by
  obtain ⟨g, hg, hgused⟩ := h.candidate
  refine ⟨by rw [length_set, h.length], ?_,
    ⟨s, by rw [getElem?_set_of_some hg, if_neg hne, hx], hused⟩, ?_, fun k v hk => ?_⟩
  · refine h.sound.set hg (fun q hq _ => hq) (fun _ => h.sound.hash hne hx hused)
      (fun _ q t hqc hqx hq => ?_) (absurd hused)
    exact ⟨fun heq => hqx (h.sound.distinct hne hqc hx hq hused heq.symm).symm,
      fun hlt => h.sound.path hne hqc hx hq hused (hlt.trans hpass)⟩
  · have hcount := used_set (t := s) hg
    rw [if_pos hgused, if_pos hused] at hcount
    have hbefore := h.count
    omega
  · have hold : Has (· = c) slots k v ↔ _ := has_at hx
    rw [← h.has k v hk, has_set hg, hold, eq_comm]
    simp only [or_comm]

/-- **The end of the loop**: before an empty slot, the hole can be cleared. -/
theorem Hole.clear (h : Hole hashOf old slots key c) (hpow : ∃ k, slots.length = 2 ^ k)
    {s t : Slot} (hc : slots[c]? = some s) (hpassed : Passed slots c x)
    (hx : slots[advance slots.length x]? = some t) (ht : ¬ t.Used) :
    Sound hashOf nowhere (slots.set c { s with key := 0 }) ∧
      ∀ k v, k ≠ 0 → (Has nowhere (slots.set c { s with key := 0 }) k v ↔
        k ≠ key ∧ Has nowhere old k v) := by
  obtain ⟨g, hg, hgused⟩ := h.candidate
  obtain ⟨j, hj⟩ := hpow
  have hclt := lt_of_getElem? hc
  have hxc := (ne_of_used hg hx hgused ht).symm
  have hnext := dist_advance hclt hxc
  refine ⟨h.sound.set hc (fun q hq _ => hq) (fun hzero => absurd rfl hzero)
    (fun hzero => absurd rfl hzero) fun _ q u hcase _ hq hu => ?_, fun k v hk => ?_⟩
  · -- The way of an entry cannot pass the hole: it would pass the empty slot as well.
    rcases Nat.lt_or_ge (dist slots.length c x) (dist slots.length c q) with hfar | hnear
    · intro hpass
      have hqlt := lt_of_getElem? hq
      have hxlt := lt_of_getElem? hx
      have hqx : dist slots.length c (advance slots.length x) ≠ dist slots.length c q :=
        fun heq => ne_of_used hq hx hu ht (dist_inj hclt hxlt hqlt heq).symm
      exact ht (h.sound.path hcase hxc hq hx hu
        (dist_lt_of_pass (startOf_lt hj) hclt hxlt hqlt hpass (by omega)))
    · exact hpassed q u hq hcase hnear
  · rw [← h.has k v hk, has_set hc]
    simp only [nowhere, or_false, Ne.symm hk, false_and, and_false, false_or]

/-- **The loop of `Remove`** stops before an empty slot, with a hole that can be cleared. -/
theorem removeLoop_spec {t : Slot} (ht : ¬ t.Used) : ∀ (fuel : ℕ) {slots : List Slot} {c x : ℕ},
    Hole hashOf old slots key c → (∃ k, slots.length = 2 ^ k) → Passed slots c x →
    (∃ s, slots[x]? = some s ∧ s.Used) → slots[e]? = some t → dist slots.length x e ≤ fuel →
    ∃ slots' c' x', removeLoop fuel slots c x = some (slots', c') ∧
      Hole hashOf old slots' key c' ∧ Passed slots' c' x' ∧
      ∃ t', slots'[advance slots'.length x']? = some t' ∧ ¬ t'.Used
  | fuel, slots, c, x, h, hpow, hpassed, ⟨u, hx, hu⟩, he, hfuel => by
    obtain ⟨g, hg, hgused⟩ := h.candidate
    obtain ⟨j, hj⟩ := hpow
    have hxlt := lt_of_getElem? hx
    have helt := lt_of_getElem? he
    have hclt := lt_of_getElem? hg
    have hstep := dist_advance_left hxlt helt (ne_of_used hx he hu ht)
    have hnext := advance_lt hxlt
    obtain ⟨s, hs⟩ : ∃ s, slots[advance slots.length x]? = some s :=
      ⟨_, getElem?_eq_getElem hnext⟩
    obtain ⟨fuel, rfl⟩ : ∃ f, fuel = f + 1 := ⟨fuel - 1, by omega⟩
    rw [removeLoop]
    simp only [hs, Option.bind_eq_bind, Option.bind_some]
    by_cases hused : s.Used
    · rw [if_pos hused]
      have hmoves := moves_iff hclt hnext (startOf_lt hj : startOf slots.length s.hash < _)
      by_cases hpass : way slots s.hash c < way slots s.hash (advance slots.length x)
      · rw [if_pos (hmoves.mpr hpass)]
        have hne : advance slots.length x ≠ c := fun heq => absurd (heq ▸ hpass) (lt_irrefl _)
        have hce := (ne_of_used hg he hgused ht).symm
        refine removeLoop_spec ht fuel (h.move hs hused hne hpass) ⟨j, by rw [length_set, hj]⟩ ?_
          ⟨s, by rw [getElem?_set_of_some hg, if_neg hne, hs], hused⟩
          (by rw [getElem?_set_of_some hg, if_neg hce, he]) (by rw [length_set]; omega)
        intro q s' hq hqne hle
        rw [length_set, dist_self, Nat.le_zero] at hle
        have hqlt := lt_of_getElem? hq
        rw [length_set] at hqlt
        exact absurd (dist_inj hnext hqlt hnext (hle.trans dist_self.symm)) hqne
      · rw [if_neg fun hcond => hpass (hmoves.mp hcond)]
        refine removeLoop_spec ht fuel h ⟨j, hj⟩ ?_ ⟨s, hs, hused⟩ he (by omega)
        intro q s' hq hqne hle
        have hqlt := lt_of_getElem? hq
        by_cases hwrap : advance slots.length x = c
        · rw [hwrap, dist_self, Nat.le_zero] at hle
          exact absurd (dist_inj hclt hqlt hclt (hle.trans dist_self.symm)) hqne
        rw [dist_advance hclt hwrap] at hle
        rcases Nat.lt_or_ge (dist slots.length c x) (dist slots.length c q) with hfar | hnear
        · obtain rfl : q = advance slots.length x := by
            refine dist_inj hclt hqlt hnext ?_
            rw [dist_advance hclt hwrap]
            omega
          rw [hs] at hq
          rw [← Option.some.inj hq]
          exact hpass
        · exact hpassed q s' hq hqne hnear
    · rw [if_neg hused]
      exact ⟨slots, c, x, rfl, h, hpassed, s, hs, hused⟩

/-- **`Remove`** of a key that is there. -/
theorem remove_spec (h : m.WellFormed hashOf) (hkey : key ≠ 0) (hmem : m.get key ≠ none) :
    ∃ m', m.remove key (hashOf key) = some m' ∧ m'.WellFormed hashOf ∧
      m'.occupancy + 1 = m.occupancy ∧ m'.get = Function.update m.get key none := by
  obtain ⟨p, s, hprobe, hp, hcases⟩ := h.probe hkey
  obtain ⟨hused, hs⟩ := hcases.resolve_right fun hmissing => by
    refine hmem (Option.eq_none_iff_forall_ne_some.mpr fun value hvalue => ?_)
    obtain ⟨q, t, -, hq, ht, -⟩ := (get_eq_some h.sound hkey).mp hvalue
    exact hmissing.2.1 q t hq ht
  obtain ⟨e, t, he, hempty⟩ := exists_unused (h.occupancy ▸ h.lt : used m.slots < m.slots.length)
  have hplt := lt_of_getElem? hp
  have hhole : Hole hashOf m.slots m.slots key p := by
    refine ⟨rfl, ⟨fun _ => h.sound.hash not_nowhere,
      fun _ _ => h.sound.distinct not_nowhere not_nowhere,
      fun _ _ => h.sound.path not_nowhere not_nowhere⟩, ⟨s, hp, hused⟩, rfl, fun k x hk => ?_⟩
    constructor
    · rintro ⟨q, u, hq, hqu, rfl, rfl⟩
      refine ⟨fun heq => hq ?_, q, u, not_nowhere, hqu, rfl, rfl⟩
      exact h.sound.distinct not_nowhere not_nowhere hqu hp hk (heq.trans hs.symm)
    · rintro ⟨hne, q, u, -, hqu, rfl, rfl⟩
      refine ⟨q, u, ?_, hqu, rfl, rfl⟩
      rintro rfl
      rw [hp] at hqu
      exact hne (by rw [← Option.some.inj hqu, hs])
  have hpassed : Passed m.slots p p := by
    intro q u hq hne hle
    rw [dist_self, Nat.le_zero] at hle
    exact absurd (dist_inj hplt (lt_of_getElem? hq) hplt (hle.trans dist_self.symm)) hne
  obtain ⟨slots', c', x', hloop, hhole', hpassed', t', ht', hunused⟩ :=
    removeLoop_spec hempty m.capacity hhole h.pow hpassed ⟨s, hp, hused⟩ he
      (dist_lt hplt (lt_of_getElem? he)).le
  obtain ⟨g, hg, hgused⟩ := hhole'.candidate
  have hpow : ∃ k, slots'.length = 2 ^ k := by
    rw [hhole'.length]
    exact h.pow
  obtain ⟨hsound, hhas⟩ := hhole'.clear hpow hg hpassed' ht' hunused
  have hcount := used_set (t := { g with key := 0 }) hg
  rw [if_pos hgused, if_neg (fun hzero : Used { g with key := 0 } => hzero rfl)] at hcount
  have hbefore := h.occupancy
  have hroom := h.room
  have hsame := hhole'.count
  refine ⟨⟨slots'.set c' { g with key := 0 }, m.occupancy - 1⟩, ?_, ⟨?_, hsound, ?_, ?_⟩,
    ?_, get_eq_of_has hsound ?_ fun k x hk => ?_⟩
  · rw [remove, hprobe]
    simp only [hp, Option.bind_eq_bind, Option.bind_some, if_pos hused, if_pos h.lt, hloop, hg]
    rfl
  · rw [capacity, length_set]
    exact hpow
  · change m.occupancy - 1 = used (slots'.set c' { g with key := 0 })
    omega
  · rw [capacity, length_set, hhole'.length]
    change m.occupancy - 1 + (m.occupancy - 1) / 4 < m.capacity
    omega
  · change m.occupancy - 1 + 1 = m.occupancy
    omega
  · rw [Function.update_of_ne hkey.symm, get_zero]
  · rw [hhas k x hk, Function.update_apply, ← get_eq_some h.sound hk]
    split_ifs with heq
    · simp [heq]
    · simp [heq]

end HashMap
