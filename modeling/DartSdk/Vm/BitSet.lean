import Mathlib.Data.BitVec

/-!
# Vm/BitSet — a bit set in words

The bits of a `BitSet` live in an array of 64-bit words.  `test` is what the set means: `set`
changes one element, `next` finds the first one from an index on, and `clearLastAndFindPrevious`
removes the last one and finds the one before it.
-/

/-- `BitSet<N>`, with the number of its words. -/
structure BitSet (kLengthInWords : ℕ) where
  data : List (BitVec 64)
  length_data : data.length = kLengthInWords

namespace BitSet

open List Nat Bool

variable {n : ℕ} {b : ℕ}

/-- The word at an index. -/
def word (s : BitSet n) (w : ℕ) : BitVec 64 := s.data.getD w 0

/-- Replaces the word at an index. -/
def setWord (s : BitSet n) (w : ℕ) (bits : BitVec 64) : BitSet n :=
  ⟨s.data.set w bits, by rw [length_set, s.length_data]⟩

/-- The mask of a bit in its word. -/
def maskOf (i : ℕ) : BitVec 64 := 1#64 <<< (i &&& 63)

/-- `Set`. -/
def set (s : BitSet n) (i : ℕ) (value : Bool) : BitSet n :=
  if value then s.setWord (i >>> 6) (s.word (i >>> 6) ||| maskOf i)
  else s.setWord (i >>> 6) (s.word (i >>> 6) &&& ~~~maskOf i)

/-- `Test`. -/
def test (s : BitSet n) (i : ℕ) : Bool := (s.word (i >>> 6) &&& maskOf i) != 0

/-- The loop of `Next`, with `fuel` words left. -/
def nextWord (s : BitSet n) (w : ℕ) : ℕ → ℤ
  | 0 => -1
  | fuel + 1 =>
    if s.word w ≠ 0 then (w <<< 6 : ℕ) + (s.word w).ctz.toNat else s.nextWord (w + 1) fuel

/-- `Next`: the first bit that is set, from an index on. -/
def next (s : BitSet n) (i : ℕ) : ℤ :=
  let w := i >>> 6
  let mask : BitVec 64 := BitVec.allOnes 64 <<< (i &&& 63)
  if s.word w &&& mask ≠ 0 then (w <<< 6 : ℕ) + (s.word w &&& mask).ctz.toNat
  else s.nextWord (w + 1) (n - (w + 1))

/-- The search backwards for a word that is not zero. -/
def previousWord (s : BitSet n) (bits : BitVec 64) : ℕ → BitVec 64 × ℕ
  | 0 => (bits, 0)
  | w + 1 => if bits = 0 then s.previousWord (s.word w) w else (bits, w + 1)

/-- `ClearLastAndFindPrevious`: the bit that is set below the last one. -/
def clearLastAndFindPrevious (s : BitSet n) (currentLast : ℕ) : ℤ × BitSet n :=
  let w := currentLast >>> 6
  let bits := s.word w ^^^ maskOf currentLast
  let s := s.setWord w bits
  let (bits, w) := s.previousWord bits w
  if bits = 0 then (-1, s) else (((w + 1) <<< 6 : ℕ) - bits.clz.toNat - 1, s)

/-- `Reset`. -/
def reset : BitSet n := ⟨List.replicate n 0, length_replicate⟩

/-! ## The set that the words stand for

Bit `i` is bit `i % 64` of the word `i / 64`. -/

variable {s : BitSet n} {i j w : ℕ}

theorem getLsbD_maskOf (hb : b < 64) : (maskOf i).getLsbD b = decide (b = i % 64) := by
  have hmod : i &&& 63 = i % 64 := and_two_pow_sub_one_eq_mod i 6
  rw [maskOf, hmod, BitVec.getLsbD_shiftLeft, BitVec.getLsbD_one]
  by_cases heq : b = i % 64
  · subst heq
    simp
    omega
  · simp [hb, heq]
    omega

theorem shiftRight_six (i : ℕ) : i >>> 6 = i / 64 := shiftRight_eq_div_pow i 6

theorem test_eq (s : BitSet n) (i : ℕ) : s.test i = (s.word (i / 64)).getLsbD (i % 64) := by
  have hlt : i % 64 < 64 := mod_lt _ (by decide)
  rw [test, shiftRight_six]
  cases hbit : (s.word (i / 64)).getLsbD (i % 64) with
  | true =>
    refine bne_iff_ne.2 fun hzero => ?_
    have : ((s.word (i / 64)) &&& maskOf i).getLsbD (i % 64) = true := by
      rw [BitVec.getLsbD_and, hbit, getLsbD_maskOf hlt]
      simp
    rw [hzero] at this
    simp at this
  | false =>
    rw [bne_eq_false_iff_eq]
    refine BitVec.eq_of_getLsbD_eq fun b hb => ?_
    rw [BitVec.getLsbD_and, getLsbD_maskOf hb]
    by_cases heq : b = i % 64
    · simp [heq, hbit]
    · simp [heq]

/-- A bit of a word is a member of the set. -/
theorem test_word (hb : b < 64) : s.test (w * 64 + b) = (s.word w).getLsbD b := by
  rw [test_eq, show (w * 64 + b) / 64 = w by omega, show (w * 64 + b) % 64 = b by omega]

theorem word_of_le (hw : n ≤ w) : s.word w = 0 := by
  rw [word, getD_eq_getElem?_getD, getElem?_eq_none (by rw [s.length_data]; exact hw)]
  rfl

theorem test_of_le (hi : n * 64 ≤ i) : s.test i = false := by
  rw [test_eq, word_of_le (by omega)]
  simp

theorem word_setWord (hw : w < n) (bits : BitVec 64) (w' : ℕ) :
    (s.setWord w bits).word w' = if w' = w then bits else s.word w' := by
  have hlen : w < s.data.length := by rwa [s.length_data]
  rw [word, setWord, getD_eq_getElem?_getD, getElem?_set]
  by_cases heq : w = w'
  · subst heq
    simp [hlen]
  · rw [if_neg heq, if_neg (Ne.symm heq), word, getD_eq_getElem?_getD]

/-- A word that differs from the old one in one bit. -/
theorem test_setWord {bits : BitVec 64} {value : Bool} (hi : i < n * 64)
    (hbits : ∀ b < 64, bits.getLsbD b = if b = i % 64 then value else (s.word (i / 64)).getLsbD b)
    (j : ℕ) : (s.setWord (i >>> 6) bits).test j = if j = i then value else s.test j := by
  have hw : i / 64 < n := by omega
  have hlt : j % 64 < 64 := mod_lt _ (by decide)
  rw [shiftRight_six, test_eq, test_eq, word_setWord hw]
  by_cases hwj : j / 64 = i / 64
  · rw [if_pos hwj, hbits _ hlt, hwj]
    refine if_congr ?_ rfl rfl
    omega
  · rw [if_neg hwj, if_neg (fun heq => hwj (by rw [heq]))]

/-- **`Set` changes one element.** -/
theorem test_set (hi : i < n * 64) (value : Bool) (j : ℕ) :
    (s.set i value).test j = if j = i then value else s.test j := by
  cases value with
  | true =>
    refine test_setWord hi (fun b hb => ?_) j
    rw [shiftRight_six, BitVec.getLsbD_or, getLsbD_maskOf hb]
    split_ifs with heq <;> simp [heq]
  | false =>
    refine test_setWord hi (fun b hb => ?_) j
    rw [shiftRight_six, BitVec.getLsbD_and, BitVec.getLsbD_not, getLsbD_maskOf hb]
    split_ifs with heq <;> simp [heq, hb]

theorem test_reset (i : ℕ) : (reset : BitSet n).test i = false := by
  have hword : (reset : BitSet n).word (i / 64) = 0 := by
    rw [word, reset, getD_eq_getElem?_getD, getElem?_replicate]
    split_ifs <;> rfl
  rw [test_eq, hword]
  simp

/-- `p` is the first element from `i` on, or `-1` if there is none. -/
def IsNext (s : BitSet n) (i : ℕ) (p : ℤ) : Prop :=
  (p = -1 ∧ ∀ j, i ≤ j → s.test j = false) ∨
  ∃ j : ℕ, p = j ∧ i ≤ j ∧ s.test j = true ∧ ∀ k, i ≤ k → k < j → s.test k = false

theorem IsNext.of_le {p : ℤ} (h : IsNext s j p) (hij : i ≤ j)
    (hgap : ∀ k, i ≤ k → k < j → s.test k = false) : IsNext s i p := by
  obtain ⟨rfl, hnone⟩ | ⟨j', rfl, hle, htest, hbefore⟩ := h
  · refine .inl ⟨rfl, fun k hk => ?_⟩
    rcases lt_or_ge k j with hlt | hge
    · exact hgap k hk hlt
    · exact hnone k hge
  · refine .inr ⟨j', rfl, hij.trans hle, htest, fun k hk hlt => ?_⟩
    rcases lt_or_ge k j with hlt' | hge
    · exact hgap k hk hlt'
    · exact hbefore k hge hlt

/-- The lowest bit among those of a word from `b` on. -/
theorem isNext_ctz {bits : BitVec 64} (hbits : bits ≠ 0)
    (heq : ∀ c < 64, bits.getLsbD c = (decide (b ≤ c) && (s.word w).getLsbD c)) :
    IsNext s (w * 64 + b) ((w <<< 6 : ℕ) + bits.ctz.toNat) := by
  have htrue : bits.getLsbD bits.ctz.toNat = true := BitVec.getLsbD_true_ctz_of_ne_zero hbits
  have hlt : bits.ctz.toNat < 64 := BitVec.lt_of_getLsbD htrue
  have hshift : w <<< 6 = w * 64 := shiftLeft_eq w 6
  rw [heq _ hlt, and_eq_true, decide_eq_true_iff] at htrue
  refine .inr ⟨w * 64 + bits.ctz.toNat, ?_,
    by omega, by rw [test_word hlt, htrue.2], fun k hk hlt' => ?_⟩
  · rw [hshift]
    rfl
  · have hfalse := BitVec.getLsbD_false_of_lt_ctz (show k - w * 64 < bits.ctz.toNat by omega)
    rw [heq _ (by omega), and_eq_false_iff] at hfalse
    rw [show k = w * 64 + (k - w * 64) by omega, test_word (by omega)]
    exact hfalse.resolve_left (by simp; omega)

theorem nextWord_isNext (s : BitSet n) (w fuel : ℕ) (hfuel : n ≤ w + fuel) :
    IsNext s (w * 64) (s.nextWord w fuel) := by
  induction fuel generalizing w with
  | zero => exact .inl ⟨rfl, fun j hj => test_of_le (by omega)⟩
  | succ fuel ih =>
    rw [nextWord]
    split_ifs with hword
    · have hfirst : IsNext s (w * 64 + 0) _ := isNext_ctz hword fun c _ => by simp
      rwa [add_zero] at hfirst
    · refine (ih (w + 1) (by omega)).of_le (by omega) fun k hk hlt => ?_
      rw [show k = w * 64 + (k - w * 64) by omega, test_word (by omega), not_not.1 hword]
      simp

/-- **`Next` finds the first element from an index on.** -/
theorem next_isNext (s : BitSet n) (i : ℕ) : IsNext s i (s.next i) := by
  have hmod : i &&& 63 = i % 64 := and_two_pow_sub_one_eq_mod i 6
  have hmask : ∀ c < 64, (s.word (i / 64) &&& BitVec.allOnes 64 <<< (i % 64)).getLsbD c =
      (decide (i % 64 ≤ c) && (s.word (i / 64)).getLsbD c) := by
    intro c hc
    rw [BitVec.getLsbD_and, BitVec.getLsbD_shiftLeft, BitVec.getLsbD_allOnes, Bool.and_comm]
    congr 1
    rw [decide_eq_true hc, decide_eq_true (show c - i % 64 < 64 by omega), Bool.true_and,
      Bool.and_true, ← decide_not, decide_eq_decide]
    exact not_lt
  have hi : i / 64 * 64 + i % 64 = i := by omega
  rw [next, shiftRight_six, hmod]
  split_ifs with hword
  · have hfirst := isNext_ctz hword hmask
    rwa [hi] at hfirst
  · refine (nextWord_isNext s (i / 64 + 1) _ (by omega)).of_le (by omega) fun k hk hlt => ?_
    have hbit := hmask (k % 64) (mod_lt _ (by decide))
    rw [not_not.1 hword, decide_eq_true (show i % 64 ≤ k % 64 by omega), Bool.true_and] at hbit
    rw [test_eq, show k / 64 = i / 64 by omega, ← hbit]
    simp

/-- `p` is the last element, or `-1` if there is none. -/
def IsLast (s : BitSet n) (p : ℤ) : Prop :=
  (p = -1 ∧ ∀ j, s.test j = false) ∨
  ∃ j : ℕ, p = j ∧ s.test j = true ∧ ∀ k, j < k → s.test k = false

/-- The highest bit of the last word that is not zero. -/
theorem isLast_clz (hword : s.word w ≠ 0) (habove : ∀ j, (w + 1) * 64 ≤ j → s.test j = false) :
    IsLast s (((w + 1) <<< 6 : ℕ) - (s.word w).clz.toNat - 1) := by
  have htrue := BitVec.getLsbD_true_clz_of_ne_zero (by decide) hword
  have hclz : (s.word w).clz.toNat < 64 := BitVec.lt_def.1 (BitVec.clz_lt_iff_ne_zero.2 hword)
  refine .inr ⟨w * 64 + (64 - 1 - (s.word w).clz.toNat), ?_, ?_, fun k hk => ?_⟩
  · omega
  · rw [test_word (by omega), htrue]
  rcases lt_or_ge k ((w + 1) * 64) with hlt | hge
  · have hsmall : (s.word w).toNat < 2 ^ (k - w * 64) :=
      lt_of_lt_of_le BitVec.toNat_lt_two_pow_sub_clz
        (Nat.pow_le_pow_right (by decide) (by omega))
    rw [show k = w * 64 + (k - w * 64) by omega, test_word (by omega), ← BitVec.testBit_toNat]
    exact testBit_lt_two_pow hsmall
  · exact habove k hge

theorem previousWord_isLast (s : BitSet n) (w : ℕ)
    (habove : ∀ j, (w + 1) * 64 ≤ j → s.test j = false) :
    IsLast s (if (s.previousWord (s.word w) w).1 = 0 then -1
      else (((s.previousWord (s.word w) w).2 + 1) <<< 6 : ℕ) -
        (s.previousWord (s.word w) w).1.clz.toNat - 1) := by
  have hempty : ∀ w, s.word w = 0 → (∀ j, (w + 1) * 64 ≤ j → s.test j = false) →
      ∀ j, w * 64 ≤ j → s.test j = false := by
    intro w hword habove j hj
    rcases lt_or_ge j ((w + 1) * 64) with hlt | hge
    · rw [test_eq, show j / 64 = w by omega, hword]
      simp
    · exact habove j hge
  induction w with
  | zero =>
    split_ifs with hword
    · exact .inl ⟨rfl, fun j => hempty 0 hword habove j (by omega)⟩
    · exact isLast_clz hword habove
  | succ w ih =>
    rw [previousWord]
    by_cases hword : s.word (w + 1) = 0
    · rw [if_pos hword]
      exact ih (hempty (w + 1) hword habove)
    · rw [if_neg hword, if_neg hword]
      exact isLast_clz hword habove

/-- **The last element is removed, and the one before it is found.** -/
theorem clearLastAndFindPrevious_spec (hi : s.test i = true)
    (hlast : ∀ j, i < j → s.test j = false) :
    IsLast (s.clearLastAndFindPrevious i).2 (s.clearLastAndFindPrevious i).1 ∧
      ∀ j, (s.clearLastAndFindPrevious i).2.test j = if j = i then false else s.test j := by
  have hlt : i < n * 64 := by
    by_contra hge
    rw [test_of_le (by omega)] at hi
    exact absurd hi (by decide)
  generalize hbits : s.word (i >>> 6) ^^^ maskOf i = bits
  generalize hs' : s.setWord (i >>> 6) bits = s'
  have htest : ∀ j, s'.test j = if j = i then false else s.test j := by
    rw [← hs', ← hbits]
    refine test_setWord hlt fun b hb => ?_
    rw [shiftRight_six, BitVec.getLsbD_xor, getLsbD_maskOf hb]
    split_ifs with heq
    · rw [test_eq, ← heq] at hi
      rw [hi, decide_eq_true heq]
      rfl
    · simp [heq]
  have hword : s'.word (i >>> 6) = bits := by
    rw [← hs', word_setWord (by omega), if_pos rfl]
  have habove : ∀ j, (i >>> 6 + 1) * 64 ≤ j → s'.test j = false := by
    intro j hj
    rw [htest, if_neg (by omega), hlast j (by omega)]
  have hprev := previousWord_isLast s' (i >>> 6) habove
  have heq : s.clearLastAndFindPrevious i =
      (if (s'.previousWord bits (i >>> 6)).1 = 0 then -1
        else (((s'.previousWord bits (i >>> 6)).2 + 1) <<< 6 : ℕ) -
          (s'.previousWord bits (i >>> 6)).1.clz.toNat - 1, s') := by
    rw [clearLastAndFindPrevious]
    simp only [hbits, hs']
    split_ifs <;> rfl
  rw [heq]
  rw [hword] at hprev
  exact ⟨hprev, htest⟩

end BitSet
