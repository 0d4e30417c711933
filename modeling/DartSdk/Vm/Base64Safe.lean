import DartSdk.Vm.Base64

/-!
# Vm/Base64Safe — on which strings `DecodeBase64` is safe

A base64 string is decoded without a fault as long as its length is an `int`.  Any other string
whose length is a multiple of four is decoded too, or read past its end — or it has so many `=` that
the size of the buffer is negative, and the allocation aborts the process.
-/

namespace VmBase64

open List

variable {c : Byte} {cs mem : List Byte} {bytes tail : List ℕ} {w x y z i n size : ℕ}
  {str : CString}

theorem digit_table (c : Byte) :
    digit c = none ∨ (c ≠ pad ∧ 0 ≤ decodeTable c ∧ digit c = some (decodeTable c).toNat ∧
      (decodeTable c).toNat < 64) := by
  revert c
  decide +kernel

theorem digit_spec (h : digit c = some w) :
    c ≠ pad ∧ 0 ≤ decodeTable c ∧ (decodeTable c).toNat = w ∧ w < 64 := by
  rcases digit_table c with hnone | ⟨hpad, hnonneg, hsome, hlt⟩
  · rw [hnone] at h
    cases h
  · obtain rfl : (decodeTable c).toNat = w := Option.some.inj (hsome.symm.trans h)
    exact ⟨hpad, hnonneg, rfl, hlt⟩

theorem decodeTable_pad : decodeTable pad = 0 := by decide

/-! ## One group

Four characters give 24 bits, or fewer with padding. -/

theorem pack (hx : x < 2 ^ 18) (hy : y < 64) : ((x <<< 6) &&& 0xFFFFFF) ||| y = x * 64 + y := by
  have hmask : (x <<< 6) &&& 0xFFFFFF = x <<< 6 := by
    rw [show 0xFFFFFF = 2 ^ 24 - 1 by norm_num, Nat.and_two_pow_sub_one_eq_mod, Nat.shiftLeft_eq]
    exact Nat.mod_eq_of_lt (by omega)
  rw [hmask, ← Nat.shiftLeft_add_eq_or_of_lt (by omega : y < 2 ^ 6), Nat.shiftLeft_eq]

theorem collect_succ {j : ℕ} (hc : 0 ≤ decodeTable c) (hw : (decodeTable c).toNat = w)
    (hlt : w < 64) (hx : x < 2 ^ 18) : collect (j + 1) x i (c :: mem) =
      if i + 1 < 2 ^ 31 then collect j (x * 64 + w) (i + 1) mem else .error .overflow := by
  rw [collect]
  simp only [ge_iff_le, if_pos hc, hw, pack hx hlt, increment]
  by_cases hi : i + 1 < 2 ^ 31
  · rw [if_pos hi, if_pos hi]
    rfl
  · rw [if_neg hi, if_neg hi]
    rfl

/-- The number that four digits make. -/
def packed (w x y z : ℕ) : ℕ := ((w * 64 + x) * 64 + y) * 64 + z

/-- The value that the loop takes a character for: padding counts as zero. -/
def Counts (c : Byte) (w : ℕ) : Prop := 0 ≤ decodeTable c ∧ (decodeTable c).toNat = w ∧ w < 64

theorem counts_digit (h : digit c = some w) : Counts c w := (digit_spec h).2

theorem counts_pad : Counts pad 0 := ⟨by rw [decodeTable_pad], by rfl, by omega⟩

theorem collect_four {a b d : Byte} (ha : Counts a w) (hb : Counts b x) (hc : Counts c y)
    (hd : Counts d z) : collect 4 0 i (a :: b :: c :: d :: mem) =
      if i + 4 < 2 ^ 31 then .ok (packed w x y z, i + 4, mem) else .error .overflow := by
  obtain ⟨ha, hw, hwlt⟩ := ha
  obtain ⟨hb, hx, hxlt⟩ := hb
  obtain ⟨hc, hy, hylt⟩ := hc
  obtain ⟨hd, hz, hzlt⟩ := hd
  rw [collect_succ ha hw hwlt (by omega), collect_succ hb hx hxlt (by omega),
    collect_succ hc hy hylt (by omega), collect_succ hd hz hzlt (by omega), collect, zero_mul,
      zero_add]
  by_cases h4 : i + 4 < 2 ^ 31
  · rw [if_pos (by omega), if_pos (by omega), if_pos (by omega), if_pos (by omega), if_pos h4]
    rfl
  · rw [if_neg h4, if_neg (by omega : ¬ i + 1 + 1 + 1 + 1 < 2 ^ 31), ite_self, ite_self, ite_self]

theorem high_byte (hw : w < 64) (hx : x < 64) (hy : y < 64) (hz : z < 64) :
    (packed w x y z >>> 16) % 256 = w * 4 + x / 16 := by
  rw [Nat.shiftRight_eq_div_pow, packed]
  omega

theorem middle_byte (hy : y < 64) (hz : z < 64) :
    ((packed w x y z >>> 8) &&& 0xFF) % 256 = x % 16 * 16 + y / 4 := by
  rw [show 0xFF = 2 ^ 8 - 1 by norm_num, Nat.and_two_pow_sub_one_eq_mod, Nat.shiftRight_eq_div_pow,
    packed]
  omega

theorem low_byte (hz : z < 64) : (packed w x y z &&& 0xFF) % 256 = y % 4 * 64 + z := by
  rw [show 0xFF = 2 ^ 8 - 1 by norm_num, Nat.and_two_pow_sub_one_eq_mod, packed]
  omega

theorem put_eq {v : ℕ} (hsize : bytes.length < size) (hint : bytes.length + 1 < 2 ^ 31) :
    put size bytes v = .ok (bytes ++ [v % 256]) := by
  rw [put, if_pos hsize, increment, if_pos hint]
  rfl

theorem decodeLoop_full {fuel : ℕ} (h : size ≤ bytes.length) :
    decodeLoop size (fuel + 1) i mem bytes = .ok bytes := by
  rw [decodeLoop, if_neg (by omega)]
  rfl

/-- **One round** writes those of the three bytes of a group that there is room for. -/
theorem decodeLoop_round {a b d : Byte} {fuel : ℕ} (ha : Counts a w) (hb : Counts b x)
    (hc : Counts c y) (hd : Counts d z) (hroom : bytes.length < size) (hle : bytes.length ≤ i) :
    decodeLoop size (fuel + 1) i (a :: b :: c :: d :: mem) bytes =
      if i + 4 < 2 ^ 31 then
        decodeLoop size fuel (i + 4) mem (bytes ++
          [w * 4 + x / 16, x % 16 * 16 + y / 4, y % 4 * 64 + z].take (size - bytes.length))
      else .error .overflow := by
  rw [decodeLoop, if_pos hroom, collect_four ha hb hc hd]
  by_cases h4 : i + 4 < 2 ^ 31
  swap
  · rw [if_neg h4, if_neg h4]
    rfl
  rw [if_pos h4, if_pos h4]
  simp only [bind, Except.bind]
  rw [put_eq hroom (by omega), high_byte ha.2.2 hb.2.2 hc.2.2 hd.2.2]
  simp only [length_append, length_singleton]
  by_cases h2 : bytes.length + 1 < size
  · rw [if_pos h2, put_eq (by simpa using h2) (by simp; omega), middle_byte hc.2.2 hd.2.2]
    simp only [length_append, length_singleton, append_assoc]
    by_cases h3 : bytes.length + (1 + 1) < size
    · rw [if_pos h3, put_eq (by simpa using h3) (by simp; omega), low_byte hd.2.2,
        take_of_length_le (by simp; omega)]
      simp
    · rw [if_neg h3, show size - bytes.length = 2 by omega]
      rfl
  · rw [if_neg h2, show size - bytes.length = 1 by omega]
    rfl

/-- **The loop on a base64 string**: its bytes, if every index is an `int`. -/
theorem decodeLoop_spec {i : ℕ} {bytes : List ℕ} {fuel : ℕ} (h : Decodes cs tail)
    (hle : bytes.length ≤ i) (hfuel : tail.length < fuel)
    (hsize : size = bytes.length + tail.length) (hi : i < 2 ^ 31) :
    decodeLoop size fuel i (cs ++ [0]) bytes =
      if i + cs.length < 2 ^ 31 then .ok (bytes ++ tail) else .error .overflow := by
  obtain ⟨fuel, rfl⟩ := Nat.exists_eq_succ_of_ne_zero (by omega : fuel ≠ 0)
  induction h generalizing i bytes fuel with
  | nil => rw [decodeLoop_full (by simp [hsize]), if_pos (by simpa using hi), append_nil]
  | @group a b c d w x y z cs tail ha hb hc hd rest ih =>
    simp only [length_cons] at hfuel hsize
    obtain ⟨fuel, rfl⟩ := Nat.exists_eq_succ_of_ne_zero (by omega : fuel ≠ 0)
    rw [cons_append, cons_append, cons_append, cons_append, decodeLoop_round (counts_digit ha)
      (counts_digit hb) (counts_digit hc) (counts_digit hd) (by omega) hle]
    by_cases h4 : i + 4 < 2 ^ 31
    · rw [if_pos h4, take_of_length_le (by simp; omega),
        ih (by simp; omega) (by simp; omega) h4 _ (by omega), append_assoc,
        show i + (a :: b :: c :: d :: cs).length = i + 4 + cs.length by simp; omega]
      rfl
    · rw [if_neg h4, if_neg (by simp; omega)]
  | @two a b c w x y ha hb hc =>
    simp only [length_cons, length_nil] at hfuel hsize
    obtain ⟨fuel, rfl⟩ := Nat.exists_eq_succ_of_ne_zero (by omega : fuel ≠ 0)
    refine (decodeLoop_round (counts_digit ha) (counts_digit hb) (counts_digit hc) counts_pad
      (by omega) hle).trans ?_
    rw [show size - bytes.length = 2 by omega, decodeLoop_full (by simp [hsize])]
    rfl
  | @one a b w x ha hb =>
    simp only [length_cons, length_nil] at hfuel hsize
    obtain ⟨fuel, rfl⟩ := Nat.exists_eq_succ_of_ne_zero (by omega : fuel ≠ 0)
    rw [cons_append, cons_append, cons_append, cons_append, decodeLoop_round (counts_digit ha)
      (counts_digit hb) counts_pad counts_pad (by omega) hle,
      show size - bytes.length = 1 by omega, decodeLoop_full (by simp [hsize])]
    rfl

/-- The `=` among the last characters, up to the first one that is a digit other than `A`. -/
def trailingPads (str : CString) : ℕ :=
  (str.chars.reverse.takeWhile fun c => decodeTable c ≤ 0).count pad

theorem padLength_eq (hn : n < 2 ^ 31) : padLength cs n =
      let m := n + (cs.takeWhile fun c => decodeTable c ≤ 0).count pad
      if m < 2 ^ 31 then .ok m else .error .overflow := by
  induction cs generalizing n with
  | nil => exact (if_pos hn).symm
  | cons c cs ih =>
    rw [padLength]
    by_cases hc : decodeTable c > 0
    · rw [if_pos hc, takeWhile_cons_of_neg (by simpa using hc)]
      exact (if_pos hn).symm
    have hle : decodeTable c ≤ 0 := not_lt.mp hc
    rw [if_neg hc, takeWhile_cons_of_pos (by simpa using hle)]
    by_cases hpad : c = pad
    · subst hpad
      rw [if_pos rfl, increment, count_cons_self]
      by_cases hlt : n + 1 < 2 ^ 31
      · rw [if_pos hlt]
        change padLength cs (n + 1) = _
        rw [ih hlt]
        simp [Nat.add_assoc, Nat.add_comm 1]
      · rw [if_neg hlt, if_neg (by omega)]
        rfl
    · rw [if_neg hpad, ih hn, count_cons_of_ne hpad]

theorem Decodes.exists_padding (h : Decodes cs tail) :
    cs.length % 4 = 0 ∧ ∃ body p, cs = body ++ List.replicate p pad ∧ pad ∉ body ∧
      tail.length + p = cs.length * 6 / 8 := by
  induction h with
  | nil => exact ⟨rfl, [], 0, rfl, by simp, rfl⟩
  | @group a b c d w x y z cs tail ha hb hc hd rest ih =>
    obtain ⟨hlen, body, p, rfl, hbody, hcount⟩ := ih
    refine ⟨by simp only [length_cons]; omega, a :: b :: c :: d :: body, p, rfl, ?_, ?_⟩
    · simp only [mem_cons, not_or]
      exact ⟨(digit_spec ha).1.symm, (digit_spec hb).1.symm, (digit_spec hc).1.symm,
        (digit_spec hd).1.symm, hbody⟩
    · simp only [length_cons]
      omega
  | @two a b c w x y ha hb hc =>
    refine ⟨by simp, [a, b, c], 1, rfl, ?_, by simp⟩
    simp only [mem_cons, not_or, not_mem_nil, not_false_eq_true, and_true]
    exact ⟨(digit_spec ha).1.symm, (digit_spec hb).1.symm, (digit_spec hc).1.symm⟩
  | @one a b w x ha hb =>
    refine ⟨by simp, [a, b], 2, rfl, ?_, by simp⟩
    simp only [mem_cons, not_or, not_mem_nil, not_false_eq_true, and_true]
    exact ⟨(digit_spec ha).1.symm, (digit_spec hb).1.symm⟩

theorem trailingPads_eq {body : List Byte} {p : ℕ}
    (hchars : str.chars = body ++ List.replicate p pad) (hbody : pad ∉ body) :
      trailingPads str = p := by
  rw [trailingPads, hchars, reverse_append, reverse_replicate, takeWhile_append_of_pos,
    count_append, count_replicate_self, count_eq_zero_of_not_mem, add_zero]
  · exact fun hmem => hbody (mem_reverse.mp ((takeWhile_sublist _).subset hmem))
  · intro c hc
    rw [(mem_replicate.mp hc).2, decodeTable_pad]
    rfl

theorem decodedLength_eq (str : CString) : decodedLength str =
      if trailingPads str < 2 ^ 31 ∧ str.chars.length * 6 < 2 ^ 63 then
        .ok ((str.chars.length * 6 / 8 : ℕ) - (trailingPads str : ℤ))
      else .error .overflow := by
  have hpads : padLength str.chars.reverse 0 = _ := padLength_eq (by norm_num)
  rw [zero_add] at hpads
  rw [decodedLength, hpads]
  change Except.bind (if trailingPads str < 2 ^ 31 then Except.ok (trailingPads str)
    else Except.error Fault.overflow) _ = _
  by_cases hlt : trailingPads str < 2 ^ 31
  · rw [if_pos hlt]
    by_cases hlen : str.chars.length * 6 < 2 ^ 63
    · rw [if_pos ⟨hlt, hlen⟩]
      simp only [Except.bind, if_pos hlen, Nat.shiftRight_eq_div_pow]
      rfl
    · rw [if_neg fun h => hlen h.2]
      simp only [Except.bind, if_neg hlen]
  · rw [if_neg hlt, if_neg fun h => hlt h.1]
    rfl

/-- **What a caller may rely on**: no fault, and null or the bytes of a base64 string. -/
def Safe (str : CString) : Prop :=
  decodeBase64 str = .ok none ∨
    ∃ bytes, decodeBase64 str = .ok (some bytes) ∧ Decodes str.chars bytes

theorem decodeBase64_eq_none (h : str.chars.length = 0 ∨ str.chars.length % 4 ≠ 0) :
    decodeBase64 str = .ok none := by
  rw [decodeBase64, if_pos h]
  rfl

theorem decodeBase64_eq (h : ¬ (str.chars.length = 0 ∨ str.chars.length % 4 ≠ 0)) :
    decodeBase64 str = (decodedLength str).bind fun n => if n < 0 then .error .outOfMemory else
      (decodeLoop n.toNat (n.toNat + 1) 0 (str.chars ++ [0]) []).map some := by
  rw [decodeBase64, if_neg h]
  rfl

theorem decodeBase64_of_decodes (h : Decodes str.chars bytes) (hne : str.chars.length ≠ 0) :
    decodeBase64 str =
      if str.chars.length < 2 ^ 31 then .ok (some bytes) else .error .overflow := by
  obtain ⟨hlen, body, p, hchars, hbody, hcount⟩ := h.exists_padding
  have hpads := trailingPads_eq hchars hbody
  rw [decodeBase64_eq (by omega), decodedLength_eq, hpads]
  have hsize : ((str.chars.length * 6 / 8 : ℕ) : ℤ) - p = (bytes.length : ℤ) := by omega
  have hloop : decodeLoop bytes.length (bytes.length + 1) 0 (str.chars ++ [0]) [] = _ :=
    decodeLoop_spec h le_rfl (by omega) (by simp) (by norm_num)
  by_cases hok : p < 2 ^ 31 ∧ str.chars.length * 6 < 2 ^ 63
  · rw [if_pos hok, hsize]
    simp only [Except.bind]
    rw [if_neg (by omega), Int.toNat_natCast, hloop, zero_add, nil_append]
    split <;> rfl
  · rw [if_neg hok, if_neg (by omega)]
    rfl

/-- **On which strings the decoder is safe**: those that the length check refuses, and base64
strings whose length is an `int`. -/
theorem safe_iff (str : CString) : Safe str ↔ str.chars.length = 0 ∨ str.chars.length % 4 ≠ 0 ∨
    ((∃ bytes, Decodes str.chars bytes) ∧ str.chars.length < 2 ^ 31) := by
  rw [← or_assoc]
  by_cases hearly : str.chars.length = 0 ∨ str.chars.length % 4 ≠ 0
  · exact iff_of_true (.inl (decodeBase64_eq_none hearly)) (.inl hearly)
  constructor
  · rintro (hnull | ⟨bytes, hbytes, hdec⟩)
    · -- behind the length check the decoder never returns null
      rw [decodeBase64_eq hearly] at hnull
      cases hlen : decodedLength str with
      | error => rw [hlen] at hnull; cases hnull
      | ok n =>
        simp only [hlen, Except.bind] at hnull
        split at hnull
        · cases hnull
        cases hloop : decodeLoop n.toNat (n.toNat + 1) 0 (str.chars ++ [0]) [] with
        | error | ok => rw [hloop] at hnull; cases hnull
    · refine .inr ⟨⟨bytes, hdec⟩, ?_⟩
      rw [decodeBase64_of_decodes hdec (by omega)] at hbytes
      by_contra hlong
      rw [if_neg hlong] at hbytes
      cases hbytes
  · rintro (h | ⟨⟨bytes, hdec⟩, hlen⟩)
    · exact absurd h hearly
    · refine .inr ⟨bytes, ?_, hdec⟩
      rw [decodeBase64_of_decodes hdec (by omega), if_pos hlen]

/-- Four characters outside the alphabet make the decoder read past the NUL. -/
theorem decodeBase64_overread : decodeBase64 ⟨[33, 33, 33, 33], by decide⟩ = .error .overread := by
  decide

end VmBase64
