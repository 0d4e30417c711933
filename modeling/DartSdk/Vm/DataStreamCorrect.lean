import DartSdk.Vm.DataStream

/-!
# Vm/DataStreamCorrect — what is written is read back

Between a writer and a reader stands the shape of the bytes: `Encodes` for the encodings that end in
a byte with a marker, `Leb` for those whose bytes say that more follow.  A writer gives bytes of
that shape, and every reader — the loop, the unrolled ones — reads the shape as its value.
-/

namespace DataStream

open List Width
open BitVec (ofInt ofNat ofInt_natCast ofInt_toInt ofNat_toNat setWidth_eq)

variable {w marker s n : ℕ} {x v : ℤ} {b c : UInt8} {bytes rest : List UInt8} {r : BitVec w} {k : ℕ}

theorem toNat_ofInt_cast (w : ℕ) (x : ℤ) : ((ofInt w x).toNat : ℤ) = x % 2 ^ w := by
  rw [BitVec.toNat_ofInt, Int.toNat_of_nonneg (Int.emod_nonneg _ (by positivity))]
  rfl

/-- Two integers that agree modulo `2 ^ w` are the same word. -/
theorem ofInt_congr {y : ℤ} (h : x % 2 ^ w = y % 2 ^ w) : ofInt w x = ofInt w y := by
  apply BitVec.eq_of_toNat_eq
  have hcast := toNat_ofInt_cast w x
  rw [h, ← toNat_ofInt_cast] at hcast
  exact_mod_cast hcast

theorem shifted_eq : shifted w x s = ofInt w (2 ^ s * x) := by
  apply BitVec.eq_of_toNat_eq
  have hleft : ((shifted w x s).toNat : ℤ) = (x % 2 ^ w) * 2 ^ s % 2 ^ w := by
    rw [shifted, BitVec.toNat_shiftLeft, Nat.shiftLeft_eq]
    push_cast
    rw [toNat_ofInt_cast]
  have hright := toNat_ofInt_cast w (2 ^ s * x)
  have hmod : (x % 2 ^ w) * 2 ^ s % 2 ^ w = 2 ^ s * x % 2 ^ w := by
    rw [mul_comm (2 ^ s) x, Int.mul_emod, Int.emod_emod, ← Int.mul_emod]
  exact_mod_cast hleft.trans (hmod.trans hright.symm)

/-- **Bits that are or-ed above the low ones are added.** -/
theorem or_shifted (hr : r.toNat < 2 ^ s) :
    r ||| shifted w x s = ofInt w (r.toNat + 2 ^ s * x) := by
  have hdisjoint : r &&& shifted w x s = 0#w := by
    ext i hi
    simp only [BitVec.getElem_and, shifted, BitVec.getElem_shiftLeft]
    by_cases his : i < s
    · simp [his]
    have hbit : r[i] = false := by
      rw [← BitVec.getLsbD_eq_getElem, BitVec.getLsbD]
      exact Nat.testBit_lt_two_pow (hr.trans_le (Nat.pow_le_pow_right (by omega) (by omega)))
    simp [hbit]
  have hself : r = ofInt w r.toNat := by simp
  rw [← BitVec.add_eq_or_of_and_eq_zero _ _ hdisjoint, shifted_eq, BitVec.ofInt_add, ← hself]

theorem toNat_ofInt_le {m : ℕ} : (ofInt w (m : ℤ)).toNat ≤ m := by
  exact Nat.mod_le _ _

theorem ofInt_toNat_add {m : ℕ} : ofInt w ((ofInt w (m : ℤ)).toNat + x) = ofInt w (m + x) := by
  refine ofInt_congr ?_
  rw [toNat_ofInt_cast, Int.emod_add_emod]

/-- One group of seven bits more. -/
theorem or_shifted_digit (hr : r.toNat < 2 ^ s) {d : ℕ} (hd : d < 128) :
    (r ||| shifted w d s).toNat < 2 ^ (s + 7) ∧
      ∀ x, ofInt w ((r ||| shifted w d s).toNat + 2 ^ (s + 7) * x) =
        ofInt w (r.toNat + 2 ^ s * (d + 128 * x)) := by
  have hor : r ||| shifted w d s = ofInt w ((r.toNat + 2 ^ s * d : ℕ) : ℤ) := by
    rw [or_shifted hr]
    rfl
  rw [hor]
  refine ⟨toNat_ofInt_le.trans_lt ?_, fun x => ?_⟩
  · rw [pow_add]
    have hle : 2 ^ s * d ≤ 2 ^ s * 127 := Nat.mul_le_mul_left _ (by omega)
    omega
  · rw [ofInt_toNat_add]
    congr 1
    push_cast
    ring

/-! ## Bytes that end in a marked one

The formats of `Write` and `WriteUnsigned` differ only in the mark of the last byte, which also
gives the sign. -/

/-- The bytes of an integer: seven bits each, the last one with the marker. -/
inductive Encodes (marker : ℕ) : List UInt8 → ℤ → Prop where
  | last {b : UInt8} (hb : maxUnsignedDataPerByte < b.toNat) : Encodes marker [b] (b.toNat - marker)
  | more {b : UInt8} {bytes : List UInt8} {v : ℤ} (hb : b.toNat ≤ maxUnsignedDataPerByte)
      (rest : Encodes marker bytes v) : Encodes marker (b :: bytes) (b.toNat + 128 * v)

theorem toNat_ofInt {y : ℤ} (hlo : 0 ≤ y) (hhi : y < 256) : ((UInt8.ofInt y).toNat : ℤ) = y := by
  rw [UInt8.ofInt, UInt8.toNat_ofNat', Int.emod_eq_of_lt hlo (by exact hhi),
    Nat.mod_eq_of_lt (by omega), Int.toNat_of_nonneg hlo]

theorem and_127 (n : ℕ) : n &&& 0x7F = n % 128 := Nat.and_two_pow_sub_one_eq_mod n 7

theorem encodes_write (v : ℤ) : Encodes endByteMarker (write v) v := by
  fun_induction write v with
  | case1 v h ih =>
    have hbyte := toNat_ofInt (y := v % 2 ^ 7) (by omega) (by omega)
    have hencodes : Encodes endByteMarker (UInt8.ofInt (v % 2 ^ 7) :: write (v / 2 ^ 7)) _ :=
      .more (by simp only [maxUnsignedDataPerByte]; omega) ih
    rwa [hbyte, show v % 2 ^ 7 + 128 * (v / 2 ^ 7) = v by omega] at hencodes
  | case2 v h =>
    simp only [minDataPerByte, maxDataPerByte, not_or, not_lt] at h
    have hbyte := toNat_ofInt (y := v + endByteMarker) (by simp only [endByteMarker]; omega)
      (by simp only [endByteMarker]; omega)
    have hencodes : Encodes endByteMarker [UInt8.ofInt (v + endByteMarker)] _ :=
      .last (by simp only [endByteMarker, maxUnsignedDataPerByte] at hbyte ⊢; omega)
    rwa [hbyte, add_sub_cancel_right] at hencodes

theorem encodes_writeUnsigned (n : ℕ) : Encodes endUnsignedByteMarker (writeUnsigned n) n := by
  fun_induction writeUnsigned n with
  | case1 n h ih =>
    have hbyte : (UInt8.ofNat (n &&& 0x7F)).toNat = n % 128 := by
      rw [UInt8.toNat_ofNat', and_127]
      omega
    have hencodes : Encodes _ (UInt8.ofNat (n &&& 0x7F) :: writeUnsigned (n >>> 7)) _ :=
      .more (by simp only [maxUnsignedDataPerByte]; omega) ih
    have hshift : n >>> 7 = n / 128 := Nat.shiftRight_eq_div_pow n 7
    rw [hshift] at hencodes ⊢
    rwa [hbyte, show ((n % 128 : ℕ) : ℤ) + 128 * ((n / 128 : ℕ) : ℤ) = n by omega] at hencodes
  | case2 n h =>
    have hle : n ≤ 127 := not_lt.mp h
    have hbyte : (UInt8.ofNat (n + endUnsignedByteMarker)).toNat = n + endUnsignedByteMarker := by
      rw [UInt8.toNat_ofNat', endUnsignedByteMarker]
      omega
    have hencodes : Encodes endUnsignedByteMarker [UInt8.ofNat (n + endUnsignedByteMarker)] _ :=
      .last (by rw [hbyte, endUnsignedByteMarker, maxUnsignedDataPerByte]; omega)
    rwa [hbyte, Nat.cast_add, add_sub_cancel_right] at hencodes

theorem length_write (hlo : -64 * 128 ^ k ≤ v) (hhi : v < 64 * 128 ^ k) :
    (write v).length ≤ k + 1 := by
  induction k generalizing v with
  | zero =>
    rw [write, if_neg (by simp only [minDataPerByte, maxDataPerByte]; omega)]
    rfl
  | succ k ih =>
    rw [write]
    split
    · exact Nat.succ_le_succ (ih (by omega) (by omega))
    · exact Nat.succ_le_succ (Nat.zero_le _)

theorem length_writeUnsigned (hn : n < 128 ^ (k + 1)) : (writeUnsigned n).length ≤ k + 1 := by
  induction k generalizing n with
  | zero =>
    rw [writeUnsigned, if_neg (by simp only [maxUnsignedDataPerByte]; omega)]
    rfl
  | succ k ih =>
    rw [writeUnsigned]
    split
    · refine Nat.succ_le_succ (ih ?_)
      omega
    · exact Nat.succ_le_succ (Nat.zero_le _)

theorem readMore_of_encodes (h : Encodes marker bytes v) :
    ∀ {r : BitVec w} {s : ℕ} {b : UInt8}, r.toNat < 2 ^ s → b.toNat ≤ maxUnsignedDataPerByte →
      s + 7 * bytes.length < w → readMore w marker r s b (bytes ++ rest) =
        some (ofInt w (r.toNat + 2 ^ s * (b.toNat + 128 * v)), rest) := by
  induction h with
  | @last c hc =>
    intro r s b hr hb hs
    obtain ⟨hlt, heq⟩ := or_shifted_digit hr (Nat.lt_succ_of_le hb)
    simp only [length_singleton] at hs
    rw [cons_append, readMore, if_neg (by omega), if_neg (not_le.mpr hc), or_shifted hlt, heq]
    rfl
  | @more c bytes v hc rest ih =>
    intro r s b hr hb hs
    obtain ⟨hlt, heq⟩ := or_shifted_digit hr (Nat.lt_succ_of_le hb)
    simp only [length_cons] at hs
    rw [cons_append, readMore, if_neg (by omega), if_pos hc, ih hlt hc (by omega), heq]

/-- **The loop reads an encoding as its value.** -/
theorem read_of_encodes (h : Encodes marker bytes v) (hs : 7 * (bytes.length - 1) < w) :
    read w marker (bytes ++ rest) = some (ofInt w v, rest) := by
  cases h with
  | last hb =>
    rw [cons_append, read, if_pos hb]
    rfl
  | more hb hrest =>
    rw [cons_append, read, if_neg (not_lt.mpr hb)]
    simp only [length_cons] at hs
    rw [readMore_of_encodes hrest (by simp) hb (by omega)]
    simp

/-- The bits at which `n` unrolled bodies start. -/
def steps : ℕ → ℕ → List ℕ
  | 0, _ => []
  | n + 1, s => s :: steps n (s + 7)

theorem unrolled_of_encodes (h : Encodes marker bytes v) :
    ∀ {r : BitVec w} {s n : ℕ}, r.toNat < 2 ^ s → bytes.length ≤ n + 1 →
      unrolled w marker (steps n s) (s + 7 * n) r (bytes ++ rest) =
        some (ofInt w (r.toNat + 2 ^ s * v), rest) := by
  induction h with
  | @last c hc =>
    intro r s n hr hlen
    cases n with
    | zero =>
      rw [cons_append, steps, unrolled, mul_zero, add_zero, or_shifted hr]
      rfl
    | succ n =>
      rw [cons_append, steps, unrolled, if_pos hc, or_shifted hr]
      rfl
  | @more c bytes v hc hrest ih =>
    intro r s n hr hlen
    obtain ⟨hlt, heq⟩ := or_shifted_digit hr (Nat.lt_succ_of_le hc)
    simp only [length_cons] at hlen
    obtain ⟨n, rfl⟩ := Nat.exists_eq_succ_of_ne_zero (n := n) (by
      rintro rfl
      cases hrest <;> simp at hlen)
    rw [cons_append, steps, unrolled, if_neg (not_lt.mpr hc),
      show s + 7 * (n + 1) = s + 7 + 7 * n by omega, ih hlt (by omega), heq]

/-- **An unrolled reader reads an encoding of at most so many bytes as its value.** -/
theorem unrolledInit_of_encodes (h : Encodes marker bytes v) (hlen : bytes.length ≤ n + 2) :
    unrolledInit w marker (steps n 7) (7 + 7 * n) (bytes ++ rest) = some (ofInt w v, rest) := by
  cases h with
  | last hb =>
    rw [cons_append, unrolledInit, if_pos hb]
    rfl
  | @more b bytes v hb hrest =>
    simp only [length_cons] at hlen
    have hlt : (ofNat w b.toNat).toNat < 2 ^ 7 := by
      exact (Nat.mod_le _ _).trans_lt (Nat.lt_succ_of_le hb)
    rw [cons_append, unrolledInit, if_neg (not_lt.mpr hb),
      unrolled_of_encodes hrest hlt (by omega), ← ofInt_natCast, ofInt_toNat_add]
    norm_num

/-! ## Bytes that say whether more follow

LEB128 marks all bytes but the last. -/

/-- The bytes of a LEB128 encoding, the number in them, and the last byte. -/
inductive Leb : List UInt8 → ℕ → UInt8 → Prop where
  | last {b : UInt8} (hb : b.toNat < 128) : Leb [b] b.toNat b
  | more {b c : UInt8} {bytes : List UInt8} {n d : ℕ} (hd : d < 128) (hb : b.toNat = d + 128)
      (rest : Leb bytes n c) : Leb (b :: bytes) (d + 128 * n) c

theorem Leb.lt (h : Leb bytes n c) : n < 2 ^ (7 * bytes.length) := by
  induction h with
  | last hb => simpa using hb
  | @more b c bytes n d hd hb rest ih =>
    rw [length_cons, mul_add, pow_add]
    omega

theorem and_128 (hb : n < 128) : n &&& 0x80 = 0 := by
  have htest := Nat.testBit_lt_two_pow (by simpa using hb : n < 2 ^ 7)
  rw [show 0x80 = 2 ^ 7 by norm_num, Nat.and_two_pow, htest]
  rfl

theorem or_128 (hd : n < 128) : n ||| 0x80 = n + 128 := by
  have hor := Nat.two_pow_add_eq_or_of_lt (by simpa using hd : n < 2 ^ 7) 1
  rw [Nat.lor_comm, add_comm]
  exact hor.symm

theorem add_128_and_128 (hd : n < 128) : (n + 128) &&& 0x80 ≠ 0 := by
  rw [← or_128 hd, Nat.and_or_distrib_right, and_128 hd]
  decide

theorem toNat_ofNat_or_128 (hd : n < 128) : (UInt8.ofNat (n ||| 0x80)).toNat = n + 128 := by
  rw [UInt8.toNat_ofNat', or_128 hd]
  omega

/-- **The loop reads the number, and ends at the last byte.** -/
theorem lebLoop_of_leb (h : Leb bytes n c) :
    ∀ {r : BitVec w} {s : ℕ}, r.toNat < 2 ^ s → s + 7 * (bytes.length - 1) < w →
      lebLoop w r s (bytes ++ rest) =
        some ((ofInt w (r.toNat + 2 ^ s * n), s + 7 * bytes.length, c), rest) := by
  induction h with
  | @last b hb =>
    intro r s hr hs
    rw [cons_append, lebLoop, if_neg (by omega)]
    simp only [and_127, Nat.mod_eq_of_lt hb, and_128 hb, or_shifted hr]
    rfl
  | @more b c bytes n d hd hb hrest ih =>
    intro r s hr hs
    obtain ⟨hlt, heq⟩ := or_shifted_digit hr hd
    have hpos : bytes.length ≠ 0 := by cases hrest <;> simp
    simp only [length_cons] at hs
    rw [cons_append, lebLoop, if_neg (by omega)]
    have hmod : (d + 128) % 128 = d := by omega
    simp only [and_127, hb, hmod]
    rw [if_pos (add_128_and_128 hd), ih hlt (by omega), heq]
    simp only [length_cons]
    congr 4
    omega

theorem leb_writeLEB128 (n : ℕ) : ∃ c, Leb (writeLEB128 n) n c := by
  fun_induction writeLEB128 n with
  | case1 n part remainder h =>
    have hbyte : (UInt8.ofNat part).toNat = n := by
      rw [UInt8.toNat_ofNat', show part = n % 128 from and_127 n]
      omega
    have hleb := Leb.last (by omega : (UInt8.ofNat part).toNat < 128)
    rw [hbyte] at hleb
    exact ⟨_, hleb⟩
  | case2 n part remainder h ih =>
    obtain ⟨c, ih⟩ := ih
    have hpart : part = n % 128 := and_127 n
    have hleb := Leb.more (by omega : part < 128) (toNat_ofNat_or_128 (by omega)) ih
    rw [show part + 128 * remainder = n by omega] at hleb
    exact ⟨c, hleb⟩

theorem length_writeLEB128 (hn : n < 128 ^ (k + 1)) : (writeLEB128 n).length ≤ k + 1 := by
  induction k generalizing n with
  | zero =>
    rw [writeLEB128]
    rw [if_pos (by omega)]
    rfl
  | succ k ih =>
    rw [writeLEB128]
    split
    · exact Nat.succ_le_succ (Nat.zero_le _)
    · exact Nat.succ_le_succ (ih (by omega))

theorem leb_writeFixed5LEB128 (hn : n < 2 ^ 35) : ∃ c, Leb (writeFixed5LEB128 n) n c := by
  have hdigit : ∀ m : ℕ, m &&& 0x7F < 128 := fun m => by
    rw [and_127]
    omega
  have hlast : (UInt8.ofNat ((n >>> 28) &&& 0x7F)).toNat = n / 2 ^ 28 := by
    rw [UInt8.toNat_ofNat', and_127, Nat.shiftRight_eq_div_pow]
    omega
  have hleb := Leb.more (hdigit n) (toNat_ofNat_or_128 (hdigit n)) <|
    Leb.more (hdigit (n >>> 7)) (toNat_ofNat_or_128 (hdigit _)) <|
    Leb.more (hdigit (n >>> 14)) (toNat_ofNat_or_128 (hdigit _)) <|
    Leb.more (hdigit (n >>> 21)) (toNat_ofNat_or_128 (hdigit _)) <|
    Leb.last (by omega : (UInt8.ofNat ((n >>> 28) &&& 0x7F)).toNat < 128)
  refine ⟨UInt8.ofNat ((n >>> 28) &&& 0x7F), ?_⟩
  convert hleb using 1
  · rfl
  rw [hlast, and_127, and_127, and_127, and_127, Nat.shiftRight_eq_div_pow,
    Nat.shiftRight_eq_div_pow, Nat.shiftRight_eq_div_pow]
  omega

/-- The last byte shows the sign. -/
def signed (bytes : List UInt8) (n : ℕ) (c : UInt8) : ℤ :=
  if c.toNat &&& 0x40 ≠ 0 then n - 2 ^ (7 * bytes.length) else n

theorem and_64_iff (hn : n < 128) : n &&& 0x40 ≠ 0 ↔ 64 ≤ n := by
  have htest : n.testBit 6 = decide (64 ≤ n) := by
    rw [Nat.testBit_eq_decide_div_mod_eq]
    refine decide_eq_decide.mpr ?_
    omega
  rw [show 0x40 = 2 ^ 6 by norm_num, Nat.and_two_pow, htest]
  by_cases h : 64 ≤ n <;> simp [h]

theorem leb_writeSLEB128 (v : ℤ) :
    ∃ n c, Leb (writeSLEB128 v) n c ∧ signed (writeSLEB128 v) n c = v := by
  fun_induction writeSLEB128 v with
  | case1 v part remainder h =>
    have hbyte : (UInt8.ofNat part).toNat = part := by
      rw [UInt8.toNat_ofNat']
      omega
    have hleb := Leb.last (by omega : (UInt8.ofNat part).toNat < 128)
    refine ⟨_, _, hleb, ?_⟩
    rw [signed, hbyte, length_singleton]
    rcases h with ⟨hneg, hrest, hsign⟩ | ⟨hnonneg, hrest, hsign⟩
    · omega
    · omega
  | case2 v part remainder h ih =>
    obtain ⟨n, c, hleb, hsigned⟩ := ih
    have hpart : (part : ℤ) = v % 128 := Int.toNat_of_nonneg (by omega)
    have hrem : remainder = v / 128 := rfl
    refine ⟨_, c, Leb.more (by omega : part < 128) (toNat_ofNat_or_128 (by omega)) hleb, ?_⟩
    rw [signed] at hsigned ⊢
    rw [length_cons, mul_add, pow_add]
    split at hsigned
    · next hsign =>
      rw [if_pos hsign]
      push_cast
      linarith [Int.emod_add_mul_ediv v 128]
    · next hsign =>
      rw [if_neg hsign]
      push_cast
      linarith [Int.emod_add_mul_ediv v 128]

theorem length_writeSLEB128 (hlo : -64 * 128 ^ k ≤ v) (hhi : v < 64 * 128 ^ k) :
    (writeSLEB128 v).length ≤ k + 1 := by
  induction k generalizing v with
  | zero =>
    have hlt : (v % 2 ^ 7).toNat < 128 := by omega
    rw [writeSLEB128]
    rw [if_pos]
    · rfl
    · by_cases hneg : v < 0
      · refine .inl ⟨hneg, by omega, (and_64_iff hlt).mpr (by omega)⟩
      · refine .inr ⟨by omega, by omega, not_not.mp fun h => ?_⟩
        have := (and_64_iff hlt).mp h
        omega
  | succ k ih =>
    rw [writeSLEB128]
    split
    · exact Nat.succ_le_succ (Nat.zero_le _)
    · exact Nat.succ_le_succ (ih (by omega) (by omega))

/-- The mask of the sign bits is minus one, shifted. -/
theorem signBits_eq : ~~~(((1 : BitVec w) <<< s) - 1) = shifted w (-1) s := by
  have hone : (1 : BitVec w) = ofInt w 1 := by simp
  have hshift : (1 : BitVec w) <<< s = ofInt w (2 ^ s) := by
    have h := shifted_eq (w := w) (x := 1) (s := s)
    rwa [shifted, mul_one, ← hone] at h
  rw [hshift, BitVec.not_eq_neg_add, shifted_eq, mul_neg_one, BitVec.ofInt_neg]
  grind

theorem readLEB128_of_leb (h : Leb bytes n c) (hs : 7 * (bytes.length - 1) < w) :
    readLEB128 w (bytes ++ rest) = some (ofInt w n, rest) := by
  have hloop : lebLoop w 0#w 0 (bytes ++ rest) = _ := lebLoop_of_leb h (by simp) (by omega)
  rw [readLEB128]
  rw [show (0 : BitVec w) = 0#w from rfl, hloop]
  simp

theorem readSLEB128_of_leb (h : Leb bytes n c) (hs : 7 * (bytes.length - 1) < w) :
    readSLEB128 w (bytes ++ rest) = some (ofInt w (signed bytes n c), rest) := by
  have hloop : lebLoop w 0#w 0 (bytes ++ rest) = _ := lebLoop_of_leb h (by simp) (by omega)
  simp only [zero_add, BitVec.toNat_ofNat, Nat.zero_mod, Nat.cast_zero, pow_zero, one_mul] at hloop
  rw [readSLEB128]
  simp only [bind, Option.bind]
  rw [show (0 : BitVec w) = 0#w from rfl, hloop, signed]
  simp only
  by_cases hsign : c.toNat &&& 0x40 ≠ 0
  · rw [if_pos hsign]
    by_cases hbits : 7 * bytes.length < w
    · rw [if_pos ⟨hsign, hbits⟩, signBits_eq, or_shifted (toNat_ofInt_le.trans_lt h.lt),
        ofInt_toNat_add]
      simp [sub_eq_add_neg]
    rw [if_neg fun hc => hbits hc.2]
    have hdvd : (2 : ℤ) ^ w ∣ 2 ^ (7 * bytes.length) := pow_dvd_pow 2 (not_lt.mp hbits)
    have hmod : (n : ℤ) % 2 ^ w = (n - 2 ^ (7 * bytes.length)) % 2 ^ w :=
      Int.emod_eq_emod_iff_emod_sub_eq_zero.mpr
        (by rw [sub_sub_cancel]; exact Int.emod_eq_zero_of_dvd hdvd)
    rw [ofInt_congr hmod]
    simp
  · rw [if_neg hsign, if_neg fun hc => hsign hc.1]
    simp

theorem toInt_byte (b : UInt8) :
    b.toBitVec.toInt = if b.toNat < 128 then (b.toNat : ℤ) else b.toNat - 256 := by
  rw [BitVec.toInt_eq_toNat_cond]
  have hcond : 2 * b.toBitVec.toNat < 2 ^ 8 ↔ b.toNat < 128 := by
    change 2 * b.toNat < 2 ^ 8 ↔ _
    omega
  simp only [hcond]
  rfl

theorem refIdStages_more {result : ℤ} (d : ℕ) :
    refIdStages (n + 1) result (UInt8.ofNat (d &&& 127) :: bytes) =
      refIdStages n ((d % 128 : ℕ) + result * 2 ^ 7) bytes := by
  have hd : (UInt8.ofNat (d &&& 127)).toNat = d % 128 := by
    rw [UInt8.toNat_ofNat', and_127]
    omega
  have hbyte : (UInt8.ofNat (d &&& 127)).toBitVec.toInt = (d % 128 : ℕ) := by
    rw [toInt_byte, hd, if_pos (by omega)]
  rw [refIdStages]
  simp only [hbyte]
  exact if_neg (by omega)

theorem refIdStages_last {result : ℤ} (d : ℕ) :
    refIdStages (n + 1) result (UInt8.ofNat ((d &&& 127) ||| 128) :: bytes) =
      some ((d % 128 : ℕ) + result * 2 ^ 7, bytes) := by
  have hlt : d % 128 < 128 := Nat.mod_lt _ (by decide)
  have hbyte : (UInt8.ofNat ((d &&& 127) ||| 128)).toBitVec.toInt = (d % 128 : ℕ) - 128 := by
    rw [toInt_byte, and_127, toNat_ofNat_or_128 hlt, if_neg (by omega)]
    push_cast
    ring
  rw [refIdStages]
  simp only [hbyte]
  rw [if_pos (by omega)]
  congr 2
  ring

theorem readRefId_writeRefId (hn : n < 2 ^ 28) :
    readRefId (writeRefId n ++ rest) = some ((n : ℤ), rest) := by
  rw [readRefId, writeRefId]
  simp only [Nat.shiftRight_eq_div_pow]
  by_cases h7 : n / 2 ^ 7 = 0
  · rw [if_neg (by omega), if_neg (by omega), if_neg (by omega)]
    simp only [nil_append, cons_append, refIdStages_last]
    congr 2
    omega
  by_cases h14 : n / 2 ^ 14 = 0
  · rw [if_neg (by omega), if_neg (by omega), if_pos h7]
    simp only [nil_append, cons_append, refIdStages_more, refIdStages_last]
    congr 2
    omega
  by_cases h21 : n / 2 ^ 21 = 0
  · rw [if_neg (by omega), if_pos h14, if_pos h7]
    simp only [nil_append, cons_append, refIdStages_more, refIdStages_last]
    congr 2
    omega
  · rw [if_pos h21, if_pos h14, if_pos h7]
    simp only [nil_append, cons_append, refIdStages_more, refIdStages_last]
    congr 2
    omega

/-! ## All codecs

Every value of every type is read back by the reader that belongs to its writer. -/

/-- The bytes before the last one of the longest encoding of a type. -/
def Width.steps : Width → ℕ
  | bits8 => 1
  | bits16 => 2
  | bits32 => 4
  | bits64 => 9

variable {t : Width}

theorem Width.seven_mul_steps_lt : 7 * t.steps < t.bits := by
  cases t <;> decide

theorem Width.toInt_bounds (v : BitVec t.bits) :
    -64 * 128 ^ t.steps ≤ v.toInt ∧ v.toInt < 64 * 128 ^ t.steps := by
  have hlo := BitVec.le_toInt v
  have hhi := BitVec.toInt_lt (x := v)
  cases t <;> simp only [bits, steps] at * <;> norm_num at * <;> omega

theorem Width.toNat_lt (v : BitVec t.bits) : v.toNat < 128 ^ (t.steps + 1) := by
  refine v.isLt.trans_le ?_
  cases t <;> decide

theorem read_write (v : BitVec t.bits) :
    read t.bits endByteMarker (write v.toInt ++ rest) = some (v, rest) := by
  have hlen := length_write (toInt_bounds v).1 (toInt_bounds v).2
  have hsteps := seven_mul_steps_lt (t := t)
  rw [read_of_encodes (encodes_write _) (by omega), ofInt_toInt]

/-- A value of an unsigned type is one bit longer than a signed one, and its encoding still fits
where that bit does not take the reader past its width. -/
theorem read_write_toNat (v : BitVec w) (hk : 2 ^ w ≤ 64 * 128 ^ k) (hw : 7 * k < w) :
    read w endByteMarker (write v.toNat ++ rest) = some (v, rest) := by
  have hlt : (v.toNat : ℤ) < 64 * 128 ^ k := by
    exact_mod_cast v.isLt.trans_le hk
  have hlen := length_write (by omega) hlt
  rw [read_of_encodes (encodes_write _) (by omega), ofInt_natCast, ofNat_toNat, setWidth_eq]

theorem read_writeUnsigned (v : BitVec t.bits) :
    read t.bits endUnsignedByteMarker (writeUnsigned v.toNat ++ rest) = some (v, rest) := by
  have hlen := length_writeUnsigned (toNat_lt v)
  have hsteps := seven_mul_steps_lt (t := t)
  rw [read_of_encodes (encodes_writeUnsigned _) (by omega), ofInt_natCast, ofNat_toNat,
    setWidth_eq]

theorem unrolledInit_write {v : BitVec w} (hlen : (write v.toInt).length ≤ n + 2) :
    unrolledInit w endByteMarker (steps n 7) (7 + 7 * n) (write v.toInt ++ rest) =
      some (v, rest) := by
  rw [unrolledInit_of_encodes (encodes_write _) hlen, ofInt_toInt]

theorem rawRead_rawWrite (v : BitVec t.bits) :
    rawRead t (rawWrite t v ++ rest) = some (v, rest) := by
  have hlen := length_write (toInt_bounds v).1 (toInt_bounds v).2
  cases t with
  | bits8 => rfl
  | bits16 => exact unrolledInit_write (w := 16) (n := 1) hlen
  | bits32 => exact unrolledInit_write (w := 32) (n := 3) hlen
  | bits64 => exact unrolledInit_write (w := 64) (n := 8) hlen

theorem readLEB128_writeLEB128 (v : BitVec t.bits) :
    readLEB128 t.bits (writeLEB128 v.toNat ++ rest) = some (v, rest) := by
  obtain ⟨c, hleb⟩ := leb_writeLEB128 v.toNat
  have hlen := length_writeLEB128 (toNat_lt v)
  have hsteps := seven_mul_steps_lt (t := t)
  rw [readLEB128_of_leb hleb (by omega), ofInt_natCast, ofNat_toNat, setWidth_eq]

theorem readSLEB128_writeSLEB128 (v : BitVec t.bits) :
    readSLEB128 t.bits (writeSLEB128 v.toInt ++ rest) = some (v, rest) := by
  obtain ⟨n, c, hleb, hsigned⟩ := leb_writeSLEB128 v.toInt
  have hlen := length_writeSLEB128 (toInt_bounds v).1 (toInt_bounds v).2
  have hsteps := seven_mul_steps_lt (t := t)
  rw [readSLEB128_of_leb hleb (by omega), hsigned, ofInt_toInt]

theorem readLEB128_writeFixed5LEB128 (v : BitVec 35) :
    readLEB128 64 (writeFixed5LEB128 v.toNat ++ rest) = some (v.setWidth 64, rest) := by
  obtain ⟨c, hleb⟩ := leb_writeFixed5LEB128 v.isLt
  rw [readLEB128_of_leb hleb (by simp [writeFixed5LEB128]), ofInt_natCast, ofNat_toNat]

/-- The loop of `Read<T>`, on a type that has an unrolled reader too. -/
theorem read_eq_rawRead (v : BitVec t.bits) (ht : t ≠ .bits8) :
    read t.bits endByteMarker (rawWrite t v ++ rest) = rawRead t (rawWrite t v ++ rest) := by
  rw [rawRead_rawWrite]
  cases t with
  | bits8 => exact absurd rfl ht
  | bits16 => exact read_write (t := .bits16) v
  | bits32 => exact read_write (t := .bits32) v
  | bits64 => exact read_write (t := .bits64) v

/-- **Every codec reads back what it wrote, and stops behind it**, whatever bytes follow. -/
theorem roundTrip (rest : List UInt8) : (∀ (t : Width) (v : BitVec t.bits),
      read t.bits endByteMarker (write v.toInt ++ rest) = some (v, rest) ∧
      read t.bits endUnsignedByteMarker (writeUnsigned v.toNat ++ rest) = some (v, rest) ∧
      rawRead t (rawWrite t v ++ rest) = some (v, rest) ∧
      readLEB128 t.bits (writeLEB128 v.toNat ++ rest) = some (v, rest) ∧
      readSLEB128 t.bits (writeSLEB128 v.toInt ++ rest) = some (v, rest)) ∧
    (∀ v : BitVec 8, read 8 endByteMarker (write v.toNat ++ rest) = some (v, rest)) ∧
    (∀ v : BitVec 16, read 16 endByteMarker (write v.toNat ++ rest) = some (v, rest)) ∧
    (∀ v : BitVec 28, readRefId (writeRefId v.toNat ++ rest) = some ((v.toNat : ℤ), rest)) ∧
    (∀ v : BitVec 35, readLEB128 64 (writeFixed5LEB128 v.toNat ++ rest) =
      some (v.setWidth 64, rest)) ∧ (∀ v : BitVec 16, read16 endByteMarker (write v.toInt ++ rest) =
      read 16 endByteMarker (write v.toInt ++ rest)) ∧
    (∀ v : BitVec 32, read32 endByteMarker (write v.toInt ++ rest) =
      read 32 endByteMarker (write v.toInt ++ rest)) ∧
    (∀ v : BitVec 64, read64 endByteMarker (write v.toInt ++ rest) =
      read 64 endByteMarker (write v.toInt ++ rest)) := by
  refine ⟨fun t v => ⟨read_write v, read_writeUnsigned v, rawRead_rawWrite v,
    readLEB128_writeLEB128 v, readSLEB128_writeSLEB128 v⟩,
    fun v => read_write_toNat (k := 1) v (by decide) (by decide),
    fun v => read_write_toNat (k := 2) v (by decide) (by decide),
    fun v => readRefId_writeRefId v.isLt, readLEB128_writeFixed5LEB128, fun v => ?_, fun v => ?_,
      fun v => ?_⟩
  · exact (read_eq_rawRead (t := .bits16) v (by decide)).symm
  · exact (read_eq_rawRead (t := .bits32) v (by decide)).symm
  · exact (read_eq_rawRead (t := .bits64) v (by decide)).symm

/-- Reads values of the given types, one after another. -/
def rawReads : List Width → Reader (List (Σ t : Width, BitVec t.bits))
  | [], bytes => some ([], bytes)
  | t :: ts, bytes => do
    let (v, bytes) ← rawRead t bytes
    let (vs, bytes) ← rawReads ts bytes
    some (⟨t, v⟩ :: vs, bytes)

/-- **A stream of values of any types is read back.** -/
theorem rawReads_rawWrite (values : List (Σ t : Width, BitVec t.bits)) :
    rawReads (values.map Sigma.fst) (values.flatMap (fun v => rawWrite v.1 v.2) ++ rest) =
      some (values, rest) := by
  induction values with
  | nil => rfl
  | cons v values ih =>
    rw [flatMap_cons, append_assoc, map_cons, rawReads, rawRead_rawWrite]
    simp [ih]

end DataStream
