import DartSdk.Vm.Unicode

/-!
# Vm/UnicodeCorrect — the decoders agree with UTF-8

`utf8` is the encoding form of the standard, by division.  `decode` accepts exactly the encodings of
the code points up to `0x10FFFF` (`decode_utf8`, `eq_utf8_of_decode`) — the surrogates too, which
well-formed UTF-8 excludes.  From there the arrays are lists of code points, and each pass is said
over them.
-/

namespace VmUtf8

open UInt8

set_option maxRecDepth 10000

variable {rest : List UInt8} {malformed : Bool} {ch : ℕ}

/-- The bytes of a code point. -/
def utf8 (c : ℕ) : List UInt8 :=
  if c < 0x80 then [ofNat c]
  else if c < 0x800 then [ofNat (0xC0 + c / 2 ^ 6), ofNat (0x80 + c % 2 ^ 6)]
  else if c < 0x10000 then
    [ofNat (0xE0 + c / 2 ^ 12), ofNat (0x80 + c / 2 ^ 6 % 2 ^ 6), ofNat (0x80 + c % 2 ^ 6)]
  else
    [ofNat (0xF0 + c / 2 ^ 18), ofNat (0x80 + c / 2 ^ 12 % 2 ^ 6),
      ofNat (0x80 + c / 2 ^ 6 % 2 ^ 6), ofNat (0x80 + c % 2 ^ 6)]

/-- The units of a code point. -/
def utf16 (c : ℕ) : List ℕ :=
  if c < 0x10000 then [c]
  else [0xD800 + (c - 0x10000) / 2 ^ 10, 0xDC00 + (c - 0x10000) % 2 ^ 10]

/-- The code points that the array encodes; they may be surrogates. -/
def Encodes (bytes : List UInt8) (cs : List ℕ) : Prop :=
  (∀ c ∈ cs, c ≤ kMaxCodePoint) ∧ bytes = cs.flatMap utf8

/-- **Well-formed UTF-8**: the encoding of code points that are not surrogates. -/
def WellFormed (bytes : List UInt8) : Prop :=
  ∃ cs, Encodes bytes cs ∧ ∀ c ∈ cs, ¬ (0xD800 ≤ c ∧ c ≤ 0xDFFF)

variable {b : UInt8} {n c : ℕ}

theorem toNat_ofNat (hn : n < 256) : (ofNat n).toNat = n := by
  exact Nat.mod_eq_of_lt hn

/-- A fact about bytes is checked on the numbers below `256`. -/
@[elab_as_elim] theorem forall_byte {P : UInt8 → Prop} (h : ∀ n : Fin 256, P (UInt8.ofNat n))
    (b : UInt8) : P b := by
  have hb : UInt8.ofNat b.toNat = b := UInt8.ofNat_toNat
  exact hb ▸ h ⟨b.toNat, b.toNat_lt⟩

theorem isTrailByte_iff : isTrailByte b = true ↔ 0x80 ≤ b.toNat ∧ b.toNat < 0xC0 :=
  forall_byte (by decide) b

/-- A trail byte of an encoding. -/
theorem toNat_trail (n : ℕ) : (ofNat (0x80 + n % 2 ^ 6)).toNat = 0x80 + n % 2 ^ 6 :=
  toNat_ofNat (by omega)

theorem isTrailByte_trail (n : ℕ) : isTrailByte (ofNat (0x80 + n % 2 ^ 6)) = true := by
  have := toNat_trail n
  rw [isTrailByte_iff]
  omega

theorem trailBytes_eq : trailBytes b =
    if b.toNat < 0x80 then 1 else if b.toNat < 0xC0 then 0 else if b.toNat < 0xE0 then 2
    else if b.toNat < 0xF0 then 3 else if b.toNat < 0xF8 then 4 else if b.toNat < 0xFC then 5
    else if b.toNat < 0xFE then 6 else 0 :=
  forall_byte (by decide +kernel) b

/-! ## One sequence

A sequence is decoded to a scalar value exactly if it is the encoding of one. -/

theorem ofNat_eq (h : b.toNat = n) : ofNat n = b := by
  rw [← h]
  exact UInt8.ofNat_toNat

theorem trailLoop_zero : trailLoop 0 rest malformed ch = some (malformed, ch) := by
  cases rest <;> rfl

/-- A first byte that starts no sequence, or one of five or six bytes. -/
theorem sequence_eq_none (h : b.toNat < 0xC0 ∨ 0xF8 ≤ b.toNat) (hb : 0x80 ≤ b.toNat) :
    sequence b rest = none := by
  have htrail : trailBytes b = 0 ∨ trailBytes b = 5 ∨ trailBytes b = 6 := by
    rw [trailBytes_eq]
    split_ifs <;> omega
  rw [sequence]
  cases hloop : trailLoop (trailBytes b - 1) rest false b.toNat with
  | none => rfl
  | some r =>
    obtain ⟨malformed, ch⟩ := r
    simp only
    rw [if_neg]
    rintro ⟨-, hi, hrange, hshort⟩
    generalize (ch + 2 ^ 32 - magicBits (trailBytes b)) % 2 ^ 32 = x at *
    have hx : ¬ (2 ^ 31 ≤ x ∨ kMaxCodePoint < x) := by simpa [isOutOfRange] using hrange
    rcases htrail with h0 | hlong | hlong
    · rw [h0] at hi
      simp at hi
    all_goals
      rw [hlong] at hshort
      have : 0xFFFFFFFF ≤ x := by simpa [isNonShortestForm, kOverlongMinimum] using hshort
      omega

theorem isOutOfRange_iff {x : ℕ} : isOutOfRange x = true ↔ kMaxCodePoint < x := by
  rw [isOutOfRange, Bool.or_eq_true, decide_eq_true_eq, decide_eq_true_eq, kMaxCodePoint]
  omega

theorem sequence_eq_some_iff (n magic least : ℕ) (hn : trailBytes b = n + 1)
    (hmagic : magicBits (n + 1) = magic) (hleast : kOverlongMinimum[n + 1]?.getD 0 = least) :
    sequence b rest = some c ↔ ∃ ch, trailLoop n rest false b.toNat = some (false, ch) ∧
      (ch + 2 ^ 32 - magic) % 2 ^ 32 = c ∧ c ≤ kMaxCodePoint ∧ least ≤ c := by
  subst hmagic hleast
  have hmax : max 1 (n + 1) = n + 1 := max_eq_right (Nat.le_add_left 1 n)
  rw [sequence, hn, Nat.add_sub_cancel]
  cases hloop : trailLoop n rest false b.toNat with
  | none => simp
  | some r =>
    obtain ⟨malformed, ch⟩ := r
    simp only [hmax, isOutOfRange_iff, isNonShortestForm, decide_eq_true_eq, not_lt,
      Option.ite_none_right_eq_some, Option.some.injEq, Prod.mk.injEq]
    constructor
    · rintro ⟨⟨rfl, -, hle, hmin⟩, rfl⟩
      exact ⟨ch, ⟨rfl, rfl⟩, rfl, hle, hmin⟩
    · rintro ⟨_, ⟨rfl, rfl⟩, rfl, hle, hmin⟩
      exact ⟨⟨rfl, trivial, hle, hmin⟩, rfl⟩

/-- One round of the loop. -/
theorem trailLoop_succ_iff {ch' : ℕ} :
    trailLoop (n + 1) rest malformed ch = some (false, ch') ↔ ∃ u tail, rest = u :: tail ∧
      trailLoop n tail (malformed || !isTrailByte u) ((ch * 2 ^ 6 + u.toNat) % 2 ^ 32) =
        some (false, ch') := by
  cases rest with
  | nil => simp [trailLoop]
  | cons u tail => simp [trailLoop]

theorem sequence_two_iff (hlo : 0xC0 ≤ b.toNat) (hhi : b.toNat < 0xE0) :
    sequence b rest = some c ↔ ∃ u tail, rest = u :: tail ∧ isTrailByte u = true ∧
      b.toNat * 2 ^ 6 + u.toNat = c + 0x3080 ∧ 0x80 ≤ c := by
  have hn : trailBytes b = 1 + 1 := by
    rw [trailBytes_eq]
    split_ifs <;> omega
  rw [sequence_eq_some_iff 1 0x3080 0x80 hn rfl rfl]
  simp only [trailLoop_succ_iff, trailLoop_zero, Option.some.injEq, Prod.mk.injEq, Bool.false_or,
    Bool.not_eq_false']
  constructor
  · rintro ⟨ch, ⟨u, tail, rfl, hu, rfl⟩, rfl, hle, hmin⟩
    refine ⟨u, tail, rfl, hu, ?_, hmin⟩
    rw [isTrailByte_iff] at hu
    omega
  · rintro ⟨u, tail, rfl, hu, hc, hmin⟩
    refine ⟨_, ⟨u, tail, rfl, hu, rfl⟩, ?_, ?_, hmin⟩
    all_goals
      rw [isTrailByte_iff] at hu
      have : kMaxCodePoint = 0x10FFFF := rfl
      omega

theorem sequence_three_iff (hlo : 0xE0 ≤ b.toNat) (hhi : b.toNat < 0xF0) :
    sequence b rest = some c ↔ ∃ u v tail, rest = u :: v :: tail ∧ isTrailByte u = true ∧
      isTrailByte v = true ∧ (b.toNat * 2 ^ 6 + u.toNat) * 2 ^ 6 + v.toNat = c + 0xE2080 ∧
      0x800 ≤ c := by
  have hn : trailBytes b = 2 + 1 := by
    rw [trailBytes_eq]
    split_ifs <;> omega
  rw [sequence_eq_some_iff 2 0xE2080 0x800 hn rfl rfl]
  simp only [trailLoop_succ_iff, trailLoop_zero, Option.some.injEq, Prod.mk.injEq, Bool.false_or,
    Bool.or_eq_false_iff, Bool.not_eq_false']
  constructor
  · rintro ⟨ch, ⟨u, _, rfl, v, tail, rfl, ⟨hu, hv⟩, rfl⟩, rfl, hle, hmin⟩
    refine ⟨u, v, tail, rfl, hu, hv, ?_, hmin⟩
    rw [isTrailByte_iff] at hu hv
    omega
  · rintro ⟨u, v, tail, rfl, hu, hv, hc, hmin⟩
    refine ⟨_, ⟨u, _, rfl, v, tail, rfl, ⟨hu, hv⟩, rfl⟩, ?_, ?_, hmin⟩
    all_goals
      rw [isTrailByte_iff] at hu hv
      have : kMaxCodePoint = 0x10FFFF := rfl
      omega

theorem sequence_four_iff (hlo : 0xF0 ≤ b.toNat) (hhi : b.toNat < 0xF8) :
    sequence b rest = some c ↔ ∃ u v w tail, rest = u :: v :: w :: tail ∧ isTrailByte u = true ∧
      isTrailByte v = true ∧ isTrailByte w = true ∧
      ((b.toNat * 2 ^ 6 + u.toNat) * 2 ^ 6 + v.toNat) * 2 ^ 6 + w.toNat = c + 0x3C82080 ∧
      0x10000 ≤ c ∧ c ≤ kMaxCodePoint := by
  have hn : trailBytes b = 3 + 1 := by
    rw [trailBytes_eq]
    split_ifs <;> omega
  rw [sequence_eq_some_iff 3 0x3C82080 0x10000 hn rfl rfl]
  simp only [trailLoop_succ_iff, trailLoop_zero, Option.some.injEq, Prod.mk.injEq, Bool.false_or,
    Bool.or_eq_false_iff, Bool.not_eq_false']
  constructor
  · rintro ⟨ch, ⟨u, _, rfl, v, _, rfl, w, tail, rfl, ⟨⟨hu, hv⟩, hw⟩, rfl⟩, rfl, hle, hmin⟩
    refine ⟨u, v, w, tail, rfl, hu, hv, hw, ?_, hmin, hle⟩
    rw [isTrailByte_iff] at hu hv hw
    omega
  · rintro ⟨u, v, w, tail, rfl, hu, hv, hw, hc, hmin, hle⟩
    refine ⟨_, ⟨u, _, rfl, v, _, rfl, w, tail, rfl, ⟨⟨hu, hv⟩, hw⟩, rfl⟩, ?_, hle, hmin⟩
    rw [isTrailByte_iff] at hu hv hw
    omega

theorem utf8_one (h : c < 0x80) : utf8 c = [ofNat c] := if_pos h

theorem utf8_two (h : 0x80 ≤ c) (h' : c < 0x800) :
    utf8 c = [ofNat (0xC0 + c / 2 ^ 6), ofNat (0x80 + c % 2 ^ 6)] := by
  rw [utf8, if_neg (by omega), if_pos h']

theorem utf8_three (h : 0x800 ≤ c) (h' : c < 0x10000) :
    utf8 c = [ofNat (0xE0 + c / 2 ^ 12), ofNat (0x80 + c / 2 ^ 6 % 2 ^ 6),
      ofNat (0x80 + c % 2 ^ 6)] := by
  rw [utf8, if_neg (by omega), if_neg (by omega), if_pos h']

theorem utf8_four (h : 0x10000 ≤ c) :
    utf8 c = [ofNat (0xF0 + c / 2 ^ 18), ofNat (0x80 + c / 2 ^ 12 % 2 ^ 6),
      ofNat (0x80 + c / 2 ^ 6 % 2 ^ 6), ofNat (0x80 + c % 2 ^ 6)] := by
  rw [utf8, if_neg (by omega), if_neg (by omega), if_neg (by omega)]

/-- What a sequence decodes to starts the array. -/
theorem eq_utf8_of_sequence (hb : 0x80 ≤ b.toNat) (h : sequence b rest = some c) :
    0x80 ≤ c ∧ c ≤ kMaxCodePoint ∧ ∃ tail, b :: rest = utf8 c ++ tail := by
  have hmax : kMaxCodePoint = 0x10FFFF := rfl
  by_cases hrange : b.toNat < 0xC0 ∨ 0xF8 ≤ b.toNat
  · rw [sequence_eq_none hrange hb] at h
    exact absurd h (by simp)
  rcases (by omega : (0xC0 ≤ b.toNat ∧ b.toNat < 0xE0) ∨ (0xE0 ≤ b.toNat ∧ b.toNat < 0xF0) ∨
    (0xF0 ≤ b.toNat ∧ b.toNat < 0xF8)) with ⟨hlo, hhi⟩ | ⟨hlo, hhi⟩ | ⟨hlo, hhi⟩
  · obtain ⟨u, tail, rfl, hu, hc, hmin⟩ := (sequence_two_iff hlo hhi).1 h
    rw [isTrailByte_iff] at hu
    refine ⟨hmin, by omega, tail, ?_⟩
    rw [utf8_two hmin (by omega), ofNat_eq (b := b) (by omega), ofNat_eq (b := u) (by omega)]
    rfl
  · obtain ⟨u, v, tail, rfl, hu, hv, hc, hmin⟩ := (sequence_three_iff hlo hhi).1 h
    rw [isTrailByte_iff] at hu hv
    refine ⟨by omega, by omega, tail, ?_⟩
    rw [utf8_three hmin (by omega), ofNat_eq (b := b) (by omega), ofNat_eq (b := u) (by omega),
      ofNat_eq (b := v) (by omega)]
    rfl
  · obtain ⟨u, v, w, tail, rfl, hu, hv, hw, hc, hmin, hle⟩ := (sequence_four_iff hlo hhi).1 h
    rw [isTrailByte_iff] at hu hv hw
    refine ⟨by omega, hle, tail, ?_⟩
    rw [utf8_four hmin, ofNat_eq (b := b) (by omega), ofNat_eq (b := u) (by omega),
      ofNat_eq (b := v) (by omega), ofNat_eq (b := w) (by omega)]
    rfl

/-- The encoding of a code point that is not ASCII is a sequence. -/
theorem sequence_utf8 (hlo : 0x80 ≤ c) (hhi : c ≤ kMaxCodePoint) (h : utf8 c ++ tail = b :: rest) :
    0x80 ≤ b.toNat ∧ sequence b rest = some c ∧ trailBytes b = (utf8 c).length ∧
      tail = rest.drop ((utf8 c).length - 1) := by
  have hmax : kMaxCodePoint = 0x10FFFF := rfl
  rcases (by omega : c < 0x800 ∨ (0x800 ≤ c ∧ c < 0x10000) ∨ 0x10000 ≤ c) with h2 | ⟨h3, h3'⟩ | h4
  · rw [utf8_two hlo h2] at h ⊢
    obtain ⟨rfl, rfl⟩ := List.cons.inj h
    have hb := toNat_ofNat (show 0xC0 + c / 2 ^ 6 < 256 by omega)
    have hu := toNat_trail c
    refine ⟨by omega, (sequence_two_iff (by omega) (by omega)).2
      ⟨_, tail, rfl, isTrailByte_trail _, ?_, hlo⟩, ?_, rfl⟩
    · omega
    · rw [trailBytes_eq, hb]
      simp only [List.length_cons, List.length_nil]
      split_ifs <;> omega
  · rw [utf8_three h3 h3'] at h ⊢
    obtain ⟨rfl, rfl⟩ := List.cons.inj h
    have hb := toNat_ofNat (show 0xE0 + c / 2 ^ 12 < 256 by omega)
    have hu := toNat_trail (c / 2 ^ 6)
    have hv := toNat_trail c
    refine ⟨by omega, (sequence_three_iff (by omega) (by omega)).2
      ⟨_, _, tail, rfl, isTrailByte_trail _, isTrailByte_trail _, ?_, h3⟩, ?_, rfl⟩
    · omega
    · rw [trailBytes_eq, hb]
      simp only [List.length_cons, List.length_nil]
      split_ifs <;> omega
  · rw [utf8_four h4] at h ⊢
    obtain ⟨rfl, rfl⟩ := List.cons.inj h
    have hb := toNat_ofNat (show 0xF0 + c / 2 ^ 18 < 256 by omega)
    have hu := toNat_trail (c / 2 ^ 12)
    have hv := toNat_trail (c / 2 ^ 6)
    have hw := toNat_trail c
    refine ⟨by omega, (sequence_four_iff (by omega) (by omega)).2 ⟨_, _, _, tail, rfl,
      isTrailByte_trail _, isTrailByte_trail _, isTrailByte_trail _, ?_, h4, hhi⟩, ?_, rfl⟩
    · omega
    · rw [trailBytes_eq, hb]
      simp only [List.length_cons, List.length_nil]
      split_ifs <;> omega

theorem utf8_ne_nil (c : ℕ) : utf8 c ≠ [] := by
  rw [utf8]
  split_ifs <;> simp

/-- **An encoding decodes to its code point.** -/
theorem decode_utf8 (hc : c ≤ kMaxCodePoint) (h : utf8 c ++ tail = b :: rest) :
    decode b rest = ((c : ℤ), (utf8 c).length) ∧ (b :: rest).drop (utf8 c).length = tail := by
  refine ⟨?_, by rw [← h, List.drop_left]⟩
  rcases Nat.lt_or_ge c 0x80 with hascii | hlo
  · rw [utf8_one hascii] at h ⊢
    obtain ⟨rfl, rfl⟩ := List.cons.inj h
    have hb : (ofNat c).toNat = c := toNat_ofNat (by omega)
    rw [decode, if_neg (by omega), hb]
    rfl
  · obtain ⟨hb, hseq, htrail, -⟩ := sequence_utf8 hlo hc h
    have hpos := List.length_pos_of_ne_nil (utf8_ne_nil c)
    rw [decode, if_pos hb, hseq, htrail, max_eq_right hpos]

/-- **What decodes is an encoding.** -/
theorem eq_utf8_of_decode (h : (decode b rest).1 ≠ -1) :
    ∃ c ≤ kMaxCodePoint, ∃ tail, utf8 c ++ tail = b :: rest := by
  rcases Nat.lt_or_ge b.toNat 0x80 with hascii | hb
  · refine ⟨b.toNat, by simp only [kMaxCodePoint]; omega, rest, ?_⟩
    rw [utf8_one hascii, UInt8.ofNat_toNat]
    rfl
  rw [decode, if_pos hb] at h
  cases hseq : sequence b rest with
  | none =>
    rw [hseq] at h
    exact absurd rfl h
  | some c =>
    obtain ⟨-, hle, tail, htail⟩ := eq_utf8_of_sequence hb hseq
    exact ⟨c, hle, tail, htail.symm⟩

/-- Repeated decoding consumes the whole array. -/
inductive Consumes : List UInt8 → Prop
  | nil : Consumes []
  | cons {b : UInt8} {rest : List UInt8} (hne : (decode b rest).1 ≠ -1)
      (h : Consumes ((b :: rest).drop (decode b rest).2)) : Consumes (b :: rest)

variable {bytes tail : List UInt8} {cs : List ℕ}

theorem encodes_nil_iff : Encodes [] cs ↔ cs = [] := by
  constructor
  · rintro ⟨-, h⟩
    cases cs with
    | nil => rfl
    | cons c cs => exact absurd h.symm (by simp [utf8_ne_nil])
  · rintro rfl
    exact ⟨by simp, rfl⟩

theorem Encodes.cons (h : Encodes tail cs) (hc : c ≤ kMaxCodePoint) :
    Encodes (utf8 c ++ tail) (c :: cs) := by
  refine ⟨fun c' hc' => ?_, by rw [List.flatMap_cons, ← h.2]⟩
  rcases List.mem_cons.1 hc' with rfl | hc'
  · exact hc
  · exact h.1 c' hc'

/-- The first code point is the one that decodes. -/
theorem Encodes.decode (h : Encodes (b :: rest) cs) :
    ∃ c cs' tail, cs = c :: cs' ∧ c ≤ kMaxCodePoint ∧ utf8 c ++ tail = b :: rest ∧
      Encodes tail cs' := by
  obtain ⟨hle, heq⟩ := h
  cases cs with
  | nil => exact absurd heq (by simp)
  | cons c cs =>
    exact ⟨c, cs, cs.flatMap utf8, rfl, hle c (by simp), heq.symm,
      fun c' hc' => hle c' (List.mem_cons_of_mem _ hc'), rfl⟩

theorem not_encodes_of_decode (h : (VmUtf8.decode b rest).1 = -1) : ¬ Encodes (b :: rest) cs := by
  intro henc
  obtain ⟨c, cs', tail, -, hc, heq, -⟩ := henc.decode
  rw [(decode_utf8 hc heq).1] at h
  simp at h

/-- An array that starts with an encoding is decided by the rest. -/
theorem encodes_append_iff (hc : c ≤ kMaxCodePoint) :
    Encodes (utf8 c ++ tail) cs ↔ ∃ cs', cs = c :: cs' ∧ Encodes tail cs' := by
  constructor
  · intro h
    obtain ⟨b, rest, hb⟩ := List.exists_cons_of_ne_nil
      (List.append_ne_nil_of_left_ne_nil (utf8_ne_nil c) tail)
    rw [hb] at h
    obtain ⟨c', cs', tail', rfl, hc', heq, henc⟩ := h.decode
    have h1 := decode_utf8 hc hb
    have h2 := decode_utf8 hc' heq
    obtain rfl : c = c' := by
      have := h1.1.symm.trans h2.1
      simpa using congrArg Prod.fst this
    obtain rfl : tail = tail' := h1.2.symm.trans h2.2
    exact ⟨cs', rfl, henc⟩
  · rintro ⟨cs', rfl, henc⟩
    exact henc.cons hc

theorem isValidLoop_cons {fuel : ℕ} :
    isValidLoop (fuel + 1) (b :: rest) = if (decode b rest).1 = -1 then false
      else isValidLoop fuel ((b :: rest).drop (decode b rest).2) := by
  rw [isValidLoop, decode]
  split_ifs with hb hneg hneg
  · cases hseq : sequence b rest with
    | none => rfl
    | some c => simp [hseq] at hneg
  · cases hseq : sequence b rest with
    | none => simp [hseq] at hneg
    | some c =>
      obtain ⟨n, hn⟩ : ∃ n, max 1 (trailBytes b) = n + 1 := ⟨max 1 (trailBytes b) - 1, by omega⟩
      simp [hn]
  · simp at hneg
  · rfl

/-- The two ways an array that is not empty can start. -/
theorem decode_cases (b : UInt8) (rest : List UInt8) :
    (decode b rest).1 = -1 ∨ ∃ c ≤ kMaxCodePoint, ∃ tail, utf8 c ++ tail = b :: rest ∧
      decode b rest = ((c : ℤ), (utf8 c).length) ∧ (b :: rest).drop (utf8 c).length = tail ∧
      tail.length ≤ rest.length := by
  by_cases h : (decode b rest).1 = -1
  · exact .inl h
  obtain ⟨c, hc, tail, heq⟩ := eq_utf8_of_decode h
  have hlen := congrArg List.length heq
  have hpos := List.length_pos_of_ne_nil (utf8_ne_nil c)
  rw [List.length_append, List.length_cons] at hlen
  obtain ⟨hdecode, hdrop⟩ := decode_utf8 hc heq
  exact .inr ⟨c, hc, tail, heq, hdecode, hdrop, by omega⟩

theorem isValidLoop_iff {fuel : ℕ} (hfuel : bytes.length ≤ fuel) :
    isValidLoop fuel bytes = true ↔ ∃ cs, Encodes bytes cs := by
  induction fuel generalizing bytes with
  | zero =>
    obtain rfl : bytes = [] := List.length_eq_zero_iff.1 (by omega)
    exact iff_of_true rfl ⟨[], encodes_nil_iff.2 rfl⟩
  | succ fuel ih =>
    cases bytes with
    | nil => exact iff_of_true rfl ⟨[], encodes_nil_iff.2 rfl⟩
    | cons b rest =>
      rw [List.length_cons] at hfuel
      rw [isValidLoop_cons]
      obtain hneg | ⟨c, hc, tail, heq, hdecode, hdrop, hlen⟩ := decode_cases b rest
      · rw [if_pos hneg]
        refine iff_of_false (by simp) ?_
        rintro ⟨cs, henc⟩
        exact not_encodes_of_decode hneg henc
      rw [hdecode, if_neg (by simp), hdrop, ih (by omega), ← heq]
      constructor
      · rintro ⟨cs, henc⟩
        exact ⟨c :: cs, henc.cons hc⟩
      · rintro ⟨cs, henc⟩
        obtain ⟨cs', -, henc'⟩ := (encodes_append_iff hc).1 henc
        exact ⟨cs', henc'⟩

/-- **Validity is being an encoding of code points.** -/
theorem isValid_iff : isValid bytes = true ↔ ∃ cs, Encodes bytes cs := isValidLoop_iff le_rfl

theorem consumes_append_iff (hc : c ≤ kMaxCodePoint) : Consumes (utf8 c ++ tail) ↔
    Consumes tail := by
  obtain ⟨b, rest, hb⟩ := List.exists_cons_of_ne_nil
    (List.append_ne_nil_of_left_ne_nil (utf8_ne_nil c) tail)
  obtain ⟨hdecode, hdrop⟩ := decode_utf8 hc hb
  rw [hb]
  constructor
  · rintro (_ | ⟨hne, h⟩)
    rwa [hdecode, hdrop] at h
  · intro h
    refine .cons (by simp [hdecode]) ?_
    rwa [hdecode, hdrop]

theorem consumes_iff : Consumes bytes ↔ ∃ cs, Encodes bytes cs := by
  constructor
  · intro h
    induction h with
    | nil => exact ⟨[], encodes_nil_iff.2 rfl⟩
    | cons hne _ ih =>
      obtain ⟨c, hc, tail, heq⟩ := eq_utf8_of_decode hne
      obtain ⟨hdecode, hdrop⟩ := decode_utf8 hc heq
      rw [hdecode, hdrop] at ih
      obtain ⟨cs, henc⟩ := ih
      exact ⟨c :: cs, heq ▸ henc.cons hc⟩
  · rintro ⟨cs, hle, rfl⟩
    induction cs with
    | nil => exact .nil
    | cons c cs ih =>
      rw [List.flatMap_cons, consumes_append_iff (hle c (by simp))]
      exact ih fun c' hc' => hle c' (List.mem_cons_of_mem _ hc')

/-- The form that a code point needs at least. -/
def Form.add (f : Form) (c : ℕ) : Form :=
  if 0x10000 ≤ c then .supplementary else if 0x100 ≤ c ∧ f = .latin1 then .bmp else f

theorem isLatin1SequenceStart_iff : isLatin1SequenceStart b = true ↔ b.toNat ≤ 0xC3 := by
  rw [isLatin1SequenceStart, decide_eq_true_eq, le_iff_toNat_le]
  rfl

theorem isSupplementarySequenceStart_iff :
    isSupplementarySequenceStart b = true ↔ 0xF0 ≤ b.toNat := by
  rw [isSupplementarySequenceStart, decide_eq_true_eq, ge_iff_le, le_iff_toNat_le]
  rfl

variable {count : ℕ × Form}

theorem countUnit_trail : countUnit count (ofNat (0x80 + n % 2 ^ 6)) = count := by
  rw [countUnit, if_neg]
  rw [isTrailByte_trail]
  simp

/-- A first byte counts the units of its code point. -/
theorem countUnit_first (h : b.toNat < 0x80 ∨ 0xC0 ≤ b.toNat) :
    countUnit count b = if 0xF0 ≤ b.toNat then (count.1 + 2, .supplementary)
      else (count.1 + 1, if 0xC3 < b.toNat ∧ count.2 = .latin1 then .bmp else count.2) := by
  have htrail : ¬ isTrailByte b = true := by
    rw [isTrailByte_iff]
    omega
  rw [countUnit, if_pos htrail]
  simp only [isLatin1SequenceStart_iff, isSupplementarySequenceStart_iff]
  by_cases hsup : 0xF0 ≤ b.toNat
  · rw [if_pos (by omega), if_pos hsup, if_pos hsup]
  rw [if_neg hsup, if_neg hsup]
  by_cases hlatin : b.toNat ≤ 0xC3
  · simp [hlatin]
  · simp [hlatin, Nat.lt_of_not_le hlatin]

/-- The first byte of a code point with one unit. -/
theorem countUnit_bmp (hc : c < 0x10000) (hfirst : b.toNat < 0x80 ∨ 0xC0 ≤ b.toNat)
    (hhi : b.toNat < 0xF0) (hlatin : 0xC3 < b.toNat ↔ 0x100 ≤ c) :
    countUnit count b = (count.1 + (utf16 c).length, count.2.add c) := by
  rw [countUnit_first hfirst, utf16, Form.add, if_neg (show ¬ 0xF0 ≤ b.toNat by omega), if_pos hc,
    if_neg (show ¬ 0x10000 ≤ c by omega)]
  simp only [hlatin]
  rfl

theorem foldl_countUnit_utf8 (hc : c ≤ kMaxCodePoint) (count : ℕ × Form) :
    (utf8 c).foldl countUnit count = (count.1 + (utf16 c).length, count.2.add c) := by
  have hmax : kMaxCodePoint = 0x10FFFF := rfl
  rcases (by omega : c < 0x80 ∨ (0x80 ≤ c ∧ c < 0x800) ∨ (0x800 ≤ c ∧ c < 0x10000) ∨ 0x10000 ≤ c)
    with h1 | ⟨h2, h2'⟩ | ⟨h3, h3'⟩ | h4
  · have hb : (ofNat c).toNat = c := toNat_ofNat (by omega)
    simp only [utf8_one h1, List.foldl]
    rw [countUnit_bmp] <;> omega
  · have hb := toNat_ofNat (show 0xC0 + c / 2 ^ 6 < 256 by omega)
    simp only [utf8_two h2 h2', List.foldl, countUnit_trail]
    rw [countUnit_bmp] <;> omega
  · have hb := toNat_ofNat (show 0xE0 + c / 2 ^ 12 < 256 by omega)
    simp only [utf8_three h3 h3', List.foldl, countUnit_trail]
    rw [countUnit_bmp] <;> omega
  · have hb := toNat_ofNat (show 0xF0 + c / 2 ^ 18 < 256 by omega)
    simp only [utf8_four h4, List.foldl, countUnit_trail]
    rw [countUnit_first (by omega), hb, utf16, Form.add, if_pos (by omega), if_neg (by omega),
      if_pos h4]
    rfl

theorem codeUnitCount_encodes (h : Encodes bytes cs) :
    codeUnitCount bytes = ((cs.flatMap utf16).length, cs.foldl Form.add .latin1) := by
  obtain ⟨hle, rfl⟩ := h
  have hfold : ∀ count : ℕ × Form, (cs.flatMap utf8).foldl countUnit count =
      (count.1 + (cs.flatMap utf16).length, cs.foldl Form.add count.2) := by
    induction cs with
    | nil => simp
    | cons c cs ih =>
      intro count
      rw [List.flatMap_cons, List.foldl_append, foldl_countUnit_utf8 (hle c (by simp)),
        ih fun c' hc' => hle c' (List.mem_cons_of_mem _ hc')]
      simp [Nat.add_assoc]
  rw [codeUnitCount, hfold, Nat.zero_add]

/-- A form beyond Latin-1 stays. -/
theorem foldl_countUnit_ne_latin1 (h : count.2 ≠ .latin1) (bytes : List UInt8) :
    (bytes.foldl countUnit count).2 ≠ .latin1 := by
  induction bytes generalizing count with
  | nil => exact h
  | cons b bytes ih =>
    refine ih ?_
    rw [countUnit]
    split_ifs <;> simp [h]

theorem isLatin1SequenceStart_of_codeUnitCount (h : (codeUnitCount bytes).2 = .latin1) :
    ∀ b ∈ bytes, isLatin1SequenceStart b = true := by
  rw [codeUnitCount] at h
  generalize 0 = n at h
  induction bytes generalizing n with
  | nil => simp
  | cons b bytes ih =>
    rw [List.foldl_cons] at h
    have hfirst : (countUnit (n, .latin1) b).2 = .latin1 := by
      by_contra hne
      exact foldl_countUnit_ne_latin1 hne bytes h
    have hstart : isLatin1SequenceStart b = true := by
      rcases Nat.lt_or_ge b.toNat 0x80 with hlt | hge
      · rw [isLatin1SequenceStart_iff]
        omega
      rcases Nat.lt_or_ge b.toNat 0xC0 with hlt' | hge'
      · rw [isLatin1SequenceStart_iff]
        omega
      rw [countUnit_first (.inr hge')] at hfirst
      rw [isLatin1SequenceStart_iff]
      by_contra hgt
      split_ifs at hfirst
      simp_all
    rintro b' hb'
    rcases List.mem_cons.1 hb' with rfl | hb'
    · exact hstart
    have hpair : countUnit (n, .latin1) b = ((countUnit (n, .latin1) b).1, .latin1) :=
      Prod.ext rfl hfirst
    rw [hpair] at h
    exact ih _ h b' hb'

/-! ## The decoders -/

theorem store_apply (dst : Buffer) (j k : ℕ) (us : List ℕ) :
    dst.store j us k = if j ≤ k ∧ k < j + us.length then us[k - j]? else dst k := by
  induction us generalizing dst j with
  | nil => rw [Buffer.store, if_neg (by simp)]
  | cons u us ih =>
    rw [Buffer.store, ih, Function.update_apply, List.length_cons]
    rcases Nat.lt_trichotomy k j with hlt | rfl | hgt
    · rw [if_neg (by omega), if_neg (by omega), if_neg (by omega)]
    · rw [if_neg (by omega), if_pos rfl, if_pos (by omega), Nat.sub_self, List.getElem?_cons_zero]
    obtain ⟨d, rfl⟩ : ∃ d, k = j + 1 + d := ⟨k - (j + 1), by omega⟩
    have hsub : j + 1 + d - j = d + 1 := by omega
    rw [hsub, List.getElem?_cons_succ, Nat.add_sub_cancel_left]
    by_cases hd : d < us.length
    · rw [if_pos (by omega), if_pos (by omega)]
    · rw [if_neg (by omega), if_neg (by omega), if_neg (by omega)]

theorem store_append (dst : Buffer) (j : ℕ) (us vs : List ℕ) :
    (dst.store j us).store (j + us.length) vs = dst.store j (us ++ vs) := by
  induction us generalizing dst j with
  | nil => rfl
  | cons u us ih =>
    rw [Buffer.store, List.cons_append, Buffer.store, ← ih, List.length_cons, Nat.add_assoc,
      Nat.add_comm 1]

section

variable {starts : UInt8 → Bool} {units : UInt8 → ℕ → ℕ → Option (Option (List ℕ))} {len : ℕ}
  {S : UInt8 → Prop} {f : ℕ → List ℕ}

/-- The decoder stores the units `f` of each code point while they fit, if the first bytes have the
property `S`. -/
structure Stores (starts : UInt8 → Bool) (units : UInt8 → ℕ → ℕ → Option (Option (List ℕ)))
    (len : ℕ) (S : UInt8 → Prop) (f : ℕ → List ℕ) : Prop where
  starts : ∀ b, S b → starts b = true
  units : ∀ b rest tail c j, S b → c ≤ kMaxCodePoint → utf8 c ++ tail = b :: rest → j < len →
    units b c j = some (if j + (f c).length ≤ len then some (f c) else none)
  pos : ∀ c, 0 < (f c).length

/-- **The loop succeeds exactly on encodings whose units fit**, and then stores them; otherwise it
leaves all that is not between `j` and `len`. -/
theorem decodeLoop_spec (h : Stores starts units len S f) {fuel j : ℕ} (dst : Buffer)
    (hS : ∀ b ∈ bytes, S b) (hfuel : bytes.length ≤ fuel) (hj : j ≤ len) :
    (∃ cs, Encodes bytes cs ∧ j + (cs.flatMap f).length ≤ len ∧
      decodeLoop starts units len fuel bytes j dst = some (true, dst.store j (cs.flatMap f))) ∨
    (¬ ∃ cs, Encodes bytes cs ∧ j + (cs.flatMap f).length ≤ len) ∧
      ∃ dst', decodeLoop starts units len fuel bytes j dst = some (false, dst') ∧
        ∀ k, k < j ∨ len ≤ k → dst' k = dst k := by
  induction fuel generalizing bytes j dst with
  | zero =>
    obtain rfl : bytes = [] := List.length_eq_zero_iff.1 (by omega)
    exact .inl ⟨[], encodes_nil_iff.2 rfl, hj, rfl⟩
  | succ fuel ih =>
    cases bytes with
    | nil => exact .inl ⟨[], encodes_nil_iff.2 rfl, hj, rfl⟩
    | cons b rest =>
      rw [List.length_cons] at hfuel
      have hb := hS b (by simp)
      by_cases hlt : j < len
      · rw [decodeLoop, if_pos hlt, if_pos (h.starts b hb)]
        obtain hneg | ⟨c, hc, tail, heq, hdecode, hdrop, hlen⟩ := decode_cases b rest
        · refine .inr ⟨?_, dst, by simp [hneg], fun k _ => rfl⟩
          rintro ⟨cs, henc, -⟩
          exact not_encodes_of_decode hneg henc
        have hunits := h.units b rest tail c j hb hc heq hlt
        simp only [hdecode, hdrop, Int.toNat_natCast, hunits]
        rw [if_neg (by simp)]
        by_cases hfits : j + (f c).length ≤ len
        · rw [if_pos hfits]
          have hS' : ∀ b ∈ tail, S b := fun b' hb' => hS b' (heq ▸ List.mem_append_right _ hb')
          obtain ⟨cs, henc, htotal, hloop⟩ | ⟨hno, dst', hloop, hframe⟩ :=
            ih (dst.store j (f c)) hS' (by omega) hfits
          · refine .inl ⟨c :: cs, heq ▸ henc.cons hc, ?_, ?_⟩
            · rw [List.flatMap_cons, List.length_append]
              omega
            · simp [hloop, store_append, List.flatMap_cons]
          refine .inr ⟨?_, dst', hloop, fun k hk => ?_⟩
          · rintro ⟨cs, henc, htotal⟩
            rw [← heq, encodes_append_iff hc] at henc
            obtain ⟨cs', rfl, henc'⟩ := henc
            rw [List.flatMap_cons, List.length_append] at htotal
            exact hno ⟨cs', henc', by omega⟩
          · rw [hframe k (by omega), store_apply, if_neg (by omega)]
        · rw [if_neg hfits]
          refine .inr ⟨?_, dst, rfl, fun k _ => rfl⟩
          rintro ⟨cs, henc, htotal⟩
          rw [← heq, encodes_append_iff hc] at henc
          obtain ⟨cs', rfl, -⟩ := henc
          rw [List.flatMap_cons, List.length_append] at htotal
          omega
      · obtain rfl : j = len := by omega
        refine .inr ⟨?_, dst, by simp [decodeLoop], fun k _ => rfl⟩
        rintro ⟨cs, henc, htotal⟩
        obtain ⟨c, cs', -, rfl, -⟩ := henc.decode
        have := h.pos c
        rw [List.flatMap_cons, List.length_append] at htotal
        omega

end

/-- The first byte tells the size of the code point. -/
theorem first_utf8 (hc : c ≤ kMaxCodePoint) (h : utf8 c ++ tail = b :: rest) :
    (b.toNat ≤ 0xC3 → c ≤ 0xFF) ∧ (0xF0 ≤ b.toNat ↔ 0x10000 ≤ c) := by
  have hmax : kMaxCodePoint = 0x10FFFF := rfl
  rw [utf8] at h
  split_ifs at h
  all_goals
    rw [← (List.cons.inj h).1, toNat_ofNat (by omega)]
    omega

theorem stores_latin1 (len : ℕ) :
    Stores isLatin1SequenceStart
      (fun _ ch _ => if isLatin1 ch then some (some [ch % 2 ^ 8]) else none)
      len (fun b => isLatin1SequenceStart b = true) fun c => [c] where
  starts _ h := h
  units b rest tail c j hb hc heq hj := by
    have hle : c ≤ 0xFF := (first_utf8 hc heq).1 (isLatin1SequenceStart_iff.1 hb)
    have hlatin : isLatin1 c = true := decide_eq_true hle
    have hfits : j + [c].length ≤ len := hj
    rw [if_pos hlatin, if_pos hfits, Nat.mod_eq_of_lt (by omega)]
  pos _ := Nat.one_pos

theorem utf16Encode_eq (hlo : 0x10000 ≤ c) (hhi : c ≤ kMaxCodePoint) :
    utf16Encode c = some (utf16 c) := by
  have hmax : kMaxCodePoint = 0x10FFFF := rfl
  have hand : c &&& 0x3FF = c % 2 ^ 10 := Nat.and_two_pow_sub_one_eq_mod c 10
  rw [utf16Encode, if_pos (by omega), utf16, if_neg (by omega), hand, Nat.shiftRight_eq_div_pow c]
  have h1 : (0xD800 - 0x10000 >>> 10 + c / 2 ^ 10) % 2 ^ 16 = 0xD800 + (c - 0x10000) / 2 ^ 10 := by
    omega
  have h2 : (0xDC00 + c % 2 ^ 10) % 2 ^ 16 = 0xDC00 + (c - 0x10000) % 2 ^ 10 := by omega
  rw [h1, h2]

theorem stores_utf16 (len : ℕ) : Stores (fun _ => true)
      (fun first ch j => if isSupplementarySequenceStart first then
        if j = len - 1 then some none else (utf16Encode ch).map some
        else some (some [ch % 2 ^ 16])) len (fun _ => True) utf16 where
  starts _ _ := rfl
  units b rest tail c j _ hc heq hj := by
    have hfirst := (first_utf8 hc heq).2
    rcases Nat.lt_or_ge c 0x10000 with hbmp | hsup
    · have hstart : ¬ isSupplementarySequenceStart b = true := by
        rw [isSupplementarySequenceStart_iff]
        omega
      have hutf : utf16 c = [c] := if_pos hbmp
      have hfits : j + (utf16 c).length ≤ len := by
        rw [hutf]
        exact hj
      rw [if_neg hstart, if_pos hfits, hutf, Nat.mod_eq_of_lt (by omega)]
    · have hstart : isSupplementarySequenceStart b = true :=
        isSupplementarySequenceStart_iff.2 (hfirst.2 hsup)
      have hlen : (utf16 c).length = 2 := by
        rw [utf16, if_neg (by omega)]
        rfl
      rw [if_pos hstart, hlen]
      by_cases hlast : j = len - 1
      · rw [if_pos hlast, if_neg (by omega)]
      · rw [if_neg hlast, if_pos (by omega), utf16Encode_eq hsup hc]
        rfl
  pos c := by
    rw [utf16]
    split_ifs <;> simp

theorem stores_utf32 (len : ℕ) :
    Stores (fun _ => true) (fun _ ch _ => some (some [ch])) len (fun _ => True) fun c => [c] where
  starts _ _ := rfl
  units b rest tail c j _ hc heq hj := by
    have hfits : j + [c].length ≤ len := hj
    rw [if_pos hfits]
  pos _ := Nat.one_pos

/-- The decoder answers whether the array is valid; it stores the units `f` of its code points, and
nothing at or beyond their number or `len`. -/
def Decodes (result : Option (Bool × Buffer)) (bytes : List UInt8) (dst : Buffer) (len : ℕ)
    (f : ℕ → List ℕ) : Prop :=
  ∃ dst', result = some (isValid bytes, dst') ∧ (∀ k, len ≤ k → dst' k = dst k) ∧
    ∀ cs, Encodes bytes cs → (cs.flatMap f).length ≤ len ∧ dst' = dst.store 0 (cs.flatMap f)

theorem Encodes.unique {cs' : List ℕ} (h : Encodes bytes cs) (h' : Encodes bytes cs') :
    cs = cs' := by
  induction cs generalizing bytes cs' with
  | nil =>
    obtain rfl : bytes = [] := h.2
    exact (encodes_nil_iff.1 h').symm
  | cons c cs ih =>
    obtain ⟨hle, rfl⟩ := h
    obtain ⟨cs'', rfl, henc⟩ := (encodes_append_iff (hle c (by simp))).1 h'
    rw [ih ⟨fun c' hc' => hle c' (List.mem_cons_of_mem _ hc'), rfl⟩ henc]

/-- Where the units of every encoding fit, the decoder is right. -/
theorem decodes_of_stores {starts : UInt8 → Bool} {len : ℕ} {S : UInt8 → Prop} {f : ℕ → List ℕ}
    {units : UInt8 → ℕ → ℕ → Option (Option (List ℕ))} (h : Stores starts units len S f)
    (hS : ∀ b ∈ bytes, S b) (hfits : ∀ cs, Encodes bytes cs → (cs.flatMap f).length ≤ len)
    (dst : Buffer) :
    Decodes (decodeLoop starts units len bytes.length bytes 0 dst) bytes dst len f := by
  obtain ⟨cs, henc, hle, hloop⟩ | ⟨hno, dst', hloop, hframe⟩ :=
    decodeLoop_spec h dst hS le_rfl (Nat.zero_le len)
  · have hvalid : isValid bytes = true := isValid_iff.2 ⟨cs, henc⟩
    refine ⟨_, by rw [hloop, hvalid], fun k hk => ?_, fun cs' henc' => ?_⟩
    · rw [store_apply, if_neg (by omega)]
    · rw [henc'.unique henc]
      exact ⟨hfits cs henc, rfl⟩
  have hnone : ∀ cs, ¬ Encodes bytes cs := fun cs henc =>
    hno ⟨cs, henc, by rw [Nat.zero_add]; exact hfits cs henc⟩
  have hvalid : isValid bytes = false := by
    rw [← Bool.not_eq_true, isValid_iff]
    rintro ⟨cs, henc⟩
    exact hnone cs henc
  exact ⟨dst', by rw [hloop, hvalid], fun k hk => hframe k (.inr hk),
    fun cs henc => absurd henc (hnone cs)⟩

theorem byte_trail (x : ℕ) : byte (0x80 ||| mask x) = ofNat (0x80 + x % 2 ^ 6) := by
  have htable : ∀ y < 2 ^ 8, 0x80 ||| (y &&& 0xBF) = 0x80 + y % 2 ^ 6 := by decide
  have hmod : (0x80 ||| mask x) % 2 ^ 8 = 0x80 ||| (x % 2 ^ 8 &&& 0xBF) := by
    rw [mask, Nat.or_mod_two_pow, Nat.and_mod_two_pow,
      Nat.mod_eq_of_lt (by norm_num : 0x80 < 2 ^ 8),
      show (2 ^ 32 - 1 - 2 ^ 6) % 2 ^ 8 = 0xBF by norm_num]
  rw [byte, show 256 = 2 ^ 8 from rfl, hmod, htable _ (Nat.mod_lt _ (by norm_num)),
    Nat.mod_mod_of_dvd x (by norm_num)]

/-- The bits of a first byte. -/
theorem byte_first {s : ℕ} (m k : ℕ) (hx : c / 2 ^ s < 2 ^ k) (hm : m * 2 ^ k + c / 2 ^ s < 256) :
    byte (m * 2 ^ k ||| c >>> s) = ofNat (m * 2 ^ k + c / 2 ^ s) := by
  have hor : m * 2 ^ k ||| c / 2 ^ s = m * 2 ^ k + c / 2 ^ s := by
    rw [← Nat.shiftLeft_eq, ← Nat.shiftLeft_add_eq_or_of_lt hx]
  rw [byte, Nat.shiftRight_eq_div_pow, hor, Nat.mod_eq_of_lt hm]

theorem encode_eq (hc : c ≤ kMaxCodePoint) : encode c = utf8 c := by
  have hmax : kMaxCodePoint = 0x10FFFF := rfl
  rw [encode, kMaxOneByteChar, kMaxTwoByteChar, kMaxThreeByteChar]
  rcases (by omega : c < 0x80 ∨ (0x80 ≤ c ∧ c < 0x800) ∨ (0x800 ≤ c ∧ c < 0x10000) ∨ 0x10000 ≤ c)
    with h1 | ⟨h2, h2'⟩ | ⟨h3, h3'⟩ | h4
  · rw [if_pos (by omega), utf8_one h1, byte, Nat.mod_eq_of_lt (by omega)]
  · have hfirst : byte (0xC0 ||| c >>> 6) = ofNat (0xC0 + c / 2 ^ 6) :=
      byte_first 3 6 (by omega) (by omega)
    rw [if_neg (by omega), if_pos (by omega), utf8_two h2 h2', hfirst, byte_trail]
  · have hfirst : byte (0xE0 ||| c >>> 12) = ofNat (0xE0 + c / 2 ^ 12) :=
      byte_first 7 5 (by omega) (by omega)
    rw [if_neg (by omega), if_neg (by omega), if_pos (by omega), utf8_three h3 h3', hfirst,
      byte_trail, byte_trail, Nat.shiftRight_eq_div_pow]
  · have hfirst : byte (0xF0 ||| c >>> 18) = ofNat (0xF0 + c / 2 ^ 18) :=
      byte_first 15 4 (by omega) (by omega)
    rw [if_neg (by omega), if_neg (by omega), if_neg (by omega), utf8_four h4, hfirst,
      byte_trail, byte_trail, byte_trail, Nat.shiftRight_eq_div_pow, Nat.shiftRight_eq_div_pow]

theorem length_flatMap_single (cs : List ℕ) : (cs.flatMap fun c => [c]).length = cs.length := by
  simp

theorem length_le_length_flatMap_utf16 (cs : List ℕ) : cs.length ≤ (cs.flatMap utf16).length := by
  induction cs with
  | nil => simp
  | cons c cs ih =>
    have hpos := (stores_utf16 0).pos c
    rw [List.flatMap_cons, List.length_append, List.length_cons]
    omega

theorem length_flatMap_utf16_of_latin1 (h : Encodes bytes cs)
    (hform : (codeUnitCount bytes).2 = .latin1) : (cs.flatMap utf16).length = cs.length := by
  have hstart := isLatin1SequenceStart_of_codeUnitCount hform
  obtain ⟨hle, rfl⟩ := h
  clear hform
  induction cs with
  | nil => rfl
  | cons c cs ih =>
    obtain ⟨b, rest, hb⟩ := List.exists_cons_of_ne_nil (utf8_ne_nil c)
    have hb' : utf8 c ++ [] = b :: rest := by rw [List.append_nil, hb]
    have hbound : c ≤ 0xFF := (first_utf8 (hle c (by simp)) hb').1
      (isLatin1SequenceStart_iff.1 (hstart b (by simp [hb])))
    have hone : utf16 c = [c] := if_pos (by omega)
    rw [List.flatMap_cons, List.length_append, hone, List.length_cons,
      ih (fun c' hc' => hle c' (List.mem_cons_of_mem _ hc'))
        fun b hb => hstart b (List.mem_append_right _ hb)]
    simp [Nat.add_comm]

/-- **UTF-8 in the virtual machine.**  The array is valid exactly when repeated decoding consumes
it, and when it encodes code points up to `0x10FFFF`, surrogates included.  With the count as the
length the decoders succeed exactly on valid arrays; those to Latin-1 and UTF-16 fill the
destination with the units of the code points, the one to UTF-32 stores the code points, which are
no more.  Nothing is written at or beyond the length.  Encoding a code point and decoding it gives
it back. -/
theorem decoders_correct (bytes : List UInt8) (dst : Buffer) :
    (isValid bytes = true ↔ Consumes bytes) ∧ (isValid bytes = true ↔ ∃ cs, Encodes bytes cs) ∧
    (∀ cs, Encodes bytes cs → (cs.flatMap utf16).length = (codeUnitCount bytes).1 ∧
      ((codeUnitCount bytes).2 = .latin1 → cs.length = (codeUnitCount bytes).1)) ∧
    ((codeUnitCount bytes).2 = .latin1 →
      Decodes (decodeToLatin1 bytes dst (codeUnitCount bytes).1) bytes dst (codeUnitCount bytes).1
        fun c => [c]) ∧
    Decodes (decodeToUTF16 bytes dst (codeUnitCount bytes).1) bytes dst (codeUnitCount bytes).1
      utf16 ∧
    Decodes (decodeToUTF32 bytes dst (codeUnitCount bytes).1) bytes dst (codeUnitCount bytes).1
      (fun c => [c]) ∧ ∀ c ≤ kMaxCodePoint, ∃ b rest, encode c = b :: rest ∧
      ∀ tail, decode b (rest ++ tail) = ((c : ℤ), (encode c).length) := by
  have hcount : ∀ cs, Encodes bytes cs → (cs.flatMap utf16).length = (codeUnitCount bytes).1 :=
    fun cs henc => by rw [codeUnitCount_encodes henc]
  have hlength : ∀ cs, Encodes bytes cs →
      (cs.flatMap fun c => [c]).length ≤ (codeUnitCount bytes).1 := by
    intro cs henc
    rw [length_flatMap_single, ← hcount cs henc]
    exact length_le_length_flatMap_utf16 cs
  refine ⟨isValid_iff.trans consumes_iff.symm, isValid_iff, fun cs henc => ⟨hcount cs henc, ?_⟩,
    fun hform => ?_, ?_, ?_, fun c hc => ?_⟩
  · intro hform
    rw [← hcount cs henc, length_flatMap_utf16_of_latin1 henc hform]
  · exact decodes_of_stores (stores_latin1 _) (isLatin1SequenceStart_of_codeUnitCount hform) hlength
      dst
  · exact decodes_of_stores (stores_utf16 _) (fun _ _ => trivial)
      (fun cs henc => (hcount cs henc).le) dst
  · exact decodes_of_stores (stores_utf32 _) (fun _ _ => trivial) hlength dst
  · rw [encode_eq hc]
    obtain ⟨b, rest, hb⟩ := List.exists_cons_of_ne_nil (utf8_ne_nil c)
    refine ⟨b, rest, hb, fun tail => ?_⟩
    exact (decode_utf8 hc (by rw [hb]; rfl : utf8 c ++ tail = b :: (rest ++ tail))).1

/-- The bytes of a surrogate are valid and not well-formed; one supplementary code point counts as
two units, and the decoder to UTF-32 stores one. -/
theorem surrogate_valid : isValid [0xED, 0xA0, 0x80] = true ∧ ¬ WellFormed [0xED, 0xA0, 0x80] ∧
    codeUnitCount [0xF0, 0x90, 0x80, 0x80] = (2, .supplementary) ∧
    ((decodeToUTF32 [0xF0, 0x90, 0x80, 0x80] (fun _ => none) 2).map fun r => (r.1, r.2 0, r.2 1)) =
      some (true, some 0x10000, none) := by
  refine ⟨rfl, ?_, rfl, rfl⟩
  rintro ⟨cs, henc, hscalar⟩
  have hsurrogate : Encodes [0xED, 0xA0, 0x80] [0xD800] := ⟨by decide, rfl⟩
  obtain rfl := henc.unique hsurrogate
  exact hscalar 0xD800 (by simp) (by decide)

end VmUtf8
