import DartSdk.Convert.Utf8.Decoder

/-!
# Convert/Utf8/Automaton — what the tables say

`next` is the automaton by ranges of bytes, and `transition_eq` says that the tables agree with it.
Between bytes the decoder is at a character boundary or inside of a character: `Carry` lists the
states and the values of the bits collected so far.  `need` is the number of extension bytes still
to come and `units` the number of code units that the character will have; `step_cases` says how one
byte changes them.
-/

namespace Utf8

set_option maxRecDepth 10000

/-- The next state, by ranges of bytes. -/
def next (state b : ℕ) : ℕ :=
  if state = IA then
    if b < 0x80 then IA
    else if b < 0xC0 then E2
    else if b < 0xC2 then E3
    else if b < 0xE0 then X1
    else if b = 0xE0 then TO
    else if b = 0xED then TS
    else if b < 0xF0 then X2
    else if b = 0xF0 then QO
    else if b < 0xF4 then X3
    else if b = 0xF4 then QR
    else E3
  else if b < 0x80 ∨ 0xC0 ≤ b then E1
  else if state = X1 then IA
  else if state = X2 then X1
  else if state = X3 then X2
  else if state = TO then if b < 0xA0 then E4 else X1
  else if state = TS then if b < 0xA0 then X1 else E6
  else if state = QO then if b < 0x90 then E4 else X2
  else if b < 0x90 then X2 else E5

/-- The states between bytes. -/
def states : List ℕ := [IA, X1, X2, X3, TO, TS, QO, QR]

/-- The type of a byte, by ranges. -/
def byteType (b : ℕ) : ℕ :=
  if b < 0x80 then 1
  else if b < 0x90 then 6
  else if b < 0xA0 then 7
  else if b = 0xBB then 9
  else if b < 0xBF then 8
  else if b < 0xC0 then 10
  else if b < 0xC2 then 5
  else if b < 0xE0 then 2
  else if b = 0xE0 then 11
  else if b = 0xED then 4
  else if b < 0xEF then 3
  else if b = 0xEF then 12
  else if b = 0xF0 then 15
  else if b < 0xF4 then 14
  else if b = 0xF4 then 13
  else 5

theorem typeOf_eq (byte : Byte) : typeOf byte = byteType byte := by
  revert byte
  decide +kernel

theorem transition_eq (h : state ∈ states) (byte : Byte) :
    transition (state + typeOf byte) = next state byte := by
  have htable : ∀ state ∈ states, ∀ byte : Byte,
      transition (state + byteType byte) = next state byte := by decide +kernel
  rw [typeOf_eq]
  exact htable state h byte

/-- The bits of a first byte. -/
theorem first_bits (byte : Byte) : byte.val &&& (shiftedByteMask >>> typeOf byte) =
      if byte.val < 0x80 then byte.val
      else if byte.val < 0xC0 then byte.val &&& (shiftedByteMask >>> typeOf byte)
      else if byte.val < 0xC2 then byte.val &&& (shiftedByteMask >>> typeOf byte)
      else if byte.val < 0xE0 then byte.val - 0xC0
      else if byte.val < 0xF0 then byte.val - 0xE0
      else if byte.val < 0xF5 then byte.val - 0xF0
      else byte.val &&& (shiftedByteMask >>> typeOf byte) := by
  rw [typeOf_eq]
  revert byte
  decide

theorem isExtension_iff (byte : Byte) : isExtension byte = true ↔
    0x80 ≤ byte.val ∧ byte.val < 0xC0 := by
  revert byte
  decide

/-- The bits of an extension byte go to the end. -/
theorem extension_bits (byte : Byte) (char : ℕ) :
    (byte.val &&& 0x3F) ||| (char <<< 6) = char * 64 + byte.val % 64 := by
  have hmask : byte.val &&& 0x3F = byte.val % 64 := Nat.and_two_pow_sub_one_eq_mod _ 6
  have hlt : byte.val % 64 < 2 ^ 6 := Nat.mod_lt _ (by decide)
  rw [hmask, Nat.or_comm, Nat.shiftLeft_eq, Nat.mul_comm, ← Nat.two_pow_add_eq_or_of_lt hlt]

/-- At a boundary, or inside of a character whose first bytes gave the bits `char`. -/
inductive Carry : ℕ → ℕ → Prop
  | boundary (char : ℕ) : Carry IA char
  | one {char : ℕ} : 2 ≤ char → char < 0x4400 → Carry X1 char
  | two {char : ℕ} : 1 ≤ char → char < 0x110 → Carry X2 char
  | three {char : ℕ} : 1 ≤ char → char ≤ 3 → Carry X3 char
  | overlong3 : Carry TO 0
  | surrogate : Carry TS 0xD
  | overlong4 : Carry QO 0
  | outOfRange : Carry QR 4

/-- Extension bytes still to come. -/
def need (state : ℕ) : ℕ :=
  if state = IA then 0 else if state = X1 then 1
  else if state = X2 ∨ state = TO ∨ state = TS then 2 else 3

/-- The code units of the character that was begun. -/
def units (state char : ℕ) : ℕ :=
  if state = IA then 0
  else if state = X1 then if char < 0x400 then 1 else 2
  else if state = X2 then if char < 0x10 then 1 else 2
  else if state = TO ∨ state = TS then 1 else 2

theorem units_X1 (char : ℕ) : units X1 char = if char < 0x400 then 1 else 2 := rfl

theorem units_X2 (char : ℕ) : units X2 char = if char < 0x10 then 1 else 2 := rfl

variable {state char : ℕ}

theorem Carry.mem_states (h : Carry state char) : state ∈ states := by
  cases h <;> decide

theorem Carry.not_error (h : Carry state char) : isErrorState state = false := by
  cases h <;> rfl

theorem Carry.need_pos (h : Carry state char) (hne : state ≠ IA) : 0 < need state := by
  cases h
  case boundary => exact absurd rfl hne
  all_goals decide

/-- The next bits: those of a first byte, or the bits so far and those of an extension byte. -/
def nextChar (state char : ℕ) (byte : Byte) : ℕ :=
  if state ≤ afterBom then byte.val &&& (shiftedByteMask >>> typeOf byte)
  else (byte.val &&& 0x3F) ||| (char <<< 6)

theorem Carry.not_le_afterBom (h : Carry state char) (hne : state ≠ IA) : ¬ state ≤ afterBom := by
  cases h
  case boundary => exact absurd rfl hne
  all_goals decide

theorem Carry.nextChar_inside (h : Carry state char) (hne : state ≠ IA) (byte : Byte) :
    nextChar state char byte = char * 64 + byte.val % 64 := by
  rw [nextChar, if_neg (h.not_le_afterBom hne), extension_bits]

/-- What a byte does to the decoder, between characters or inside of one. -/
inductive Step (state char : ℕ) (byte : Byte) (state' char' : ℕ) : Prop
  | ascii : state = IA → byte.val < 0x80 → state' = IA → char' = byte.val → Step ..
  | lead : state = IA → 0xC2 ≤ byte.val → byte.val < 0xF5 → state' ≠ IA → Carry state' char' →
      need state' = (if byte.val < 0xE0 then 1 else if byte.val < 0xF0 then 2 else 3) →
      units state' char' = (if byte.val < 0xF0 then 1 else 2) → Step ..
  | bad : state = IA → 0x80 ≤ byte.val → (byte.val < 0xC2 ∨ 0xF5 ≤ byte.val) →
      state' = E2 ∨ state' = E3 → Step ..
  | missing : state ≠ IA → (byte.val < 0x80 ∨ 0xC0 ≤ byte.val) → state' = E1 → Step ..
  | refused : state ≠ IA → 0x80 ≤ byte.val → byte.val < 0xC0 →
      state' = E4 ∨ state' = E5 ∨ state' = E6 → Step ..
  | extend : state ≠ IA → 0x80 ≤ byte.val → byte.val < 0xC0 → state' ≠ IA → Carry state' char' →
      need state = need state' + 1 → units state' char' = units state char → Step ..
  | complete : state ≠ IA → 0x80 ≤ byte.val → byte.val < 0xC0 → state' = IA → need state = 1 →
      char' < 0x110000 → (charUnits char').length = units state char → Step ..

theorem length_charUnits (char : ℕ) :
    (charUnits char).length = if 0x10000 ≤ char then 2 else 1 := by
  unfold charUnits
  split <;> rfl

theorem step_first (byte : Byte) (char : ℕ) :
    Step IA char byte (next IA byte) (byte.val &&& (shiftedByteMask >>> typeOf byte)) := by
  rw [first_bits byte]
  by_cases hascii : byte.val < 0x80
  · exact .ascii rfl hascii (by simp [next, hascii]) (by simp [hascii])
  by_cases hlead : 0xC2 ≤ byte.val ∧ byte.val < 0xF5
  · obtain ⟨hlo, hhi⟩ := hlead
    have hext : ¬ byte.val < 0xC0 := by omega
    have hbad : ¬ byte.val < 0xC2 := by omega
    by_cases h2 : byte.val < 0xE0
    · simp only [next, if_pos, hascii, hext, hbad, h2, if_false]
      refine .lead rfl hlo hhi (by decide) (.one (by omega) (by omega)) ?_ ?_
      · rw [if_pos h2]
        rfl
      · rw [units_X1, if_pos (by omega), if_pos (by omega)]
    have hlead : ∀ {state' char'}, Carry state' char' → state' ≠ IA →
        need state' = (if byte.val < 0xF0 then 2 else 3) →
        units state' char' = (if byte.val < 0xF0 then 1 else 2) →
          Step IA char byte state' char' := by
      intro state' char' hcarry hne hneed hunits
      refine .lead rfl hlo hhi hne hcarry ?_ hunits
      rw [hneed, if_neg h2]
    by_cases h3 : byte.val < 0xF0
    · simp only [if_pos h3] at hlead
      simp only [next, if_pos, hascii, hext, hbad, h2, h3, if_false]
      split_ifs with he0 hed
      · rw [he0]
        exact hlead .overlong3 (by decide) rfl rfl
      · rw [hed]
        exact hlead .surrogate (by decide) rfl rfl
      · refine hlead (.two (by omega) (by omega)) (by decide) rfl ?_
        rw [units_X2, if_pos (by omega)]
    · simp only [if_neg h3] at hlead
      have he0 : byte.val ≠ 0xE0 := by omega
      have hed : byte.val ≠ 0xED := by omega
      simp only [next, if_pos, hascii, hext, hbad, h2, h3, hhi, he0, hed, if_false]
      split_ifs with hf0 h4 hf4
      · rw [hf0]
        exact hlead .overlong4 (by decide) rfl rfl
      · exact hlead (.three (by omega) (by omega)) (by decide) rfl rfl
      · rw [hf4]
        exact hlead .outOfRange (by decide) rfl rfl
      · omega
  · have hstate : next IA byte = E2 ∨ next IA byte = E3 := by
      simp only [next, hascii, if_true, if_false]
      split_ifs <;> omega
    exact .bad rfl (by omega) (by omega) hstate

/-- **One byte.** -/
theorem Carry.step (h : Carry state char) (byte : Byte) :
    Step state char byte (transition (state + typeOf byte)) (nextChar state char byte) := by
  rw [transition_eq h.mem_states]
  by_cases hstate : state = IA
  · subst hstate
    exact step_first byte char
  by_cases hext : 0x80 ≤ byte.val ∧ byte.val < 0xC0
  swap
  · exact .missing hstate (by omega) (by rw [next, if_neg hstate, if_pos (by omega)])
  obtain ⟨hlo, hhi⟩ := hext
  have hno : ¬ (byte.val < 0x80 ∨ 0xC0 ≤ byte.val) := by omega
  rw [h.nextChar_inside hstate]
  have hextend {state' : ℕ} (hnext : next state byte = state') (hne : state' ≠ IA)
      (hcarry : Carry state' (char * 64 + byte.val % 64)) (hneed : need state = need state' + 1)
      (hunits : units state' (char * 64 + byte.val % 64) = units state char) :
      Step state char byte (next state byte) (char * 64 + byte.val % 64) := by
    rw [hnext]
    exact .extend hstate hlo hhi hne hcarry hneed hunits
  cases h with
  | boundary => exact absurd rfl hstate
  | one hmin hmax =>
    refine .complete hstate hlo hhi (by simp [next, hno]) rfl (by omega) ?_
    rw [length_charUnits, units_X1]
    split_ifs <;> omega
  | two hmin hmax =>
    refine hextend (by simp [next, hno]) (by decide) (.one (by omega) (by omega)) rfl ?_
    rw [units_X1, units_X2]
    split_ifs <;> omega
  | three hmin hmax =>
    refine hextend (by simp [next, hno]) (by decide) (.two (by omega) (by omega)) rfl ?_
    rw [units_X2, if_neg (by omega)]
    rfl
  | overlong3 =>
    by_cases hsmall : byte.val < 0xA0
    · exact .refused hstate hlo hhi (by simp [next, hno, hsmall])
    refine hextend (by simp [next, hno, hsmall]) (by decide) (.one (by omega) (by omega)) rfl ?_
    rw [units_X1, if_pos (by omega)]
    rfl
  | surrogate =>
    by_cases hsmall : byte.val < 0xA0
    · refine hextend (by simp [next, hno, hsmall]) (by decide) (.one (by omega) (by omega)) rfl ?_
      rw [units_X1, if_pos (by omega)]
      rfl
    · exact .refused hstate hlo hhi (by simp [next, hno, hsmall])
  | overlong4 =>
    by_cases hsmall : byte.val < 0x90
    · exact .refused hstate hlo hhi (by simp [next, hno, hsmall])
    refine hextend (by simp [next, hno, hsmall]) (by decide) (.two (by omega) (by omega)) rfl ?_
    rw [units_X2, if_neg (by omega)]
    rfl
  | outOfRange =>
    by_cases hsmall : byte.val < 0x90
    · refine hextend (by simp [next, hno, hsmall]) (by decide) (.two (by omega) (by omega)) rfl ?_
      rw [units_X2, if_neg (by omega)]
      rfl
    · exact .refused hstate hlo hhi (by simp [next, hno, hsmall])

end Utf8
