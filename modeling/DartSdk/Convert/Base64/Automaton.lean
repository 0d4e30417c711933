import DartSdk.Convert.Base64.Decoder
import DartSdk.Lib.Transducer
import Mathlib.Tactic.IntervalCases

/-!
# Convert/Base64/Automaton — one character at a time

`step` says what one character does: it adds six bits to the unfinished block, completes the block,
begins the padding or goes on with it.  `_checkPadding`, which takes up to three characters in an
iteration, is a run of it (`checkPadding_spec`).
-/

namespace Base64

open Transducer

variable {char expected e e₁ : ℕ} {chars : List ℕ}

/-- The state between two characters: the bits of the unfinished block and the number of its
characters, or the number of padding characters still to come. -/
inductive State where
  | data (bits count : ℕ)
  | pad (expected : ℕ)
  deriving DecidableEq, Repr

namespace State

/-- The source's encoding. -/
def code : State → ℤ
  | data bits count => encodeCharacterState count bits
  | pad expected => encodePaddingState expected

/-- The bits of a state fit the number of characters read. -/
def Valid : State → Prop
  | data bits count => count < 4 ∧ bits < 64 ^ count
  | pad expected => expected ≤ 5

/-- A state where the text may end. -/
def Final : State → Prop
  | data _ count => count = 0
  | pad expected => expected = 0

instance : DecidablePred Final
  | data _ count => inferInstanceAs (Decidable (count = 0))
  | pad expected => inferInstanceAs (Decidable (expected = 0))

end State

/-- A character that begins a padding. -/
def IsPad (char : ℕ) : Prop := char = paddingChar ∨ char = charPercent

theorem codeOf_ascii (h : char ≤ asciiMax) : codeOf char = inverseAlphabet.getD char invalid := by
  have hmod : char &&& 127 = char := by
    rw [Nat.and_two_pow_sub_one_eq_mod char 7]
    exact Nat.mod_eq_of_lt (Nat.lt_succ_of_le h)
  rw [codeOf, hmod]

theorem codeOf_lt (char : ℕ) : codeOf char < 64 := by
  have htable : ∀ c < 128, inverseAlphabet.getD c invalid < 64 := by decide
  refine htable _ ?_
  rw [Nat.and_two_pow_sub_one_eq_mod char 7]
  exact Nat.mod_lt _ (by decide)

theorem codeOf_eq_padding_iff (h : char ≤ asciiMax) : codeOf char = padding ↔ IsPad char := by
  have htable : ∀ c < 128, inverseAlphabet.getD c invalid = padding ↔
      c = paddingChar ∨ c = charPercent := by decide
  rw [codeOf_ascii h]
  exact htable char (Nat.lt_succ_of_le h)

theorem IsPad.le_asciiMax (h : IsPad char) : char ≤ asciiMax := by
  rcases h with rfl | rfl <;> decide

theorem IsPad.codeOf (h : IsPad char) : codeOf char = padding :=
  (codeOf_eq_padding_iff h.le_asciiMax).mpr h

theorem toNat_codeOf_lt (char : ℕ) : (codeOf char).toNat < 64 := by
  have := codeOf_lt char
  omega

/-- The padding after one more character. -/
def padNext (expected char : ℕ) : Option ℕ :=
  match expected with
  | 1 | 4 => if (char ||| 0x20) = charD then some (expected - 1) else none
  | 2 | 5 => if char = char3 then some (expected - 1) else none
  | 3 => if char = paddingChar then some 0 else if char = charPercent then some 2 else none
  | _ => none

/-- The first character of the padding, after `count` characters of a block. -/
def firstPad (count char : ℕ) : ℕ := (3 - count) * 3 + if char = charPercent then 2 else 0

/-- One character: the bytes that it completes, and the next state. -/
def step : State → ℕ → Except Unit (List ℕ × State)
  | .data bits count, char =>
    if asciiMax < char then .error ()
    else if 0 ≤ codeOf char then
      let bits := bits * 64 + (codeOf char).toNat
      if count = 3 then .ok ([bits / 65536, bits / 256 % 256, bits % 256], .data 0 0)
      else .ok ([], .data bits (count + 1))
    else if codeOf char = padding ∧ 1 < count then
      if count = 3 then
        if bits % 4 = 0 then .ok ([bits / 1024, bits / 4 % 256], .pad (firstPad count char))
        else .error ()
      else if bits % 16 = 0 then .ok ([bits / 16], .pad (firstPad count char))
      else .error ()
    else .error ()
  | .pad expected, char =>
    match padNext expected char with
    | some expected => .ok ([], .pad expected)
    | none => .error ()

theorem step_pad {expected' : ℕ} (h : padNext expected char = some expected') :
    step (.pad expected) char = .ok ([], .pad expected') := by
  simp [step, h]

theorem step_pad_none (h : padNext expected char = none) :
    step (.pad expected) char = .error () := by
  simp [step, h]

theorem padNext_le {expected' : ℕ} (h : padNext expected char = some expected') :
    expected' < expected ∧ expected ≤ 5 := by
  unfold padNext at h
  split at h
  case h_6 => cases h
  all_goals split_ifs at h <;> cases h <;> omega

/-- **A step keeps the state valid.** -/
theorem step_valid {st st' : State} {out : List ℕ} (hst : st.Valid)
    (h : step st char = .ok (out, st')) : st'.Valid := by
  cases st with
  | data bits count =>
    obtain ⟨hcount, hbits⟩ := hst
    have hcode := toNat_codeOf_lt char
    simp only [step] at h
    split_ifs at h with h1 h2 h3 h4 h5 h6 h7
    · cases h
      exact ⟨by decide, by decide⟩
    · cases h
      refine ⟨by omega, ?_⟩
      omega
    all_goals
      cases h
      simp only [State.Valid, firstPad]
      split_ifs <;> omega
  | pad expected =>
    simp only [step] at h
    split at h
    · rename_i expected' hnext
      cases h
      have := padNext_le hnext
      simp only [State.Valid]
      omega
    · cases h

/-- Padding characters are read from the front of a list. -/
def Reads (e : ℕ) (chars : List ℕ) (e' : ℕ) (rest : List ℕ) : Prop :=
  ∃ pre, chars = pre ++ rest ∧ run step (.pad e) pre = ([], .ok (.pad e'))

theorem Reads.refl (e : ℕ) (chars : List ℕ) : Reads e chars e chars := ⟨[], rfl, rfl⟩

theorem Reads.cons {e' : ℕ} {rest : List ℕ} (hnext : padNext e char = some e₁)
    (h : Reads e₁ chars e' rest) : Reads e (char :: chars) e' rest := by
  obtain ⟨pre, rfl, hrun⟩ := h
  exact ⟨char :: pre, rfl, by rw [run_cons_ok (step_pad hnext), hrun]; rfl⟩

theorem Reads.trans {e' : ℕ} {rest1 rest : List ℕ} (h1 : Reads e chars e₁ rest1)
    (h : Reads e₁ rest1 e' rest) : Reads e chars e' rest := by
  obtain ⟨pre1, rfl, hrun1⟩ := h1
  obtain ⟨pre, rfl, hrun⟩ := h
  exact ⟨pre1 ++ pre, (List.append_assoc ..).symm, by rw [run_append_ok hrun1, hrun]; rfl⟩

/-- The next character is no padding, if there is one. -/
def Stuck (e : ℕ) : List ℕ → Prop
  | [] => True
  | char :: _ => padNext e char = none

/-- What an iteration has read, and why it ends. -/
def PaddingSpec (e : ℕ) (chars : List ℕ) : PaddingStep → Prop
  | .leave e' rest => Reads e chars e' rest ∧ Stuck e' rest
  | .go e' rest => Reads e chars e' rest ∧ rest ≠ []

theorem PaddingSpec.cons {r : PaddingStep}
    (hnext : padNext e char = some e₁) (h : PaddingSpec e₁ chars r) :
    PaddingSpec e (char :: chars) r := by
  cases r <;> exact ⟨h.1.cons hnext, h.2⟩

theorem expectD_spec (he : e = 1 ∨ e = 4) (char : ℕ) (rest : List ℕ) :
    PaddingSpec e (char :: rest) (expectD e char rest) := by
  have hnext : padNext e char = if (char ||| 0x20) = charD then some (e - 1) else none := by
    rcases he with rfl | rfl <;> rfl
  unfold expectD
  split_ifs with hd hrest
  · exact ⟨.refl _ _, by rw [Stuck, hnext, if_neg hd]⟩
  · rw [if_pos (not_not.mp hd)] at hnext
    rw [hrest]
    exact ⟨.cons hnext (.refl _ _), trivial⟩
  · rw [if_pos (not_not.mp hd)] at hnext
    exact ⟨.cons hnext (.refl _ _), hrest⟩

theorem expectPartial_spec (he : e = 1 ∨ e = 2 ∨ e = 4 ∨ e = 5) (char : ℕ) (rest : List ℕ) :
    PaddingSpec e (char :: rest) (expectPartial e char rest) := by
  unfold expectPartial
  by_cases hd : e = 1 ∨ e = 4
  · have hpartial : ¬ (if 3 < e then e - 3 else e) = 2 := by split_ifs <;> omega
    simp only [if_neg hpartial]
    exact expectD_spec hd char rest
  have he : e = 2 ∨ e = 5 := by omega
  have hpartial : (if 3 < e then e - 3 else e) = 2 := by split_ifs <;> omega
  have hnext : padNext e char = if char = char3 then some (e - 1) else none := by
    rcases he with rfl | rfl <;> rfl
  simp only [if_pos hpartial]
  split_ifs with h3
  · exact ⟨.refl _ _, by rw [Stuck, hnext, if_neg h3]⟩
  · rw [if_pos (not_not.mp h3)] at hnext
    cases rest with
    | nil => exact ⟨.cons hnext (.refl _ _), trivial⟩
    | cons char' rest => exact .cons hnext (expectD_spec (by omega) char' rest)

theorem paddingStep_spec (he : 0 < e) (he5 : e ≤ 5) (char : ℕ) (rest : List ℕ) :
    PaddingSpec e (char :: rest) (paddingStep e char rest) := by
  unfold paddingStep
  split_ifs with h3 heq hpercent
  · subst h3
    have hnext : padNext 3 char = some 0 := if_pos heq
    refine ⟨.cons hnext (.refl _ _), ?_⟩
    cases rest with
    | nil => trivial
    | cons => rfl
  · subst h3
    have hnext : padNext 3 char = some 2 := (if_neg heq).trans (if_pos hpercent)
    cases rest with
    | nil => exact ⟨.cons hnext (.refl _ _), trivial⟩
    | cons char' rest => exact .cons hnext (expectPartial_spec (by decide) char' rest)
  · subst h3
    exact ⟨.refl _ _, (if_neg heq).trans (if_neg hpercent)⟩
  · exact expectPartial_spec (by omega) char rest

/-- **The loop reads as much padding as there is.** -/
theorem checkPaddingLoop_spec (he5 : e ≤ 5) (hne : chars ≠ []) :
    ∃ e' rest, checkPaddingLoop e chars = .ok (e', rest) ∧ Reads e chars e' rest ∧
      Stuck e' rest := by
  induction e using Nat.strong_induction_on generalizing chars with
  | _ e ih =>
  rw [checkPaddingLoop.eq_def]
  by_cases h0 : e = 0
  · subst h0
    refine ⟨0, chars, by simp, .refl _ _, ?_⟩
    cases chars with
    | nil => trivial
    | cons => rfl
  rw [dif_neg h0]
  cases chars with
  | nil => exact absurd rfl hne
  | cons char rest =>
    have hspec := paddingStep_spec (Nat.pos_of_ne_zero h0) he5 char rest
    simp only
    split
    · rename_i e' rest' heq
      rw [heq] at hspec
      exact ⟨e', rest', rfl, hspec⟩
    · rename_i e' rest' heq
      have hle := paddingStep_go heq
      rw [heq] at hspec
      obtain ⟨e'', rest'', hloop, hreads, hstuck⟩ := ih e' (by omega) (by omega) hspec.2
      exact ⟨e'', rest'', hloop, hspec.1.trans hreads, hstuck⟩

/-- The result of a run, or a `FormatException`. -/
def Follows {α : Type} (result : Except Exn α) (P : α → List ℕ → State → Prop) :
    List ℕ × Except Unit State → Prop
  | (out, .ok st) => ∃ a, result = .ok a ∧ P a out st
  | (_, .error _) => ∃ message offset, result = .error (.format message offset)

/-- **`_checkPadding`** is a run over the characters. -/
theorem checkPadding_spec (he5 : e ≤ 5) (start : ℕ) (chars : List ℕ) :
    Follows (checkPadding start chars (encodePaddingState e))
      (fun state out st => state = st.code ∧ out = []) (run step (.pad e) chars) := by
  by_cases hne : chars = []
  · subst hne
    exact ⟨_, rfl, rfl, rfl⟩
  have hstate : statePadding (encodePaddingState e) = e := by
    simp [statePadding, encodePaddingState]
  obtain ⟨e', rest, hloop, ⟨pre, rfl, hrun⟩, hstuck⟩ := checkPaddingLoop_spec he5 hne
  rw [checkPadding, if_neg hne, hstate, hloop]
  cases rest with
  | nil =>
    rw [List.append_nil, hrun]
    exact ⟨_, rfl, rfl, rfl⟩
  | cons char rest =>
    rw [run_append_ok hrun, run_cons_error (step_pad_none hstuck)]
    exact ⟨_, _, rfl⟩

end Base64
