import DartSdk.Convert.Base64.DecoderSink
import DartSdk.Convert.Base64.Encoder

/-!
# Convert/Base64/Text — base64 texts

`Text` says which texts stand for which bytes: blocks of four characters of either alphabet, and at
the end two or three characters with padding, whose unused bits are zero.  A padding is `=` or its
percent-escape.  The decoder accepts exactly these (`decoded_iff`), and what it does not refuse at
once can be continued to one of them (`not_refused_iff`).
-/

namespace Base64

open Transducer

variable {char i bits count : ℕ} {rest w chars : List ℕ} {st : State}

/-- A character of an alphabet. -/
def Digit (char i : ℕ) : Prop :=
  i < 64 ∧ (char = codeUnitAt base64Alphabet i ∨ char = codeUnitAt base64UrlAlphabet i)

/-- `=`, `%3D` or `%3d`. -/
inductive Padding : List ℕ → Prop
  | equals : Padding [paddingChar]
  | escaped : Padding [charPercent, char3, 0x44]
  | escapedLower : Padding [charPercent, char3, 0x64]

/-- **A base64 text and the bytes it stands for.** -/
inductive Text : List ℕ → List ℕ → Prop
  | nil : Text [] []
  | block {a b c d i j k l v : ℕ} {text bytes : List ℕ} :
      Digit a i → Digit b j → Digit c k → Digit d l → v = ((i * 64 + j) * 64 + k) * 64 + l →
      Text text bytes →
      Text (a :: b :: c :: d :: text) (v / 65536 :: v / 256 % 256 :: v % 256 :: bytes)
  | three {a b c i j k v : ℕ} {p : List ℕ} :
      Digit a i → Digit b j → Digit c k → v = (i * 64 + j) * 64 + k → v % 4 = 0 → Padding p →
      Text (a :: b :: c :: p) [v / 1024, v / 4 % 256]
  | two {a b i j v : ℕ} {p q : List ℕ} :
      Digit a i → Digit b j → v = i * 64 + j → v % 16 = 0 → Padding p → Padding q →
      Text (a :: b :: (p ++ q)) [v / 16]

theorem digit_iff : Digit char i ↔ char ≤ asciiMax ∧ codeOf char = i := by
  have hdigits : ∀ i < 64, (codeUnitAt base64Alphabet i ≤ 127 ∧
      inverseAlphabet.getD (codeUnitAt base64Alphabet i) invalid = i) ∧
      codeUnitAt base64UrlAlphabet i ≤ 127 ∧
      inverseAlphabet.getD (codeUnitAt base64UrlAlphabet i) invalid = i := by decide
  have htable : ∀ c < 128, inverseAlphabet.getD c invalid < 0 ∨
      c = codeUnitAt base64Alphabet (inverseAlphabet.getD c invalid).toNat ∨
      c = codeUnitAt base64UrlAlphabet (inverseAlphabet.getD c invalid).toNat := by decide
  constructor
  · rintro ⟨hi, hchar⟩
    obtain ⟨⟨hle, hcode⟩, hle', hcode'⟩ := hdigits i hi
    rcases hchar with rfl | rfl
    · exact ⟨hle, (codeOf_ascii hle).trans hcode⟩
    · exact ⟨hle', (codeOf_ascii hle').trans hcode'⟩
  · rintro ⟨hle, hcode⟩
    have hlt := codeOf_lt char
    have h := htable char (Nat.lt_succ_of_le hle)
    rw [← codeOf_ascii hle, hcode, Int.toNat_natCast] at h
    exact ⟨by omega, h.resolve_left (by omega)⟩

theorem or_eq_charD : (char ||| 0x20) = charD ↔ char = 0x44 ∨ char = 0x64 := by
  have htable : ∀ c ≤ 0x64, (c ||| 0x20) = 0x64 → c = 0x44 ∨ c = 0x64 := by decide
  constructor
  · intro h
    exact htable char (Nat.left_le_or.trans h.le) h
  · rintro (rfl | rfl) <;> rfl

theorem padding_of_or (h : (char ||| 0x20) = charD) : Padding [charPercent, char3, char] := by
  rcases or_eq_charD.mp h with rfl | rfl
  · exact .escaped
  · exact .escapedLower

/-! ## What the automaton reads

The texts that are accepted, and their bytes. -/

theorem run_digit (h : Digit char i) (hcount : count ≠ 3) :
    run step (.data bits count) (char :: rest) =
      run step (.data (bits * 64 + i) (count + 1)) rest := by
  obtain ⟨hle, hcode⟩ := digit_iff.mp h
  have hstep := step_digit bits count hle (by omega)
  rw [if_neg hcount, hcode, Int.toNat_natCast] at hstep
  rw [run_cons_ok hstep]
  rfl

theorem run_digit_three {v : ℕ} (h : Digit char i) (hv : v = bits * 64 + i) :
    run step (.data bits 3) (char :: rest) =
      (v / 65536 :: v / 256 % 256 :: v % 256 :: (run step (.data 0 0) rest).1,
        (run step (.data 0 0) rest).2) := by
  obtain ⟨hle, hcode⟩ := digit_iff.mp h
  have hstep := step_digit bits 3 hle (by omega)
  rw [if_pos rfl, hcode, Int.toNat_natCast, ← hv] at hstep
  rw [run_cons_ok hstep]
  rfl

/-- The next character is one of an alphabet, or begins the padding. -/
theorem run_data_cons (hcount : count < 4)
    (h : run step (.data bits count) (char :: rest) = (w, .ok st)) : (∃ i, Digit char i) ∨
      IsPad char ∧ (count = 3 ∧ bits % 4 = 0 ∧ w = [bits / 1024, bits / 4 % 256] ∨
          count = 2 ∧ bits % 16 = 0 ∧ w = [bits / 16]) ∧
        run step (.pad (firstPad count char)) rest = ([], .ok st) := by
  obtain ⟨w1, st1, w2, hstep, hrest, rfl⟩ := exists_of_run_cons h
  rcases step_data_cases hstep with ⟨hascii, hcode, -⟩ | ⟨hpad, rfl, hw⟩
  · exact Or.inl ⟨(codeOf char).toNat, digit_iff.mpr ⟨hascii, by omega⟩⟩
  obtain ⟨rfl, -⟩ := run_pad_out hrest
  rw [List.append_nil]
  refine Or.inr ⟨hpad, hw.imp_right ?_, hrest⟩
  rintro ⟨hmany, h3, hzero, hw⟩
  exact ⟨by omega, hzero, hw⟩

/-- A complete padding. -/
theorem run_pad_three_final (h : run step (.pad 3) rest = ([], .ok (.pad 0))) : Padding rest := by
  rcases run_pad_three h with rfl | hunit
  · cases h
  cases hunit with
  | equals => exact .equals
  | percent | percent3 => cases h
  | percent3D hd => exact padding_of_or hd

theorem run_pad_two_final (h : run step (.pad 2) rest = ([], .ok (.pad 0))) :
    Padding (charPercent :: rest) := by
  generalize hall : charPercent :: rest = chars
  have hunit := run_pad_two h
  rw [hall] at hunit
  cases hunit with
  | equals => cases hall
  | percent =>
    cases hall
    cases h
  | percent3 =>
    cases hall
    cases h
  | percent3D hd => exact padding_of_or hd

theorem Padding.run_three {p : List ℕ} (h : Padding p) :
    run step (.pad 3) p = ([], .ok (.pad 0)) := by
  cases h <;> rfl

theorem Padding.exists_cons {p : List ℕ} (h : Padding p) :
    ∃ char rest, p = char :: rest ∧ IsPad char ∧
      run step (.pad (firstPad 3 char)) rest = ([], .ok (.pad 0)) ∧
      run step (.pad (firstPad 2 char)) rest = ([], .ok (.pad 3)) := by
  cases h with
  | equals => exact ⟨_, _, rfl, Or.inl rfl, rfl, rfl⟩
  | escaped | escapedLower => exact ⟨_, _, rfl, Or.inr rfl, rfl, rfl⟩

/-- The padding of two characters. -/
theorem exists_padding (hpad : IsPad char)
    (h : run step (.pad (firstPad 2 char)) rest = ([], .ok (.pad 0))) :
    ∃ p q, Padding p ∧ Padding q ∧ char :: rest = p ++ q := by
  rcases hpad with rfl | rfl
  · exact ⟨_, _, .equals, run_pad_three_final h, rfl⟩
  cases rest with
  | nil => cases h
  | cons a rest =>
    obtain ⟨e1, h1, h⟩ := run_pad_cons h
    obtain ⟨rfl, he⟩ : a = char3 ∧ some 4 = some e1 := Option.ite_none_right_eq_some.mp h1
    cases he
    cases rest with
    | nil => cases h
    | cons b rest =>
      obtain ⟨e2, h2, h⟩ := run_pad_cons h
      obtain ⟨hb, he⟩ : (b ||| 0x20) = charD ∧ some 3 = some e2 :=
        Option.ite_none_right_eq_some.mp h2
      cases he
      exact ⟨_, _, padding_of_or hb, run_pad_three_final h, rfl⟩

theorem padding_of_run (hpad : IsPad char)
    (h : run step (.pad (firstPad 3 char)) rest = ([], .ok (.pad 0))) : Padding (char :: rest) := by
  rcases hpad with rfl | rfl
  · cases rest with
    | nil => exact .equals
    | cons a rest =>
      obtain ⟨e1, h1, -⟩ := run_pad_cons h
      cases h1
  · exact run_pad_two_final h

/-- **Every text is read.** -/
theorem Text.run {text bytes : List ℕ} (h : Text text bytes) :
    ∃ st, st.Final ∧ run step (.data 0 0) text = (bytes, .ok st) := by
  induction h with
  | nil => exact ⟨.data 0 0, rfl, rfl⟩
  | @block a b c d i j k l v text bytes ha hb hc hd hv _ ih =>
    obtain ⟨st, hfinal, hrun⟩ := ih
    have hbits : v = (((0 * 64 + i) * 64 + j) * 64 + k) * 64 + l := by
      rw [hv]
      ring
    refine ⟨st, hfinal, ?_⟩
    rw [run_digit ha (by decide), run_digit hb (by decide), run_digit hc (by decide),
      run_digit_three hd hbits, hrun]
  | @three a b c i j k v p ha hb hc hv hzero hp =>
    obtain ⟨char, rest, rfl, hpad, hrun, -⟩ := hp.exists_cons
    have hstep := step_pad_three v hpad
    rw [if_pos hzero] at hstep
    refine ⟨.pad 0, rfl, ?_⟩
    rw [run_digit ha (by decide), run_digit hb (by decide), run_digit hc (by decide)]
    have hbits : ((0 * 64 + i) * 64 + j) * 64 + k = v := by rw [hv]; ring
    rw [hbits, run_cons_ok hstep, hrun]
    rfl
  | @two a b i j v p q ha hb hv hzero hp hq =>
    obtain ⟨char, rest, rfl, hpad, -, hrun⟩ := hp.exists_cons
    have hstep := step_pad_two v hpad
    rw [if_pos hzero] at hstep
    refine ⟨.pad 0, rfl, ?_⟩
    rw [run_digit ha (by decide), run_digit hb (by decide)]
    have hbits : (0 * 64 + i) * 64 + j = v := by rw [hv]; ring
    rw [hbits, List.cons_append, run_cons_ok hstep, run_append_ok hrun, hq.run_three]
    rfl

theorem final_pad {e : ℕ} {out : List ℕ}
    (h : run step (.pad e) rest = (out, .ok st)) (hfinal : st.Final) : st = .pad 0 := by
  obtain ⟨-, e', -, rfl⟩ := run_pad_out h
  have he : e' = 0 := hfinal
  rw [he]

theorem not_final_of_run_nil (hcount : count ≠ 0)
    (h : run step (.data bits count) [] = (w, .ok st)) : ¬ st.Final := by
  cases h
  exact hcount

/-- **Only texts are read to the end.** -/
theorem text_of_run (hfinal : st.Final)
    (h : run step (.data 0 0) chars = (w, .ok st)) : Text chars w := by
  induction hn : chars.length using Nat.strong_induction_on generalizing chars w with
  | _ n ih =>
  match chars with
  | [] =>
    cases h
    exact .nil
  | a :: rest =>
    rcases run_data_cons (by decide) h with ⟨i, ha⟩ | ⟨-, hcount, -⟩
    swap
    · omega
    rw [run_digit ha (by decide), Nat.zero_mul, Nat.zero_add, Nat.zero_add] at h
    match rest with
    | [] => exact absurd hfinal (not_final_of_run_nil (by decide) h)
    | b :: rest =>
      rcases run_data_cons (by decide) h with ⟨j, hb⟩ | ⟨-, hcount, -⟩
      swap
      · omega
      rw [run_digit hb (by decide)] at h
      match rest with
      | [] => exact absurd hfinal (not_final_of_run_nil (by decide) h)
      | c :: rest =>
        rcases run_data_cons (by decide) h with ⟨k, hc⟩ | ⟨hpad, hcount, hrest⟩
        swap
        · -- Two characters and the padding.
          obtain ⟨-, hzero, rfl⟩ := hcount.resolve_left fun h => by omega
          rw [final_pad hrest hfinal] at hrest
          obtain ⟨p, q, hp, hq, heq⟩ := exists_padding hpad hrest
          rw [heq]
          exact .two ha hb rfl hzero hp hq
        rw [run_digit hc (by decide)] at h
        match rest with
        | [] => exact absurd hfinal (not_final_of_run_nil (by decide) h)
        | d :: rest =>
          rcases run_data_cons (by decide) h with ⟨l, hd⟩ | ⟨hpad, hcount, hrest⟩
          swap
          · -- Three characters and the padding.
            obtain ⟨-, hzero, rfl⟩ := hcount.resolve_right fun h => by omega
            rw [final_pad hrest hfinal] at hrest
            exact .three ha hb hc rfl hzero (padding_of_run hpad hrest)
          rw [run_digit_three hd rfl, Prod.mk.injEq] at h
          obtain ⟨rfl, hst⟩ := h
          refine .block ha hb hc hd rfl (ih rest.length ?_ (Prod.ext rfl hst) rfl)
          rw [← hn]
          simp only [List.length_cons]
          omega

/-- **The decoder accepts exactly the base64 texts.** -/
theorem decoded_iff {bytes : List ℕ} : decoded chars = some bytes ↔ Text chars bytes := by
  constructor
  · intro h
    rw [decoded] at h
    cases hrun : run step (.data 0 0) chars with
    | mk w r =>
    rw [hrun] at h
    cases r with
    | error => cases h
    | ok st =>
      rw [finished] at h
      split_ifs at h with hfinal
      cases h
      exact text_of_run hfinal hrun
  · intro h
    obtain ⟨st, hfinal, hrun⟩ := h.run
    rw [decoded, hrun, finished, if_pos hfinal]

theorem digit_zero : Digit 0x41 0 := ⟨by decide, Or.inl (by decide)⟩

/-- From every state the text can be completed. -/
theorem State.Valid.exists_final (h : st.Valid) :
    ∃ more w st', st'.Final ∧ run step st more = (w, .ok st') := by
  cases st with
  | data bits count =>
    obtain ⟨hcount, -⟩ := h
    rcases (by omega : count = 0 ∨ count = 1 ∨ count = 2 ∨ count = 3) with rfl | rfl | rfl | rfl
    · exact ⟨[], [], .data bits 0, rfl, rfl⟩
    · refine ⟨[0x41, paddingChar, paddingChar], [(bits * 64 + 0) / 16], .pad 0, rfl, ?_⟩
      have hstep := step_pad_two (bits * 64 + 0) (Or.inl rfl : IsPad paddingChar)
      rw [if_pos (by omega)] at hstep
      rw [run_digit digit_zero (by decide), run_cons_ok hstep]
      rfl
    · exact ⟨[0x41, 0x41], _, .data 0 0, rfl,
        (run_digit digit_zero (by decide)).trans (run_digit_three digit_zero rfl)⟩
    · exact ⟨[0x41], _, .data 0 0, rfl, run_digit_three digit_zero rfl⟩
  | pad e =>
    have he : e ≤ 5 := h
    rcases (by omega : e = 0 ∨ e = 1 ∨ e = 2 ∨ e = 3 ∨ e = 4 ∨ e = 5) with
      rfl | rfl | rfl | rfl | rfl | rfl
    · exact ⟨[], [], .pad 0, rfl, rfl⟩
    · exact ⟨[0x44], [], .pad 0, rfl, rfl⟩
    · exact ⟨[char3, 0x44], [], .pad 0, rfl, rfl⟩
    · exact ⟨[paddingChar], [], .pad 0, rfl, rfl⟩
    · exact ⟨[0x44, paddingChar], [], .pad 0, rfl, rfl⟩
    · exact ⟨[char3, 0x44, paddingChar], [], .pad 0, rfl, rfl⟩

/-- **What is not refused begins a text.** -/
theorem not_refused_iff : ¬ Refused chars ↔ ∃ more bytes, Text (chars ++ more) bytes := by
  constructor
  · intro h
    cases hrun : run step (.data 0 0) chars with
    | mk w r =>
    cases r with
    | error e => exact absurd ⟨w, e, hrun⟩ h
    | ok st =>
      obtain ⟨more, w', st', hfinal, hmore⟩ :=
        (run_invariant step_valid valid_initial hrun).exists_final
      refine ⟨more, w ++ w', text_of_run hfinal ?_⟩
      rw [run_append_ok hrun, hmore]
  · rintro ⟨more, bytes, htext⟩ hrefused
    obtain ⟨st, -, hrun⟩ := htext.run
    obtain ⟨w, e, herror⟩ := hrefused.append more
    rw [hrun] at herror
    exact nomatch congrArg Prod.snd herror

end Base64
