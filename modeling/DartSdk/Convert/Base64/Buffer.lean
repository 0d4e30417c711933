import DartSdk.Convert.Base64.Automaton

/-!
# Convert/Base64/Buffer — the size of the buffer

`_allocateBuffer` looks for padding from the end of the chunk.  It may be wrong about what is
padding when the chunk is invalid, but **there is always room for what is written before the error**
(`fits_allocateBuffer`), and for a valid chunk the buffer is filled (`allocateBuffer_data`,
`allocateBuffer_pad`).
-/

namespace Base64

open List Option Transducer

variable {chars rest out : List ℕ} {char : ℕ} {p : ℕ → Bool} {st : State}

/-! ## Trimming

The padding is looked for at the end of the chunk, so that it is not counted in the size. -/

/-- Where the padding may begin: at the end, or at a character that begins a padding. -/
def IsEnd (chars : List ℕ) (n : ℕ) : Prop :=
  n ≤ chars.length ∧ ∀ char rest, chars.drop n = char :: rest → IsPad char

theorem isEnd_length (chars : List ℕ) : IsEnd chars chars.length :=
  ⟨le_rfl, fun char rest h => by simp at h⟩

theorem isEnd_of_reverse (pre : List ℕ) (hpad : IsPad char)
    (h : chars.reverse = pre ++ char :: rest) : IsEnd chars rest.length := by
  have hchars : chars = rest.reverse ++ char :: pre.reverse := by
    rw [← reverse_reverse chars, h]
    simp
  refine ⟨by rw [hchars]; simp, fun char' rest' hdrop => ?_⟩
  rw [hchars, drop_left' (length_reverse ..)] at hdrop
  cases hdrop
  exact hpad

theorem skipChar_suffix {l l' : List ℕ} (h : skipChar p l = some l') : l' <:+ l := by
  cases l with
  | nil => cases h
  | cons char rest =>
    simp only [skipChar] at h
    split_ifs at h
    · cases h
      exact suffix_cons _ _
    · cases h
      exact suffix_rfl

theorem trimLoop_cons (left newEnd char : ℕ) (rest : List ℕ) :
    trimLoop (left + 1) newEnd (char :: rest) =
      if char = paddingChar then trimLoop left rest.length rest
      else
        match (skipChar (fun char => (char ||| 0x20) = charD) (char :: rest)).bind
            (skipChar (· = char3)) with
        | some (char :: rest) =>
          if char = charPercent then trimLoop left rest.length rest else newEnd
        | _ => newEnd := rfl

/-- The loop stops, or goes on after a character that begins a padding. -/
theorem trimLoop_cases (left newEnd : ℕ) (l : List ℕ) : trimLoop (left + 1) newEnd l = newEnd ∨
      ∃ pre char rest, l = pre ++ char :: rest ∧ IsPad char ∧
        trimLoop (left + 1) newEnd l = trimLoop left rest.length rest := by
  cases l with
  | nil => exact Or.inl rfl
  | cons char rest =>
    rw [trimLoop_cons]
    split_ifs with heq
    · exact Or.inr ⟨[], char, rest, rfl, Or.inl heq, rfl⟩
    split
    · rename_i char' rest' hskip
      split_ifs with hpercent
      · right
        obtain ⟨l1, h1, h2⟩ := bind_eq_some_iff.mp hskip
        obtain ⟨pre, hpre⟩ := (skipChar_suffix h2).trans (skipChar_suffix h1)
        exact ⟨pre, char', rest', hpre.symm, Or.inr hpercent, rfl⟩
      · exact Or.inl rfl
    · exact Or.inl rfl

theorem trimLoop_isEnd (left newEnd : ℕ) (l : List ℕ) (hend : IsEnd chars newEnd)
    (hl : l <:+ chars.reverse) : IsEnd chars (trimLoop left newEnd l) := by
  induction left generalizing newEnd l with
  | zero => exact hend
  | succ left ih =>
    rcases trimLoop_cases left newEnd l with heq | ⟨pre, char, rest, rfl, hpad, heq⟩
    · rwa [heq]
    obtain ⟨pre0, hpre0⟩ := hl
    rw [heq]
    refine ih _ _ (isEnd_of_reverse (pre0 ++ pre) hpad ?_) ⟨pre0 ++ pre ++ [char], ?_⟩
    · rw [← hpre0, append_assoc]
    · rw [← hpre0]
      simp

theorem trimLoop_le (left newEnd : ℕ) (l : List ℕ) (h : l.length ≤ newEnd) :
    trimLoop left newEnd l ≤ newEnd := by
  induction left generalizing newEnd l with
  | zero => exact le_rfl
  | succ left ih =>
    rcases trimLoop_cases left newEnd l with heq | ⟨pre, char, rest, rfl, -, heq⟩
    · exact heq.le
    · have hle := ih rest.length rest le_rfl
      simp only [length_append, length_cons] at h
      omega

/-- Data is not trimmed. -/
theorem trimLoop_data (left newEnd : ℕ) {l : List ℕ} (h : ∀ char ∈ l, ¬ IsPad char) :
    trimLoop left newEnd l = newEnd := by
  cases left with
  | zero => rfl
  | succ left =>
    rcases trimLoop_cases left newEnd l with heq | ⟨pre, char, rest, rfl, hpad, -⟩
    · exact heq
    · exact absurd hpad (h char (by simp))

theorem trimPaddingChars_isEnd (chars : List ℕ) : IsEnd chars (trimPaddingChars chars) :=
  trimLoop_isEnd 2 _ _ (isEnd_length chars) suffix_rfl

theorem skipChar_of_not (h : p char = false) (rest : List ℕ) :
    skipChar p (char :: rest) = some (char :: rest) := by
  simp [skipChar, h]

theorem skipChar_of {char' : ℕ} (h : p char = true) (rest : List ℕ) :
    skipChar p (char :: char' :: rest) = some (char' :: rest) := by
  simp [skipChar, h]

theorem trimLoop_pad (hpad : IsPad char) (left newEnd : ℕ) (rest : List ℕ) :
    trimLoop (left + 1) newEnd (char :: rest) = trimLoop left rest.length rest := by
  rw [trimLoop_cons]
  rcases hpad with rfl | rfl
  · rw [if_pos rfl]
  · rw [if_neg (by decide), skipChar_of_not (by decide), bind_some, skipChar_of_not (by decide)]
    exact if_pos rfl

theorem trimLoop_percent3 (left newEnd : ℕ) (rest : List ℕ) :
    trimLoop (left + 1) newEnd (char3 :: charPercent :: rest) = trimLoop left rest.length rest := by
  rw [trimLoop_cons, if_neg (by decide), skipChar_of_not (by decide), bind_some,
    skipChar_of (by decide)]
  exact if_pos rfl

theorem trimLoop_percent3D (hd : (char ||| 0x20) = charD) (left newEnd : ℕ) (rest : List ℕ) :
    trimLoop (left + 1) newEnd (char :: char3 :: charPercent :: rest) =
      trimLoop left rest.length rest := by
  have hne : char ≠ paddingChar := by
    rintro rfl
    exact absurd hd (by decide)
  rw [trimLoop_cons, if_neg hne, skipChar_of (by simpa using hd), bind_some,
    skipChar_of (by decide)]
  exact if_pos rfl

/-- Padding at the end is found. -/
theorem trimPaddingChars_lt (hpad : IsPad char) :
    trimPaddingChars (chars ++ [char]) < (chars ++ [char]).length := by
  have hle := trimLoop_le 1 chars.reverse.length chars.reverse le_rfl
  rw [trimPaddingChars, reverse_append, reverse_singleton, singleton_append, trimLoop_pad hpad]
  simp only [length_reverse, length_append, length_singleton] at hle ⊢
  omega

theorem allocateBuffer_eq (chars : List ℕ) (state : ℤ) : allocateBuffer chars state =
      (stateCount state + trimPaddingChars chars) / 4 * 3 +
        if (stateCount state + trimPaddingChars chars) % 4 ≠ 0 ∧
          trimPaddingChars chars < chars.length
        then (stateCount state + trimPaddingChars chars) % 4 - 1 else 0 := by
  have hmod : ∀ n : ℕ, n &&& 3 = n % 4 := fun n => Nat.and_two_pow_sub_one_eq_mod n 2
  have hdiv : ∀ n : ℕ, n >>> 2 = n / 4 := fun n => Nat.shiftRight_eq_div_pow n 2
  simp only [allocateBuffer, hmod, hdiv]
  split_ifs <;> rfl

/-- The bytes that `c` characters of data give. -/
def full (c : ℕ) : ℕ := c / 4 * 3

/-- There is room in the buffer for each write, up to the first character that begins a padding. -/
def Fits (size : ℕ) : ℕ → List ℕ → Prop
  | _, [] => True
  | c, char :: rest =>
    (0 ≤ codeOf char → c % 4 = 3 → full c + 3 ≤ size) ∧
    (IsPad char → 1 < c % 4 → full c + (c % 4 - 1) ≤ size) ∧
    (¬ IsPad char → Fits size (c + 1) rest)

theorem fits_of_isEnd {size c0 n : ℕ} (hend : IsEnd chars n)
    (hlast : ∀ pre char, chars = pre ++ [char] → IsPad char → n < chars.length)
    (hsize : size = full (c0 + n) + if (c0 + n) % 4 ≠ 0 ∧ n < chars.length then (c0 + n) % 4 - 1
      else 0)
    (pre rest : List ℕ) (h : chars = pre ++ rest) (hle : pre.length ≤ n) :
    Fits size (c0 + pre.length) rest := by
  induction rest generalizing pre with
  | nil => trivial
  | cons char rest ih =>
    have hlen : chars.length = pre.length + rest.length + 1 := by
      rw [h]
      simp
      omega
    by_cases hn : pre.length = n
    · -- The first character that may be padding.
      have hpad : IsPad char := hend.2 char rest (by rw [h, ← hn, drop_left])
      have hlt : n < chars.length := by omega
      refine ⟨fun hcode => ?_, fun _ hcount => ?_, fun hnot => absurd hpad hnot⟩
      · rw [hpad.codeOf] at hcode
        exact absurd hcode (by decide)
      · rw [hsize, if_pos ⟨by omega, hlt⟩, hn]
    refine ⟨fun _ hcount => ?_, fun hpad hcount => ?_, fun _ => ?_⟩
    · rw [hsize, full, full]
      omega
    · have hroom : full (c0 + pre.length) + ((c0 + pre.length) % 4 - 1) ≤ full (c0 + n) ∨
          (c0 + n) % 4 = 3 ∧ pre.length + 1 = n ∧ (c0 + pre.length) % 4 = 2 := by
        simp only [full]
        omega
      rcases hroom with hroom | ⟨hmod, hn', hmod'⟩
      · exact hroom.trans (by rw [hsize]; exact Nat.le_add_right _ _)
      have hlt : n < chars.length := by
        by_contra hge
        have hrest : rest = [] := length_eq_zero_iff.mp (by omega)
        subst hrest
        exact hge (hlast pre char h hpad)
      rw [hsize, if_pos ⟨by omega, hlt⟩]
      simp only [full]
      omega
    · have hnext := ih (pre ++ [char]) (by rw [h, append_assoc]; rfl)
        (by rw [length_append, length_singleton]; omega)
      rwa [length_append, length_singleton, ← Nat.add_assoc] at hnext

/-- **The buffer has room for everything that is written**, also before an error. -/
theorem fits_allocateBuffer (chars : List ℕ) (state : ℤ) :
    Fits (allocateBuffer chars state) (stateCount state) chars := by
  refine fits_of_isEnd (trimPaddingChars_isEnd chars) ?_ (allocateBuffer_eq chars state)
    [] chars rfl
    (Nat.zero_le _)
  rintro pre char rfl hpad
  exact trimPaddingChars_lt hpad

/-- A padding, or the beginning of one. -/
inductive PadUnit : List ℕ → Prop
  | equals : PadUnit [paddingChar]
  | percent : PadUnit [charPercent]
  | percent3 : PadUnit [charPercent, char3]
  | percent3D {char : ℕ} : (char ||| 0x20) = charD → PadUnit [charPercent, char3, char]

theorem PadUnit.trimLoop {u : List ℕ} (h : PadUnit u) (left newEnd : ℕ) (rest : List ℕ) :
    trimLoop (left + 1) newEnd (u.reverse ++ rest) = Base64.trimLoop left rest.length rest := by
  cases h with
  | equals => exact trimLoop_pad (Or.inl rfl) left newEnd rest
  | percent => exact trimLoop_pad (Or.inr rfl) left newEnd rest
  | percent3 => exact trimLoop_percent3 left newEnd rest
  | percent3D hd => exact trimLoop_percent3D hd left newEnd rest

theorem run_pad_cons {e : ℕ} (h : run step (.pad e) (char :: rest) = (out, .ok st)) :
    ∃ e', padNext e char = some e' ∧ run step (.pad e') rest = (out, .ok st) := by
  cases hnext : padNext e char with
  | none =>
    rw [run_cons_error (step_pad_none hnext)] at h
    exact nomatch congrArg Prod.snd h
  | some e' =>
    rw [run_cons_ok (step_pad hnext), nil_append] at h
    exact ⟨e', rfl, h⟩

/-- The rest of an escaped padding. -/
theorem run_pad_two
    (h : run step (.pad 2) rest = (out, .ok st)) : PadUnit (charPercent :: rest) := by
  cases rest with
  | nil => exact .percent
  | cons a rest =>
    obtain ⟨e1, h1, h⟩ := run_pad_cons h
    obtain ⟨rfl, he⟩ : a = char3 ∧ some 1 = some e1 := ite_none_right_eq_some.mp h1
    cases he
    cases rest with
    | nil => exact .percent3
    | cons b rest =>
      obtain ⟨e2, h2, h⟩ := run_pad_cons h
      obtain ⟨hb, he⟩ : (b ||| 0x20) = charD ∧ some 0 = some e2 :=
        ite_none_right_eq_some.mp h2
      cases he
      cases rest with
      | nil => exact .percent3D hb
      | cons c rest =>
        obtain ⟨e3, h3, -⟩ := run_pad_cons h
        cases h3

theorem run_pad_three (h : run step (.pad 3) rest = (out, .ok st)) : rest = [] ∨ PadUnit rest := by
  cases rest with
  | nil => exact Or.inl rfl
  | cons a rest =>
    right
    obtain ⟨e1, h1, h⟩ := run_pad_cons h
    simp only [padNext] at h1
    split_ifs at h1 with heq hpercent
    · cases h1
      cases rest with
      | nil => exact heq ▸ .equals
      | cons b rest =>
        obtain ⟨e2, h2, -⟩ := run_pad_cons h
        cases h2
    · cases h1
      exact hpercent ▸ run_pad_two h

/-- The padding of a chunk is one or two units, of which the last may be cut off. -/
theorem exists_padUnit {count p : ℕ} (hcount : count = 2 ∨ count = 3) (hp : IsPad p)
    (h : run step (.pad (firstPad count p)) rest = (out, .ok st)) :
    PadUnit (p :: rest) ∨ ∃ u v, PadUnit u ∧ PadUnit v ∧ p :: rest = u ++ v := by
  rcases hp with rfl | rfl
  · rcases hcount with rfl | rfl
    · rcases run_pad_three h with rfl | hunit
      · exact Or.inl .equals
      · exact Or.inr ⟨_, _, .equals, hunit, rfl⟩
    · cases rest with
      | nil => exact Or.inl .equals
      | cons a rest =>
        obtain ⟨e1, h1, -⟩ := run_pad_cons h
        cases h1
  rcases hcount with rfl | rfl
  · cases rest with
    | nil => exact Or.inl .percent
    | cons a rest =>
      obtain ⟨e1, h1, h⟩ := run_pad_cons h
      obtain ⟨rfl, he⟩ : a = char3 ∧ some 4 = some e1 := ite_none_right_eq_some.mp h1
      cases he
      cases rest with
      | nil => exact Or.inl .percent3
      | cons b rest =>
        obtain ⟨e2, h2, h⟩ := run_pad_cons h
        obtain ⟨hb, he⟩ : (b ||| 0x20) = charD ∧ some 3 = some e2 :=
          ite_none_right_eq_some.mp h2
        cases he
        rcases run_pad_three h with rfl | hunit
        · exact Or.inl (.percent3D hb)
        · exact Or.inr ⟨_, _, .percent3D hb, hunit, rfl⟩
  · exact Or.inl (run_pad_two h)

variable {data : List ℕ}

theorem trimPaddingChars_data (hdata : ∀ char ∈ data, ¬ IsPad char) :
    trimPaddingChars data = data.length :=
  trimLoop_data 2 _ fun char h => hdata char (mem_reverse.mp h)

theorem trimPaddingChars_pad {count p : ℕ}
    (hdata : ∀ char ∈ data, ¬ IsPad char) (hcount : count = 2 ∨ count = 3) (hp : IsPad p)
    (h : run step (.pad (firstPad count p)) rest = (out, .ok st)) :
    trimPaddingChars (data ++ p :: rest) = data.length := by
  have hreverse : ∀ char ∈ data.reverse, ¬ IsPad char :=
    fun char h => hdata char (mem_reverse.mp h)
  rw [trimPaddingChars]
  rcases exists_padUnit hcount hp h with hunit | ⟨u, v, hu, hv, heq⟩
  · rw [reverse_append, hunit.trimLoop, trimLoop_data _ _ hreverse, length_reverse]
  · rw [heq, reverse_append, reverse_append, append_assoc, hv.trimLoop, hu.trimLoop,
      trimLoop_data _ _ hreverse, length_reverse]

end Base64
