import DartSdk.Convert.Json.Number
import Mathlib.Data.Nat.Bitwise

/-!
# Convert/Json/NumberCut — numerals that are cut by the end of a chunk

The places `NUM_…` where a numeral can be cut are the states of an automaton that reads literals
(`numStep`, `numRun_body`).  Both parsers follow it one character at a time: `parseNumber` keeps a
numeral that reaches the end of the chunk with its place (`parseNumber_unfinished`), and
`parsePartialNumber` goes on from there (`partialFrom_append`).

So **a numeral that was cut is read exactly** (`finishNumeral_eq`): its characters are given to
`num.parse` or `double.parse` in the end.
-/

namespace Json

open List Option Literal

variable {c state : ℕ}

/-! ## The grammar as an automaton

The states of a partial numeral are those of the grammar after a prefix. -/

/-- The next place in the grammar of numerals. -/
def numStep (state char : ℕ) : Option ℕ :=
  if state = numSign then
    if char = 0x30 then some numZero else if char ^^^ 0x30 ≤ 9 then some numDigit else none
  else if state = numZero then
    if char = 0x2e then some numDot else if char ||| 0x20 = 0x65 then some numE else none
  else if state = numDigit then
    if char ^^^ 0x30 ≤ 9 then some numDigit
    else if char = 0x2e then some numDot else if char ||| 0x20 = 0x65 then some numE else none
  else if state = numDot then if char ^^^ 0x30 ≤ 9 then some numDotDigit else none
  else if state = numDotDigit then
    if char ^^^ 0x30 ≤ 9 then some numDotDigit
    else if char ||| 0x20 = 0x65 then some numE else none
  else if state = numE then
    if char = 0x2b ∨ char = 0x2d then some numESign
    else if char ^^^ 0x30 ≤ 9 then some numEDigit else none
  else if char ^^^ 0x30 ≤ 9 then some numEDigit else none

/-- The place after some characters. -/
def numRun (state : ℕ) (chars : List ℕ) : Option ℕ := chars.foldlM numStep state

/-- A character that no numeral goes on with. -/
def Stops (char : ℕ) : Prop := ¬ char ^^^ 0x30 ≤ 9 ∧ char ≠ 0x2e ∧ char ||| 0x20 ≠ 0x65

/-- The text ends, or goes on with such a character. -/
def Terminates (text : List ℕ) : Prop := ∀ c ∈ text.head?, Stops c

/-- The places where a numeral may end. -/
def IsFinal (state : ℕ) : Prop :=
  state = numZero ∨ state = numDigit ∨ state = numDotDigit ∨ state = numEDigit

/-- The places in the grammar. -/
def IsState (state : ℕ) : Prop :=
  state = numSign ∨ state = numZero ∨ state = numDigit ∨ state = numDot ∨ state = numDotDigit ∨
    state = numE ∨ state = numESign ∨ state = numEDigit

theorem digitChar_xor (d : Fin 10) : digitChar d ^^^ 0x30 = d := by
  revert d
  decide

theorem digit_iff : c ^^^ 0x30 ≤ 9 ↔ ∃ d, c = digitChar d := by
  constructor
  · intro h
    obtain ⟨d, hd⟩ : ∃ d, d = c ^^^ 0x30 := ⟨_, rfl⟩
    have hc : c = d ^^^ 0x30 := by rw [hd, Nat.xor_assoc, Nat.xor_self, Nat.xor_zero]
    have hchar : ∀ d : Fin 10, (d : ℕ) ^^^ 0x30 = digitChar d := by decide
    exact ⟨⟨d, by omega⟩, hc.trans (hchar ⟨d, by omega⟩)⟩
  · rintro ⟨d, rfl⟩
    rw [digitChar_xor]
    omega

theorem letterE_iff : c ||| 0x20 = 0x65 ↔ c = 0x65 ∨ c = 0x45 := by
  constructor
  · intro h
    have hle : c ≤ 0x65 := h ▸ Nat.left_le_or
    interval_cases c <;> simp_all
  · rintro (rfl | rfl) <;> rfl

theorem sign_iff : (c + 1) ||| 2 = 0x2e ↔ c = 0x2b ∨ c = 0x2d := by
  constructor
  · intro h
    have hle : c + 1 ≤ 0x2e := h ▸ Nat.left_le_or
    have hc : c ≤ 0x2d := by omega
    interval_cases c <;> simp_all
  · rintro (rfl | rfl) <;> rfl

theorem numRun_append (state : ℕ) (s t : List ℕ) :
    numRun state (s ++ t) = (numRun state s).bind fun state' => numRun state' t :=
  foldlM_append

theorem numRun_cons (state c : ℕ) (s : List ℕ) :
    numRun state (c :: s) = (numStep state c).bind fun state' => numRun state' s :=
  foldlM_cons

/-- A run over a text is a run over the first part of it. -/
theorem exists_numRun {final : ℕ} {s t : List ℕ} (h : numRun state (s ++ t) = some final) :
    ∃ state', numRun state s = some state' ∧ numRun state' t = some final := by
  rw [numRun_append] at h
  exact bind_eq_some_iff.mp h

/-- Digits keep the place. -/
theorem numRun_digits (h : state = numDigit ∨ state = numDotDigit ∨ state = numEDigit)
    (ds : List (Fin 10)) : numRun state (ds.map digitChar) = some state := by
  induction ds with
  | nil => rfl
  | cons d ds ih =>
    have hstep : numStep state (digitChar d) = some state := by
      revert d
      rcases h with rfl | rfl | rfl <;> decide
    rw [map_cons, numRun_cons, hstep]
    exact ih

/-- The place where a literal ends. -/
def Literal.final (l : Literal) : ℕ :=
  if l.exp.isSome then numEDigit
  else if l.frac.isSome then numDotDigit
  else match l.int with
    | .zero => numZero
    | .nonzero _ _ _ => numDigit

/-- The characters after the sign. -/
def Literal.body (l : Literal) : List ℕ := l.int.digits.map digitChar ++ (l.fracChars ++ l.expChars)

theorem numRun_int (i : IntPart) : ∃ state, (state = numZero ∨ state = numDigit) ∧
    (i = .zero ↔ state = numZero) ∧ numRun numSign (i.digits.map digitChar) = some state := by
  cases i with
  | zero => exact ⟨numZero, Or.inl rfl, by simp, rfl⟩
  | nonzero d h ds =>
    refine ⟨numDigit, Or.inr rfl, by simp, ?_⟩
    have hstep : numStep numSign (digitChar d) = some numDigit := by
      revert d
      decide
    rw [IntPart.digits, map_cons, numRun_cons, hstep]
    exact numRun_digits (Or.inl rfl) ds

theorem numRun_frac (l : Literal) (h : state = numZero ∨ state = numDigit) :
    numRun state l.fracChars = some (if l.frac.isSome then numDotDigit else state) := by
  unfold fracChars
  cases l.frac with
  | none => rfl
  | some f =>
    have hdot : numStep state 0x2e = some numDot := by rcases h with rfl | rfl <;> rfl
    have hfirst : ∀ d, numStep numDot (digitChar d) = some numDotDigit := by decide
    rw [elim_some, numRun_cons, hdot, bind_some, map_cons, numRun_cons,
      hfirst, bind_some, numRun_digits (Or.inr (Or.inl rfl))]
    rfl

theorem numRun_exp (l : Literal) (h : state = numZero ∨ state = numDigit ∨ state = numDotDigit) :
    numRun state l.expChars = some (if l.exp.isSome then numEDigit else state) := by
  unfold expChars
  cases l.exp with
  | none => rfl
  | some e =>
    have hletter : numStep state (if e.upper then 0x45 else 0x65) = some numE := by
      cases e.upper <;> rcases h with rfl | rfl | rfl <;> rfl
    have hfirst : ∀ d, numStep numE (digitChar d) = some numEDigit := by decide
    have hsigned : ∀ d, numStep numESign (digitChar d) = some numEDigit := by decide
    have hdigits : numRun numEDigit (e.tail.map digitChar) = some numEDigit :=
      numRun_digits (Or.inr (Or.inr rfl)) e.tail
    rw [elim_some, Exponent.chars, numRun_cons, hletter, bind_some]
    cases e.sign with
    | none =>
      rw [elim_none, nil_append, Exponent.digits, map_cons, numRun_cons, hfirst]
      exact hdigits
    | some b =>
      have hsign : numStep numE (if b then 0x2d else 0x2b) = some numESign := by cases b <;> rfl
      rw [elim_some, singleton_append, numRun_cons, hsign, bind_some,
        Exponent.digits, map_cons, numRun_cons, hsigned]
      exact hdigits

/-- **The automaton reads literals.** -/
theorem numRun_body (l : Literal) : numRun numSign l.body = some l.final := by
  obtain ⟨state, hstate, hzero, hint⟩ := numRun_int l.int
  have hint' : (match l.int with | .zero => numZero | .nonzero _ _ _ => numDigit) = state := by
    cases hl : l.int with
    | zero => exact (hzero.mp hl).symm
    | nonzero d h ds =>
      rcases hstate with rfl | rfl
      · exact absurd (hzero.mpr rfl) (by simp [hl])
      · rfl
  rw [body, numRun_append, hint, bind_some, numRun_append, numRun_frac l hstate,
    bind_some, numRun_exp l (by split_ifs <;> tauto), final, hint']

theorem isFinal_final (l : Literal) : IsFinal l.final := by
  unfold IsFinal final
  cases l.int <;> split_ifs <;> simp

section

variable (chunkEnd : ℕ) (start buffer : List ℕ) {state : ℕ}

/-- `parsePartialNumber` from a later position. -/
def partialFrom (state : ℕ) (rest : List ℕ) : NumberResult :=
  if state = numSign then partialSign chunkEnd start buffer rest
  else if state = numZero then partialZero chunkEnd start buffer rest
  else if state = numDigit then partialDigits chunkEnd start buffer rest
  else if state = numDot then partialDot chunkEnd start buffer rest
  else if state = numDotDigit then partialFraction chunkEnd start buffer rest
  else partialE chunkEnd start buffer state rest

variable {chunkEnd start buffer}

theorem partialE_of_ne (h : state ≠ numE) (rest : List ℕ) :
    partialE chunkEnd start buffer state rest =
      partialExponent chunkEnd start buffer state rest := by
  cases rest with
  | nil => rfl
  | cons c rest => simp [partialE, h, false_and]

theorem partialFrom_e (h : numE ≤ state) (rest : List ℕ) :
    partialFrom chunkEnd start buffer state rest = partialE chunkEnd start buffer state rest := by
  have hne : state ≠ numSign ∧ state ≠ numZero ∧ state ≠ numDigit ∧ state ≠ numDot ∧
      state ≠ numDotDigit := by
    refine ⟨?_, ?_, ?_, ?_, ?_⟩ <;> rintro rfl <;> exact absurd h (by decide)
  simp [partialFrom, hne]

/-- At the end of the chunk the place is kept. -/
theorem partialFrom_nil (h : IsState state) :
    partialFrom chunkEnd start buffer state [] = continueChunkNumber start buffer state := by
  rcases h with rfl | rfl | rfl | rfl | rfl | rfl | rfl | rfl <;> rfl

theorem isState_of_numStep {state' c : ℕ} (h : numStep state c = some state') : IsState state' := by
  unfold numStep at h
  split_ifs at h <;> cases h <;> simp [IsState]

/-- **One character**: the parser follows the automaton. -/
theorem partialFrom_cons {state' c : ℕ} (h : IsState state)
    (hstep : numStep state c = some state') (rest : List ℕ) :
    partialFrom chunkEnd start buffer state (c :: rest) =
        partialFrom chunkEnd start buffer state' rest ∧ IsState state' := by
  refine ⟨?_, isState_of_numStep hstep⟩
  rcases h with rfl | rfl | rfl | rfl | rfl | rfl | rfl | rfl <;> simp [numStep] at hstep
  case inl =>
    split_ifs at hstep with hzero hdigit <;> cases hstep
    · subst hzero
      rfl
    · have hxor : ¬ c ^^^ 0x30 = 0 := fun h => hzero (Nat.eq_of_xor_eq_zero h)
      simp [partialFrom, partialSign, hdigit, hxor]
  case inr.inl =>
    split_ifs at hstep with hdot hletter <;> cases hstep
    · subst hdot
      rfl
    · rcases letterE_iff.mp hletter with rfl | rfl <;> rfl
  case inr.inr.inl =>
    split_ifs at hstep with hdigit hdot hletter <;> cases hstep
    · simp [partialFrom, partialDigits, hdigit]
    · subst hdot
      rfl
    · rcases letterE_iff.mp hletter with rfl | rfl <;> rfl
  case inr.inr.inr.inl =>
    obtain ⟨hdigit, rfl⟩ := hstep
    simp [partialFrom, partialDot, partialFraction, not_lt.mpr hdigit, hdigit]
  case inr.inr.inr.inr.inl =>
    split_ifs at hstep with hdigit hletter <;> cases hstep
    · simp [partialFrom, partialFraction, hdigit]
    · rcases letterE_iff.mp hletter with rfl | rfl <;> rfl
  case inr.inr.inr.inr.inr.inl =>
    split_ifs at hstep with hsign hdigit <;> cases hstep
    · rw [partialFrom_e le_rfl, partialFrom_e (by decide), partialE_of_ne (by decide) rest,
        partialE, if_pos ⟨rfl, hsign⟩]
    · rw [partialFrom_e le_rfl, partialFrom_e (by decide), partialE_of_ne (by decide) rest,
        partialE, if_neg (fun h => hsign h.2), partialExponent, if_pos hdigit]
  all_goals
    obtain ⟨hdigit, rfl⟩ := hstep
    simp [partialFrom, partialE_of_ne, partialExponent, hdigit]

/-- The place to finish from. -/
def finishState (state : ℕ) : ℕ := if state = numZero then numDigit else state

/-- At a character that no numeral goes on with, the numeral is finished. -/
theorem partialFrom_stop {c : ℕ} (h : IsFinal state) (hc : Stops c) (rest : List ℕ) :
    partialFrom chunkEnd start buffer state (c :: rest) =
      finishAt chunkEnd start buffer (finishState state) (c :: rest) := by
  obtain ⟨hdigit, hdot, hletter⟩ := hc
  rcases h with rfl | rfl | rfl | rfl
  · simp [partialFrom, partialZero, partialDigits, finishState, hdigit, hdot, hletter]
  · simp [partialFrom, partialDigits, finishState, hdigit, hdot, hletter]
  · simp [partialFrom, partialFraction, finishState, hdigit, hletter]
  · rw [partialFrom_e (by decide), partialE_of_ne (by decide), partialExponent, if_neg hdigit]
    rfl

variable (chunkEnd start buffer) in
/-- **Several characters.** -/
theorem partialFrom_append {state' : ℕ} {s : List ℕ} (h : IsState state)
    (hrun : numRun state s = some state') (rest : List ℕ) :
    partialFrom chunkEnd start buffer state (s ++ rest) =
        partialFrom chunkEnd start buffer state' rest ∧ IsState state' := by
  induction s generalizing state with
  | nil =>
    cases hrun
    exact ⟨rfl, h⟩
  | cons c s ih =>
    rw [numRun_cons] at hrun
    obtain ⟨state1, hstep, hrun⟩ := bind_eq_some_iff.mp hrun
    obtain ⟨heq, hstate⟩ := partialFrom_cons h hstep (s ++ rest)
    rw [cons_append, heq]
    exact ih hstate hrun

end

/-- The place after the first characters of a literal. -/
def Place (l : Literal) (buffer : List ℕ) (state : ℕ) : Prop :=
  IsState state ∧ ∃ rest, l.chars = buffer ++ rest ∧ numRun state rest = some l.final

variable {l : Literal}

theorem toNum_of_not_int (h : l.frac.isSome ∨ l.exp.isSome) : l.toNum = .double l.toDouble := by
  refine if_neg fun hint => ?_
  obtain ⟨hfrac, hexp, -⟩ := hint
  simp [hfrac, hexp] at h

theorem finishChunkNumber_eq (l : Literal)
    (hstate : state = l.final ∨ state = finishState l.final) (chunkEnd : ℕ) {s buffer : List ℕ}
    (htext : buffer ++ s = l.chars) : finishChunkNumber chunkEnd state s buffer = .ok l.toNum := by
  have hnum : parseNum (buffer ++ s) = some l.toNum := htext ▸ parseNum_chars l
  have hdouble : parseDouble (buffer ++ s) = some l.toDouble := htext ▸ parseDouble_chars l
  unfold final at hstate
  cases hexp : l.exp with
  | some e =>
    have hstate' : state = numEDigit := by simpa [hexp, finishState] using hstate
    simp [finishChunkNumber, hstate', hdouble, toNum_of_not_int (Or.inr (isSome_of_eq_some hexp))]
  | none =>
    cases hfrac : l.frac with
    | some f =>
      have hstate' : state = numDotDigit := by simpa [hexp, hfrac, finishState] using hstate
      simp [finishChunkNumber, hstate', hdouble,
        toNum_of_not_int (Or.inl (isSome_of_eq_some hfrac))]
    | none =>
      cases hint : l.int with
      | nonzero d h ds =>
        have hstate' : state = numDigit := by simpa [hexp, hfrac, hint, finishState] using hstate
        simp [finishChunkNumber, hstate', hnum]
      | zero =>
        have hzero : l.toNum = .int 0#64 := by
          have hvalue : l.intValue = 0 := by
            simp [intValue, hint, IntPart.digits, valueOf, valueFrom]
          rw [toNum, if_pos ⟨hfrac, hexp, by simp [hvalue]⟩, hvalue]
          rfl
        rcases hstate with rfl | rfl
        · simp [finishChunkNumber, hexp, hfrac, hint, hzero]
        · simp [finishChunkNumber, hexp, hfrac, hint, finishState, hnum]

/-- **A numeral that was cut is read exactly.** -/
theorem finishNumeral_eq {rest : List ℕ} (hstop : Terminates rest)
    (chunks : List (List ℕ)) {buffer : List ℕ} (h : Place l buffer state)
    (htext : buffer ++ chunks.flatten = l.chars ++ rest) :
    finishNumeral state buffer chunks = .ok l.toNum := by
  induction chunks generalizing state buffer with
  | nil =>
    obtain ⟨-, left, hchars, hrun⟩ := h
    rw [flatten_nil, append_nil, hchars, append_assoc] at htext
    have hnil : left ++ rest = [] := by simpa using htext.symm
    obtain ⟨rfl, -⟩ := append_eq_nil_iff.mp hnil
    cases hrun
    exact finishChunkNumber_eq l (Or.inl rfl) 0 (by rw [hchars])
  | cons chunk chunks ih =>
    obtain ⟨hstate, left, hchars, hrun⟩ := h
    rw [flatten_cons, hchars, append_assoc, append_cancel_left_eq] at htext
    have hfrom : parsePartialNumber chunk.length chunk buffer state =
      partialFrom chunk.length chunk buffer state chunk := rfl
    rw [finishNumeral, hfrom]
    rcases append_eq_append_iff.mp htext with ⟨more, hleft, hflat⟩ | ⟨more, hchunk, hrest⟩
    · -- The whole chunk belongs to the literal.
      obtain ⟨state', hrun1, hrun2⟩ := exists_numRun (hleft ▸ hrun)
      obtain ⟨heq, hstate'⟩ := partialFrom_append chunk.length chunk buffer hstate hrun1 []
      rw [append_nil] at heq
      rw [heq, partialFrom_nil hstate']
      refine ih ⟨hstate', more, ?_, hrun2⟩ ?_
      · rw [hchars, hleft, append_assoc]
      · rw [hflat, hchars, hleft]
        simp [append_assoc]
    cases more with
    | nil =>
      rw [append_nil] at hchunk
      subst hchunk
      obtain ⟨heq, hstate'⟩ := partialFrom_append chunk.length chunk buffer hstate hrun []
      rw [append_nil] at heq
      rw [heq, partialFrom_nil hstate']
      refine ih ⟨hstate', [], by rw [hchars, append_nil], rfl⟩ ?_
      rw [hchars, hrest, nil_append]
    | cons c more =>
      have hc : Stops c := hstop c (by rw [hrest]; rfl)
      obtain ⟨heq, -⟩ := partialFrom_append chunk.length chunk buffer hstate hrun (c :: more)
      rw [← hchunk] at heq
      have htake : textBetween chunk (c :: more) = left := by
        rw [textBetween, hchunk]
        simp
      rw [heq, partialFrom_stop (isFinal_final l) hc, finishAt,
        finishChunkNumber_eq l (Or.inr rfl) _ (by rw [htake, hchars])]
      rfl

section

variable {chunkEnd : ℕ} {start : List ℕ} {s : Scan} {digit state c : ℕ} {rest : List ℕ}

theorem exponentDigits_run {expSign : ℤ} {exponent : BitVec 64} {overflow : Bool}
    (h : numRun numEDigit rest = some state) :
    exponentDigits start s expSign exponent overflow digit rest = beginChunkNumber state start := by
  induction rest generalizing exponent overflow digit with
  | nil =>
    cases h
    rfl
  | cons c rest ih =>
    obtain ⟨state1, hstep, h⟩ := bind_eq_some_iff.mp h
    obtain ⟨hdigit, rfl⟩ : c ^^^ 0x30 ≤ 9 ∧ numEDigit = state1 := by simpa [numStep] using hstep
    rw [exponentDigits, if_pos hdigit]
    exact ih h

theorem exponentStart_run {expSign : ℤ} {state' : ℕ}
    (hstate : state = numE ∧ ¬ (c = 0x2b ∨ c = 0x2d) ∨ state = numESign)
    (h : numRun state (c :: rest) = some state') :
    exponentStart chunkEnd start s expSign c rest = beginChunkNumber state' start := by
  obtain ⟨state1, hstep, h⟩ := bind_eq_some_iff.mp h
  obtain ⟨hdigit, rfl⟩ : c ^^^ 0x30 ≤ 9 ∧ numEDigit = state1 := by
    rcases hstate with ⟨rfl, hsign⟩ | rfl
    · simpa [numStep, hsign] using hstep
    · simpa [numStep] using hstep
  rw [exponentStart, if_neg (not_lt.mpr hdigit)]
  exact exponentDigits_run h

theorem afterFraction_run (hc : c ||| 0x20 = 0x65) (h : numRun numE rest = some state) :
    afterFraction chunkEnd start s c rest = beginChunkNumber state start := by
  unfold afterFraction
  rw [if_pos hc]
  cases rest with
  | nil =>
    cases h
    rfl
  | cons c rest =>
    by_cases hsign : c = 0x2b ∨ c = 0x2d
    · simp only [if_pos (sign_iff.mpr hsign)]
      have hstep : numStep numE c = some numESign := by simp [numStep, hsign]
      rw [numRun_cons, hstep, bind_some] at h
      cases rest with
      | nil =>
        cases h
        rfl
      | cons c' rest => exact exponentStart_run (Or.inr rfl) h
    · simp only [if_neg (mt sign_iff.mp hsign)]
      exact exponentStart_run (Or.inl ⟨rfl, hsign⟩) h

theorem fractionDigits_run (h : numRun numDotDigit rest = some state) :
    fractionDigits chunkEnd start s digit rest = beginChunkNumber state start := by
  induction rest generalizing s digit with
  | nil =>
    cases h
    rfl
  | cons c rest ih =>
    obtain ⟨state1, hstep, h⟩ := bind_eq_some_iff.mp h
    rw [fractionDigits]
    simp [numStep] at hstep
    split_ifs at hstep with hdigit hletter <;> cases hstep
    · rw [if_pos hdigit]
      exact ih h
    · rw [if_neg hdigit]
      exact afterFraction_run hletter h

theorem afterInteger_run {state' : ℕ}
    (hstate : state = numZero ∨ state = numDigit) (hdigit : ¬ c ^^^ 0x30 ≤ 9)
    (h : numRun state (c :: rest) = some state') :
    afterInteger chunkEnd start s c rest = beginChunkNumber state' start := by
  obtain ⟨state1, hstep, h⟩ := bind_eq_some_iff.mp h
  have hstep' : (if c = 0x2e then some numDot else if c ||| 0x20 = 0x65 then some numE else none) =
      some state1 := by
    rcases hstate with rfl | rfl
    · simpa [numStep] using hstep
    · simpa [numStep, hdigit] using hstep
  rw [afterInteger]
  split_ifs at hstep' with hdot hletter <;> cases hstep'
  · rw [if_pos hdot]
    cases rest with
    | nil =>
      cases h
      rfl
    | cons c rest =>
      obtain ⟨state2, hstep, h⟩ := bind_eq_some_iff.mp h
      obtain ⟨hdigit, rfl⟩ : c ^^^ 0x30 ≤ 9 ∧ numDotDigit = state2 := by simpa [numStep] using hstep
      simp only [if_neg (not_lt.mpr hdigit)]
      exact fractionDigits_run h
  · rw [if_neg hdot]
    exact afterFraction_run hletter h

theorem integerDigits_run {digitCount : ℕ} (h : numRun numDigit rest = some state) :
    integerDigits chunkEnd start s digitCount digit rest = beginChunkNumber state start := by
  induction rest generalizing s digitCount digit with
  | nil =>
    cases h
    rfl
  | cons c rest ih =>
    rw [integerDigits]
    by_cases hdigit : c ^^^ 0x30 ≤ 9
    · have hstep : numStep numDigit c = some numDigit := by simp [numStep, hdigit]
      rw [numRun_cons, hstep, bind_some] at h
      rw [if_pos hdigit]
      exact ih h
    · rw [if_neg hdigit]
      exact afterInteger_run (Or.inr rfl) hdigit h

theorem firstDigit_run {sign : ℤ} (h : numRun numSign (c :: rest) = some state) :
    firstDigit chunkEnd start sign c rest = beginChunkNumber state start := by
  rw [numRun_cons] at h
  obtain ⟨state1, hstep, hrun⟩ := bind_eq_some_iff.mp h
  unfold firstDigit
  simp [numStep] at hstep
  split_ifs at hstep with hzero hdigit <;> cases hstep
  · subst hzero
    cases rest with
    | nil =>
      cases hrun
      rfl
    | cons c rest =>
      have hdigit : ¬ c ^^^ 0x30 ≤ 9 := by
        intro hdigit
        obtain ⟨d, rfl⟩ := digit_iff.mp hdigit
        have hnone : ∀ d, numStep numZero (digitChar d) = none := by decide
        rw [numRun_cons, hnone] at hrun
        cases hrun
      exact (if_neg hdigit).trans (afterInteger_run (Or.inl rfl) hdigit hrun)
  · have hne : ¬ c ^^^ 0x30 = 0 := fun h => hzero (Nat.eq_of_xor_eq_zero h)
    simp only [if_neg (not_lt.mpr hdigit), if_neg hne]
    exact integerDigits_run hrun

end

theorem Literal.chars_eq (l : Literal) :
    l.chars = (if l.negative then [0x2d] else []) ++ l.body := by
  simp [chars, body, append_assoc]

/-- The first character after the sign is a digit. -/
theorem Literal.exists_body (l : Literal) : ∃ d t, l.body = digitChar d :: t := by
  unfold body
  cases l.int <;> exact ⟨_, _, rfl⟩

/-- **A numeral that reaches the end of the chunk** is kept, with its place. -/
theorem parseNumber_unfinished {start left : List ℕ} (hne : start ≠ [])
    (hchars : l.chars = start ++ left) (chunkEnd : ℕ) : ∃ state, Place l start state ∧
      parseNumber chunkEnd start = .ok (.unfinished state start, []) := by
  have hbody : ∀ s t, l.body = s ++ t → ∃ state, IsState state ∧ numRun numSign s = some state ∧
      numRun state t = some l.final := by
    intro s t hst
    obtain ⟨state, hs, ht⟩ := exists_numRun (hst ▸ numRun_body l)
    have hstate := (partialFrom_append 0 [] [] (Or.inl rfl : IsState numSign) hs []).2
    exact ⟨state, hstate, hs, ht⟩
  rw [l.chars_eq] at hchars
  cases hneg : l.negative with
  | true =>
    rw [hneg, if_pos rfl, singleton_append] at hchars
    cases start with
    | nil => exact absurd rfl hne
    | cons c start =>
      obtain ⟨rfl, hst⟩ := List.cons.inj hchars
      obtain ⟨state, hstate, hs, ht⟩ := hbody start left hst
      refine ⟨state, ⟨hstate, left, ?_, ht⟩, ?_⟩
      · rw [l.chars_eq, hneg, if_pos rfl, singleton_append, hst]
        rfl
      · cases start with
        | nil =>
          cases hs
          rfl
        | cons c start => exact firstDigit_run hs
  | false =>
    rw [hneg, if_neg (by decide), nil_append] at hchars
    obtain ⟨state, hstate, hs, ht⟩ := hbody start left hchars
    refine ⟨state, ⟨hstate, left, ?_, ht⟩, ?_⟩
    · rw [l.chars_eq, hneg, if_neg (by decide), nil_append, hchars]
    cases start with
    | nil => exact absurd rfl hne
    | cons c start =>
      obtain ⟨d, t, hd⟩ := l.exists_body
      obtain ⟨rfl, -⟩ := List.cons.inj (hd.symm.trans hchars)
      have hminus : ∀ d, digitChar d ≠ 0x2d := by decide
      unfold parseNumber
      simp only [if_neg (hminus d)]
      exact firstDigit_run hs

end Json
