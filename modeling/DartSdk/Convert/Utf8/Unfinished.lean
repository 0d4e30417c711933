import DartSdk.Convert.Utf8.Chunked

/-!
# Convert/Utf8/Unfinished — input that ends inside of a character

`IsScalar` and `IsUnfinished` say, by ranges of bytes, which sequences encode a character and which
are the beginning of one.  After any input the automaton is inside of a character exactly if the
input ends with an unfinished sequence (`run_feed_unfinished_iff`), whatever comes before it, since
a first byte always begins a new character.
-/

namespace Utf8

set_option maxRecDepth 10000

open List Transducer

variable {state : ℕ} {a : Byte} {s₀ : ℕ × ℕ}

/-- The second byte that a first byte of three or four allows. -/
def SecondOf (a b : Byte) : Prop :=
  0x80 ≤ b.val ∧ b.val < 0xC0 ∧ (a.val = 0xE0 → 0xA0 ≤ b.val) ∧ (a.val = 0xED → b.val < 0xA0) ∧
    (a.val = 0xF0 → 0x90 ≤ b.val) ∧ (a.val = 0xF4 → b.val < 0x90)

/-- An encoded character. -/
def IsScalar : List Byte → Prop
  | [a] => a.val < 0x80
  | [a, b] => 0xC2 ≤ a.val ∧ a.val < 0xE0 ∧ isExtension b
  | [a, b, c] => 0xE0 ≤ a.val ∧ a.val < 0xF0 ∧ SecondOf a b ∧ isExtension c
  | [a, b, c, d] => 0xF0 ≤ a.val ∧ a.val < 0xF5 ∧ SecondOf a b ∧ isExtension c ∧ isExtension d
  | _ => False

/-- The payload bits of a first byte. -/
def firstBits (a : ℕ) : ℕ :=
  if a < 0x80 then a else if a < 0xE0 then a % 32 else if a < 0xF0 then a % 16 else a % 8

/-- The code point of an encoded character. -/
def codePoint : List Byte → ℕ
  | [] => 0
  | a :: rest => rest.foldl (fun char b => char * 64 + b.val % 64) (firstBits a)

/-- The beginning of an encoded character. -/
def IsUnfinished : List Byte → Prop
  | [a] => 0xC2 ≤ a.val ∧ a.val < 0xF5
  | [a, b] => 0xE0 ≤ a.val ∧ a.val < 0xF5 ∧ SecondOf a b
  | [a, b, c] => 0xF0 ≤ a.val ∧ a.val < 0xF5 ∧ SecondOf a b ∧ isExtension c
  | _ => False

/-- UTF-8. -/
inductive WellFormed : List Byte → Prop
  | nil : WellFormed []
  | append {bytes scalar : List Byte} : WellFormed bytes → IsScalar scalar →
    WellFormed (bytes ++ scalar)

variable {s s' : ℕ × ℕ} {byte : Byte} {bytes tail : List Byte} {out : List ℕ} {allow : Bool}

theorem charUnits_ne_nil (char : ℕ) : charUnits char ≠ [] := by
  unfold charUnits
  split <;> simp

theorem strictStep_state (hs : IsCarried s) (h : strictStep s byte = .ok (out, s')) :
    s'.1 = next s.1 byte ∧ (out = [] ↔ s'.1 ≠ IA) := by
  have hnext := transition_eq hs.1.mem_states byte
  obtain ⟨-, rfl, rfl⟩ := strictStep_inv h
  rw [carried_fst, hnext]
  refine ⟨rfl, ?_⟩
  split_ifs with haccept
  · exact iff_of_false (charUnits_ne_nil _) fun h => h haccept
  · exact iff_of_true rfl haccept

theorem exists_strictStep (hs : IsCarried s) (h : isErrorState (next s.1 byte) = false) :
    ∃ out s', strictStep s byte = .ok (out, s') := by
  rw [← transition_eq hs.1.mem_states byte] at h
  exact ⟨_, _, strictStep_ok h⟩

/-- The automaton is inside of a character that `tail` has begun. -/
def After (tail : List Byte) (s : ℕ × ℕ) : Prop :=
  run strictStep (IA, 0) tail = ([], .ok s) ∧ s.1 ≠ IA

theorem isCarried_boundary : IsCarried (IA, 0) := ⟨.boundary 0, fun _ => rfl⟩

theorem isCarried_of_run (h : run strictStep (IA, 0) bytes = (out, .ok s)) : IsCarried s :=
  run_invariant isCarried_step isCarried_boundary h

theorem After.isCarried (h : After tail s) : IsCarried s := isCarried_of_run h.1

/-- One more byte of a character, or its first. -/
theorem after_concat (hrun : run strictStep (IA, 0) tail = ([], .ok s))
    (hstep : strictStep s byte = .ok (out, s')) (hne : s'.1 ≠ IA) : After (tail ++ [byte]) s' := by
  have hout := (strictStep_state (isCarried_of_run hrun) hstep).2.mpr hne
  subst hout
  refine ⟨?_, hne⟩
  rw [run_append_ok hrun, run_cons_ok hstep]
  rfl

theorem After.of_concat (h : After (tail ++ [byte]) s') :
    ∃ s, run strictStep (IA, 0) tail = ([], .ok s) ∧ IsCarried s ∧
      strictStep s byte = .ok ([], s') := by
  obtain ⟨out1, s, out2, hrun, hstep, hout⟩ := run_concat_ok h.1
  obtain ⟨rfl, rfl⟩ := append_eq_nil_iff.mp hout.symm
  exact ⟨s, hrun, isCarried_of_run hrun, hstep⟩

/-- The states after a first byte. -/
theorem next_first (a : Byte) :
    (next IA a ≠ IA ∧ isErrorState (next IA a) = false ↔ 0xC2 ≤ a.val ∧ a.val < 0xF5) ∧
    (0xC2 ≤ a.val → a.val < 0xF5 → next IA a ∈ states) ∧
    (next IA a = X1 ↔ 0xC2 ≤ a.val ∧ a.val < 0xE0) ∧ (next IA a = TO ↔ a.val = 0xE0) ∧
    (next IA a = TS ↔ a.val = 0xED) ∧ (next IA a = QO ↔ a.val = 0xF0) ∧
    (next IA a = QR ↔ a.val = 0xF4) ∧
    (next IA a = QO ∨ next IA a = X3 ∨ next IA a = QR ↔ 0xF0 ≤ a.val ∧ a.val < 0xF5) := by
  revert a
  decide

/-- The states after an extension byte. -/
theorem next_extension (h : state ∈ states) (hne : state ≠ IA) (b : Byte) :
    (isErrorState (next state b) = false ↔ 0x80 ≤ b.val ∧ b.val < 0xC0 ∧
      (state = TO → 0xA0 ≤ b.val) ∧ (state = TS → b.val < 0xA0) ∧ (state = QO → 0x90 ≤ b.val) ∧
      (state = QR → b.val < 0x90)) ∧ (isErrorState (next state b) = false → next state b =
      if state = X1 then IA
      else if state = QO ∨ state = X3 ∨ state = QR then X2 else X1) := by
  revert b
  revert state
  decide +kernel

/-- The second byte of a character. -/
theorem next_second (hlo : 0xC2 ≤ a.val) (hhi : a.val < 0xF5) (b : Byte) :
    (isErrorState (next (next IA a) b) = false ↔ SecondOf a b) ∧
    (SecondOf a b → next (next IA a) b =
      if a.val < 0xE0 then IA else if a.val < 0xF0 then X1 else X2) := by
  obtain ⟨hlead, hmem, hx1, hto, hts, hqo, hqr, h4⟩ := next_first a
  obtain ⟨hok, hvalue⟩ := next_extension (hmem hlo hhi) (hlead.mpr ⟨hlo, hhi⟩).1 b
  rw [hto, hts, hqo, hqr] at hok
  simp only [hx1, h4] at hvalue
  refine ⟨hok, fun hsecond => ?_⟩
  rw [hvalue (hok.mpr hsecond)]
  split_ifs <;> first | rfl | omega

/-- A character that is not finished, with the state after it. -/
inductive Begun : List Byte → ℕ → Prop
  | one {a : Byte} : 0xC2 ≤ a.val → a.val < 0xF5 → Begun [a] (next IA a)
  | two {a b : Byte} : 0xE0 ≤ a.val → a.val < 0xF5 → SecondOf a b →
      Begun [a, b] (if a.val < 0xF0 then X1 else X2)
  | three {a b c : Byte} : 0xF0 ≤ a.val → a.val < 0xF5 → SecondOf a b → isExtension c →
      Begun [a, b, c] X1

theorem Begun.isUnfinished (h : Begun tail state) : IsUnfinished tail := by
  cases h with
  | one hlo hhi => exact ⟨hlo, hhi⟩
  | two hlo hhi hsecond => exact ⟨hlo, hhi, hsecond⟩
  | three hlo hhi hsecond hext => exact ⟨hlo, hhi, hsecond, hext⟩

theorem next_X1 (b : Byte) : next X1 b = if isExtension b then IA else E1 := by
  revert b
  decide

theorem next_X2 (b : Byte) : next X2 b = if isExtension b then X1 else E1 := by
  revert b
  decide

theorem isExtension_of_not_error {b : Byte}
    (h : isErrorState (if isExtension b then state else E1) = false) : isExtension b = true := by
  by_contra hext
  rw [if_neg hext] at h
  exact absurd h (by decide)

/-- One more byte of a character: it is not finished, or it is. -/
theorem Begun.next (h : Begun tail state) (byte : Byte)
    (herror : isErrorState (next state byte) = false) :
    (Utf8.next state byte = IA ∧ IsScalar (tail ++ [byte])) ∨
      (Utf8.next state byte ≠ IA ∧ Begun (tail ++ [byte]) (Utf8.next state byte)) := by
  cases h with
  | @one a hlo hhi =>
    have hsecond := (next_second hlo hhi byte).1.mp herror
    have hvalue := (next_second hlo hhi byte).2 hsecond
    by_cases h2 : a.val < 0xE0
    · rw [if_pos h2] at hvalue
      exact Or.inl ⟨hvalue, hlo, h2, (isExtension_iff byte).mpr ⟨hsecond.1, hsecond.2.1⟩⟩
    · rw [if_neg h2] at hvalue
      rw [hvalue]
      refine Or.inr ⟨by split_ifs <;> decide, .two (by omega) hhi hsecond⟩
  | @two a b hlo hhi hsecond =>
    by_cases h3 : a.val < 0xF0
    · rw [if_pos h3, next_X1] at herror ⊢
      have hext := isExtension_of_not_error herror
      exact Or.inl ⟨if_pos hext, hlo, h3, hsecond, hext⟩
    · rw [if_neg h3, next_X2] at herror ⊢
      have hext := isExtension_of_not_error herror
      rw [if_pos hext]
      exact Or.inr ⟨by decide, .three (by omega) hhi hsecond hext⟩
  | @three a b c hlo hhi hsecond hc =>
    rw [next_X1] at herror ⊢
    have hext := isExtension_of_not_error herror
    exact Or.inl ⟨if_pos hext, hlo, hhi, hsecond, hc, hext⟩

/-! ## The end of an input

A sequence that the input cuts off is an error at the end, and is kept between chunks. -/

theorem IsCarried.not_error (h : IsCarried s) : isErrorState s.1 = false := h.1.not_error

theorem ne_boundary_of_run (hrun : run strictStep (IA, 0) tail = ([], .ok s)) (hne : tail ≠ []) :
    s.1 ≠ IA := by
  induction tail using reverseRecOn with
  | nil => exact absurd rfl hne
  | append_singleton tail byte _ =>
    obtain ⟨out1, s1, out2, hinit, hstep, hout⟩ := run_concat_ok hrun
    obtain ⟨-, rfl⟩ := append_eq_nil_iff.mp hout.symm
    have hs1 := isCarried_of_run hinit
    exact (strictStep_state hs1 hstep).2.mp rfl

theorem After.begun (h : After tail s) : Begun tail s.1 := by
  induction tail using reverseRecOn generalizing s with
  | nil =>
    cases h.1
    exact absurd rfl h.2
  | append_singleton tail byte ih =>
    obtain ⟨s1, hrun, hs1, hstep⟩ := h.of_concat
    have hstate := (strictStep_state hs1 hstep).1
    have herror : isErrorState (next s1.1 byte) = false := hstate ▸ h.isCarried.not_error
    have hne : next s1.1 byte ≠ IA := hstate ▸ h.2
    rw [hstate]
    by_cases htail : tail = []
    · subst htail
      cases hrun
      obtain ⟨hlo, hhi⟩ := (next_first byte).1.mp ⟨hne, herror⟩
      exact .one hlo hhi
    · rcases (ih ⟨hrun, ne_boundary_of_run hrun htail⟩).next byte herror with ⟨heq, -⟩ | ⟨-, hbegun⟩
      · exact absurd heq hne
      · exact hbegun

theorem exists_after_concat (hrun : run strictStep (IA, 0) tail = ([], .ok s))
    (herror : isErrorState (next s.1 byte) = false) (hne : next s.1 byte ≠ IA) :
    ∃ s', After (tail ++ [byte]) s' ∧ s'.1 = next s.1 byte := by
  have hs := isCarried_of_run hrun
  obtain ⟨out, s', hstep⟩ := exists_strictStep hs herror
  have hstate := (strictStep_state hs hstep).1
  exact ⟨s', after_concat hrun hstep (hstate ▸ hne), hstate⟩

theorem exists_after_first (hlo : 0xC2 ≤ a.val) (hhi : a.val < 0xF5) :
    ∃ s, After [a] s ∧ s.1 = next IA a := by
  obtain ⟨hne, herror⟩ := (next_first a).1.mpr ⟨hlo, hhi⟩
  exact exists_after_concat run_nil herror hne

theorem exists_after_second {b : Byte} (hlo : 0xE0 ≤ a.val) (hhi : a.val < 0xF5)
    (hsecond : SecondOf a b) : ∃ s, After [a, b] s ∧ s.1 = if a.val < 0xF0 then X1 else X2 := by
  obtain ⟨s, hafter, hstate⟩ := exists_after_first (by omega) hhi
  obtain ⟨hok, hvalue⟩ := next_second (a := a) (by omega) hhi b
  have hvalue := hvalue hsecond
  rw [if_neg (by omega), ← hstate] at hvalue
  have hne : next s.1 b ≠ IA := by
    rw [hvalue]
    split_ifs <;> decide
  obtain ⟨s', hafter', hstate'⟩ := exists_after_concat hafter.1 (hstate ▸ hok.mpr hsecond) hne
  exact ⟨s', hafter', hstate'.trans hvalue⟩

/-- **Every unfinished sequence is read without an error.** -/
theorem exists_after (h : IsUnfinished tail) : ∃ s, After tail s := by
  match tail, h with
  | [a], ⟨hlo, hhi⟩ =>
    obtain ⟨s, hafter, -⟩ := exists_after_first hlo hhi
    exact ⟨s, hafter⟩
  | [a, b], ⟨hlo, hhi, hsecond⟩ =>
    obtain ⟨s, hafter, -⟩ := exists_after_second hlo hhi hsecond
    exact ⟨s, hafter⟩
  | [a, b, c], ⟨hlo, hhi, hsecond, hext⟩ =>
    obtain ⟨s, hafter, hstate⟩ := exists_after_second (by omega) hhi hsecond
    rw [if_neg (by omega)] at hstate
    have hvalue : next s.1 c = X1 := by rw [hstate, next_X2, if_pos hext]
    obtain ⟨s', hafter', -⟩ :=
      exists_after_concat hafter.1 (by rw [hvalue]; decide) (by rw [hvalue]; decide)
    exact ⟨s', hafter'⟩

theorem IsCarried.eq_boundary (h : IsCarried s) (hstate : s.1 = IA) : s = (IA, 0) :=
  Prod.ext hstate (h.2 hstate)

/-- **A first byte begins a new character in every state.** -/
theorem run_feed_after (h : After tail s) (hs0 : IsCarried s₀) (allow : Bool) :
    run (feed allow) s₀ tail = if s₀.1 = IA then ([], .ok s)
      else if allow then ([0xFFFD], .ok s) else ([], .error E1) := by
  by_cases hstate : s₀.1 = IA
  · rw [if_pos hstate, hs0.eq_boundary hstate]
    exact run_feed_of_strict allow h.1
  rw [if_neg hstate]
  cases tail with
  | nil =>
    cases h.1
    exact absurd rfl h.2
  | cons a rest =>
    have hlead : 0xC2 ≤ a.val := by
      have hunfinished := h.begun.isUnfinished
      match rest, hunfinished with
      | [], ⟨hlo, _⟩ => exact hlo
      | [b], ⟨hlo, _⟩ => exact hlo.trans' (by decide)
      | [b, c], ⟨hlo, _⟩ => exact hlo.trans' (by decide)
    have hmissing : strictStep s₀ a = .error E1 := by
      have hnext : transition (s₀.1 + typeOf a) = E1 := by
        rw [transition_eq hs0.1.mem_states, next, if_neg hstate, if_pos (by omega)]
      rw [strictStep_error (by rw [hnext]; decide), hnext]
    cases hstep : strictStep (IA, 0) a with
    | error e =>
      have hrun := h.1
      rw [run_cons_error hstep] at hrun
      cases hrun
    | ok r =>
      obtain ⟨out, s1⟩ := r
      have hrun := h.1
      rw [run_cons_ok hstep, Prod.mk.injEq] at hrun
      obtain ⟨rfl, hout⟩ := append_eq_nil_iff.mp hrun.1
      cases allow with
      | false =>
        have hfeed : feed false s₀ a = .error E1 := hmissing
        rw [run_cons_error hfeed]
        rfl
      | true =>
        have hfeed : feed true s₀ a = .ok ([0xFFFD], s1) :=
          lenientStep_again hmissing (lenientStep_of_strict hstep)
        have hrest : run (feed true) s1 rest = ([], .ok s) :=
          run_feed_of_strict true (Prod.ext hout hrun.2)
        rw [run_cons_ok hfeed, hrest]
        rfl

theorem isCarried_feed (hs : IsCarried s) (h : feed allow s byte = .ok (out, s')) :
    IsCarried s' := by
  cases allow with
  | false => exact isCarried_step hs h
  | true =>
    obtain ⟨out1, s1, hstep, hs1⟩ := exists_lenientStep hs byte
    have heq : Except.ok (out, s') = Except.ok (out1, s1) := h.symm.trans hstep
    cases heq
    exact hs1

/-- What a byte leaves: a boundary after something was written, the first byte of a character, or
one more byte of the character. -/
theorem feed_cases (hs : IsCarried s) (h : feed allow s byte = .ok (out, s')) :
    (s'.1 = IA ∧ out ≠ []) ∨ After [byte] s' ∨
      (s.1 ≠ IA ∧ s'.1 ≠ IA ∧ strictStep s byte = .ok ([], s')) := by
  cases hstrict : strictStep s byte with
  | ok r =>
    have hfeed : feed allow s byte = .ok r := by
      cases allow with
      | false => exact hstrict
      | true => exact lenientStep_of_strict hstrict
    rw [hfeed] at h
    cases h
    have hout := (strictStep_state hs hstrict).2
    by_cases hstate' : s'.1 = IA
    · exact Or.inl ⟨hstate', fun h => hout.mp h hstate'⟩
    by_cases hstate : s.1 = IA
    · rw [hs.eq_boundary hstate] at hstrict
      exact Or.inr (Or.inl (after_concat run_nil hstrict hstate'))
    · rw [hout.mpr hstate']
      exact Or.inr (Or.inr ⟨hstate, hstate', rfl⟩)
  | error e =>
    cases allow with
    | false =>
      have herror : feed false s byte = .error e := hstrict
      rw [herror] at h
      cases h
    | true =>
      change lenientStep s byte = _ at h
      simp only [lenientStep, hstrict] at h
      split_ifs at h with he1 hone
      · cases hagain : strictStep (IA, 0) byte with
        | error e =>
          rw [hagain] at h
          cases h
          exact Or.inl ⟨rfl, by simp⟩
        | ok r =>
          rw [hagain] at h
          cases h
          by_cases hstate' : r.2.1 = IA
          · exact Or.inl ⟨hstate', by simp⟩
          · exact Or.inr (Or.inl (after_concat run_nil hagain hstate'))
      all_goals
        cases h
        exact Or.inl ⟨rfl, by simp⟩

/-- **Where a run ends**: at a boundary, or after the unfinished sequence that its bytes end
with. -/
theorem exists_after_of_run (hs0 : IsCarried s₀)
    (h : run (feed allow) s₀ bytes = (out, .ok s)) (hne : s.1 ≠ IA) :
    (∃ pre tail, bytes = pre ++ tail ∧ After tail s) ∨
      (s₀.1 ≠ IA ∧ out = [] ∧ run strictStep s₀ bytes = ([], .ok s)) := by
  induction bytes using reverseRecOn generalizing s out with
  | nil =>
    cases h
    exact Or.inr ⟨hne, rfl, rfl⟩
  | append_singleton bytes byte ih =>
    obtain ⟨out1, s1, out2, hrun, hstep, rfl⟩ := run_concat_ok h
    have hs1 := run_invariant isCarried_feed hs0 hrun
    rcases feed_cases hs1 hstep with ⟨hstate, -⟩ | hafter | ⟨hstate, -, hstrict⟩
    · exact absurd hstate hne
    · exact Or.inl ⟨bytes, [byte], rfl, hafter⟩
    have hfeed : run (feed allow) s1 [byte] = _ := run_feed_of_strict allow (run_cons_ok hstrict)
    have hout2 : out2 = [] := by
      have hcons : run (feed allow) s1 [byte] = _ := run_cons_ok hstep
      rw [hfeed] at hcons
      simpa using (congrArg Prod.fst hcons).symm
    subst hout2
    rcases ih hrun hstate with ⟨pre, tail, rfl, hafter⟩ | ⟨hs₀ne, rfl, hstrict0⟩
    · exact Or.inl ⟨pre, tail ++ [byte], by rw [append_assoc], after_concat hafter.1 hstrict hne⟩
    · refine Or.inr ⟨hs₀ne, rfl, ?_⟩
      rw [run_append_ok hstrict0, run_cons_ok hstrict]
      rfl

/-- The byte that ends a character. -/
theorem isScalar_concat (hrun : run strictStep (IA, 0) tail = ([], .ok s))
    (hstep : strictStep s byte = .ok (out, s')) (haccept : s'.1 = IA) :
      IsScalar (tail ++ [byte]) := by
  have hs := isCarried_of_run hrun
  have hstate := (strictStep_state hs hstep).1
  by_cases htail : tail = []
  · subst htail
    cases hrun
    have htable : ∀ byte : Byte, next IA byte = IA → byte.val < 0x80 := by decide
    exact htable byte (hstate.symm.trans haccept)
  have hafter : After tail s := ⟨hrun, ne_boundary_of_run hrun htail⟩
  have herror : isErrorState (next s.1 byte) = false :=
    hstate ▸ (isCarried_step hs hstep).not_error
  rcases hafter.begun.next byte herror with ⟨-, hscalar⟩ | ⟨hne, -⟩
  · exact hscalar
  · exact absurd (hstate.symm.trans haccept) hne

/-- **What strict decoding has read** is UTF-8, up to the beginning of a character at the end. -/
theorem exists_wellFormed (h : run strictStep (IA, 0) bytes = (out, .ok s)) :
    ∃ pre tail, bytes = pre ++ tail ∧ WellFormed pre ∧
      run strictStep (IA, 0) tail = ([], .ok s) := by
  induction bytes using reverseRecOn generalizing s out with
  | nil =>
    cases h
    exact ⟨[], [], rfl, .nil, rfl⟩
  | append_singleton bytes byte ih =>
    obtain ⟨out1, s1, out2, hrun, hstep, rfl⟩ := run_concat_ok h
    obtain ⟨pre, tail, rfl, hpre, htail⟩ := ih hrun
    have hs1 := isCarried_of_run hrun
    by_cases haccept : s.1 = IA
    · rw [(isCarried_step hs1 hstep).eq_boundary haccept]
      refine ⟨pre ++ (tail ++ [byte]), [], ?_, hpre.append (isScalar_concat htail hstep haccept),
        rfl⟩
      rw [append_nil, append_assoc]
    · rw [(strictStep_state hs1 hstep).2.mpr haccept] at hstep
      refine ⟨pre, tail ++ [byte], by rw [append_assoc], hpre, ?_⟩
      rw [run_append_ok htail, run_cons_ok hstep]
      rfl

theorem codePoint_concat (hne : tail ≠ []) :
    codePoint (tail ++ [byte]) = codePoint tail * 64 + byte.val % 64 := by
  cases tail with
  | nil => exact absurd rfl hne
  | cons a rest => simp [codePoint]

/-- **The bits so far** are those of the code point. -/
theorem nextChar_eq (hrun : run strictStep (IA, 0) tail = ([], .ok s))
    (hstep : strictStep s byte = .ok (out, s')) :
    nextChar s.1 s.2 byte = codePoint (tail ++ [byte]) := by
  have hs := isCarried_of_run hrun
  induction tail using reverseRecOn generalizing s byte out s' with
  | nil =>
    cases hrun
    have hstate := (strictStep_state hs hstep).1 ▸ (isCarried_step hs hstep).not_error
    have hfirst : ∀ byte : Byte, isErrorState (next IA byte) = false →
      byte.val < 0x80 ∨ 0xC2 ≤ byte.val ∧ byte.val < 0xF5 := by decide
    have hrange := hfirst byte hstate
    rw [nextChar, if_pos (by decide), first_bits]
    simp only [nil_append, codePoint, foldl_nil, firstBits]
    split_ifs <;> omega
  | append_singleton tail b ih =>
    obtain ⟨out1, s1, out2, hinit, hlast, hout⟩ := run_concat_ok hrun
    obtain ⟨rfl, rfl⟩ := append_eq_nil_iff.mp hout.symm
    have hs1 := isCarried_of_run hinit
    have hne := (strictStep_state hs1 hlast).2.mp rfl
    have hinside := hs.1.nextChar_inside hne byte
    obtain ⟨-, -, heq⟩ := strictStep_inv hlast
    rw [heq, carried_fst] at hne
    rw [codePoint_concat (by simp), ← ih hinit hlast hs1, hinside, heq, carried, if_neg hne]

/-- What a byte writes after the first bytes of a character. -/
theorem strictStep_out (hrun : run strictStep (IA, 0) tail = ([], .ok s))
    (hstep : strictStep s byte = .ok (out, s')) :
    out = if s'.1 = IA then charUnits (codePoint (tail ++ [byte])) else [] := by
  obtain ⟨-, hout, rfl⟩ := strictStep_inv hstep
  rw [hout, carried_fst, nextChar_eq hrun hstep]

theorem After.complete (h : After tail s) (hnext : next s.1 byte = IA) :
    run strictStep (IA, 0) (tail ++ [byte]) =
      (charUnits (codePoint (tail ++ [byte])), .ok (IA, 0)) := by
  have herror : isErrorState (next s.1 byte) = false := by
    rw [hnext]
    decide
  obtain ⟨out, s', hstep⟩ := exists_strictStep h.isCarried herror
  have hstate := (strictStep_state h.isCarried hstep).1
  have hboundary := (isCarried_step h.isCarried hstep).eq_boundary (hstate.trans hnext)
  subst hboundary
  rw [run_append_ok h.1, run_cons_ok hstep, strictStep_out h.1 hstep]
  simp

/-- **A character is decoded to its code point.** -/
theorem IsScalar.run {scalar : List Byte} (h : IsScalar scalar) :
    run strictStep (IA, 0) scalar = (charUnits (codePoint scalar), .ok (IA, 0)) := by
  match scalar, h with
  | [a], hascii =>
    have hstep : strictStep (IA, 0) a = _ := strictStep_ascii hascii
    rw [run_cons_ok hstep, strictStep_out run_nil hstep]
    simp
  | [a, b], ⟨hlo, hhi, hext⟩ =>
    obtain ⟨s, hafter, hstate⟩ := exists_after_first hlo (by omega)
    refine hafter.complete (?_ : next _ b = IA)
    rw [hstate, (next_first a).2.2.1.mpr ⟨hlo, hhi⟩, next_X1, if_pos hext]
  | [a, b, c], ⟨hlo, hhi, hsecond, hext⟩ =>
    obtain ⟨s, hafter, hstate⟩ := exists_after_second hlo (by omega) hsecond
    refine hafter.complete (?_ : next _ c = IA)
    rw [hstate, if_pos hhi, next_X1, if_pos hext]
  | [a, b, c, d], ⟨hlo, hhi, hsecond, hc, hd⟩ =>
    have hunfinished : IsUnfinished [a, b, c] := ⟨hlo, hhi, hsecond, hc⟩
    obtain ⟨s, hafter⟩ := exists_after hunfinished
    have hstate : s.1 = X1 := by
      have hbegun := hafter.begun
      generalize s.1 = state at hbegun
      cases hbegun
      rfl
    refine hafter.complete (?_ : next _ d = IA)
    rw [hstate, next_X1, if_pos hd]

/-- **UTF-8 is decoded without an error.** -/
theorem WellFormed.run (h : WellFormed bytes) :
    ∃ out, run strictStep (IA, 0) bytes = (out, .ok (IA, 0)) := by
  induction h with
  | nil => exact ⟨[], rfl⟩
  | append _ hscalar ih =>
    obtain ⟨out, hrun⟩ := ih
    exact ⟨_, by rw [run_append_ok hrun, hscalar.run]⟩

/-- A run that ends at a boundary has written something. -/
theorem out_ne_nil (hs0 : IsCarried s₀) (hne : bytes ≠ [])
    (h : run (feed allow) s₀ bytes = (out, .ok s)) (hstate : s.1 = IA) : out ≠ [] := by
  induction bytes using reverseRecOn with
  | nil => exact absurd rfl hne
  | append_singleton bytes byte _ =>
    obtain ⟨out1, s1, out2, hrun, hstep, rfl⟩ := run_concat_ok h
    have hs1 := run_invariant isCarried_feed hs0 hrun
    rcases feed_cases hs1 hstep with ⟨-, hout⟩ | hafter | ⟨-, hne', -⟩
    · exact fun h => hout (append_eq_nil_iff.mp h).2
    · exact absurd hstate hafter.2
    · exact absurd hstate hne'

/-- A run over an unfinished sequence that succeeds. -/
theorem After.of_feed {s1 : ℕ × ℕ} (h : After tail s) (hs0 : IsCarried s₀)
    (hrun : run (feed allow) s₀ tail = (out, .ok s1)) : s1 = s ∧ (out = [] ↔ s₀.1 = IA) := by
  rw [run_feed_after h hs0 allow] at hrun
  split_ifs at hrun with hstate
  · cases hrun
    exact ⟨rfl, iff_of_true rfl hstate⟩
  · cases hrun
    exact ⟨rfl, iff_of_false (by simp) hstate⟩
  · cases hrun

/-- **Inside of a character at the end** exactly if the input ends with an unfinished sequence. -/
theorem run_feed_unfinished_iff (h : run (feed allow) (IA, 0) bytes = (out, .ok s)) :
    s.1 ≠ IA ↔ ∃ tail, tail <:+ bytes ∧ IsUnfinished tail := by
  constructor
  · intro hne
    rcases exists_after_of_run isCarried_boundary h hne with ⟨pre, tail, rfl, hafter⟩ | ⟨hfalse, -⟩
    · exact ⟨tail, suffix_append _ _, hafter.begun.isUnfinished⟩
    · exact absurd rfl hfalse
  · rintro ⟨tail, ⟨pre, rfl⟩, hunfinished⟩
    obtain ⟨st, hafter⟩ := exists_after hunfinished
    obtain ⟨out1, s1, out2, hpre, hrun, rfl⟩ := exists_of_run_append h
    have hs1 := run_invariant isCarried_feed isCarried_boundary hpre
    rw [(hafter.of_feed hs1 hrun).1]
    exact hafter.2

/-- The last part of an input that ends with an unfinished sequence writes something: it is longer
than the sequence, or the sequence cuts off another one. -/
def WritesBefore (earlier last tail : List Byte) : Prop :=
  tail.length < last.length ∨ (tail = last ∧ ∃ tail', tail' <:+ earlier ∧ IsUnfinished tail')

theorem last_writes_iff {earlier last : List Byte} {out0 : List ℕ}
    (hearlier : run (feed allow) (IA, 0) earlier = (out0, .ok s₀))
    (hlast : run (feed allow) s₀ last = (out, .ok s)) (hne : s.1 ≠ IA) :
    out ≠ [] ↔ ∃ tail, tail <:+ earlier ++ last ∧ IsUnfinished tail ∧
      WritesBefore earlier last tail := by
  have hs0 := run_invariant isCarried_feed isCarried_boundary hearlier
  have hcut := run_feed_unfinished_iff hearlier
  constructor
  · intro hout
    rcases exists_after_of_run hs0 hlast hne with ⟨pre, tail, rfl, hafter⟩ | ⟨-, hnil, -⟩
    · refine ⟨tail, ?_, hafter.begun.isUnfinished, ?_⟩
      · exact (suffix_append _ _).trans (suffix_append _ _)
      cases pre with
      | nil => exact Or.inr ⟨rfl, hcut.mp fun h => hout ((hafter.of_feed hs0 hlast).2.mpr h)⟩
      | cons a pre =>
        left
        simp only [cons_append, length_cons, length_append]
        omega
    · exact absurd hnil hout
  · rintro ⟨tail, hsuffix, hunfinished, hwrites⟩ hnil
    subst hnil
    obtain ⟨st, hafter⟩ := exists_after hunfinished
    rcases hwrites with hlt | ⟨rfl, hcut'⟩
    · obtain ⟨x, rfl⟩ : tail <:+ last :=
        suffix_of_suffix_length_le hsuffix (suffix_append _ _) hlt.le
      obtain ⟨out1, s1, out2, hx, htail, hout⟩ := exists_of_run_append hlast
      obtain ⟨rfl, rfl⟩ := append_eq_nil_iff.mp hout.symm
      have hs1 := run_invariant isCarried_feed hs0 hx
      have hboundary := (hafter.of_feed hs1 htail).2.mp rfl
      refine out_ne_nil hs0 ?_ hx hboundary rfl
      rintro rfl
      simp at hlt
    · exact hcut.mpr hcut' ((hafter.of_feed hs0 hlast).2.mp rfl)

end Utf8
