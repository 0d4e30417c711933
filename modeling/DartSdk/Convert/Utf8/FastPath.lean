import DartSdk.Convert.Utf8.Automaton
import DartSdk.Lib.Transducer

/-!
# Convert/Utf8/FastPath — `decode8` and `decode16` are the automaton

`strictStep` is one byte of strict decoding, as a transducer that writes the code units of a
character when its last byte is read.  **The fast paths are runs of it**: `decode16_run` for every
input, `decode8_run` for input that the scan has found to be Latin-1.
-/

namespace Utf8

set_option maxRecDepth 10000

open List Utf8.Run Transducer

variable {state char : ℕ} {s : ℕ × ℕ} {bytes : List Byte} {byte : Byte}

/-- The state of the automaton, without the last character at a boundary. -/
def carried (state char : ℕ) : ℕ × ℕ := if state = IA then (IA, 0) else (state, char)

@[simp] theorem carried_fst (state char : ℕ) : (carried state char).1 = state := by
  unfold carried
  split_ifs with hstate
  · exact hstate.symm
  · rfl

@[simp] theorem nextChar_carried (state char : ℕ) (byte : Byte) :
    nextChar (carried state char).1 (carried state char).2 byte = nextChar state char byte := by
  unfold carried
  split_ifs with hstate
  · subst hstate
    rfl
  · rfl

/-- One byte, where malformed input fails with the error state. -/
def strictStep (s : ℕ × ℕ) (byte : Byte) : Except ℕ (List ℕ × (ℕ × ℕ)) :=
  let state := transition (s.1 + typeOf byte)
  let char := nextChar s.1 s.2 byte
  if state = IA then .ok (charUnits char, (IA, 0))
  else if isErrorState state then .error state
  else .ok ([], (state, char))

/-- The states of the transducer. -/
def IsCarried (s : ℕ × ℕ) : Prop := Carry s.1 s.2 ∧ (s.1 = IA → s.2 = 0)

theorem Carry.isCarried (h : Carry state char) : IsCarried (carried state char) := by
  unfold carried
  split_ifs with hstate
  · exact ⟨.boundary 0, fun _ => rfl⟩
  · exact ⟨h, fun heq => absurd heq hstate⟩

section

variable {s : ℕ × ℕ} {byte : Byte}

theorem strictStep_accept (h : transition (s.1 + typeOf byte) = IA) :
    strictStep s byte = .ok (charUnits (nextChar s.1 s.2 byte), (IA, 0)) := by
  rw [strictStep, if_pos h]

theorem strictStep_error (h : isErrorState (transition (s.1 + typeOf byte))) :
    strictStep s byte = .error (transition (s.1 + typeOf byte)) := by
  have hne : transition (s.1 + typeOf byte) ≠ IA := by
    intro heq
    rw [heq] at h
    exact absurd h (by decide)
  rw [strictStep, if_neg hne, if_pos h]

theorem strictStep_inside (hne : transition (s.1 + typeOf byte) ≠ IA)
    (h : Carry (transition (s.1 + typeOf byte)) (nextChar s.1 s.2 byte)) :
    strictStep s byte = .ok ([], (transition (s.1 + typeOf byte), nextChar s.1 s.2 byte)) := by
  rw [strictStep, if_neg hne, if_neg (by simp [h.not_error])]

theorem Step.error_or {state' char' : ℕ} (h : Step state char byte state' char') :
    isErrorState state' ∨ (state' = IA ∧ char' < 0x110000) ∨
      (state' ≠ IA ∧ Carry state' char') := by
  cases h with
  | ascii _ hlt hstate hchar => exact Or.inr (Or.inl ⟨hstate, by omega⟩)
  | lead _ _ _ hne hcarry => exact Or.inr (Or.inr ⟨hne, hcarry⟩)
  | bad _ _ _ hstate => rcases hstate with rfl | rfl <;> exact Or.inl rfl
  | missing _ _ hstate => subst hstate; exact Or.inl rfl
  | refused _ _ _ hstate => rcases hstate with rfl | rfl | rfl <;> exact Or.inl rfl
  | extend _ _ _ hne hcarry => exact Or.inr (Or.inr ⟨hne, hcarry⟩)
  | complete _ _ _ hstate _ hlt => exact Or.inr (Or.inl ⟨hstate, hlt⟩)

theorem strictStep_ok (h : isErrorState (transition (s.1 + typeOf byte)) = false) :
    strictStep s byte =
      .ok (if transition (s.1 + typeOf byte) = IA then charUnits (nextChar s.1 s.2 byte) else [],
        carried (transition (s.1 + typeOf byte)) (nextChar s.1 s.2 byte)) := by
  by_cases haccept : transition (s.1 + typeOf byte) = IA
  · rw [strictStep_accept haccept, if_pos haccept, carried, if_pos haccept]
  · rw [strictStep, if_neg haccept, if_neg haccept, if_neg (by simp [h]), carried, if_neg haccept]

variable {s' : ℕ × ℕ} {out : List ℕ}

/-- What a byte that is accepted writes and leaves. -/
theorem strictStep_inv (h : strictStep s byte = .ok (out, s')) :
    isErrorState (transition (s.1 + typeOf byte)) = false ∧
    out = (if transition (s.1 + typeOf byte) = IA then charUnits (nextChar s.1 s.2 byte) else []) ∧
    s' = carried (transition (s.1 + typeOf byte)) (nextChar s.1 s.2 byte) := by
  cases herror : isErrorState (transition (s.1 + typeOf byte)) with
  | true =>
    rw [strictStep_error herror] at h
    cases h
  | false =>
    rw [strictStep_ok herror] at h
    cases h
    exact ⟨rfl, rfl, rfl⟩

theorem strictStep_refused {e : ℕ} (h : strictStep s byte = .error e) :
    e = transition (s.1 + typeOf byte) ∧ isErrorState e := by
  cases herror : isErrorState (transition (s.1 + typeOf byte)) with
  | true =>
    rw [strictStep_error herror] at h
    cases h
    exact ⟨rfl, herror⟩
  | false =>
    rw [strictStep_ok herror] at h
    cases h

/-- A byte that is accepted keeps the states. -/
theorem isCarried_step (hs : IsCarried s) (h : strictStep s byte = .ok (out, s')) :
    IsCarried s' := by
  obtain ⟨herror, -, rfl⟩ := strictStep_inv h
  rcases (hs.1.step byte).error_or with hstate | ⟨haccept, -⟩ | ⟨-, hcarry⟩
  · rw [herror] at hstate
    cases hstate
  · rw [haccept]
    exact (Carry.boundary _).isCarried
  · exact hcarry.isCarried

end

theorem charUnits_lt (h : char < 0x110000) : ∀ x ∈ charUnits char, x < 0x10000 := by
  intro x hx
  unfold charUnits at hx
  split_ifs at hx with hlarge
  · have hand : char &&& 0x3FF ≤ 0x3FF := Nat.and_le_right
    simp only [mem_cons, not_mem_nil, or_false] at hx
    omega
  · simp only [mem_singleton] at hx
    omega

theorem map_twoByte (h : char < 0x110000) : (charUnits char).map twoByte = charUnits char := by
  refine (map_congr_left fun x hx => ?_).trans (map_id _)
  exact Nat.mod_eq_of_lt (charUnits_lt h x hx)

/-- What a decoding says about a run. -/
def Run.Follows (r : Run) (s : ℕ × ℕ) (bytes : List Byte) : Prop :=
  run strictStep s bytes =
    (r.writes, if isErrorState r.state then .error r.state else .ok (carried r.state r.charOrIndex))

variable {r : Run}

theorem Run.follows_ok (h : isErrorState r.state = false)
    (hrun : run strictStep s bytes = (r.writes, .ok (carried r.state r.charOrIndex))) :
    r.Follows s bytes := by
  rw [Follows, hrun, h]
  rfl

theorem Run.follows_error (h : isErrorState r.state = true)
    (hrun : run strictStep s bytes = (r.writes, .error r.state)) : r.Follows s bytes := by
  rw [Follows, hrun, h]
  rfl

theorem Run.Follows.cons {s' : ℕ × ℕ} {out : List ℕ}
    (h : r.Follows s' bytes) (hstep : strictStep s byte = .ok (out, s')) :
    Follows { r with writes := out ++ r.writes } s (byte :: bytes) := by
  rw [Follows, run_cons_ok hstep, h]

/-- A character that may be written, or an unfinished one, or an error. -/
def Reached (state char : ℕ) : Prop :=
  isErrorState state ∨ (state = IA ∧ char < 0x110000) ∨ (state ≠ IA ∧ Carry state char)

/-- What the loop of `decode16` does from a state with a character that is not written yet. -/
def LoopFollows (state char i : ℕ) (writes : List ℕ) (rest : List Byte) : Prop :=
  ∃ r : Run,
    (if isErrorState state then r = ⟨state, i, []⟩ else r.Follows (carried state char) rest) ∧
    decode16Loop state char (i + 1) writes rest =
      { r with writes := writes ++ (if state = IA then charUnits char else []) ++ r.writes }

/-- The loop of `decode16` after a byte. -/
theorem LoopFollows.step {i : ℕ} {writes : List ℕ} {rest : List Byte}
    (h : LoopFollows (transition (s.1 + typeOf byte)) (nextChar s.1 s.2 byte) i writes rest) :
    ∃ r : Run, r.Follows s (byte :: rest) ∧
      decode16Loop (transition (s.1 + typeOf byte)) (nextChar s.1 s.2 byte) (i + 1) writes rest =
        { r with writes := writes ++ r.writes } := by
  obtain ⟨r, hr, heq⟩ := h
  cases herror : isErrorState (transition (s.1 + typeOf byte)) with
  | true =>
    rw [if_pos herror] at hr
    subst hr
    have hne : transition (s.1 + typeOf byte) ≠ IA := fun h => by
      rw [h] at herror
      exact absurd herror (by decide)
    refine ⟨_, ?_, by rw [heq, if_neg hne, append_nil]⟩
    rw [Follows, run_cons_error (strictStep_error herror), if_pos herror]
  | false =>
    rw [if_neg (by simp [herror])] at hr
    refine ⟨{ r with writes := (if transition (s.1 + typeOf byte) = IA then
      charUnits (nextChar s.1 s.2 byte) else []) ++ r.writes }, ?_, ?_⟩
    · rw [Follows] at hr ⊢
      rw [run_cons_ok (strictStep_ok herror), hr]
    · rw [heq, append_assoc]

theorem loopFollows_error (i : ℕ) (writes : List ℕ) (rest : List Byte) (h : isErrorState state) :
    LoopFollows state char i writes rest := by
  have hne : state ≠ IA := by
    rintro rfl
    exact absurd h (by decide)
  exact ⟨⟨state, i, []⟩, by rw [if_pos h], by cases rest <;> simp [decode16Loop, hne, h]⟩

theorem decode16Loop_run (i : ℕ) (writes : List ℕ) (rest : List Byte) (h : Reached state char) :
    LoopFollows state char i writes rest := by
  induction rest generalizing state char i writes with
  | nil =>
    rcases h with herror | ⟨rfl, hlt⟩ | ⟨hne, hcarry⟩
    · exact loopFollows_error i writes [] herror
    · exact ⟨⟨IA, char, []⟩, by simp [isErrorState, Follows, carried],
        by simp [decode16Loop, map_twoByte hlt]⟩
    · refine ⟨⟨state, char, []⟩, ?_, by simp [decode16Loop, hne, hcarry.not_error]⟩
      simp only [hcarry.not_error, Bool.false_eq_true, if_false, Follows, run_nil]
  | cons byte rest ih =>
    rcases h with herror | ⟨rfl, hlt⟩ | ⟨hne, hcarry⟩
    · exact loopFollows_error i writes (byte :: rest) herror
    · have hreached := ((Carry.boundary 0).step byte).error_or
      obtain ⟨r, hr, heq⟩ :=
        (ih (i + 1) (writes ++ charUnits char) hreached).step (s := (IA, 0))
      refine ⟨r, hr, ?_⟩
      rw [decode16Loop, if_pos rfl, map_twoByte hlt]
      simpa [nextChar] using heq
    · obtain ⟨r, hr, heq⟩ :=
        (ih (i + 1) writes (hcarry.step byte).error_or).step (s := (state, char))
      refine ⟨r, ?_, ?_⟩
      · rw [hcarry.not_error, carried, if_neg hne]
        exact hr
      · have hafter := hcarry.not_le_afterBom hne
        rw [decode16Loop, if_neg hne, if_neg (by simp [hcarry.not_error])]
        simpa [nextChar, hafter, hne] using heq

/-- **`decode16` is the automaton.** -/
theorem decode16_run (h : Carry state char) (i : ℕ) (hne : bytes ≠ []) :
    (decode16 state char i bytes).Follows (carried state char) bytes := by
  cases bytes with
  | nil => exact absurd rfl hne
  | cons byte rest =>
    have hs := h.isCarried
    obtain ⟨r, hr, heq⟩ := (decode16Loop_run i [] rest (hs.1.step byte).error_or).step
    have hdecode : decode16 state char i (byte :: rest) = r := by
      replace heq : decode16Loop _ _ _ _ _ = r := heq
      rw [decode16, ← heq]
      by_cases hstate : state = IA
      · simp [hstate, carried, nextChar]
      · simp [hstate, carried, nextChar, h.not_le_afterBom hstate]
    rwa [hdecode]

/-- The bytes of Latin-1 text. -/
def IsLatin1 (byte : Byte) : Prop :=
  byte.val < 0x80 ∨ (0x80 ≤ byte.val ∧ byte.val < 0xC0) ∨ byte.val = 0xC2 ∨ byte.val = 0xC3

theorem extension_xor (byte : Byte) :
    (0x40 ≤ byte.val ^^^ 0x80 ↔ ¬ (0x80 ≤ byte.val ∧ byte.val < 0xC0)) ∧
      ((0x80 ≤ byte.val ∧ byte.val < 0xC0) → byte.val ^^^ 0x80 = byte.val % 64) := by
  revert byte
  decide

theorem strictStep_ascii (h : byte.val < 0x80) :
    strictStep (IA, 0) byte = .ok ([byte.val], (IA, 0)) := by
  have hnext : transition (IA + typeOf byte) = IA := by
    rw [transition_eq (by decide)]
    simp [next, h]
  have hchar : nextChar IA 0 byte = byte.val := by
    rw [nextChar, if_pos (by decide), first_bits, if_pos h]
  rw [strictStep_accept hnext, hchar, charUnits, if_neg (by omega)]

theorem strictStep_extension (h : 0x80 ≤ byte.val ∧ byte.val < 0xC0) :
    strictStep (IA, 0) byte = .error E2 := by
  have hnext : transition (IA + typeOf byte) = E2 := by
    rw [transition_eq (by decide)]
    simp [next, h, show ¬ byte.val < 0x80 by omega]
  rw [strictStep_error (by rw [hnext]; rfl), hnext]

/-- A first byte of two. -/
theorem strictStep_lead (h : 0xC2 ≤ byte.val ∧ byte.val < 0xE0) :
    strictStep (IA, 0) byte = .ok ([], (X1, byte.val - 0xC0)) := by
  have hb : ¬ byte.val < 0x80 ∧ ¬ byte.val < 0xC0 ∧ ¬ byte.val < 0xC2 := by omega
  have hnext : transition (IA + typeOf byte) = X1 := by
    rw [transition_eq (by decide)]
    simp [next, hb, h.2]
  have hchar : nextChar IA 0 byte = byte.val - 0xC0 := by
    rw [nextChar, if_pos (by decide), first_bits, if_neg hb.1, if_neg hb.2.1, if_neg hb.2.2,
      if_pos h.2]
  rw [strictStep_ok (by rw [hnext]; rfl), hnext, hchar]
  rfl

/-- The second byte of two. -/
theorem strictStep_second (hchar : char < 0x400) (h : 0x80 ≤ byte.val ∧ byte.val < 0xC0) :
    strictStep (X1, char) byte = .ok ([char * 64 + byte.val % 64], (IA, 0)) := by
  have hnext : transition (X1 + typeOf byte) = IA := by
    rw [transition_eq (by decide)]
    simp [next, h, show ¬ byte.val < 0x80 by omega]
  have hbits : nextChar X1 char byte = char * 64 + byte.val % 64 := extension_bits byte char
  rw [strictStep_accept hnext, hbits, charUnits, if_neg (by omega)]

theorem strictStep_missing (h : ¬ (0x80 ≤ byte.val ∧ byte.val < 0xC0)) :
    strictStep (X1, char) byte = .error E1 := by
  have hnext : transition (X1 + typeOf byte) = E1 := by
    rw [transition_eq (by decide), next, if_neg (by decide), if_pos (by omega)]
  rw [strictStep_error (by rw [hnext]; rfl), hnext]

/-- The loop of `decode8`, at a boundary. -/
theorem decode8Loop_run (char i : ℕ) (writes : List ℕ) (bytes : List Byte)
    (h : ∀ byte ∈ bytes, IsLatin1 byte) : ∃ r : Run, r.Follows (IA, 0) bytes ∧
      decode8Loop char i writes bytes = { r with writes := writes ++ r.writes } := by
  induction i, writes, bytes using decode8Loop.induct with
  | case1 i writes =>
    exact ⟨⟨IA, char, []⟩, follows_ok (show isErrorState IA = false by decide) rfl,
      by rw [decode8Loop, append_nil]⟩
  | case2 i writes byte rest hlo hhi =>
    refine ⟨⟨E2, i, []⟩, follows_error (show isErrorState E2 = true by decide) ?_, ?_⟩
    · exact run_cons_error (strictStep_extension ⟨hlo, hhi⟩)
    · unfold decode8Loop
      simp only [if_pos hlo, if_pos hhi, append_nil]
  | case3 i writes byte hlo hhi =>
    have hlead : 0xC2 ≤ byte.val ∧ byte.val < 0xE0 := by
      rcases h byte (mem_singleton_self _) with h | h | h | h <;> omega
    have hbits : ∀ byte : Byte, 0xC2 ≤ byte.val → byte.val < 0xE0 →
        byte.val &&& 0x1F = byte.val - 0xC0 := by decide
    refine ⟨⟨X1, byte.val - 0xC0, []⟩, follows_ok (show isErrorState X1 = false by decide) ?_, ?_⟩
    · exact run_cons_ok (strictStep_lead hlead)
    · unfold decode8Loop
      simp only [if_pos hlo, if_neg hhi, hbits byte hlead.1 hlead.2, append_nil]
  | case4 i writes byte hlo hhi byte' rest e he =>
    have hlead : 0xC2 ≤ byte.val ∧ byte.val < 0xE0 := by
      rcases h byte (mem_cons_self ..) with h | h | h | h <;> omega
    refine ⟨⟨E1, i + 1, []⟩, follows_error (show isErrorState E1 = true by decide) ?_, ?_⟩
    · rw [run_cons_ok (strictStep_lead hlead),
        run_cons_error (strictStep_missing ((extension_xor byte').1.mp he))]
      rfl
    · unfold decode8Loop
      simp only [if_pos hlo, if_neg hhi, append_nil]
      exact if_pos he
  | case5 i writes byte hlo hhi byte' rest e he ih =>
    have hlead : byte.val = 0xC2 ∨ byte.val = 0xC3 := by
      rcases h byte (mem_cons_self ..) with h | h | h <;> omega
    have hext : 0x80 ≤ byte'.val ∧ byte'.val < 0xC0 := by
      by_contra hext
      exact he ((extension_xor byte').1.mpr hext)
    obtain ⟨r, hr, heq⟩ := ih fun b hb => h b (mem_cons_of_mem _ (mem_cons_of_mem _ hb))
    have hunit : oneByte ((byte.val <<< 6) ||| e) = (byte.val - 0xC0) * 64 + byte'.val % 64 := by
      have he' : e = byte'.val &&& 0x3F :=
        ((extension_xor byte').2 hext).trans (Nat.and_two_pow_sub_one_eq_mod _ 6).symm
      rw [he', Nat.or_comm, extension_bits, oneByte]
      omega
    refine ⟨_, (hr.cons (strictStep_second (by omega) hext)).cons (strictStep_lead (by omega)), ?_⟩
    unfold decode8Loop
    simp only [if_pos hlo, if_neg hhi]
    rw [if_neg he, heq, hunit]
    simp
  | case6 i writes byte rest hlo ih =>
    obtain ⟨r, hr, heq⟩ := ih fun b hb => h b (mem_cons_of_mem _ hb)
    have hunit : oneByte byte.val = byte.val := Nat.mod_eq_of_lt byte.isLt
    refine ⟨_, hr.cons (strictStep_ascii (by omega)), ?_⟩
    unfold decode8Loop
    rw [if_neg hlo, heq, hunit]
    simp

/-- **`decode8` is the automaton** on Latin-1 text. -/
theorem decode8_run (h : state = IA ∨ (state = X1 ∧ char < 4)) (i : ℕ)
    (hne : bytes ≠ []) (hlatin : ∀ byte ∈ bytes, IsLatin1 byte) :
    (decode8 state char i bytes).Follows (carried state char) bytes := by
  cases bytes with
  | nil => exact absurd rfl hne
  | cons byte rest =>
    rcases h with rfl | ⟨rfl, hchar⟩
    · obtain ⟨r, hr, heq⟩ := decode8Loop_run char i [] (byte :: rest) hlatin
      replace heq : decode8Loop _ _ _ _ = r := heq
      rw [decode8, if_neg (by decide), heq]
      exact hr
    by_cases hext : 0x80 ≤ byte.val ∧ byte.val < 0xC0
    · have he : ¬ 0x40 ≤ byte.val ^^^ 0x80 := fun h => (extension_xor byte).1.mp h hext
      obtain ⟨r, hr, heq⟩ := decode8Loop_run char (i + 1) [char * 64 + byte.val % 64] rest
        fun b hb => hlatin b (mem_cons_of_mem _ hb)
      have hunit : oneByte ((char <<< 6) ||| (byte.val ^^^ 0x80)) =
          char * 64 + byte.val % 64 := by
        have he' : byte.val ^^^ 0x80 = byte.val &&& 0x3F :=
          ((extension_xor byte).2 hext).trans (Nat.and_two_pow_sub_one_eq_mod _ 6).symm
        rw [he', Nat.or_comm, extension_bits, oneByte]
        omega
      rw [decode8, if_pos rfl]
      simp only [if_neg he, hunit, heq]
      exact hr.cons (strictStep_second (by omega) hext)
    · have he : 0x40 ≤ byte.val ^^^ 0x80 := (extension_xor byte).1.mpr hext
      rw [decode8, if_pos rfl]
      simp only [if_pos he]
      exact follows_error (show isErrorState E1 = true by decide)
        (run_cons_error (strictStep_missing hext))

end Utf8
