import DartSdk.Convert.Utf8.Size
import Mathlib.Data.List.TakeWhile

/-!
# Convert/Utf8/Lenient — malformed input that is allowed

`lenientStep` never fails: it writes U+FFFD for what strict decoding refuses, and reads a byte that
should have been an extension byte again as a first byte.  **`decodeGeneral` is a run of it**
(`decodeGeneral_run`), and where strict decoding succeeds the two agree (`run_lenient`).
-/

namespace Utf8

open List Transducer

/-- One byte, where malformed input is replaced. -/
def lenientStep (s : ℕ × ℕ) (byte : Byte) : Except ℕ (List ℕ × (ℕ × ℕ)) :=
  match strictStep s byte with
  | .ok r => .ok r
  | .error e =>
    if e = E1 then
      match strictStep (IA, 0) byte with
      | .ok (out, s') => .ok (0xFFFD :: out, s')
      | .error _ => .ok ([0xFFFD, 0xFFFD], (IA, 0))
    else if e = E3 ∨ e = E2 then .ok ([0xFFFD], (IA, 0))
    else .ok ([0xFFFD, 0xFFFD], (IA, 0))

variable {s s' : ℕ × ℕ} {byte : Byte} {bytes : List Byte} {out : List ℕ} {state char : ℕ}

theorem lenientStep_of_strict (h : strictStep s byte = .ok (out, s')) :
    lenientStep s byte = .ok (out, s') := by
  rw [lenientStep, h]

theorem run_lenient (h : run strictStep s bytes = (out, .ok s')) :
    run lenientStep s bytes = (out, .ok s') := by
  induction bytes generalizing s out with
  | nil => exact h
  | cons byte bytes ih =>
    cases hstep : strictStep s byte with
    | error e => simp [run_cons_error hstep] at h
    | ok r =>
      rw [run_cons_ok hstep, Prod.mk.injEq] at h
      rw [run_cons_ok (lenientStep_of_strict hstep), ih (Prod.ext rfl h.2), ← h.1]

theorem strictStep_boundary_error {e : ℕ} (h : strictStep (IA, 0) byte = .error e) :
    e = E2 ∨ e = E3 := by
  obtain ⟨rfl, herror⟩ := strictStep_refused h
  cases (Carry.boundary 0).step byte with
  | ascii _ _ haccept =>
    rw [haccept] at herror
    cases herror
  | lead _ _ _ _ hcarry =>
    rw [hcarry.not_error] at herror
    cases herror
  | bad _ _ _ hstate => exact hstate
  | missing hne | refused hne | extend hne | complete hne => exact absurd rfl hne

/-- A byte that is read again. -/
theorem lenientStep_again (h : strictStep s byte = .error E1)
    (hagain : lenientStep (IA, 0) byte = .ok (out, s')) :
    lenientStep s byte = .ok (0xFFFD :: out, s') := by
  rw [lenientStep, h]
  cases hfirst : strictStep (IA, 0) byte with
  | ok r =>
    rw [lenientStep, hfirst] at hagain
    cases hagain
    rfl
  | error e =>
    rw [lenientStep, hfirst] at hagain
    rcases strictStep_boundary_error hfirst with rfl | rfl <;> cases hagain <;> rfl

/-- **Lenient decoding does not fail.** -/
theorem exists_lenientStep (hs : IsCarried s) (byte : Byte) :
    ∃ out s', lenientStep s byte = .ok (out, s') ∧ IsCarried s' := by
  have hboundary : IsCarried (IA, 0) := ⟨.boundary 0, fun _ => rfl⟩
  cases hstep : strictStep s byte with
  | ok r => exact ⟨r.1, r.2, by rw [lenientStep, hstep], isCarried_step hs hstep⟩
  | error e =>
    simp only [lenientStep, hstep]
    split_ifs
    · cases hagain : strictStep (IA, 0) byte with
      | ok r => exact ⟨_, _, rfl, isCarried_step hboundary hagain⟩
      | error e => exact ⟨_, _, rfl, hboundary⟩
    all_goals exact ⟨_, _, rfl, hboundary⟩

theorem exists_run_lenient (hs : IsCarried s) (bytes : List Byte) :
    ∃ out s', run lenientStep s bytes = (out, .ok s') ∧ IsCarried s' := by
  induction bytes generalizing s with
  | nil => exact ⟨[], s, rfl, hs⟩
  | cons byte bytes ih =>
    obtain ⟨out, s1, hstep, hs1⟩ := exists_lenientStep hs byte
    obtain ⟨out', s', hrun, hs'⟩ := ih hs1
    refine ⟨out ++ out', s', ?_, hs'⟩
    rw [run_cons_ok hstep, hrun]

theorem run_ascii {step : ℕ × ℕ → Byte → Except ℕ (List ℕ × (ℕ × ℕ))}
    (hstep : ∀ byte : Byte, byte.val < 0x80 → step (IA, 0) byte = .ok ([byte.val], (IA, 0)))
    (h : ∀ byte ∈ bytes, byte.val < 0x80) :
    run step (IA, 0) bytes = (bytes.map Fin.val, .ok (IA, 0)) := by
  induction bytes with
  | nil => rfl
  | cons byte bytes ih =>
    rw [run_cons_ok (hstep byte (h byte (mem_cons_self ..))),
      ih fun b hb => h b (mem_cons_of_mem _ hb)]
    rfl

/-- What `decodeGeneral` leaves is a run over the bytes. -/
def Run.Lenient (r : Run) (buffer : List ℕ) (s : ℕ × ℕ) (bytes : List Byte) : Prop :=
  ∃ out, r.writes = buffer ++ out ∧ Carry r.state r.charOrIndex ∧
    run lenientStep s bytes = (out, .ok (carried r.state r.charOrIndex))

theorem Run.Lenient.cons {r : Run} {buffer : List ℕ} (out : List ℕ) (s' : ℕ × ℕ)
    (h : r.Lenient (buffer ++ out) s' bytes) (hstep : lenientStep s byte = .ok (out, s')) :
    r.Lenient buffer s (byte :: bytes) := by
  obtain ⟨out', hwrites, hcarry, hrun⟩ := h
  refine ⟨out ++ out', by rw [hwrites, append_assoc], hcarry, ?_⟩
  rw [run_cons_ok hstep, hrun]

theorem Run.Lenient.nil (h : Carry state char) (buffer : List ℕ) :
    Run.Lenient ⟨state, char, buffer⟩ buffer (carried state char) [] :=
  ⟨[], (append_nil _).symm, h, rfl⟩

/-- After a byte that ends a character, a run of ASCII bytes is copied. -/
theorem Run.Lenient.copy {r : Run} {buffer : List ℕ} {rest : List Byte}
    (h : r.Lenient (buffer ++ (rest.takeWhile (·.val < 128)).map Fin.val) (IA, 0)
      (rest.dropWhile (·.val < 128))) : r.Lenient buffer (IA, 0) rest := by
  obtain ⟨out, hwrites, hcarry, hrun⟩ := h
  have hascii : run lenientStep (IA, 0) (rest.takeWhile (·.val < 128)) =
      ((rest.takeWhile (·.val < 128)).map Fin.val, .ok (IA, 0)) :=
    run_ascii (fun byte hlt => lenientStep_of_strict (strictStep_ascii hlt))
      fun byte hmem => by simpa using mem_takeWhile_imp hmem
  have hsplit := takeWhile_append_dropWhile (p := fun b : Byte => decide (b.val < 128)) (l := rest)
  refine ⟨_, by rw [hwrites, append_assoc], hcarry, ?_⟩
  rw [← hsplit, run_append_ok hascii, hsplit, hrun]

/-! A byte after the state and the character that the loop carries. -/

theorem lenientStep_accept (h : transition (state + typeOf byte) = IA) :
    lenientStep (carried state char) byte =
      .ok (charUnits (nextChar state char byte), (IA, 0)) := by
  rw [← nextChar_carried]
  exact lenientStep_of_strict (strictStep_accept (by rw [carried_fst, h]))

theorem lenientStep_inside (h : Carry state char) (hne : transition (state + typeOf byte) ≠ IA)
    (hok : ¬ isErrorState (transition (state + typeOf byte))) :
    Carry (transition (state + typeOf byte)) (nextChar state char byte) ∧
    lenientStep (carried state char) byte =
      .ok ([], carried (transition (state + typeOf byte)) (nextChar state char byte)) := by
  obtain herror | ⟨haccept, -⟩ | ⟨-, hcarry⟩ := (h.step byte).error_or
  · exact absurd herror hok
  · exact absurd haccept hne
  · refine ⟨hcarry, lenientStep_of_strict ?_⟩
    rw [strictStep_inside (by rwa [carried_fst]) (by rwa [nextChar_carried, carried_fst]),
      nextChar_carried, carried_fst, carried, if_neg hne]

theorem strictStep_carried_error (h : isErrorState (transition (state + typeOf byte))) :
    strictStep (carried state char) byte = .error (transition (state + typeOf byte)) := by
  rw [strictStep_error (by rwa [carried_fst]), carried_fst]

theorem lenientStep_replaced (h : isErrorState (transition (state + typeOf byte)))
    (hne : transition (state + typeOf byte) ≠ E1) (buffer : List ℕ) :
    ∃ out, lenientStep (carried state char) byte = .ok (out, (IA, 0)) ∧ buffer ++ out =
      if transition (state + typeOf byte) = E3 ∨ transition (state + typeOf byte) = E2 then
        buffer ++ charUnits unicodeReplacementCharacterRune
      else buffer ++ charUnits unicodeReplacementCharacterRune ++
        charUnits unicodeReplacementCharacterRune := by
  rw [lenientStep, strictStep_carried_error h]
  simp only [if_neg hne]
  split_ifs
  · exact ⟨_, rfl, rfl⟩
  · exact ⟨_, rfl, by rw [append_assoc]; rfl⟩

theorem decodeGeneralLoop_run (h : Carry state char) (i : ℕ) (buffer : List ℕ) (byte : Byte)
    (rest : List Byte) :
    (decodeGeneralLoop true state char i buffer byte rest).Lenient buffer (carried state char)
      (byte :: rest) := by
  fun_induction decodeGeneralLoop true state char i buffer byte rest with
  | case1 state char i buffer byte rest type char' state' haccept buffer1 ascii buffer2 hdrop =>
    refine .cons _ _ (.copy ?_) (lenientStep_accept haccept)
    rw [hdrop, haccept]
    exact .nil (.boundary _) _
  | case2 state char i buffer byte rest type char' state' haccept buffer1 ascii buffer2 byte' rest'
      hdrop ih =>
    rw [haccept] at ih ⊢
    refine .cons _ _ (.copy ?_) (lenientStep_accept haccept)
    rw [hdrop]
    exact ih (.boundary _)
  -- The byte is read again.
  | case3 state char i buffer byte rest type char' state' hne herror _ he1 ih =>
    obtain ⟨out, hwrites, hcarry, hrun⟩ := ih (.boundary _)
    refine ⟨0xFFFD :: out, by rw [hwrites, append_assoc]; rfl, hcarry, ?_⟩
    obtain ⟨out1, s1, hfirst, -⟩ :=
      exists_lenientStep (s := (IA, 0)) ⟨.boundary 0, fun _ => rfl⟩ byte
    have hsame : carried initial char' = (IA, 0) := rfl
    have hrefused : strictStep (carried state char) byte = .error E1 :=
      (strictStep_carried_error herror).trans (congrArg _ he1)
    rw [hsame, run_cons_ok hfirst] at hrun
    rw [run_cons_ok (lenientStep_again hrefused hfirst), cons_append]
    exact congrArg (fun r : List ℕ × Except ℕ (ℕ × ℕ) => (0xFFFD :: r.1, r.2)) hrun
  | case4 state char i buffer byte type char' state' hne herror _ he1 buffer1 =>
    obtain ⟨out, hstep, hout⟩ := lenientStep_replaced herror he1 buffer
    refine .cons out _ ?_ hstep
    rw [hout]
    exact .nil (.boundary _) _
  | case5 state char i buffer byte type char' state' hne herror _ he1 buffer1 byte' rest ih =>
    obtain ⟨out, hstep, hout⟩ := lenientStep_replaced herror he1 buffer
    refine .cons out _ ?_ hstep
    rw [hout]
    exact ih (.boundary _)
  | case6 => contradiction
  | case7 state char i buffer byte type char' state' hne herror =>
    obtain ⟨hcarry, hstep⟩ := lenientStep_inside h hne herror
    refine .cons _ _ ?_ hstep
    rw [append_nil]
    exact .nil hcarry _
  | case8 state char i buffer byte type char' state' hne herror byte' rest ih =>
    obtain ⟨hcarry, hstep⟩ := lenientStep_inside h hne herror
    refine .cons _ _ ?_ hstep
    rw [append_nil]
    exact ih hcarry
/-- **`decodeGeneral` in a chunk.** -/
theorem decodeGeneral_run (h : Carry state char) (i : ℕ) (hne : bytes ≠ []) :
    (decodeGeneral true state char i bytes false).Lenient [] (carried state char) bytes := by
  cases bytes with
  | nil => exact absurd rfl hne
  | cons byte rest =>
    have hloop := decodeGeneralLoop_run h i [] byte rest
    have hgeneral : decodeGeneral true state char i (byte :: rest) false =
        decodeGeneralLoop true state char i [] byte rest := by
      simp [decodeGeneral, Bool.false_and, Bool.false_eq_true, ite_self]
    rwa [hgeneral]

/-- **`decodeGeneral` of a whole input**: a character that is not finished is replaced too. -/
theorem decodeGeneral_single (char i : ℕ) (hne : bytes ≠ [])
    (hrun : run lenientStep (IA, 0) bytes = (out, .ok s')) :
    (decodeGeneral true IA char i bytes true).writes =
      out ++ if s'.1 = IA then [] else [0xFFFD] := by
  cases bytes with
  | nil => exact absurd rfl hne
  | cons byte rest =>
    obtain ⟨out', hwrites, hcarry, hloop⟩ := decodeGeneralLoop_run (.boundary char) i [] byte rest
    rw [show carried IA char = (IA, 0) from rfl, hrun, Prod.mk.injEq, Except.ok.injEq] at hloop
    obtain ⟨rfl, rfl⟩ := hloop
    rw [carried_fst]
    simp only [decodeGeneral, hcarry.not_error, Bool.false_eq_true, if_false, Bool.true_and]
    by_cases hstate : (decodeGeneralLoop true IA char i [] byte rest).state = IA
    · rw [if_neg (by simp [hstate]), if_pos hstate, hwrites, nil_append, append_nil]
    · have hlt := Nat.not_le.mp (hcarry.not_le_afterBom hstate)
      rw [if_pos (by simpa using hlt), if_neg hstate, if_true, hwrites, nil_append]
      rfl

end Utf8
