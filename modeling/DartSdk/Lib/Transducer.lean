import Mathlib.Data.List.Basic

/-!
# Lib/Transducer — machines that read a list and write a list

A step reads one letter and writes some letters, or fails.  `run` keeps what was written before a
failure.  **Reading a list in pieces is reading it at once**: `run_append`.
-/

namespace Transducer

variable {σ α β ε : Type*}

/-- What is written, and the state at the end or the failure. -/
def run (step : σ → α → Except ε (List β × σ)) : σ → List α → List β × Except ε σ
  | s, [] => ([], .ok s)
  | s, a :: as =>
    match step s a with
    | .error e => ([], .error e)
    | .ok (out, s') => (out ++ (run step s' as).1, (run step s' as).2)

variable {step : σ → α → Except ε (List β × σ)} {s s' : σ} {a : α} {as bs : List α}
  {out : List β} {e : ε}

@[simp] theorem run_nil : run step s [] = ([], .ok s) := rfl

theorem run_cons_ok (h : step s a = .ok (out, s')) :
    run step s (a :: as) = (out ++ (run step s' as).1, (run step s' as).2) := by
  simp [run, h]

theorem run_cons_error (h : step s a = .error e) : run step s (a :: as) = ([], .error e) := by
  simp [run, h]

/-- A run that ends takes a first step. -/
theorem exists_of_run_cons (h : run step s (a :: as) = (out, .ok s')) :
    ∃ out1 s1 out2, step s a = .ok (out1, s1) ∧ run step s1 as = (out2, .ok s') ∧
      out = out1 ++ out2 := by
  cases hstep : step s a with
  | error e => simp [run_cons_error hstep] at h
  | ok r =>
    obtain ⟨out1, s1⟩ := r
    rw [run_cons_ok hstep, Prod.mk.injEq] at h
    exact ⟨out1, s1, _, rfl, Prod.ext rfl h.2, h.1.symm⟩

theorem run_append_ok (h : run step s as = (out, .ok s')) :
    run step s (as ++ bs) = (out ++ (run step s' bs).1, (run step s' bs).2) := by
  induction as generalizing s out with
  | nil =>
    cases h
    rfl
  | cons a as ih =>
    obtain ⟨out1, s1, out2, hstep, hrun, rfl⟩ := exists_of_run_cons h
    rw [List.cons_append, run_cons_ok hstep, ih hrun, List.append_assoc]

/-- Where a run fails. -/
theorem exists_of_run_error (h : run step s as = (out, .error e)) :
    ∃ pre a post s', as = pre ++ a :: post ∧ run step s pre = (out, .ok s') ∧
      step s' a = .error e := by
  induction as generalizing s out with
  | nil => cases h
  | cons a as ih =>
    cases hstep : step s a with
    | error e' =>
      rw [run_cons_error hstep] at h
      cases h
      exact ⟨[], a, as, s, rfl, rfl, hstep⟩
    | ok r =>
      rw [run_cons_ok hstep, Prod.mk.injEq] at h
      obtain ⟨rfl, hs⟩ := h
      obtain ⟨pre, b, post, s', rfl, hpre, hfail⟩ := ih (Prod.ext rfl hs)
      refine ⟨a :: pre, b, post, s', rfl, ?_, hfail⟩
      rw [run_cons_ok hstep, hpre]

theorem run_append_error (h : run step s as = (out, .error e)) :
    run step s (as ++ bs) = (out, .error e) := by
  obtain ⟨pre, a, post, s', rfl, hpre, hfail⟩ := exists_of_run_error h
  rw [List.append_assoc, run_append_ok hpre, List.cons_append, run_cons_error hfail,
    List.append_nil]

theorem exists_of_run_append (h : run step s (as ++ bs) = (out, .ok s')) :
    ∃ out1 s1 out2, run step s as = (out1, .ok s1) ∧ run step s1 bs = (out2, .ok s') ∧
      out = out1 ++ out2 := by
  cases hrun : run step s as with
  | mk out1 r =>
  cases r with
  | error e => simp [run_append_error hrun] at h
  | ok s1 =>
    rw [run_append_ok hrun, Prod.mk.injEq] at h
    exact ⟨out1, s1, _, rfl, Prod.ext rfl h.2, h.1.symm⟩

/-- A run that ends is the run without the last letter, and its step. -/
theorem run_concat_ok (h : run step s (as ++ [a]) = (out, .ok s')) :
    ∃ out1 s1 out2, run step s as = (out1, .ok s1) ∧ step s1 a = .ok (out2, s') ∧
      out = out1 ++ out2 := by
  obtain ⟨out1, s1, out2, hrun, hlast, rfl⟩ := exists_of_run_append h
  obtain ⟨out3, s2, out4, hstep, hnil, rfl⟩ := exists_of_run_cons hlast
  cases hnil
  exact ⟨out1, s1, out3, hrun, hstep, by rw [List.append_nil]⟩

/-- An invariant of the steps is one of the runs. -/
theorem run_invariant {P : σ → Prop} (hstep : ∀ {s a out s'}, P s → step s a = .ok (out, s') → P s')
    (hs : P s) (h : run step s as = (out, .ok s')) : P s' := by
  induction as generalizing s out with
  | nil =>
    cases h
    exact hs
  | cons a as ih =>
    obtain ⟨out1, s1, out2, hfirst, hrun, rfl⟩ := exists_of_run_cons h
    exact ih (hstep hs hfirst) hrun

variable {ε α β : Type} {r : Except ε α} {f : α → β}

theorem exists_bind_ok {P : β → Prop} : (∃ b, (do let a ← r; return f a) = Except.ok b ∧ P b) ↔
    ∃ a, r = .ok a ∧ P (f a) := by
  cases r with
  | error e => exact iff_of_false (fun ⟨_, h, _⟩ => nomatch h) fun ⟨_, h, _⟩ => nomatch h
  | ok a =>
    constructor
    · rintro ⟨_, h, hP⟩
      cases h
      exact ⟨a, rfl, hP⟩
    · rintro ⟨_, h, hP⟩
      cases h
      exact ⟨_, rfl, hP⟩

theorem bind_eq_error {e : ε} : (do let a ← r; return f a) = Except.error e ↔ r = .error e := by
  cases r with
  | error e' => simp [bind, Except.bind]
  | ok a => exact iff_of_false (nomatch ·) (nomatch ·)

end Transducer
