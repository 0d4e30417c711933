import Mathlib.Tactic

/-!
# Lib/Saturate — growing a set until a rule adds nothing

A **sweep** walks a list of candidates and adds each one that is not in the set yet and that the
rule accepts, the set growing as it goes.  `saturate` sweeps until one changes nothing.

* `saturate_induct` — what every single addition preserves, the result has.
* `saturate_closed` — the rule adds nothing to the result.
* `exists_saturate` — with more fuel than candidates outside the set, there is a result.
-/

open List

section

variable {α : Type*} [DecidableEq α] (rule : List α → α → Bool) {s t xs : List α} {fuel : ℕ}

/-- One sweep over the candidates, with whether it added one. -/
def sweep : List α → List α × Bool → List α × Bool
  | [], acc => acc
  | x :: xs, (s, changed) =>
    if x ∉ s ∧ rule s x then sweep xs (x :: s, true) else sweep xs (s, changed)

/-- Sweeps until one adds nothing; `none` is lack of fuel. -/
def saturate (xs : List α) : ℕ → List α → Option (List α)
  | 0, _ => none
  | fuel + 1, s =>
    let grown := sweep rule xs (s, false)
    if grown.2 then saturate xs fuel grown.1 else some grown.1

variable {rule}

theorem sweep_induct {P : List α → Prop} (xs : List α)
    (hadd : ∀ s x, x ∈ xs → x ∉ s → rule s x → P s → P (x :: s)) (acc : List α × Bool)
    (h : P acc.1) : P (sweep rule xs acc).1 := by
  induction xs generalizing acc with
  | nil => exact h
  | cons x xs ih =>
    obtain ⟨s, changed⟩ := acc
    have hadd' : ∀ s y, y ∈ xs → y ∉ s → rule s y → P s → P (y :: s) :=
      fun s y hy => hadd s y (mem_cons_of_mem x hy)
    rw [sweep]
    split
    · rename_i hx
      exact ih hadd' _ (hadd s x mem_cons_self hx.1 hx.2 h)
    · exact ih hadd' _ h

/-- **What every addition preserves, saturation preserves.** -/
theorem saturate_induct {P : List α → Prop}
    (hadd : ∀ s x, x ∈ xs → x ∉ s → rule s x → P s → P (x :: s))
    (hs : P s) (ht : saturate rule xs fuel s = some t) : P t := by
  induction fuel generalizing s with
  | zero => cases ht
  | succ fuel ih =>
    have hgrown := sweep_induct xs hadd (s, false) hs
    simp only [saturate] at ht
    split at ht
    · exact ih hgrown ht
    · exact Option.some.inj ht ▸ hgrown

theorem subset_saturate (h : saturate rule xs fuel s = some t) : s ⊆ t :=
  saturate_induct (P := (s ⊆ ·)) (fun _ x _ _ _ h => subset_cons_of_subset x h)
    (List.Subset.refl s) h

/-- A sweep reports what it adds. -/
theorem sweep_changed {acc : List α × Bool} (h : acc.2 = true) : (sweep rule xs acc).2 = true := by
  induction xs generalizing acc with
  | nil => exact h
  | cons x xs ih =>
    rw [sweep]
    split
    · exact ih rfl
    · exact ih h

theorem closed_of_sweep (h : (sweep rule xs (s, false)).2 = false) :
    (sweep rule xs (s, false)).1 = s ∧ ∀ x ∈ xs, x ∉ s → rule s x = false := by
  induction xs with
  | nil => exact ⟨rfl, fun x hx => absurd hx not_mem_nil⟩
  | cons x xs ih =>
    rw [sweep] at h ⊢
    split at h
    · rw [sweep_changed rfl] at h
      cases h
    rename_i hx
    rw [if_neg hx]
    obtain ⟨hsame, hclosed⟩ := ih h
    refine ⟨hsame, fun y hy hys => ?_⟩
    rcases mem_cons.mp hy with rfl | hy
    · exact Bool.eq_false_iff.mpr fun hrule => hx ⟨hys, hrule⟩
    · exact hclosed y hy hys

/-- **The rule adds nothing to the result.** -/
theorem saturate_closed (h : saturate rule xs fuel s = some t) :
    ∀ x ∈ xs, x ∉ t → rule t x = false := by
  induction fuel generalizing s with
  | zero => cases h
  | succ fuel ih =>
    simp only [saturate] at h
    split at h
    · exact ih h
    rename_i hchanged
    obtain ⟨hsame, hclosed⟩ := closed_of_sweep (Bool.not_eq_true _ ▸ hchanged)
    cases h
    rw [hsame]
    exact hclosed

/-- The number of candidates outside the set. -/
def outside (xs s : List α) : ℕ := xs.countP (· ∉ s)

theorem outside_cons_lt {x : α} (hx : x ∈ xs) (hs : x ∉ s) :
    outside xs (x :: s) < outside xs s := by
  have hle : ∀ ys : List α, outside ys (x :: s) ≤ outside ys s :=
    fun ys => countP_mono_left fun y _ => by simp
  obtain ⟨ys, zs, rfl⟩ := append_of_mem hx
  have hys := hle ys
  have hzs := hle zs
  have hin : decide (x ∉ x :: s) = false := by simp
  have hout : decide (x ∉ s) = true := by simpa using hs
  simp only [outside, countP_append, countP_cons, hin, hout] at *
  simp only [Bool.false_eq_true, if_false, if_true]
  omega

/-- A sweep that changes something leaves fewer candidates outside. -/
theorem outside_sweep (ys : List α) (hys : ys ⊆ xs) (acc : List α × Bool) :
    outside xs (sweep rule ys acc).1 ≤ outside xs acc.1 ∧
      ((sweep rule ys acc).2 = true → acc.2 = true ∨
        outside xs (sweep rule ys acc).1 < outside xs acc.1) := by
  induction ys generalizing acc with
  | nil => exact ⟨le_rfl, Or.inl⟩
  | cons y ys ih =>
    obtain ⟨s, changed⟩ := acc
    have hsub : ys ⊆ xs := fun z hz => hys (mem_cons_of_mem y hz)
    rw [sweep]
    split
    · rename_i hy
      have hlt := outside_cons_lt (hys mem_cons_self) hy.1
      have hle := (ih hsub (y :: s, true)).1
      exact ⟨(hle.trans_lt hlt).le, fun _ => Or.inr (hle.trans_lt hlt)⟩
    · exact ih hsub (s, changed)

/-- **Enough fuel gives a result.** -/
theorem exists_saturate (h : outside xs s < fuel) : ∃ t, saturate rule xs fuel s = some t := by
  induction fuel generalizing s with
  | zero => exact absurd h (Nat.not_lt_zero _)
  | succ fuel ih =>
    have hsweep : (sweep rule xs (s, false)).2 = true → _ :=
      (outside_sweep xs (List.Subset.refl xs) (s, false)).2
    simp only [saturate]
    split
    · rename_i hchanged
      have hlt := (hsweep hchanged).resolve_left Bool.false_ne_true
      exact ih (hlt.trans_le (Nat.lt_succ_iff.mp h))
    · exact ⟨_, rfl⟩

end
