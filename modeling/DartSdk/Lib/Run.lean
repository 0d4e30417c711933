import Mathlib.Logic.Basic

/-!
# Lib/Run — properties of the calls of a run

A machine takes calls one after another and may get stuck.  `Along` says that a property holds of
each call in the state before it; `along_iff` turns one such property into another along a whole
run, given what one call does.
-/

namespace Run

variable {σ ι : Type*} (step : σ → ι → Option σ)

/-- The property holds of each call of a run, in the state before it. -/
def Along (P : σ → ι → Prop) : σ → List ι → Prop
  | _, [] => True
  | s, op :: ops => P s op ∧ ∀ s', step s op = some s' → Along P s' ops

instance decidableAlong (P : σ → ι → Prop) [∀ s op, Decidable (P s op)] :
    ∀ (s : σ) (ops : List ι), Decidable (Along step P s ops)
  | _, [] => isTrue trivial
  | s, op :: ops =>
    match hstep : step s op with
    | none => decidable_of_iff (P s op) (by simp [Along, hstep])
    | some s' =>
      have := decidableAlong P s' ops
      decidable_of_iff (P s op ∧ Along step P s' ops) (by simp [Along, hstep])

variable {step} {A K F : σ → ι → Prop}

/-- **One call at a time.**  If for the calls `A` the properties `K` and `F` are the same in states
that satisfy an invariant, and a call with `F` keeps the invariant, they are the same along a
run. -/
theorem along_iff (Inv : σ → Prop) (hiff : ∀ s op, Inv s → A s op → (K s op ↔ F s op))
    (hinv : ∀ s op s', Inv s → A s op → F s op → step s op = some s' → Inv s') {s : σ}
    {ops : List ι} (hs : Inv s) (hops : Along step A s ops) : Along step K s ops ↔
    Along step F s ops := by
  induction ops generalizing s with
  | nil => exact Iff.rfl
  | cons op ops ih =>
    obtain ⟨hop, hrest⟩ := hops
    rw [Along, Along, hiff s op hs hop]
    exact and_congr_right fun hF => forall₂_congr fun s' hs' =>
      ih (hinv s op s' hs hop hF hs') (hrest s' hs')

end Run
