import Mathlib.Tactic

/-!
# Lib/Wp — total correctness of programs that pass a state and may fail

`Prog σ α` is a program over a state `σ` that returns an `α` or fails.  `wp m Q s` says that `m`,
run from `s`, succeeds with a result and a state that satisfy `Q`; so a program that fails, or runs
out of fuel, satisfies nothing.

A loop is `loop fuel body`: the body either continues with a new loop variable or leaves the loop.
`wp_loop` is its rule — an invariant, and a measure the body decreases.
-/

/-- A program over the state `σ`: it may fail. -/
abbrev Prog (σ α : Type) := StateT σ Option α

namespace Prog

variable {σ α β γ : Type} {a : α} {Q : α → σ → Prop} {s : σ}

/-- **The weakest precondition**: `m` succeeds from `s`, and its result satisfies `Q`. -/
def wp (m : Prog σ α) (Q : α → σ → Prop) (s : σ) : Prop :=
  ∃ a s', m s = some (a, s') ∧ Q a s'

theorem wp_pure (h : Q a s) : wp (pure a : Prog σ α) Q s := ⟨a, s, rfl, h⟩

variable {m : Prog σ α}

theorem wp_bind {f : α → Prog σ β} {Q : β → σ → Prop}
    (h : wp m (fun a s' => wp (f a) Q s') s) : wp (m >>= f) Q s := by
  obtain ⟨a, s', hm, b, s'', hf, hQ⟩ := h
  refine ⟨b, s'', ?_, hQ⟩
  change (m s).bind (fun x => f x.1 x.2) = some (b, s'')
  rw [hm]
  exact hf

theorem wp_mono {R : α → σ → Prop} (h : wp m Q s) (hQR : ∀ a s', Q a s' → R a s') : wp m R s := by
  obtain ⟨a, s', hm, hQ⟩ := h
  exact ⟨a, s', hm, hQR a s' hQ⟩

theorem wp_ite {c : Prop} [Decidable c] {n : Prog σ α}
    (ht : c → wp m Q s) (he : ¬c → wp n Q s) : wp (if c then m else n) Q s := by
  by_cases hc : c
  · rw [if_pos hc]; exact ht hc
  · rw [if_neg hc]; exact he hc

theorem wp_get {Q : σ → σ → Prop} (h : Q s s) : wp (get : Prog σ σ) Q s := ⟨s, s, rfl, h⟩

theorem wp_lift {m : Option α} (hm : m = some a) (h : Q a s) :
    wp (StateT.lift m : Prog σ α) Q s := ⟨a, s, by rw [hm]; rfl, h⟩

/-- **The rule of a loop over a list**: the body keeps `I`, which speaks of the elements to come. -/
theorem wp_foldlM {f : β → α → Prog σ β} (I : List α → β → σ → Prop)
    (hstep : ∀ a l b s, I (a :: l) b s → wp (f b a) (I l) s) :
    ∀ (l : List α) {b : β} {s : σ}, I l b s → wp (l.foldlM f b) (I []) s
  | [], _, _, h => wp_pure h
  | a :: l, b, s, h => by
    rw [List.foldlM_cons]
    exact wp_bind (wp_mono (hstep a l b s h) fun _ _ hI => wp_foldlM I hstep l hI)

/-- A loop: the body returns `inl b` to continue with `b`, or `inr c` to leave with `c`. -/
def loop : ℕ → (β → Prog σ (β ⊕ γ)) → β → Prog σ γ
  | 0, _, _ => failure
  | fuel + 1, body, b => do
    match ← body b with
    | .inl b' => loop fuel body b'
    | .inr c => pure c

/-- **The rule of a loop**: the body keeps `I` and decreases `μ`, or leaves with `Q`. -/
theorem wp_loop_state {body : β → Prog σ (β ⊕ γ)} {Q : γ → σ → Prop} (I : β → σ → Prop)
    (μ : β → σ → ℕ) (hbody : ∀ b s, I b s → wp (body b) (fun r s' => match r with
      | .inl b' => I b' s' ∧ μ b' s' < μ b s
      | .inr c => Q c s') s) :
    ∀ (fuel : ℕ) {b : β} {s : σ}, I b s → μ b s < fuel → wp (loop fuel body b) Q s
  | 0, b, s, _, h => absurd h (Nat.not_lt_zero _)
  | fuel + 1, b, s, hI, h => by
    rw [loop]
    refine wp_bind (wp_mono (hbody b s hI) ?_)
    intro r s' hr
    cases r with
    | inl b' => exact wp_loop_state I μ hbody fuel hr.1 (by have := hr.2; omega)
    | inr c => exact wp_pure hr

/-- The rule, with a measure of the loop variable only. -/
theorem wp_loop {body : β → Prog σ (β ⊕ γ)} {Q : γ → σ → Prop} (I : β → σ → Prop) (μ : β → ℕ)
    (hbody : ∀ b s, I b s → wp (body b) (fun r s' => match r with
      | .inl b' => I b' s' ∧ μ b' < μ b
      | .inr c => Q c s') s) (fuel : ℕ) {b : β} (hI : I b s) (h : μ b < fuel) :
    wp (loop fuel body b) Q s := wp_loop_state I (fun b _ => μ b) hbody fuel hI h

end Prog

namespace Loop

variable {σ : Type*}

/-- **The rule of a counting loop**: an invariant kept by each iteration, which then succeeds. -/
theorem foldlM_range {f : σ → ℕ → Option σ} (I : ℕ → σ → Prop) :
    ∀ {n : ℕ}, (∀ i < n, ∀ s, I i s → ∃ s', f s i = some s' ∧ I (i + 1) s') →
      ∀ {s : σ}, I 0 s → ∃ s', (List.range n).foldlM f s = some s' ∧ I n s'
  | 0, _, s, h => ⟨s, rfl, h⟩
  | n + 1, step, s, h => by
    obtain ⟨s', hs', hI⟩ := foldlM_range I (fun i hi => step i (Nat.lt_succ_of_lt hi)) h
    obtain ⟨s'', hs'', hI'⟩ := step n n.lt_succ_self s' hI
    refine ⟨s'', ?_, hI'⟩
    rw [List.range_succ, List.foldlM_append, hs']
    simpa using hs''

end Loop
