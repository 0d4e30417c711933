import Mathlib.Data.List.Basic

/-!
# Lib/Bytecode — interpreters of a stream of encoded instructions

An interpreter reads an instruction, performs it, and goes on with a new state or returns a result.
`interpret` does so on the stream, `play` on the instructions themselves.

* `interpret_flatMap` — on a stream of encoded instructions both are the same;
* `Gives` — the instructions end in a state or in a result; `Gives.concat` goes on from the state,
  `Gives.extend` keeps the result, and `Gives.interpret` is what the interpreter does.
-/

namespace Bytecode

open List

variable {β ι κ σ ρ : Type}

section

variable (read : List β → Option (ι × List β)) (step : σ → ι → Option (σ ⊕ ρ))

/-- The loop over the stream.  An instruction takes a byte at least, so the length is fuel
enough. -/
def interpret : ℕ → σ → List β → Option (σ ⊕ ρ)
  | _, s, [] => some (.inl s)
  | 0, _, _ :: _ => none
  | fuel + 1, s, b :: bytes => do
    let (i, rest) ← read (b :: bytes)
    match ← step s i with
    | .inl s' => interpret fuel s' rest
    | .inr r => some (.inr r)

/-- The loop over the instructions. -/
def play : σ → List ι → Option (σ ⊕ ρ)
  | s, [] => some (.inl s)
  | s, i :: is => do
    match ← step s i with
    | .inl s' => play s' is
    | .inr r => some (.inr r)

end

variable {read : List β → Option (ι × List β)} {step : σ → ι → Option (σ ⊕ ρ)} {s s' : σ} {r : ρ}
  {is is' : List ι} {i : ι}

theorem play_cons_inl (h : step s i = some (.inl s')) :
    play step s (i :: is) = play step s' is := by
  rw [play, h]
  rfl

theorem play_cons_inr (h : step s i = some (.inr r)) : play step s (i :: is) = some (.inr r) := by
  rw [play, h]
  rfl

theorem play_append : play step s (is ++ is') =
    (play step s is).bind (Sum.elim (play step · is') (some ∘ .inr)) := by
  induction is generalizing s with
  | nil => rfl
  | cons i is ih =>
    match hstep : step s i with
    | none => simp [play, hstep]
    | some (.inl s1) => rw [cons_append, play_cons_inl hstep, play_cons_inl hstep, ih]
    | some (.inr r) =>
      rw [cons_append, play_cons_inr hstep, play_cons_inr hstep]
      rfl

theorem play_append_inl (h : play step s is = some (.inl s')) :
    play step s (is ++ is') = play step s' is' := by
  rw [play_append, h]
  rfl

/-- **What is returned stays.** -/
theorem play_append_inr (h : play step s is = some (.inr r)) :
    play step s (is ++ is') = some (.inr r) := by
  rw [play_append, h]
  rfl

/-- **The stream of encoded instructions stands for them.** -/
theorem interpret_flatMap {encode : κ → List β} {view : κ → ι} {items : List κ}
    (hread : ∀ x ∈ items, ∀ rest, read (encode x ++ rest) = some (view x, rest))
    (hne : ∀ x ∈ items, encode x ≠ []) {fuel : ℕ} (hfuel : (items.flatMap encode).length ≤ fuel) :
    interpret read step fuel s (items.flatMap encode) = play step s (items.map view) := by
  induction items generalizing fuel s with
  | nil => cases fuel <;> rfl
  | cons x items ih =>
    obtain ⟨b, bytes, hbytes⟩ := exists_cons_of_ne_nil (hne x mem_cons_self)
    have hx := hread x mem_cons_self (items.flatMap encode)
    have hread' := fun y hy => hread y (mem_cons_of_mem x hy)
    have hne' := fun y hy => hne y (mem_cons_of_mem x hy)
    rw [flatMap_cons, length_append, hbytes, length_cons] at hfuel
    rw [flatMap_cons, map_cons]
    rw [hbytes, cons_append] at hx ⊢
    cases fuel with
    | zero => omega
    | succ fuel =>
      rw [interpret, hx, play]
      change (step s (view x)).bind _ = (step s (view x)).bind _
      congr 1
      funext o
      cases o with
      | inl s' => exact ih hread' hne' (by omega)
      | inr r => rfl

/-- The instructions end in the state or the result `o`; a reader sees an instruction as `view`. -/
def Gives (view : κ → ι) (step : σ → ι → Option (σ ⊕ ρ)) (s : σ) (items : List κ) (o : σ ⊕ ρ) :
    Prop :=
  play step s (items.map view) = some o

variable {view : κ → ι} {items items' : List κ} {x : κ} {o : σ ⊕ ρ}

theorem gives_nil : Gives view step s [] (.inl s) := rfl

/-- **One more instruction**, from the last state. -/
theorem Gives.concat (h : Gives view step s items (.inl s')) (hstep : step s' (view x) = some o) :
    Gives view step s (items ++ [x]) o := by
  rw [Gives, map_append, play_append_inl h, map_singleton]
  cases o with
  | inl s'' => rw [play_cons_inl hstep, play]
  | inr r => rw [play_cons_inr hstep]

/-- **What is returned stays**, whatever follows. -/
theorem Gives.extend (h : Gives view step s items (.inr r)) (hextends : items <+: items') :
    Gives view step s items' (.inr r) := by
  obtain ⟨rest, rfl⟩ := hextends
  rw [Gives, map_append, play_append_inr h]

/-- **The interpreter** of the encoded instructions. -/
theorem Gives.interpret {encode : κ → List β} (h : Gives view step s items o)
    (hread : ∀ x ∈ items, ∀ rest, read (encode x ++ rest) = some (view x, rest))
    (hne : ∀ x ∈ items, encode x ≠ []) :
    interpret read step (items.flatMap encode).length s (items.flatMap encode) = some o := by
  rw [interpret_flatMap hread hne (Nat.le_refl _)]
  exact h

end Bytecode
