import Mathlib.Data.List.Basic

/-!
# Lib/Prior — a relation of each element to those before it

`Prior P l` says `P pre a` of every element `a` of `l` and the part `pre` of `l` before it.  A log
that grows at its end keeps it when the new element has `P` with all that is there.
-/

/-- Each element is in the relation with what is before it. -/
def Prior {α : Type*} (P : List α → α → Prop) (l : List α) : Prop :=
  ∀ pre a post, l = pre ++ a :: post → P pre a

namespace Prior

open List

variable {α : Type*} {P : List α → α → Prop} {l : List α} {a : α}

theorem nil : Prior P [] := by
  intro pre a post h
  simp at h

theorem concat (h : Prior P l) (ha : P l a) : Prior P (l ++ [a]) := by
  intro pre b post heq
  obtain rfl | ⟨post, c, rfl⟩ := eq_nil_or_concat post
  · obtain ⟨rfl, hb⟩ := append_inj' heq rfl
    obtain rfl := singleton_injective hb
    exact ha
  · have heq' : l ++ [a] = (pre ++ b :: post) ++ [c] := by simpa using heq
    obtain ⟨rfl, -⟩ := append_inj' heq' rfl
    exact h pre b post rfl

theorem of_mem (h : Prior P l) (ha : a ∈ l) : ∃ pre post, l = pre ++ a :: post ∧ P pre a := by
  obtain ⟨pre, post, rfl⟩ := append_of_mem ha
  exact ⟨pre, post, rfl, h pre a post rfl⟩

end Prior
