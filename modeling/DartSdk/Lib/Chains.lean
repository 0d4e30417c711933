import Mathlib.Tactic

/-!
# Lib/Chains — objects that share the tails of their lists

Each object points to a previous one, or to none, and knows how many objects there are on the way.
The objects form a tree with `none` at the root; `chain` is the way from an object to the root, and
the ancestors of an object are the suffixes of its chain.
-/

/-- Objects with a pointer to a previous one, and the depth of each. -/
structure Chains (α : Type*) where
  previous : α → Option α
  depth : α → ℕ
  depth_eq : ∀ a, depth a = (previous a).elim 0 depth + 1

namespace Chains

variable {α : Type*} (c : Chains α) {a b : Option α}

/-- The depth of an object, and 0 for the root. -/
def depthOf (a : Option α) : ℕ := a.elim 0 c.depth

variable {c}

@[simp] theorem depthOf_none : c.depthOf none = 0 := rfl

theorem depthOf_some (a : α) : c.depthOf (some a) = c.depthOf (c.previous a) + 1 := c.depth_eq a

variable (c) in
/-- The objects from `a` to the root. -/
def chain : Option α → List α
  | none => []
  | some a => a :: chain (c.previous a)
termination_by a => c.depthOf a
decreasing_by
  rw [depthOf_some]
  exact Nat.lt_succ_self _

@[simp] theorem chain_none : c.chain none = [] := by rw [chain]

theorem chain_some (a : α) : c.chain (some a) = a :: c.chain (c.previous a) := by rw [chain]

theorem length_chain (a : Option α) : (c.chain a).length = c.depthOf a := by
  induction a using chain.induct c with
  | case1 => rw [chain_none, List.length_nil, depthOf_none]
  | case2 a ih => rw [chain_some, List.length_cons, ih, depthOf_some]

theorem chain_injective (h : c.chain a = c.chain b) : a = b := by
  cases a with
  | none =>
    cases b with
    | none => rfl
    | some b => simp [chain_some] at h
  | some a =>
    cases b with
    | none => simp [chain_some] at h
    | some b =>
      rw [chain_some, chain_some] at h
      rw [(List.cons.inj h).1]

/-- **Ancestors of one depth** are the same. -/
theorem eq_of_suffix (h : c.chain a <:+ c.chain b)
    (hdepth : c.depthOf a = c.depthOf b) : a = b := by
  refine chain_injective (h.eq_of_length ?_)
  rw [length_chain, length_chain, hdepth]

theorem depthOf_le_of_suffix (h : c.chain a <:+ c.chain b) : c.depthOf a ≤ c.depthOf b := by
  rw [← length_chain, ← length_chain]
  exact h.length_le

/-- An ancestor that is not the object itself is one of the previous object. -/
theorem suffix_previous {b : α} (h : c.chain a <:+ c.chain (some b))
    (hne : a ≠ some b) : c.chain a <:+ c.chain (c.previous b) := by
  rw [chain_some, List.suffix_cons_iff] at h
  refine h.resolve_left fun h => hne (chain_injective (c := c) ?_)
  rw [h, chain_some]

end Chains
