import Mathlib.Tactic

/-!
# Lib/Dominance — paths and dominators

In a graph with a root, `d` **dominates** `v` if it lies on every path from the root to `v`.  The
*immediate* dominator of `v` is the one that all other dominators of `v` dominate.

A vertex fails to dominate exactly if there is a path that avoids it (`dominates_iff`); such paths
are `Relation.ReflTransGen`s, which can be cut and glued.
-/

open Relation

namespace Dominance

open List

variable {V : Type*}

/-- A path: its vertices, from the first to the last. -/
inductive IsPath (E : V → V → Prop) : V → List V → V → Prop
  | single (v : V) : IsPath E v [v] v
  | cons {u w v : V} {l : List V} : E u w → IsPath E w l v → IsPath E u (u :: l) v

variable (E : V → V → Prop) (r : V)

/-- **Every path from the root to `v` goes through `d`.** -/
def Dominates (d v : V) : Prop := ∀ l, IsPath E r l v → d ∈ l

/-- **The immediate dominator**: a dominator of `v` other than `v`, which all others dominate. -/
structure IsImmediate (d v : V) : Prop where
  ne : d ≠ v
  dominates : Dominates E r d v
  least : ∀ e, e ≠ v → Dominates E r e v → Dominates E r e d

/-- A path from `u` to `v` on which `d` does not come after `u`. -/
def Avoids (d u v : V) : Prop := ReflTransGen (fun a b => E a b ∧ b ≠ d) u v

variable {E r} {d e u v w : V} {l : List V}

namespace IsPath

variable (h : IsPath E u l v)

include h

theorem first_mem : u ∈ l := by
  cases h <;> exact mem_cons_self

theorem last_mem : v ∈ l := by
  induction h with
  | single v => exact mem_cons_self
  | cons _ _ ih => exact mem_cons_of_mem _ ih

theorem snoc (hedge : E v w) : IsPath E u (l ++ [w]) w := by
  induction h with
  | single v => exact .cons hedge (.single w)
  | cons hfirst _ ih => exact .cons hfirst (ih hedge)

theorem reflTransGen : ReflTransGen E u v := by
  induction h with
  | single v => exact .refl
  | cons hfirst _ ih => exact .head hfirst ih

/-- The part of a path up to a vertex on it. -/
theorem exists_prefix (hw : w ∈ l) : ∃ l', IsPath E u l' w ∧ l' ⊆ l := by
  induction h with
  | single v =>
    rw [mem_singleton.mp hw]
    exact ⟨[v], .single v, List.Subset.refl _⟩
  | @cons u a v l hfirst h ih =>
    rcases mem_cons.mp hw with rfl | hw
    · exact ⟨[w], .single w, cons_subset_cons _ (nil_subset _)⟩
    · obtain ⟨l', hl', hsub⟩ := ih hw
      exact ⟨u :: l', .cons hfirst hl', cons_subset_cons _ hsub⟩

theorem avoids (hd : d ∉ l) : Avoids E d u v := by
  induction h with
  | single v => exact .refl
  | cons hfirst h ih =>
    rw [mem_cons, not_or] at hd
    exact .head ⟨hfirst, fun heq => hd.2 (heq ▸ h.first_mem)⟩ (ih hd.2)

end IsPath

theorem Avoids.exists_path (h : Avoids E d u v) (hu : u ≠ d) : ∃ l, IsPath E u l v ∧ d ∉ l := by
  induction h with
  | refl => exact ⟨[u], .single u, fun hd => hu (mem_singleton.mp hd).symm⟩
  | tail _ hlast ih =>
    obtain ⟨l, hl, hd⟩ := ih
    refine ⟨_, hl.snoc hlast.1, fun hmem => ?_⟩
    rcases mem_append.mp hmem with hmem | hmem
    · exact hd hmem
    · exact hlast.2 (mem_singleton.mp hmem).symm

theorem exists_path_of_reflTransGen (h : ReflTransGen E u v) : ∃ l, IsPath E u l v := by
  induction h with
  | refl => exact ⟨[u], .single u⟩
  | tail _ hlast ih =>
    obtain ⟨l, hl⟩ := ih
    exact ⟨_, hl.snoc hlast⟩

/-- **A vertex dominates if no path avoids it.** -/
theorem dominates_iff : Dominates E r d v ↔ ¬(r ≠ d ∧ Avoids E d r v) := by
  constructor
  · rintro h ⟨hne, havoids⟩
    obtain ⟨l, hl, hd⟩ := havoids.exists_path hne
    exact hd (h l hl)
  · intro h l hl
    by_contra hd
    exact h ⟨fun heq => hd (heq ▸ hl.first_mem), hl.avoids hd⟩

theorem dominates_refl (v : V) : Dominates E r v v := fun _ hl => hl.last_mem

theorem Dominates.trans (h1 : Dominates E r d e) (h2 : Dominates E r e v) : Dominates E r d v := by
  intro l hl
  obtain ⟨l', hl', hsub⟩ := hl.exists_prefix (h2 l hl)
  exact hsub (h1 l' hl')

theorem Dominates.of_edge (h : Dominates E r d v) (hne : d ≠ v) (hedge : E u v) :
    Dominates E r d u := by
  intro l hl
  rcases mem_append.mp (h _ (hl.snoc hedge)) with hd | hd
  · exact hd
  · exact absurd (mem_singleton.mp hd) hne

end Dominance
