import DartSdk.Lib.Dominance

/-!
# Lib/DepthFirst — depth-first numberings and semidominators

A depth-first search numbers the vertices of a graph from its root `0` on and gives each a parent.
Two facts about the tree are all that is used: an edge to a larger number goes to a descendant, and
the descendants of a vertex are an interval (`DepthFirst`).  So a path that never goes below its
first vertex stays among the descendants of it (`ancestor_of_path`).

The **semidominator** of `w` is the least vertex from which `w` is reached through vertices above
`w` only (`IsSemidominator`).  It is found from the edges to `w` and the semidominators above `w`
(`isSemidominator_of`), and with it the dominators of `w` are found from those of its parent
(`isImmediate_of`).
-/

open Relation Dominance

/-- The ancestors of a vertex, itself among them; the root is `0`. -/
def Ancestor (parent : ℕ → ℕ) : ℕ → ℕ → Prop := ReflTransGen fun a b => 0 < b ∧ parent b = a

/-- **A depth-first numbering** of a graph with vertices `0, …, n - 1`. -/
structure DepthFirst (n : ℕ) (E : ℕ → ℕ → Prop) where
  parent : ℕ → ℕ
  edge_lt : ∀ {u v}, E u v → u < n ∧ v < n
  parent_lt : ∀ {v}, 0 < v → v < n → parent v < v
  parent_edge : ∀ {v}, 0 < v → v < n → E (parent v) v
  forward : ∀ {u v}, E u v → u < v → Ancestor parent u v
  interval : ∀ {z u v}, u < n → Ancestor parent z u → z ≤ v → v ≤ u → Ancestor parent z v

variable {parent : ℕ → ℕ} {u v n : ℕ}

theorem ancestor_iff : Ancestor parent u v ↔ u = v ∨ (0 < v ∧ Ancestor parent u (parent v)) := by
  rw [Ancestor, ReflTransGen.cases_tail_iff]
  constructor
  · rintro (h | ⟨w, h, hpos, rfl⟩)
    · exact .inl h.symm
    · exact .inr ⟨hpos, h⟩
  · rintro (h | ⟨hpos, h⟩)
    · exact .inl h.symm
    · exact .inr ⟨_, h, hpos, rfl⟩

variable (hparent : ∀ i, 0 < i → i < n → parent i < i)

include hparent

/-- Parents have smaller numbers, so ancestors have. -/
theorem le_of_ancestor (hv : v < n) (h : Ancestor parent u v) : u ≤ v := by
  induction h with
  | refl => exact le_rfl
  | tail _ hstep ih =>
    obtain ⟨hpos, rfl⟩ := hstep
    have hlt := hparent _ hpos hv
    exact (ih (hlt.trans hv)).trans hlt.le

/-- A parent that is given to the vertex `n` does not matter for the ancestors of those below
`n`. -/
theorem ancestor_update {x : ℕ} (hv : v < n) :
    Ancestor (Function.update parent n x) u v ↔ Ancestor parent u v := by
  induction v using Nat.strong_induction_on with
  | _ v ih =>
  rw [ancestor_iff, Function.update_of_ne hv.ne]
  conv_rhs => rw [ancestor_iff]
  refine or_congr_right (and_congr_right fun hpos => ?_)
  have hlt := hparent v hpos hv
  exact ih _ hlt (hlt.trans hv)

/-- The ancestors of a new vertex. -/
theorem ancestor_update_self {x : ℕ} (hn : 0 < n) (hx : x < n) :
    Ancestor (Function.update parent n x) u n ↔ u = n ∨ Ancestor parent u x := by
  rw [ancestor_iff, Function.update_self, ancestor_update hparent hx]
  exact or_congr_right (and_iff_right hn)

namespace DepthFirst

open ReflTransGen

variable {n : ℕ} {E : ℕ → ℕ → Prop} (t : DepthFirst n E) {d u v w x z : ℕ}

omit hparent

theorem ancestor_le (hv : v < n) (h : Ancestor t.parent u v) : u ≤ v :=
  le_of_ancestor (fun _ => t.parent_lt) hv h

theorem root_ancestor (hv : v < n) : Ancestor t.parent 0 v := by
  induction v using Nat.strong_induction_on with
  | _ v ih =>
  rcases Nat.eq_zero_or_pos v with rfl | hpos
  · exact .refl
  · have hlt := t.parent_lt hpos hv
    exact (ih _ hlt (hlt.trans hv)).tail ⟨hpos, rfl⟩

/-- The way down from an ancestor stays above it. -/
theorem path_of_ancestor (hv : v < n) (h : Ancestor t.parent u v) :
    ReflTransGen (fun a b => E a b ∧ u < b ∧ b ≤ v) u v := by
  induction h with
  | refl => exact .refl
  | @tail w v h hstep ih =>
    obtain ⟨hpos, rfl⟩ := hstep
    have hlt := t.parent_lt hpos hv
    have hle := t.ancestor_le (hlt.trans hv) h
    refine tail (mono ?_ _ _ (ih (hlt.trans hv))) ⟨t.parent_edge hpos hv, ?_, le_rfl⟩
    · exact fun a b hab => ⟨hab.1, hab.2.1, hab.2.2.trans hlt.le⟩
    · omega

/-- **A path that does not go below its first vertex stays among its descendants.** -/
theorem ancestor_of_path (h : ReflTransGen (fun a b => E a b ∧ z ≤ b) z w) :
    Ancestor t.parent z w := by
  induction h with
  | refl => exact .refl
  | @tail a b h hstep ih =>
    rcases lt_or_ge a b with hlt | hge
    · exact ih.trans (t.forward hstep.1 hlt)
    · exact t.interval (t.edge_lt hstep.1).1 ih hstep.2 hge

/-- A dominator of a vertex is an ancestor. -/
theorem ancestor_of_dominates (hv : v < n) (h : Dominates E 0 d v) : Ancestor t.parent d v := by
  induction v using Nat.strong_induction_on with
  | _ v ih =>
  by_cases hne : d = v
  · exact hne ▸ .refl
  rcases Nat.eq_zero_or_pos v with rfl | hpos
  · exact absurd (List.mem_singleton.mp (h [0] (.single 0))) hne
  · have hlt := t.parent_lt hpos hv
    have hparent := h.of_edge hne (t.parent_edge hpos hv)
    exact (ih _ hlt (hlt.trans hv) hparent).tail ⟨hpos, rfl⟩

/-! ## Semidominators

The least block from which a block is reached through later blocks only. -/

variable (E) in
/-- A path from `x` to `w` whose inner vertices are above `w`. -/
def SemiPath (x w : ℕ) : Prop := ∃ u, ReflTransGen (fun a b => E a b ∧ w < b) x u ∧ E u w

variable (E) in
/-- **The semidominator of `w`.** -/
def IsSemidominator (s w : ℕ) : Prop := IsLeast {x | SemiPath E x w} s

/-- **A path is cut at its least vertex** after the first. -/
theorem exists_least (h : TransGen (fun a b => E a b ∧ w < b) x v) :
    ∃ u, w < u ∧ SemiPath E x u ∧ ReflTransGen (fun a b => E a b ∧ u ≤ b) u v := by
  induction h with
  | single hstep => exact ⟨_, hstep.2, ⟨x, .refl, hstep.1⟩, .refl⟩
  | @tail a b _ hstep ih =>
    obtain ⟨u, hwu, ⟨c, hpath, hedge⟩, hrest⟩ := ih
    rcases le_or_gt u b with hle | hlt
    · exact ⟨u, hwu, ⟨c, hpath, hedge⟩, hrest.tail ⟨hstep.1, hle⟩⟩
    -- the whole path so far is above `b`
    refine ⟨b, hstep.2, ⟨a, ?_, hstep.1⟩, .refl⟩
    have hfirst : ReflTransGen (fun a' b' => E a' b' ∧ b < b') x c :=
      mono (fun _ _ hab => ⟨hab.1, hlt.trans hab.2⟩) _ _ hpath
    have hsecond : ReflTransGen (fun a' b' => E a' b' ∧ b < b') u a :=
      mono (fun _ _ hab => ⟨hab.1, hlt.trans_le hab.2⟩) _ _ hrest
    exact (hfirst.tail ⟨hedge, hlt⟩).trans hsecond

theorem SemiPath.of_edge (h : E x w) : SemiPath E x w := ⟨x, .refl, h⟩

theorem SemiPath.of_ancestor (hpath : SemiPath E x u) (hwu : w < u) (hanc : Ancestor t.parent u v)
    (hedge : E v w) : SemiPath E x w := by
  obtain ⟨c, hfirst, hu⟩ := hpath
  refine ⟨v, ?_, hedge⟩
  have hfirst : ReflTransGen (fun a b => E a b ∧ w < b) x c :=
    mono (fun _ _ hab => ⟨hab.1, hwu.trans hab.2⟩) _ _ hfirst
  have hsecond : ReflTransGen (fun a b => E a b ∧ w < b) u v :=
    mono (fun _ _ hab => ⟨hab.1, hwu.trans hab.2.1⟩) _ _
      (t.path_of_ancestor (t.edge_lt hedge).1 hanc)
  exact (hfirst.tail ⟨hu, hwu⟩).trans hsecond

/-- Conversely, a path through vertices above `w` ends with a descent from one of them. -/
theorem SemiPath.cases (h : SemiPath E x w) :
    E x w ∨ ∃ u v, w < u ∧ SemiPath E x u ∧ Ancestor t.parent u v ∧ E v w := by
  obtain ⟨v, hpath, hedge⟩ := h
  rcases reflTransGen_iff_eq_or_transGen.mp hpath with rfl | hpath
  · exact .inl hedge
  · obtain ⟨u, hwu, hsemi, hrest⟩ := exists_least hpath
    exact .inr ⟨u, v, hwu, hsemi, t.ancestor_of_path hrest, hedge⟩

/-- **How semidominators are found**: the least of the predecessors of `w`, and of the
semidominators of the ancestors above `w` of these. -/
theorem isSemidominator_of {s : ℕ} {semi : ℕ → ℕ}
    (hsemi : ∀ u, w < u → u < n → IsSemidominator E (semi u) u)
    (hmem : E s w ∨ ∃ u v, w < u ∧ s = semi u ∧ Ancestor t.parent u v ∧ E v w)
    (hedge : ∀ v, E v w → s ≤ v)
    (hanc : ∀ u v, w < u → Ancestor t.parent u v → E v w → s ≤ semi u) : IsSemidominator E s w := by
  have hlt {u v : ℕ} (h : Ancestor t.parent u v) (hv : E v w) : u < n :=
    (t.ancestor_le (t.edge_lt hv).1 h).trans_lt (t.edge_lt hv).1
  constructor
  · rcases hmem with hs | ⟨u, v, hwu, rfl, hu, hv⟩
    · exact .of_edge hs
    · exact SemiPath.of_ancestor t (hsemi u hwu (hlt hu hv)).1 hwu hu hv
  · intro x hx
    rcases SemiPath.cases t hx with hx | ⟨u, v, hwu, hx, hu, hv⟩
    · exact hedge x hx
    · exact (hanc u v hwu hu hv).trans ((hsemi u hwu (hlt hu hv)).2 hx)

theorem semidominator_le_parent {s : ℕ} (h : IsSemidominator E s w) (hpos : 0 < w) (hw : w < n) :
    s ≤ t.parent w := h.2 (.of_edge (t.parent_edge hpos hw))

include t in
/-- The way down from the root to a vertex below `d` avoids `d`. -/
theorem avoids_of_lt (hx : x < n) (h : x < d) : Avoids E d 0 x :=
  mono (fun _ _ hab => ⟨hab.1, (hab.2.2.trans_lt h).ne⟩) _ _
    (t.path_of_ancestor hx (t.root_ancestor hx))

/-- A path that avoids `d` and ends above `d` has a last vertex below `d`. -/
theorem exists_last_below (hd : 0 < d) (h : Avoids E d 0 v) :
    v < d ∨ ∃ x < d, TransGen (fun a b => E a b ∧ d < b) x v := by
  induction h with
  | refl => exact .inl hd
  | @tail a b _ hstep ih =>
    rcases lt_or_gt_of_ne hstep.2 with hlt | hgt
    · exact .inl hlt
    · rcases ih with hlt | ⟨x, hx, hpath⟩
      · exact .inr ⟨a, hlt, .single ⟨hstep.1, hgt⟩⟩
      · exact .inr ⟨x, hx, hpath.tail ⟨hstep.1, hgt⟩⟩

theorem SemiPath.avoids (h : SemiPath E x u) (hd : d < u) : Avoids E d x u := by
  obtain ⟨c, hpath, hedge⟩ := h
  refine tail (mono ?_ _ _ hpath) ⟨hedge, hd.ne'⟩
  exact fun _ _ hab => ⟨hab.1, (hd.trans hab.2).ne'⟩

variable {s : ℕ} (hs : IsSemidominator E s w) (hpos : 0 < w) (hw : w < n)

include t hs hpos hw

/-- A dominator of `w` is not above the semidominator. -/
theorem le_semidominator (hd : Dominates E 0 d w) (hne : d ≠ w) : d ≤ s := by
  by_contra hlt
  rw [not_le] at hlt
  have hsw : s < n :=
    (t.semidominator_le_parent hs hpos hw).trans_lt ((t.parent_lt hpos hw).trans hw)
  have hdw : d < w := lt_of_le_of_ne (t.ancestor_le hw (t.ancestor_of_dominates hw hd)) hne
  exact dominates_iff.mp hd ⟨by omega, (t.avoids_of_lt hsw hlt).trans (SemiPath.avoids hs.1 hdw)⟩

theorem dominates_of_le_semidominator (hd : Dominates E 0 d (t.parent w)) (hle : d ≤ s) :
    Dominates E 0 d w := by
  rw [dominates_iff]
  rintro ⟨hne, havoids⟩
  have hparent := t.parent_lt hpos hw
  have hsp := t.semidominator_le_parent hs hpos hw
  rcases exists_last_below (Nat.pos_of_ne_zero hne.symm) havoids with hlt | ⟨x, hx, hpath⟩
  · omega
  obtain ⟨u, hdu, hsemi, hrest⟩ := exists_least hpath
  rcases ancestor_iff.mp (t.ancestor_of_path hrest) with rfl | ⟨-, hanc⟩
  · -- the path enters above `w`, so `x` is below the semidominator
    exact absurd (hs.2 hsemi) (by omega)
  -- it meets the way down to the parent, so the parent can be reached without `d`
  have hup : Avoids E d u (t.parent w) :=
    mono (fun _ _ hab => ⟨hab.1, (hdu.trans hab.2.1).ne'⟩) _ _
      (t.path_of_ancestor (hparent.trans hw) hanc)
  have hdown := t.avoids_of_lt (x := x) (by omega) hx
  exact dominates_iff.mp hd ⟨hne, (hdown.trans (hsemi.avoids hdu)).trans hup⟩

/-- **The step from the dominators of the parent to the immediate dominator.**  `d` is a dominator
of the parent, not above the semidominator, and all dominators of `w` dominate it. -/
theorem isImmediate_of (hd : Dominates E 0 d (t.parent w)) (hle : d ≤ s)
    (hall : ∀ e, e ≠ w → Dominates E 0 e w → Dominates E 0 e d) : IsImmediate E 0 d w where
  ne := by
    have := t.semidominator_le_parent hs hpos hw
    have := t.parent_lt hpos hw
    omega
  dominates := t.dominates_of_le_semidominator hs hpos hw hd hle
  least := hall

end DepthFirst
