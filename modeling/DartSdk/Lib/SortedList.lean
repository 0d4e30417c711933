import DartSdk.Lib.Compare

/-!
# Lib/SortedList — finite sorted collections as strictly increasing lists

The entries `α` of a collection are ordered by a comparison of their keys.  What a collection says
about a key `k` is how `k` divides it: the entries `before k`, the one at `k`, those `after k`.
Lookup, insertion, removal and the two neighbours of `k` are read off that division, and
`Divides` is the rule by which an implementation that has found one computes them all.
-/

namespace SortedList

open List

variable {α K : Type*} (c : K → K → ℤ) (key : α → K) {k : K} {s : List α} {x : α}

/-- The keys strictly increase. -/
def Increasing (s : List α) : Prop :=
  s.Pairwise fun x y => c (key x) (key y) < 0

/-- The entries whose keys come before `k`. -/
def before (k : K) (s : List α) : List α :=
  s.filter fun x => decide (c (key x) k < 0)

/-- The entries whose keys come after `k`. -/
def after (k : K) (s : List α) : List α :=
  s.filter fun x => decide (0 < c (key x) k)

/-- The entry whose key is equivalent to `k`. -/
def lookup (k : K) (s : List α) : Option α :=
  s.find? fun x => decide (c (key x) k = 0)

/-- The collection with `a` as its entry at `k`. -/
def put (k : K) (a : α) (s : List α) : List α :=
  before c key k s ++ a :: after c key k s

/-- The collection without its entry at `k`. -/
def erase (k : K) (s : List α) : List α :=
  before c key k s ++ after c key k s

/-- **`k` divides `s`** into the entries before it, at it and after it. -/
structure Divides (k : K) (s lo mid hi : List α) : Prop where
  append : lo ++ mid ++ hi = s
  lo : ∀ x ∈ lo, c (key x) k < 0
  mid : ∀ x ∈ mid, c (key x) k = 0
  hi : ∀ x ∈ hi, 0 < c (key x) k

namespace Divides

variable {c key} {k : K} {s lo mid hi : List α} (h : Divides c key k s lo mid hi)

include h

theorem before_eq : before c key k s = lo := by
  have hlo : lo.filter (fun x => decide (c (key x) k < 0)) = lo :=
    filter_eq_self.mpr fun x hx => by simpa using h.lo x hx
  have hmid : mid.filter (fun x => decide (c (key x) k < 0)) = [] :=
    filter_eq_nil_iff.mpr fun x hx => by simp [h.mid x hx]
  have hhi : hi.filter (fun x => decide (c (key x) k < 0)) = [] :=
    filter_eq_nil_iff.mpr fun x hx => by simpa using (h.hi x hx).le
  rw [before, ← h.append, filter_append, filter_append, hlo, hmid, hhi]
  simp

theorem after_eq : after c key k s = hi := by
  have hlo : lo.filter (fun x => decide (0 < c (key x) k)) = [] :=
    filter_eq_nil_iff.mpr fun x hx => by simpa using (h.lo x hx).le
  have hmid : mid.filter (fun x => decide (0 < c (key x) k)) = [] :=
    filter_eq_nil_iff.mpr fun x hx => by simp [h.mid x hx]
  have hhi : hi.filter (fun x => decide (0 < c (key x) k)) = hi :=
    filter_eq_self.mpr fun x hx => by simpa using h.hi x hx
  rw [after, ← h.append, filter_append, filter_append, hlo, hmid, hhi]
  simp

theorem lookup_eq : lookup c key k s = mid.head? := by
  have hlo : lo.find? (fun x => decide (c (key x) k = 0)) = none :=
    find?_eq_none.mpr fun x hx => by simpa using (h.lo x hx).ne
  have hhi : hi.find? (fun x => decide (c (key x) k = 0)) = none :=
    find?_eq_none.mpr fun x hx => by simpa using (h.hi x hx).ne'
  rw [lookup, ← h.append, find?_append, find?_append, hlo, hhi]
  cases mid with
  | nil => rfl
  | cons y ys => simp [h.mid y (by simp)]

theorem put_eq (a : α) : put c key k a s = lo ++ a :: hi := by
  rw [put, h.before_eq, h.after_eq]

theorem erase_eq : erase c key k s = lo ++ hi := by
  rw [erase, h.before_eq, h.after_eq]

end Divides

variable {c key}

section

variable (hc : IsTotalPreorder c) (hs : Increasing c key s)

include hc hs

theorem Increasing.erase : Increasing c key (erase c key k s) := by
  refine pairwise_append.mpr ⟨hs.filter _, hs.filter _, fun x hx y hy => ?_⟩
  have h1 : c (key x) k < 0 := by simpa using (mem_filter.mp hx).2
  have h2 : 0 < c (key y) k := by simpa using (mem_filter.mp hy).2
  exact hc.lt_trans h1 ((hc.swap _ _).mpr h2)

theorem Increasing.put {a : α} (hk : c (key a) k = 0) : Increasing c key (put c key k a s) := by
  have hbefore : ∀ x ∈ before c key k s, c (key x) (key a) < 0 := fun x hx => by
    have h1 : c (key x) k < 0 := by simpa using (mem_filter.mp hx).2
    exact hc.lt_of_lt_of_le h1 (hc.eq_comm.mp hk).le
  have hafter : ∀ x ∈ after c key k s, c (key a) (key x) < 0 := fun x hx => by
    have h1 : 0 < c (key x) k := by simpa using (mem_filter.mp hx).2
    exact hc.lt_of_le_of_lt hk.le ((hc.swap _ _).mpr h1)
  refine pairwise_append.mpr
    ⟨hs.filter _, pairwise_cons.mpr ⟨hafter, hs.filter _⟩, fun x hx y hy => ?_⟩
  rcases mem_cons.mp hy with rfl | hy
  · exact hbefore x hx
  · exact hc.lt_trans (hbefore x hx) (hafter y hy)

theorem Increasing.eq_of_eq_zero
    {y : α} (hx : x ∈ s) (hy : y ∈ s) (h : c (key x) (key y) = 0) : x = y := by
  by_contra hne
  have hsymm : Std.Symm fun x y : α => c (key x) (key y) ≠ 0 :=
    ⟨fun x y hxy hyx => hxy (hc.eq_comm.mp hyx)⟩
  have hpair : s.Pairwise fun x y : α => c (key x) (key y) ≠ 0 :=
    List.Pairwise.imp (fun hlt => hlt.ne) hs
  exact hpair.forall hx hy hne h

/-- **Increasing lists with the same entries are equal.** -/
theorem Increasing.ext {s' : List α}
    (hs' : Increasing c key s') (h : ∀ x, x ∈ s ↔ x ∈ s') : s = s' := by
  have hnodup : ∀ {l : List α}, Increasing c key l → l.Nodup := fun hl =>
    List.Pairwise.imp (fun {a b} hab heq => by
      rw [heq, hc.refl] at hab
      exact lt_irrefl _ hab) hl
  have hperm := (perm_ext_iff_of_nodup (hnodup hs) (hnodup hs')).mpr h
  refine hperm.eq_of_pairwise (fun a b _ _ hab hba => ?_) hs hs'
  have := hc.lt_trans hab hba
  rw [hc.refl] at this
  exact absurd this (lt_irrefl _)

end

theorem mem_put_self {a : α} (h : lookup c key k s = none) :
    x ∈ put c key k a s ↔ x ∈ s ∨ x = a := by
  have hne : x ∈ s → c (key x) k ≠ 0 := fun hx => by
    simpa using find?_eq_none.mp h x hx
  simp only [put, before, after, mem_append, mem_filter, mem_cons, decide_eq_true_eq]
  constructor
  · rintro (⟨hx, -⟩ | rfl | ⟨hx, -⟩)
    · exact .inl hx
    · exact .inr rfl
    · exact .inl hx
  · rintro (hx | rfl)
    · rcases lt_or_gt_of_ne (hne hx) with hlt | hgt
      · exact .inl ⟨hx, hlt⟩
      · exact .inr (.inr ⟨hx, hgt⟩)
    · exact .inr (.inl rfl)

theorem lookup_eq_some (h : lookup c key k s = some x) : x ∈ s ∧ c (key x) k = 0 :=
  ⟨mem_of_find?_eq_some h, by simpa using find?_some h⟩

end SortedList
