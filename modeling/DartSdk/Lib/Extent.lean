import Mathlib.Tactic

/-!
# Lib/Extent — blocks of addresses

Blocks that do not overlap, what taking one apart and giving parts back does to a list of them, and
how much memory they cover.
-/

/-- The addresses from `start` on, `size` of them. -/
structure Extent where
  start : ℕ
  size : ℕ
  deriving DecidableEq

namespace Extent

open List

/-- The address after the block. -/
def stop (b : Extent) : ℕ := b.start + b.size

/-- The blocks do not overlap. -/
def Apart (b c : Extent) : Prop := b.stop ≤ c.start ∨ c.stop ≤ b.start

instance (b c : Extent) : Decidable (Apart b c) := inferInstanceAs (Decidable (_ ∨ _))

theorem Apart.symm {b c : Extent} (h : Apart b c) : Apart c b := Or.symm h

instance : Std.Symm Apart := ⟨fun _ _ => Apart.symm⟩

/-- A part of one of two blocks that do not overlap. -/
theorem Apart.of_within {b c c' : Extent} (h : Apart b c) (hstart : c.start ≤ c'.start)
    (hstop : c'.stop ≤ c.stop) : Apart b c' :=
  h.imp (fun h => h.trans hstart) (fun h => hstop.trans h)

/-- The memory that the blocks cover, if they do not overlap. -/
def total (l : List Extent) : ℕ := (l.map size).sum

@[simp] theorem total_nil : total [] = 0 := rfl

@[simp] theorem total_cons (b : Extent) (l : List Extent) : total (b :: l) = b.size + total l :=
  sum_cons

@[simp] theorem total_append (l l' : List Extent) : total (l ++ l') = total l + total l' := by
  rw [total, map_append, sum_append, total, total]

theorem total_perm {l l' : List Extent} (h : l.Perm l') : total l = total l' := (h.map size).sum_eq

theorem total_filter (l : List Extent) (p : Extent → Bool) :
    total (l.filter p) + total (l.filter fun b => !p b) = total l := by
  induction l with
  | nil => rfl
  | cons b l ih =>
    cases hp : p b <;> simp [hp] <;> omega

theorem pairwise_perm {l l' : List Extent} (h : l.Perm l') (hl : l.Pairwise Apart) :
    l'.Pairwise Apart := hl.perm h Apart.symm

/-- `b` is taken from the blocks `l`, whole or as the first part of one; `l'` is left. -/
def Carve (l : List Extent) (b : Extent) (l' : List Extent) : Prop :=
  l.Perm (b :: l') ∨
  ∃ n F, l.Perm (⟨b.start, b.size + n⟩ :: F) ∧ l'.Perm (⟨b.stop, n⟩ :: F)

variable {l l' out : List Extent} {b r : Extent}

theorem Carve.total_eq (h : Carve l b l') : total l = b.size + total l' := by
  obtain h | ⟨n, F, h, h'⟩ := h
  · rw [total_perm h, total_cons]
  · rw [total_perm h, total_perm h', total_cons, total_cons]
    exact Nat.add_assoc _ _ _

/-- **A block that is taken overlaps nothing.** -/
theorem Carve.apart (h : Carve l b l') (hl : (l ++ out).Pairwise Apart) :
    (l' ++ b :: out).Pairwise Apart := by
  obtain h | ⟨n, F, h, h'⟩ := h
  · refine pairwise_perm ?_ hl
    exact (h.append_right out).trans perm_middle.symm
  have hwhole := pairwise_perm (h.append_right out) hl
  rw [cons_append, pairwise_cons] at hwhole
  obtain ⟨hwhole, hrest⟩ := hwhole
  have hpieces : (⟨b.stop, n⟩ :: b :: (F ++ out)).Pairwise Apart := by
    refine .cons (forall_mem_cons.2 ⟨.inr le_rfl, fun c hc => ?_⟩)
      (.cons (fun c hc => ?_) hrest)
    · refine ((hwhole c hc).symm.of_within ?_ ?_).symm
      · exact Nat.le_add_right _ _
      · exact (Nat.add_assoc _ _ _).le
    · have hstop : b.stop ≤ (⟨b.start, b.size + n⟩ : Extent).stop :=
        Nat.add_le_add_left (Nat.le_add_right _ _) _
      have hpart : Apart c b := (hwhole c hc).symm.of_within le_rfl hstop
      exact hpart.symm
  refine pairwise_perm ?_ hpieces
  calc (⟨b.stop, n⟩ :: b :: (F ++ out)).Perm (b :: ((⟨b.stop, n⟩ :: F) ++ out)) := .swap _ _ _
    _ |>.Perm (((⟨b.stop, n⟩ :: F) ++ b :: out)) := perm_middle.symm
    _ |>.Perm (l' ++ b :: out) := h'.symm.append_right _

/-! ## Giving memory back

What is given back need not be one of the blocks that are out: it is cut out of them. -/

/-- The parts of `b` outside `r`. -/
def trim (r b : Extent) : List Extent :=
  [(⟨b.start, min b.stop r.start - b.start⟩ : Extent),
    ⟨max b.start r.stop, b.stop - max b.start r.stop⟩].filter fun c => c.size ≠ 0

/-- The blocks without the memory of `r`. -/
def release (r : Extent) (l : List Extent) : List Extent := l.flatMap (trim r)

/-- The memory of `r` in a block. -/
def overlap (r b : Extent) : ℕ := min b.stop r.stop - max b.start r.start

/-- The memory of `r` in the blocks. -/
def overlaps (r : Extent) (l : List Extent) : ℕ := (l.map (overlap r)).sum

theorem mem_trim {c : Extent} : c ∈ trim r b ↔ (c = ⟨b.start, min b.stop r.start - b.start⟩ ∨
      c = ⟨max b.start r.stop, b.stop - max b.start r.stop⟩) ∧ c.size ≠ 0 := by
  simp [trim]

theorem within_of_mem_trim {c : Extent} (hc : c ∈ trim r b) :
    b.start ≤ c.start ∧ c.stop ≤ b.stop ∧ Apart r c := by
  obtain ⟨rfl | rfl, hne⟩ := mem_trim.1 hc
  all_goals
    simp only [stop, Apart] at hne ⊢
    omega

theorem pairwise_trim (r b : Extent) : (trim r b).Pairwise Apart := by
  refine pairwise_filter.2 (.cons (fun c hc hne hne' => ?_) (pairwise_singleton _ _))
  obtain rfl := mem_singleton.1 hc
  simp only [stop, Apart] at hne hne' ⊢
  omega

theorem total_trim (r b : Extent) : total (trim r b) + overlap r b = b.size := by
  have hfilter : ∀ l : List Extent, total (l.filter fun c => c.size ≠ 0) = total l := by
    intro l
    induction l with
    | nil => rfl
    | cons c l ih =>
      by_cases hc : c.size = 0 <;> simp_all
  rw [trim, hfilter]
  simp only [total_cons, total_nil, stop, overlap]
  omega

theorem pairwise_release (hl : (l ++ out).Pairwise Apart) :
    (l ++ release r out).Pairwise Apart := by
  obtain ⟨hleft, hout, hcross⟩ := pairwise_append.1 hl
  refine pairwise_append.2 ⟨hleft, ?_, fun b hb c hc => ?_⟩
  · refine pairwise_flatMap.2 ⟨fun b _ => pairwise_trim r b, hout.imp fun hbc c hc d hd => ?_⟩
    obtain ⟨hstart, hstop, -⟩ := within_of_mem_trim hc
    obtain ⟨hstart', hstop', -⟩ := within_of_mem_trim hd
    exact ((hbc.of_within hstart' hstop').symm.of_within hstart hstop).symm
  · obtain ⟨d, hd, hc⟩ := mem_flatMap.1 hc
    obtain ⟨hstart, hstop, -⟩ := within_of_mem_trim hc
    exact (hcross b hb d hd).of_within hstart hstop

theorem apart_of_mem_release {c : Extent} (hc : c ∈ release r l) : Apart r c := by
  obtain ⟨b, -, hc⟩ := mem_flatMap.1 hc
  exact (within_of_mem_trim hc).2.2

theorem total_release (r : Extent) (l : List Extent) :
    total (release r l) + overlaps r l = total l := by
  induction l with
  | nil => rfl
  | cons b l ih =>
    have htrim := total_trim r b
    rw [release, flatMap_cons, total_append, total_cons, overlaps, map_cons, sum_cons]
    rw [release, overlaps] at ih
    omega

/-- **Memory that is given back joins the free blocks.** -/
theorem pairwise_give (hl : (l ++ out).Pairwise Apart) (hr : ∀ b ∈ l, Apart r b)
    (hl' : l'.Perm (r :: l)) : (l' ++ release r out).Pairwise Apart := by
  refine pairwise_perm (hl'.symm.append_right _) (.cons (fun b hb => ?_) (pairwise_release hl))
  obtain hb | hb := mem_append.1 hb
  · exact hr b hb
  · exact apart_of_mem_release hb

theorem overlap_of_apart (h : Apart r b) : overlap r b = 0 := by
  simp only [overlap, Apart, stop] at h ⊢
  omega

/-- One of the blocks is given back whole. -/
theorem overlaps_of_mem (hl : l.Pairwise Apart) (hr : r ∈ l) : overlaps r l = r.size := by
  induction l with
  | nil => exact absurd hr not_mem_nil
  | cons b l ih =>
    obtain ⟨hb, hl⟩ := pairwise_cons.1 hl
    rw [overlaps, map_cons, sum_cons]
    obtain rfl | hr := mem_cons.1 hr
    · have hself : overlap r r = r.size := by
        simp only [overlap, stop]
        omega
      have hrest : (l.map (overlap r)).sum = 0 :=
        sum_eq_zero fun n hn => by
          obtain ⟨c, hc, rfl⟩ := mem_map.1 hn
          exact overlap_of_apart (hb c hc)
      rw [hself, hrest, Nat.add_zero]
    · rw [overlap_of_apart (hb r hr).symm, Nat.zero_add]
      exact ih hl hr

variable {α : Type*} {f : ℕ → List α} {idx : List ℕ} {i : ℕ} {e : α} {rest : List α}

/-- An element leaves one of the lists. -/
theorem flatMap_update_perm (hnd : idx.Nodup) (hi : i ∈ idx) (hp : (f i).Perm (e :: rest)) :
    (idx.flatMap f).Perm (e :: idx.flatMap (Function.update f i rest)) := by
  induction idx with
  | nil => exact absurd hi not_mem_nil
  | cons j idx ih =>
    obtain ⟨hj, hnd⟩ := nodup_cons.1 hnd
    rw [flatMap_cons, flatMap_cons]
    obtain rfl | hi := mem_cons.1 hi
    · have hrest : idx.flatMap (Function.update f i rest) = idx.flatMap f := by
        refine flatMap_congr fun k hk => ?_
        have hne : k ≠ i := fun heq => hj (heq ▸ hk)
        rw [Function.update_of_ne hne]
      rw [hrest, Function.update_self]
      exact hp.append_right _
    · have hne : j ≠ i := fun heq => hj (heq ▸ hi)
      rw [Function.update_of_ne hne]
      exact ((ih hnd hi).append_left _).trans perm_middle

end Extent
