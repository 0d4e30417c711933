import DartSdk.Cfg.FlowGraph
import DartSdk.Lib.DepthFirst

/-!
# Cfg/DiscoverBlocks — the discovery is a depth-first search

The blocks on the stack are the ancestors of the block on top, and every block discovered since one
of them is its descendant.  So when the search meets a block with a larger number than the current
one, it is a descendant, and when it discovers a block, the descendants of its ancestors stay
intervals.

`remaining` is the number of successors of a block that are still to be processed; the lists of
predecessors record the others.
-/

namespace Cfg

open Function List Discovery Prog

variable {Block : Type} [DecidableEq Block] (g : FlowGraph Block) {parent : ℕ → ℕ} {open_ : List ℕ}

/-- **The blocks discovered so far**, each at its number. -/
structure Numbered (s : Discovery Block) : Prop where
  numbers : ∀ (i : ℕ) (b : Block), s.preorder[i]? = some b → s.preorderNumber b = i
  entry : s.preorder[0]? = some g.entryBlock
  blocks : ∀ b ∈ s.preorder, b ∈ g.blocks

variable {g} {s : Discovery Block} {b : Block}

omit [DecidableEq Block] in
theorem Numbered.index_eq (h : Numbered g s) {i j : ℕ} (hi : s.preorder[i]? = some b)
    (hj : s.preorder[j]? = some b) : i = j := by
  have := (h.numbers i b hi).symm.trans (h.numbers j b hj)
  exact_mod_cast this

theorem Numbered.isVisited_iff (h : Numbered g s) : s.isVisited b = true ↔ b ∈ s.preorder := by
  rw [isVisited, Bool.and_eq_true, Bool.and_eq_true, decide_eq_true_eq, decide_eq_true_eq,
    decide_eq_true_eq, mem_iff_getElem?]
  constructor
  · rintro ⟨-, hb⟩
    exact ⟨_, hb⟩
  · rintro ⟨i, hi⟩
    have hlt := (List.getElem?_eq_some_iff.mp hi).1
    rw [h.numbers i b hi]
    exact ⟨⟨by omega, by exact_mod_cast hlt⟩, hi⟩

theorem Numbered.visit (h : Numbered g s) (hasPhis : Block → Bool) (predecessor : Option Block)
    (hb : b ∉ s.preorder) (hmem : b ∈ g.blocks) : Numbered g (s.visit hasPhis predecessor b) where
  numbers i c hc := by
    rw [Discovery.visit, getElem?_append] at hc
    split at hc
    · have hne : c ≠ b := fun heq => hb (heq ▸ mem_of_getElem? hc)
      exact (update_of_ne hne ..).trans (h.numbers i c hc)
    next hi =>
    obtain ⟨heq, rfl⟩ : i - s.preorder.length = 0 ∧ b = c := by
      simpa [getElem?_singleton] using hc
    refine (update_self ..).trans ?_
    omega
  entry := by
    rw [Discovery.visit, getElem?_append_left (List.getElem?_eq_some_iff.mp h.entry).1]
    exact h.entry
  blocks c hc := by
    rcases mem_append.mp hc with hc | hc
    · exact h.blocks c hc
    · exact mem_singleton.mp hc ▸ hmem

variable (g) in
/-- **The tree of the blocks discovered so far**, by their numbers; `open_` are the numbers of the
blocks on the stack. -/
structure Tree (parent : ℕ → ℕ) (open_ : List ℕ) (s : Discovery Block) : Prop where
  parent_lt : ∀ i, 0 < i → i < s.preorder.length → parent i < i
  parent_edge : ∀ i, 0 < i → ∀ v, s.preorder[i]? = some v → ∃ u, s.preorder[parent i]? = some u ∧
    v ∈ g.successors u ∧ (s.predecessors v).head? = some u
  sorted : open_.Pairwise (· > ·)
  open_lt : ∀ i ∈ open_, i < s.preorder.length
  ancestors : ∀ i ∈ open_, ∀ z, Ancestor parent z i → z ∈ open_
  descendants : ∀ i ∈ open_, ∀ j, i ≤ j → j < s.preorder.length → Ancestor parent i j
  interval : ∀ z u v, u < s.preorder.length → Ancestor parent z u → z ≤ v → v ≤ u →
    Ancestor parent z v

theorem Tree.finish {i : ℕ} (h : Tree g parent (i :: open_) s) (b : Block) :
    Tree g parent open_ (s.finish b) where
  parent_lt := h.parent_lt
  parent_edge := h.parent_edge
  sorted := (pairwise_cons.mp h.sorted).2
  open_lt j hj := h.open_lt j (mem_cons_of_mem _ hj)
  ancestors j hj z hz := by
    have hlt := (pairwise_cons.mp h.sorted).1 j hj
    have hle := le_of_ancestor h.parent_lt (h.open_lt j (mem_cons_of_mem _ hj)) hz
    rcases mem_cons.mp (h.ancestors j (mem_cons_of_mem _ hj) z hz) with rfl | hmem
    · omega
    · exact hmem
  descendants j hj := h.descendants j (mem_cons_of_mem _ hj)
  interval := h.interval

/-- A block that was visited before gets one more predecessor, after its parent. -/
theorem Tree.again (h : Tree g parent open_ s) (predecessor : Option Block)
    (b : Block) : Tree g parent open_ (s.addPredecessor predecessor b) :=
  { h with
    parent_edge := by
      intro i hi v hv
      obtain ⟨u, hu, hedge, hhead⟩ := h.parent_edge i hi v hv
      refine ⟨u, hu, hedge, ?_⟩
      by_cases hb : v = b
      · subst hb
        rw [addPredecessor_self, head?_append, hhead]
        rfl
      · rw [addPredecessor_of_ne _ _ _ hb]
        exact hhead }

/-- **A new block** becomes a child of the block on top of the stack. -/
theorem Tree.visit {top : ℕ} {u : Block}
    (h : Tree g parent (top :: open_) s) (hasPhis : Block → Bool) (htop : s.preorder[top]? = some u)
    (hb : b ∉ s.preorder) (hedge : b ∈ g.successors u) :
    Tree g (update parent s.preorder.length top) (s.preorder.length :: top :: open_)
      (s.visit hasPhis (some u) b) := by
  have hlt : top < s.preorder.length := h.open_lt top mem_cons_self
  have hlength : (s.visit hasPhis (some u) b).preorder.length = s.preorder.length + 1 :=
    length_append
  have hold {z v : ℕ} (hv : v < s.preorder.length) :
      Ancestor (update parent s.preorder.length top) z v ↔ Ancestor parent z v :=
    ancestor_update h.parent_lt hv
  have hnew {z : ℕ} : Ancestor (update parent s.preorder.length top) z s.preorder.length ↔
      z = s.preorder.length ∨ Ancestor parent z top :=
    ancestor_update_self h.parent_lt (by omega) hlt
  have hget {i : ℕ} (hi : i < s.preorder.length) :
      (s.visit hasPhis (some u) b).preorder[i]? = s.preorder[i]? := getElem?_append_left hi
  refine ⟨?_, ?_, ?_, ?_, ?_, ?_, ?_⟩
  · intro i hpos hi
    rw [hlength] at hi
    rcases Nat.lt_succ_iff_lt_or_eq.mp hi with hi | rfl
    · rw [update_of_ne hi.ne]
      exact h.parent_lt i hpos hi
    · rw [update_self]
      exact hlt
  · intro i hpos v hv
    have hi : i < s.preorder.length + 1 := hlength ▸ (List.getElem?_eq_some_iff.mp hv).1
    rcases Nat.lt_succ_iff_lt_or_eq.mp hi with hi | rfl
    · rw [hget hi] at hv
      obtain ⟨w, hw, hedge', hhead⟩ := h.parent_edge i hpos v hv
      rw [update_of_ne hi.ne, hget ((h.parent_lt i hpos hi).trans hi)]
      refine ⟨w, hw, hedge', ?_⟩
      have hne : v ≠ b := fun heq => hb (heq ▸ mem_of_getElem? hv)
      rw [visit_of_ne _ _ _ _ hne]
      exact hhead
    · obtain rfl : b = v := by
        rw [Discovery.visit, getElem?_append_right le_rfl, Nat.sub_self] at hv
        exact Option.some.inj hv
      rw [update_self, hget hlt]
      refine ⟨u, htop, hedge, ?_⟩
      rw [visit_self]
      rfl
  · refine pairwise_cons.mpr ⟨fun i hi => h.open_lt i hi, h.sorted⟩
  · intro i hi
    rw [hlength]
    rcases mem_cons.mp hi with rfl | hi
    · exact Nat.lt_succ_self _
    · exact Nat.lt_succ_of_lt (h.open_lt i hi)
  · intro i hi z hz
    rcases mem_cons.mp hi with rfl | hi
    · rcases hnew.mp hz with rfl | hz
      · exact mem_cons_self
      · exact mem_cons_of_mem _ (h.ancestors top mem_cons_self z hz)
    · exact mem_cons_of_mem _ (h.ancestors i hi z ((hold (h.open_lt i hi)).mp hz))
  · intro i hi j hij hj
    rw [hlength] at hj
    rcases mem_cons.mp hi with rfl | hi
    · obtain rfl : s.preorder.length = j := by omega
      exact .refl
    rcases Nat.lt_succ_iff_lt_or_eq.mp hj with hj | rfl
    · exact (hold hj).mpr (h.descendants i hi j hij hj)
    -- the new block is below the top, which is below all blocks on the stack
    have hitop : i ≤ top := by
      rcases mem_cons.mp hi with rfl | hi
      · exact le_rfl
      · exact ((pairwise_cons.mp h.sorted).1 i hi).le
    exact hnew.mpr (.inr (h.descendants i hi top hitop hlt))
  · intro z w v hw hz hzv hvw
    rw [hlength] at hw
    rcases Nat.lt_succ_iff_lt_or_eq.mp hw with hw | rfl
    · exact (hold (hvw.trans_lt hw)).mpr (h.interval z w v hw ((hold hw).mp hz) hzv hvw)
    rcases hnew.mp hz with rfl | hz
    · obtain rfl : s.preorder.length = v := by omega
      exact .refl
    have hmem := h.ancestors top mem_cons_self z hz
    rcases hvw.lt_or_eq with hvw | rfl
    · exact (hold hvw).mpr (h.descendants z hmem v hzv hvw)
    · exact hnew.mpr (.inr hz)

/-! ## The work that is done

For each block on the stack, the successors after the recorded index have been looked at. -/

variable (g) in
/-- **The edges processed so far.**  Each leads to a block that has been discovered — a descendant,
if its number is larger — and is recorded in the predecessors of this block. -/
structure Work (parent : ℕ → ℕ) (remaining : Block → ℕ) (stack : List (Block × ℕ))
    (s : Discovery Block) :
    Prop where
  onStack : ∀ e ∈ stack, e.1 ∈ s.preorder ∧ remaining e.1 = e.2 ∧ e.2 ≤ (g.successors e.1).length
  finished : ∀ b ∈ s.preorder, b ∉ stack.map Prod.fst → remaining b = 0
  unvisited : ∀ b, b ∉ s.preorder → remaining b = (g.successors b).length
  edges : ∀ (i : ℕ) u, s.preorder[i]? = some u → ∀ k, remaining u ≤ k → ∀ v,
    (g.successors u)[k]? = some v → ∃ j : ℕ, s.preorder[j]? = some v ∧ (i < j → Ancestor parent i j)
  counts : ∀ u, ∀ v ∈ s.preorder,
    (s.predecessors v).count u = ((g.successors u).drop (remaining u)).count v
  postorder : s.postorder.Nodup ∧ ∀ b, b ∈ s.postorder ↔ b ∈ s.preorder ∧ b ∉ stack.map Prod.fst

namespace Work

variable {parent : ℕ → ℕ} {remaining : Block → ℕ} {stack : List (Block × ℕ)} {k : ℕ} {u : Block}
  {v : Block} {i : ℕ}

theorem finish (h : Work g parent remaining ((b, 0) :: stack) s) (hb : b ∉ stack.map Prod.fst) :
    Work g parent remaining stack (s.finish b) where
  onStack e he := h.onStack e (mem_cons_of_mem _ he)
  finished c hc hnot := by
    by_cases heq : c = b
    · exact heq ▸ (h.onStack (b, 0) mem_cons_self).2.1
    · exact h.finished c hc (not_mem_cons_of_ne_of_not_mem heq hnot)
  unvisited := h.unvisited
  edges := h.edges
  counts := h.counts
  postorder := by
    have hnot : b ∉ s.postorder := fun hmem => ((h.postorder.2 b).mp hmem).2 mem_cons_self
    refine ⟨nodup_append.mpr ⟨h.postorder.1, nodup_singleton b, ?_⟩, fun c => ?_⟩
    · rintro c hc d hd rfl
      exact hnot (mem_singleton.mp hd ▸ hc)
    have hpre : b ∈ s.preorder := (h.onStack (b, 0) mem_cons_self).1
    change c ∈ s.postorder ++ [b] ↔ c ∈ s.preorder ∧ _
    rw [mem_append, h.postorder.2, mem_singleton, map_cons, mem_cons, not_or]
    constructor
    · rintro (⟨hc, -, hrest⟩ | rfl)
      · exact ⟨hc, hrest⟩
      · exact ⟨hpre, hb⟩
    · rintro ⟨hc, hrest⟩
      by_cases heq : c = b
      · exact .inr heq
      · exact .inl ⟨hc, heq, hrest⟩

omit [DecidableEq Block] in
/-- The successors from an index on, and the one before. -/
theorem drop_eq (hv : (g.successors u)[k]? = some v) :
    (g.successors u).drop k = v :: (g.successors u).drop (k + 1) := by
  obtain ⟨hlt, rfl⟩ := List.getElem?_eq_some_iff.mp hv
  exact drop_eq_getElem_cons hlt

section

variable (h : Work g parent remaining ((u, k + 1) :: stack) s)

include h

/-- The stack after one more successor of the block on top has been processed. -/
theorem stack_next (hu : u ∉ stack.map Prod.fst) :
    ∀ e ∈ (u, k) :: stack, e.1 ∈ s.preorder ∧ update remaining u k e.1 = e.2 ∧
      e.2 ≤ (g.successors e.1).length := by
  intro e he
  rcases mem_cons.mp he with rfl | he
  · have htop := h.onStack (u, k + 1) mem_cons_self
    exact ⟨htop.1, update_self .., (Nat.le_succ k).trans htop.2.2⟩
  · have hne : e.1 ≠ u := fun heq => hu (heq ▸ mem_map_of_mem he)
    rw [update_of_ne hne]
    exact h.onStack e (mem_cons_of_mem _ he)

/-- The edges after one more successor of the block on top has been processed. -/
theorem edges_next {w : Block}
    (hw : s.preorder[i]? = some w) {k' : ℕ} (hk : update remaining u k w ≤ k')
    (hv : (g.successors w)[k']? = some v) : (w = u ∧ k' = k) ∨
      ∃ j : ℕ, s.preorder[j]? = some v ∧ (i < j → Ancestor parent i j) := by
  by_cases heq : w = u
  · subst heq
    rw [update_self] at hk
    by_cases hkk : k' = k
    · exact .inl ⟨rfl, hkk⟩
    · have hremaining := (h.onStack (w, k + 1) mem_cons_self).2.1
      exact .inr (h.edges i w hw k' (by rw [hremaining]; omega) v hv)
  · rw [update_of_ne heq] at hk
    exact .inr (h.edges i w hw k' hk v hv)

/-- An edge to a block that was discovered before. -/
theorem again (hu : u ∉ stack.map Prod.fst)
    (hv : (g.successors u)[k]? = some v) {j : ℕ} (hnumbered : Numbered g s)
    (hi : s.preorder[i]? = some u) (hj : s.preorder[j]? = some v)
    (hij : i < j → Ancestor parent i j) :
    Work g parent (update remaining u k) ((u, k) :: stack) (s.addPredecessor (some u) v) where
  onStack := h.stack_next hu
  finished c hc hnot := by
    rw [map_cons, mem_cons, not_or] at hnot
    rw [update_of_ne hnot.1]
    exact h.finished c hc (not_mem_cons_of_ne_of_not_mem hnot.1 hnot.2)
  unvisited c hc := by
    have hmem : u ∈ s.preorder := mem_of_getElem? hi
    have hne : c ≠ u := fun heq => hc (heq ▸ hmem)
    rw [update_of_ne hne]
    exact h.unvisited c hc
  edges i' w hw k' hk v' hv' := by
    rcases h.edges_next hw hk hv' with ⟨rfl, rfl⟩ | hold
    · obtain rfl : v = v' := Option.some.inj (hv.symm.trans hv')
      obtain rfl : i = i' := hnumbered.index_eq hi hw
      exact ⟨j, hj, hij⟩
    · exact hold
  counts w v' hv' := by
    have hold := h.counts w v' hv'
    have htop : remaining u = k + 1 := (h.onStack (u, k + 1) mem_cons_self).2.1
    by_cases hw : w = u
    · subst hw
      rw [update_self, drop_eq hv, count_cons]
      rw [htop] at hold
      by_cases heq : v' = v
      · subst heq
        rw [addPredecessor_self, count_append, hold]
        simp
      · rw [addPredecessor_of_ne _ _ _ heq, hold]
        simp [Ne.symm heq]
    · rw [update_of_ne hw, ← hold]
      by_cases heq : v' = v
      · subst heq
        rw [addPredecessor_self, count_append]
        simp [Ne.symm hw]
      · rw [addPredecessor_of_ne _ _ _ heq]
  postorder := h.postorder

end

theorem count_eq_zero (h : Work g parent remaining stack s) (hv : v ∉ s.preorder) (w : Block) :
    ((g.successors w).drop (remaining w)).count v = 0 := by
  rw [List.count_eq_zero]
  intro hmem
  by_cases hw : w ∈ s.preorder
  · obtain ⟨i, hi⟩ := mem_iff_getElem?.mp hw
    obtain ⟨k', hk'⟩ := mem_iff_getElem?.mp hmem
    rw [getElem?_drop] at hk'
    obtain ⟨j, hj, -⟩ := h.edges i w hi _ (Nat.le_add_right _ _) v hk'
    exact hv (mem_of_getElem? hj)
  · rw [h.unvisited w hw, drop_length] at hmem
    exact not_mem_nil hmem

/-- **An edge to a new block.** -/
theorem visit (h : Work g parent remaining ((u, k + 1) :: stack) s) (hasPhis : Block → Bool)
    (hu : u ∉ stack.map Prod.fst) (hv : (g.successors u)[k]? = some v)
    (hnumbered : Numbered g s) (hi : s.preorder[i]? = some u) (hnew : v ∉ s.preorder)
    (hparent : ∀ i, 0 < i → i < s.preorder.length → parent i < i) :
    Work g (update parent s.preorder.length i) (update remaining u k)
      ((v, (g.successors v).length) :: (u, k) :: stack) (s.visit hasPhis (some u) v) := by
  have hne : v ≠ u := fun heq => hnew (heq ▸ mem_of_getElem? hi)
  have hilt : i < s.preorder.length := (List.getElem?_eq_some_iff.mp hi).1
  have hremaining : update remaining u k v = (g.successors v).length := by
    rw [update_of_ne hne]
    exact h.unvisited v hnew
  have hmem {c : Block} : c ∈ (s.visit hasPhis (some u) v).preorder ↔ c ∈ s.preorder ∨ c = v := by
    rw [visit_preorder, mem_append, mem_singleton]
  have hindex {j : ℕ} {w : Block} (hw : (s.visit hasPhis (some u) v).preorder[j]? = some w) :
      s.preorder[j]? = some w ∨ (j = s.preorder.length ∧ w = v) := by
    rw [visit_preorder, getElem?_append] at hw
    split at hw
    · exact .inl hw
    · next hj =>
      have : j - s.preorder.length = 0 ∧ v = w := by simpa [getElem?_singleton] using hw
      exact .inr ⟨by omega, this.2.symm⟩
  refine ⟨?_, ?_, ?_, ?_, ?_, h.postorder.1, ?_⟩
  · intro e he
    rcases mem_cons.mp he with rfl | he
    · exact ⟨hmem.mpr (.inr rfl), hremaining, le_rfl⟩
    · have hold := h.stack_next hu e he
      exact ⟨hmem.mpr (.inl hold.1), hold.2⟩
  · intro c hc hnot
    rw [map_cons, mem_cons, not_or, map_cons, mem_cons, not_or] at hnot
    rw [update_of_ne hnot.2.1]
    refine h.finished c ((hmem.mp hc).resolve_right hnot.1) ?_
    exact not_mem_cons_of_ne_of_not_mem hnot.2.1 hnot.2.2
  · intro c hc
    rw [hmem, not_or] at hc
    have hcu : c ≠ u := fun heq => hc.1 (heq ▸ mem_of_getElem? hi)
    rw [update_of_ne hcu]
    exact h.unvisited c hc.1
  · intro i' w hw k' hk v' hv'
    rcases hindex hw with hw' | ⟨rfl, rfl⟩
    · rcases h.edges_next hw' hk hv' with ⟨rfl, rfl⟩ | ⟨j, hj, hanc⟩
      · obtain rfl : v = v' := Option.some.inj (hv.symm.trans hv')
        obtain rfl : i = i' := hnumbered.index_eq hi hw'
        refine ⟨s.preorder.length, ?_, fun _ => ?_⟩
        · rw [visit_preorder, getElem?_append_right le_rfl, Nat.sub_self]
          rfl
        · exact (ancestor_update_self hparent (by omega) hilt).mpr (.inr .refl)
      · have hjlt := (List.getElem?_eq_some_iff.mp hj).1
        refine ⟨j, ?_, fun hij => (ancestor_update hparent hjlt).mpr (hanc hij)⟩
        rw [visit_preorder, getElem?_append_left hjlt]
        exact hj
    · exact absurd (List.getElem?_eq_some_iff.mp hv').1 (by omega)
  · intro w v' hv'
    have htop : remaining u = k + 1 := (h.onStack (u, k + 1) mem_cons_self).2.1
    by_cases heq : v' = v
    · subst heq
      rw [visit_self]
      have hzero := h.count_eq_zero hnew w
      by_cases hw : w = u
      · subst hw
        rw [htop] at hzero
        rw [update_self, drop_eq hv, count_cons, hzero]
        simp
      · rw [update_of_ne hw, hzero]
        simp [Ne.symm hw]
    · rw [visit_of_ne _ _ _ _ heq]
      have hold := h.counts w v' ((hmem.mp hv').resolve_right heq)
      by_cases hw : w = u
      · subst hw
        rw [htop] at hold
        rw [update_self, drop_eq hv, count_cons, hold]
        simp [Ne.symm heq]
      · rw [update_of_ne hw, hold]
  · intro c
    change c ∈ s.postorder ↔ _
    rw [h.postorder.2, hmem, map_cons, map_cons, map_cons, mem_cons, mem_cons, mem_cons]
    constructor
    · rintro ⟨hc, hnot⟩
      exact ⟨.inl hc, fun hor => hor.elim (fun heq : c = v => hnew (heq ▸ hc)) hnot⟩
    · rintro ⟨hc, hnot⟩
      rw [not_or] at hnot
      exact ⟨hc.resolve_right hnot.1, hnot.2⟩

end Work

/-- **The predecessors of the run before** are saved for the blocks with phis, and untouched for
blocks that are not discovered. -/
structure Saved (hasPhis : Block → Bool) (old : Block → List Block) (s : Discovery Block) :
    Prop where
  saved : s.oldPredecessors = (s.preorder.filter hasPhis).map fun b => (b, old b)
  unvisited : ∀ b, b ∉ s.preorder → s.predecessors b = old b

namespace Saved

variable {hasPhis : Block → Bool} {old : Block → List Block}

theorem again (h : Saved hasPhis old s) (predecessor : Option Block) (hb : b ∈ s.preorder) :
    Saved hasPhis old (s.addPredecessor predecessor b) where
  saved := h.saved
  unvisited c hc := by
    have hne : c ≠ b := fun heq => hc (heq ▸ hb)
    rw [addPredecessor_of_ne _ _ _ hne]
    exact h.unvisited c hc

theorem visit (h : Saved hasPhis old s) (predecessor : Option Block) (hb : b ∉ s.preorder) :
    Saved hasPhis old (s.visit hasPhis predecessor b) where
  saved := by
    have hsaved : (s.visit hasPhis predecessor b).oldPredecessors =
        if hasPhis b then s.oldPredecessors ++ [(b, s.predecessors b)] else s.oldPredecessors := rfl
    rw [hsaved, visit_preorder, filter_append, map_append, ← h.saved]
    cases hphis : hasPhis b with
    | false => simp [hphis]
    | true => simp [hphis, h.unvisited b hb]
  unvisited c hc := by
    rw [visit_preorder, mem_append, not_or, mem_singleton] at hc
    rw [visit_of_ne _ _ _ _ hc.2]
    exact h.unvisited c hc.1

end Saved

variable (g) in
/-- **A state of the search.** -/
structure Searching (parent : ℕ → ℕ) (open_ : List ℕ) (remaining : Block → ℕ)
    (stack : List (Block × ℕ)) (s : Discovery Block) : Prop where
  numbered : Numbered g s
  tree : Tree g parent open_ s
  opened : open_.map (fun i => s.preorder[i]?) = stack.map fun e => some e.1
  work : Work g parent remaining stack s

namespace Searching

variable {parent : ℕ → ℕ} {open_ : List ℕ} {remaining : Block → ℕ} {e : Block × ℕ}
  {stack : List (Block × ℕ)}

theorem exists_top (h : Searching g parent open_ remaining (e :: stack) s) :
    ∃ i rest, open_ = i :: rest ∧ s.preorder[i]? = some e.1 ∧
      rest.map (fun i => s.preorder[i]?) = stack.map fun e => some e.1 := by
  have hopened := h.opened
  obtain ⟨i, rest, rfl, htop, hrest⟩ := map_eq_cons_iff.mp hopened
  exact ⟨i, rest, rfl, htop, hrest⟩

/-- The block on top of the stack is there once. -/
theorem top_not_mem (h : Searching g parent open_ remaining (e :: stack) s) :
    e.1 ∉ stack.map Prod.fst := by
  obtain ⟨i, rest, rfl, htop, hrest⟩ := h.exists_top
  intro hmem
  have hsome : some e.1 ∈ rest.map fun i => s.preorder[i]? := by
    rw [hrest]
    obtain ⟨e', he', heq⟩ := mem_map.mp hmem
    exact mem_map.mpr ⟨e', he', congrArg some heq⟩
  obtain ⟨j, hj, hindex⟩ := mem_map.mp hsome
  exact absurd (h.numbered.index_eq hindex htop) ((pairwise_cons.mp h.tree.sorted).1 j hj).ne

theorem finish (h : Searching g parent open_ remaining ((b, 0) :: stack) s) :
    ∃ rest, Searching g parent rest remaining stack (s.finish b) := by
  have hnot := h.top_not_mem
  obtain ⟨i, rest, rfl, -, hrest⟩ := h.exists_top
  exact ⟨rest, ⟨h.numbered.numbers, h.numbered.entry, h.numbered.blocks⟩, h.tree.finish b, hrest,
    h.work.finish hnot⟩

variable {u v : Block} {k : ℕ}

theorem again (h : Searching g parent open_ remaining ((u, k + 1) :: stack) s)
    (hv : (g.successors u)[k]? = some v) (hvisited : v ∈ s.preorder) :
    Searching g parent open_ (update remaining u k) ((u, k) :: stack)
      (s.addPredecessor (some u) v) := by
  have hnot := h.top_not_mem
  obtain ⟨i, rest, rfl, htop, -⟩ := h.exists_top
  obtain ⟨j, hj⟩ := mem_iff_getElem?.mp hvisited
  have hjlt := (List.getElem?_eq_some_iff.mp hj).1
  refine ⟨⟨h.numbered.numbers, h.numbered.entry, h.numbered.blocks⟩, h.tree.again (some u) v,
    h.opened, h.work.again hnot hv h.numbered htop hj fun hij => ?_⟩
  -- a block discovered since the top is its descendant
  exact h.tree.descendants i mem_cons_self j hij.le hjlt

theorem visit (h : Searching g parent open_ remaining ((u, k + 1) :: stack) s)
    (hasPhis : Block → Bool) (hv : (g.successors u)[k]? = some v) (hnew : v ∉ s.preorder) :
    ∃ parent' open', Searching g parent' open' (update remaining u k)
      ((v, (g.successors v).length) :: (u, k) :: stack) (s.visit hasPhis (some u) v) := by
  have hnot := h.top_not_mem
  have hopened := h.opened
  obtain ⟨i, rest, rfl, htop, hrest⟩ := h.exists_top
  have hedge : v ∈ g.successors u := mem_of_getElem? hv
  have hmem : v ∈ g.blocks :=
    g.successors_mem u (h.numbered.blocks u (mem_of_getElem? htop)) v hedge
  refine ⟨_, _, h.numbered.visit hasPhis (some u) hnew hmem, h.tree.visit hasPhis htop hnew hedge,
    ?_, h.work.visit hasPhis hnot hv h.numbered htop hnew h.tree.parent_lt⟩
  have hold : (i :: rest).map (fun i => (s.preorder ++ [v])[i]?) =
      (i :: rest).map fun i => s.preorder[i]? :=
    map_congr_left fun j hj => getElem?_append_left (h.tree.open_lt j hj)
  rw [visit_preorder, map_cons, hold, hopened, getElem?_append_right le_rfl, Nat.sub_self]
  rfl

end Searching

/-! ## The loop ends

Each round takes a successor off the work that remains, or closes a block. -/

/-- The steps that a block needs: one for each successor, one to finish and one to be discovered. -/
def steps (g : FlowGraph Block) (b : Block) : ℕ := (g.successors b).length + 2

/-- The steps that are left: those of undiscovered blocks, and those of the blocks on the stack. -/
def stepsLeft (g : FlowGraph Block) (stack : List (Block × ℕ)) (s : Discovery Block) : ℕ :=
  ((g.blocks.filter (· ∉ s.preorder)).map (steps g)).sum + (stack.map (·.2 + 1)).sum

theorem sum_filter_visit {l preorder : List Block} (hb : b ∉ preorder) (hmem : b ∈ l)
    (w : Block → ℕ) :
    ((l.filter (· ∉ preorder ++ [b])).map w).sum + w b ≤ ((l.filter (· ∉ preorder)).map w).sum := by
  have hle (l : List Block) : ((l.filter (· ∉ preorder ++ [b])).map w).sum ≤
      ((l.filter (· ∉ preorder)).map w).sum := by
    refine Sublist.sum_le_sum
      ((monotone_filter_right l fun c hc => ?_).map w) fun _ _ => Nat.zero_le _
    simp only [mem_append, mem_singleton, not_or, decide_eq_true_eq] at hc ⊢
    exact hc.1
  induction l with
  | nil => exact absurd hmem not_mem_nil
  | cons c l ih =>
    by_cases hcb : c = b
    · subst hcb
      have := hle l
      rw [filter_cons_of_neg (by simp), filter_cons_of_pos (by simpa using hb), map_cons, sum_cons]
      omega
    have hrest := ih ((mem_cons.mp hmem).resolve_left (Ne.symm hcb))
    by_cases hc : c ∈ preorder
    · rw [filter_cons_of_neg (by simp [hc]), filter_cons_of_neg (by simpa using hc)]
      exact hrest
    · rw [filter_cons_of_pos (by simp [hc, hcb]), filter_cons_of_pos (by simpa using hc),
        map_cons, map_cons, sum_cons, sum_cons]
      omega

theorem stepsLeft_visit {stack : List (Block × ℕ)} {u v : Block} {k : ℕ} (hasPhis : Block → Bool)
    (hnew : v ∉ s.preorder) (hmem : v ∈ g.blocks) :
    stepsLeft g ((v, (g.successors v).length) :: (u, k) :: stack) (s.visit hasPhis (some u) v) <
      stepsLeft g ((u, k + 1) :: stack) s := by
  have hsum := sum_filter_visit hnew hmem (steps g)
  rw [stepsLeft, stepsLeft, visit_preorder]
  simp only [map_cons, sum_cons]
  rw [steps] at hsum
  omega

variable (g) in
/-- **What `discoverBlocks` computes**, if `old` were the predecessors before. -/
structure Discovered (hasPhis : Block → Bool) (old : Block → List Block) (parent : ℕ → ℕ)
    (s : Discovery Block) : Prop where
  numbered : Numbered g s
  parent_lt : ∀ i, 0 < i → i < s.preorder.length → parent i < i
  parent_edge : ∀ i, 0 < i → ∀ v, s.preorder[i]? = some v → ∃ u, s.preorder[parent i]? = some u ∧
    v ∈ g.successors u ∧ (s.predecessors v).head? = some u
  interval : ∀ z u v, u < s.preorder.length → Ancestor parent z u → z ≤ v → v ≤ u →
    Ancestor parent z v
  edges : ∀ (i : ℕ) u, s.preorder[i]? = some u → ∀ v ∈ g.successors u,
    ∃ j : ℕ, s.preorder[j]? = some v ∧ (i < j → Ancestor parent i j)
  counts : ∀ u ∈ s.preorder, ∀ v ∈ s.preorder, (s.predecessors v).count u = (g.successors u).count v
  predecessors_mem : ∀ v ∈ s.preorder, ∀ u ∈ s.predecessors v, u ∈ s.preorder
  postorder : s.postorder.Nodup ∧ ∀ b, b ∈ s.postorder ↔ b ∈ s.preorder
  saved : Saved hasPhis old s

theorem Searching.discovered {remaining : Block → ℕ}
    {hasPhis : Block → Bool} {old : Block → List Block}
    (h : Searching g parent open_ remaining [] s) (hsaved : Saved hasPhis old s) :
    Discovered g hasPhis old parent s where
  numbered := h.numbered
  parent_lt := h.tree.parent_lt
  parent_edge := h.tree.parent_edge
  interval := h.tree.interval
  edges i u hu v hv := by
    have hzero := h.work.finished u (mem_of_getElem? hu) not_mem_nil
    obtain ⟨k, hk⟩ := mem_iff_getElem?.mp hv
    exact h.work.edges i u hu k (by omega) v hk
  counts u hu v hv := by
    have hzero := h.work.finished u hu not_mem_nil
    rw [h.work.counts u v hv, hzero, drop_zero]
  predecessors_mem v hv u hu := by
    by_contra hnot
    have hcount := h.work.counts u v hv
    rw [h.work.unvisited u hnot, drop_length, count_nil, count_eq_zero] at hcount
    exact hcount hu
  postorder :=
    ⟨h.work.postorder.1, fun b => (h.work.postorder.2 b).trans (and_iff_left not_mem_nil)⟩
  saved := hsaved

/-- A step of the loop. -/
theorem wp_discoverStep {hasPhis : Block → Bool} {old : Block → List Block}
    {stack : List (Block × ℕ)}
    (h : ∃ parent open_ remaining, Searching g parent open_ remaining stack s)
    (hsaved : Saved hasPhis old s) : wp (discoverStep g hasPhis stack) (fun r s' => match r with
      | .inl stack' => ((∃ parent open_ remaining, Searching g parent open_ remaining stack' s') ∧
          Saved hasPhis old s') ∧ stepsLeft g stack' s' < stepsLeft g stack s
      | .inr _ => ∃ parent, Discovered g hasPhis old parent s') s := by
  obtain ⟨parent, open_, remaining, h⟩ := h
  match stack with
  | [] => exact wp_pure ⟨parent, h.discovered hsaved⟩
  | (b, 0) :: stack =>
    obtain ⟨rest, hfinish⟩ := h.finish
    refine wp_bind ⟨(), s.finish b, rfl, wp_pure ⟨⟨⟨parent, rest, remaining, hfinish⟩,
      ⟨hsaved.saved, hsaved.unvisited⟩⟩, ?_⟩⟩
    rw [stepsLeft, stepsLeft, map_cons, sum_cons]
    exact Nat.add_lt_add_left (by omega) _
  | (u, k + 1) :: stack =>
    have htop := h.work.onStack (u, k + 1) mem_cons_self
    have hlt : k < (g.successors u).length := Nat.lt_of_succ_le htop.2.2
    have hv : (g.successors u)[k]? = some (g.successors u)[k] := getElem?_eq_getElem hlt
    have hmem := g.successors_mem u (h.numbered.blocks u htop.1) _ (getElem_mem hlt)
    rw [discoverStep]
    refine wp_bind (wp_lift hv (wp_bind (wp_get (wp_ite (fun hvisited => ?_) fun hvisited => ?_))))
    · rw [h.numbered.isVisited_iff] at hvisited
      refine wp_bind ⟨(), _, rfl, wp_pure ⟨⟨⟨parent, open_, _, h.again hv hvisited⟩,
        hsaved.again (some u) hvisited⟩, ?_⟩⟩
      rw [stepsLeft, stepsLeft, map_cons, sum_cons, map_cons, sum_cons]
      exact Nat.add_lt_add_left (by omega) _
    · rw [h.numbered.isVisited_iff] at hvisited
      obtain ⟨parent', open', hvisit⟩ := h.visit hasPhis hv hvisited
      exact wp_bind ⟨(), _, rfl,
        wp_pure ⟨⟨⟨parent', open', _, hvisit⟩, hsaved.visit (some u) hvisited⟩,
        stepsLeft_visit hasPhis hvisited hmem⟩⟩

/-- The search starts with the entry block. -/
theorem searching_start (hasPhis : Block → Bool) (s : Discovery Block) (hpre : s.preorder = [])
    (hpost : s.postorder = []) : Searching g (fun _ => 0) [0] (fun b => (g.successors b).length)
      [(g.entryBlock, (g.successors g.entryBlock).length)] (s.visit hasPhis none g.entryBlock) := by
  have hpreorder : (s.visit hasPhis none g.entryBlock).preorder = [g.entryBlock] := by
    rw [visit_preorder, hpre]
    rfl
  have hlength : (s.visit hasPhis none g.entryBlock).preorder.length = 1 := by rw [hpreorder]; rfl
  have hindex {i : ℕ} {b : Block} (h : (s.visit hasPhis none g.entryBlock).preorder[i]? = some b) :
      i = 0 ∧ g.entryBlock = b := by
    rw [hpreorder, getElem?_singleton] at h
    split at h
    · next hi => exact ⟨hi, Option.some.inj h⟩
    · cases h
  have hroot {z : ℕ} (h : Ancestor (fun _ => 0) z 0) : z = 0 := by
    rcases ancestor_iff.mp h with rfl | ⟨hpos, -⟩
    · rfl
    · omega
  refine ⟨⟨fun i b hb => ?_, by rw [hpreorder]; rfl, fun b hb => ?_⟩, ⟨?_, ?_, ?_, ?_, ?_, ?_, ?_⟩,
    ?_, ⟨?_, ?_, ?_, ?_, ?_, ?_⟩⟩
  · obtain ⟨rfl, rfl⟩ := hindex hb
    refine (update_self ..).trans ?_
    rw [hpre]
    rfl
  · rw [hpreorder, mem_singleton] at hb
    exact hb ▸ g.entryBlock_mem
  · intro i hpos hi
    omega
  · intro i hpos v hv
    have := (hindex hv).1
    omega
  · exact pairwise_singleton ..
  · intro i hi
    rw [mem_singleton.mp hi]
    omega
  · intro i hi z hz
    rw [mem_singleton.mp hi] at hz
    exact mem_singleton.mpr (hroot hz)
  · intro i hi j hij hj
    obtain rfl : i = 0 := mem_singleton.mp hi
    obtain rfl : j = 0 := by omega
    exact .refl
  · intro z u v hu hz hzv hvu
    obtain rfl : u = 0 := by omega
    obtain rfl : z = 0 := hroot hz
    obtain rfl : v = 0 := by omega
    exact .refl
  · rw [hpreorder]
    rfl
  · intro e he
    rw [mem_singleton.mp he, hpreorder]
    exact ⟨mem_singleton_self _, rfl, le_rfl⟩
  · intro b hb hnot
    rw [hpreorder] at hb
    exact absurd hb hnot
  · exact fun b _ => rfl
  · intro i u _ k hk v hv
    exact absurd (List.getElem?_eq_some_iff.mp hv).1 (by omega)
  · intro u v hv
    rw [hpreorder, mem_singleton] at hv
    rw [hv, visit_self, drop_length]
    rfl
  · have hpostorder : (s.visit hasPhis none g.entryBlock).postorder = [] := hpost
    refine ⟨hpostorder ▸ nodup_nil, fun b => ?_⟩
    rw [hpostorder, hpreorder]
    simp

/-- **`discoverBlocks` is a depth-first search** of the graph, whatever numbers and predecessors
were left from the run before. -/
theorem wp_discover (hasPhis : Block → Bool) (s : Discovery Block) :
    wp (discover g hasPhis) (fun _ s' => ∃ parent, Discovered g hasPhis s.predecessors parent s')
      s := by
  let cleared : Discovery Block := { s with preorder := [], postorder := [], oldPredecessors := [] }
  have hsearching := searching_start (g := g) hasPhis cleared rfl rfl
  have hcleared : Saved hasPhis s.predecessors cleared := ⟨rfl, fun _ _ => rfl⟩
  have hsaved := hcleared.visit none (b := g.entryBlock) not_mem_nil
  refine wp_bind ⟨(), cleared, rfl, wp_bind ⟨(), _, rfl, ?_⟩⟩
  refine wp_loop_state (fun stack s' =>
    (∃ parent open_ remaining, Searching g parent open_ remaining stack s') ∧
    Saved hasPhis s.predecessors s') (stepsLeft g) (fun stack s' h => ?_) _
    ⟨⟨_, _, _, hsearching⟩, hsaved⟩ ?_
  · refine wp_mono (wp_discoverStep h.1 h.2) ?_
    rintro (stack' | _) s'' hstep <;> exact hstep
  have hsum := sum_filter_visit (l := g.blocks) (not_mem_nil (a := g.entryBlock)) g.entryBlock_mem
    (steps g)
  have hall : ((g.blocks.filter (· ∉ ([] : List Block))).map (steps g)).sum =
      (g.blocks.map (steps g)).sum := by simp
  rw [hall, steps] at hsum
  rw [stepsLeft, discoverFuel, visit_preorder]
  change _ < (g.blocks.map (steps g)).sum + 1
  simp only [map_cons, sum_cons, map_nil, sum_nil]
  change ((g.blocks.filter (· ∉ [] ++ [g.entryBlock])).map (steps g)).sum + _ < _
  omega

/-- The edges between the numbers of blocks. -/
def Discovery.Edge (g : FlowGraph Block) (s : Discovery Block) (i j : ℕ) : Prop :=
  ∃ u v, s.preorder[i]? = some u ∧ s.preorder[j]? = some v ∧ v ∈ g.successors u

/-- **The preorder numbers are a depth-first numbering.** -/
def Discovered.depthFirst {hasPhis : Block → Bool} {old : Block → List Block} {parent : ℕ → ℕ}
    (h : Discovered g hasPhis old parent s) : DepthFirst s.preorder.length (s.Edge g) where
  parent := parent
  edge_lt := by
    rintro i j ⟨u, v, hu, hv, -⟩
    exact ⟨(List.getElem?_eq_some_iff.mp hu).1, (List.getElem?_eq_some_iff.mp hv).1⟩
  parent_lt := h.parent_lt _
  parent_edge := by
    intro i hpos hi
    have hv := getElem?_eq_getElem hi
    obtain ⟨u, hu, hedge, -⟩ := h.parent_edge i hpos _ hv
    exact ⟨u, _, hu, hv, hedge⟩
  forward := by
    rintro i j ⟨u, v, hu, hv, hedge⟩ hlt
    obtain ⟨j', hj', hanc⟩ := h.edges i u hu v hedge
    obtain rfl : j = j' := h.numbered.index_eq hv hj'
    exact hanc hlt
  interval := h.interval _ _ _

end Cfg
