import DartSdk.Cfg.DominatorTree

/-!
# Cfg/IsDominatedBy — dominance of blocks and of instructions

The numbers of blocks are left behind: paths by preorder numbers are paths of blocks
(`Discovered.dominates_iff`), and each path of instructions passes through whole blocks, but for the
first and the last (`Layout.dominates_iff`).

`isDominatedBy` compares numbers in the dominator tree, or the positions of two instructions in
their block; the positions are cached from one query to the next (`Layout.Cached`).
-/

namespace Cfg

open List Option Relation Dominance

section

variable {Block : Type} [DecidableEq Block]

/-- A block is a successor of another. -/
def FlowGraph.Edge (g : FlowGraph Block) (u v : Block) : Prop := v ∈ g.successors u

/-- A block can be reached from the entry. -/
def FlowGraph.Reachable (g : FlowGraph Block) (b : Block) : Prop :=
  ReflTransGen g.Edge g.entryBlock b

namespace Discovered

variable {g : FlowGraph Block} {hasPhis : Block → Bool} {old : Block → List Block} {parent : ℕ → ℕ}
  {s : Discovery Block} (h : Discovered g hasPhis old parent s) {i j : ℕ} {u v : Block}

include h

theorem mem_preorder_iff : v ∈ s.preorder ↔ g.Reachable v := by
  constructor
  · intro hv
    obtain ⟨j, hj⟩ := mem_iff_getElem?.mp hv
    -- up the spanning tree
    induction j using Nat.strong_induction_on generalizing v with
    | _ j ih =>
    rcases Nat.eq_zero_or_pos j with rfl | hpos
    · rw [h.numbered.entry] at hj
      exact some.inj hj ▸ .refl
    · have hlt := h.parent_lt j hpos (List.getElem?_eq_some_iff.mp hj).1
      obtain ⟨u, hu, hedge, -⟩ := h.parent_edge j hpos v hj
      exact (ih _ hlt (mem_of_getElem? hu) hu).tail hedge
  · intro hreachable
    induction hreachable with
    | refl => exact mem_of_getElem? h.numbered.entry
    | tail _ hedge ih =>
      obtain ⟨i, hi⟩ := mem_iff_getElem?.mp ih
      obtain ⟨j, hj, -⟩ := h.edges i _ hi _ hedge
      exact mem_of_getElem? hj

variable (hu : s.preorder[i]? = some u)

include hu

theorem avoids_blocks (havoids : Avoids (s.Edge g) i 0 j) (hv : s.preorder[j]? = some v) :
    Avoids g.Edge u g.entryBlock v := by
  induction havoids generalizing v with
  | refl =>
    rw [h.numbered.entry] at hv
    exact some.inj hv ▸ .refl
  | tail _ hlast ih =>
    obtain ⟨⟨a, b, ha, hb, hedge⟩, hne⟩ := hlast
    obtain rfl : b = v := some.inj (hb.symm.trans hv)
    refine (ih ha).tail ⟨hedge, fun heq => hne ?_⟩
    exact h.numbered.index_eq hb (heq ▸ hu)

theorem avoids_numbers (havoids : Avoids g.Edge u g.entryBlock v) :
    ∃ j : ℕ, s.preorder[j]? = some v ∧ Avoids (s.Edge g) i 0 j := by
  induction havoids with
  | refl => exact ⟨0, h.numbered.entry, .refl⟩
  | @tail a b _ hlast ih =>
    obtain ⟨k, hk, havoids⟩ := ih
    obtain ⟨j, hj, -⟩ := h.edges k a hk b hlast.1
    refine ⟨j, hj, havoids.tail ⟨⟨a, b, hk, hj, hlast.1⟩, fun heq => hlast.2 ?_⟩⟩
    exact some.inj (hj.symm.trans (heq ▸ hu))

/-- **Dominance by numbers is dominance of blocks.** -/
theorem dominates_iff (hv : s.preorder[j]? = some v) :
    Dominates (s.Edge g) 0 i j ↔ Dominates g.Edge g.entryBlock u v := by
  rw [Dominance.dominates_iff, Dominance.dominates_iff]
  refine not_congr (and_congr (not_congr ?_) ⟨fun havoids => h.avoids_blocks hu havoids hv, ?_⟩)
  · constructor
    · rintro rfl
      exact some.inj (h.numbered.entry.symm.trans hu)
    · rintro rfl
      exact h.numbered.index_eq h.numbered.entry hu
  · intro havoids
    obtain ⟨k, hk, havoids⟩ := h.avoids_numbers hu havoids
    exact h.numbered.index_eq hk hv ▸ havoids

theorem isImmediate (hv : s.preorder[j]? = some v) (himmediate : IsImmediate (s.Edge g) 0 i j) :
    IsImmediate g.Edge g.entryBlock u v where
  ne heq := himmediate.ne (h.numbered.index_eq hu (heq ▸ hv))
  dominates := (h.dominates_iff hu hv).mp himmediate.dominates
  least e hne he := by
    -- a dominator of a block that can be reached can be reached itself
    obtain ⟨l, hl⟩ := exists_path_of_reflTransGen (h.mem_preorder_iff.mp (mem_of_getElem? hv))
    obtain ⟨l', hl', -⟩ := hl.exists_prefix (he l hl)
    obtain ⟨k, hk⟩ := mem_iff_getElem?.mp (h.mem_preorder_iff.mpr hl'.reflTransGen)
    have hne' : k ≠ j := fun heq => hne (some.inj (hk.symm.trans (heq ▸ hv)))
    exact (h.dominates_iff hk hu).mp (himmediate.least k hne' ((h.dominates_iff hk hv).mpr he))

end Discovered

end

/-! ## Paths of instructions

A path of instructions enters a block at its header and leaves it at its last instruction.  So
whether it can avoid an instruction is decided between blocks, unless both instructions are in one
block. -/

namespace Layout

variable {Block Instr : Type} {k : ℕ}

section

variable (layout : Layout Block Instr) (g : FlowGraph Block)

/-- **One step of a run**: to the next instruction of the block, or from its last one to a
successor. -/
inductive Next : Instr → Instr → Prop
  | inside {b : Block} {i j : Instr} {k : ℕ} : (layout.instructions b)[k]? = some i →
      (layout.instructions b)[k + 1]? = some j → Next i j
  | jump {b c : Block} {i : Instr} : (layout.instructions b).getLast? = some i →
    c ∈ g.successors b →
      Next i (layout.header c)

end

variable {layout : Layout Block Instr} {g : FlowGraph Block} {b c : Block} {i : Instr}

theorem block_eq (hi : i ∈ layout.instructions b) : layout.block i = b := by
  rcases mem_cons.mp hi with rfl | hi
  · exact layout.block_header b
  · exact layout.block_body b i hi

theorem block_getElem? (hi : (layout.instructions b)[k]? = some i) : layout.block i = b :=
  block_eq (mem_of_getElem? hi)

theorem position_unique {k' : ℕ} (hi : (layout.instructions b)[k]? = some i)
    (hi' : (layout.instructions b)[k']? = some i) : k = k' := by
  have hlt := (List.getElem?_eq_some_iff.mp hi).1
  exact (getElem?_inj hlt (layout.nodup b)).mp (hi.trans hi'.symm)

variable (layout) in
theorem exists_last (b : Block) : ∃ x, (layout.instructions b).getLast? = some x ∧
    ∃ k : ℕ, (layout.instructions b)[k]? = some x := by
  refine ⟨_, getLast?_eq_some_getLast (cons_ne_nil _ _), (layout.instructions b).length - 1, ?_⟩
  rw [← getLast?_eq_getElem?]
  exact getLast?_eq_some_getLast (cons_ne_nil _ _)

/-- Down a block, from its header. -/
theorem path_inside (hi : (layout.instructions b)[k]? = some i) :
    ReflTransGen (fun x y => layout.Next g x y ∧ ∃ m ≤ k, (layout.instructions b)[m]? = some y)
      (layout.header b) i := by
  induction k generalizing i with
  | zero =>
    obtain rfl : layout.header b = i := some.inj hi
    exact .refl
  | succ k ih =>
    obtain ⟨x, hx⟩ : ∃ x, (layout.instructions b)[k]? = some x :=
      ⟨_, getElem?_eq_getElem (Nat.lt_of_succ_lt (List.getElem?_eq_some_iff.mp hi).1)⟩
    refine .tail (ReflTransGen.mono ?_ _ _ (ih hx)) ⟨.inside hx hi, k + 1, le_rfl, hi⟩
    rintro a c ⟨hnext, m, hm, hc⟩
    exact ⟨hnext, m, Nat.le_succ_of_le hm, hc⟩

variable {d : Instr} {B : Block} {kd : ℕ}

/-- Another block does not have `d`. -/
theorem avoids_inside (hne : b ≠ B) (hd : layout.block d = B)
    (hi : (layout.instructions b)[k]? = some i) : Avoids (layout.Next g) d (layout.header b) i := by
  refine ReflTransGen.mono ?_ _ _ (path_inside (g := g) hi)
  rintro y z ⟨hnext, m, -, hz⟩
  exact ⟨hnext, fun heq => hne ((block_getElem? hz).symm.trans (heq ▸ hd))⟩

/-- A path of blocks that avoids `B` is a path of instructions that avoids those of `B`. -/
theorem avoids_header (hd : layout.block d = B) (hne : g.entryBlock ≠ B)
    (havoids : Avoids g.Edge B g.entryBlock c) :
    c ≠ B ∧ Avoids (layout.Next g) d (layout.header g.entryBlock) (layout.header c) := by
  induction havoids with
  | refl => exact ⟨hne, .refl⟩
  | @tail a c _ hlast ih =>
    obtain ⟨ha, havoids⟩ := ih
    have hheader : layout.header c ≠ d := fun heq =>
      hlast.2 ((layout.block_header c).symm.trans (heq ▸ hd))
    obtain ⟨x, hx, k, hk⟩ := layout.exists_last a
    exact ⟨hlast.2, (havoids.trans (avoids_inside ha hd hk)).tail ⟨.jump hx hlast.1, hheader⟩⟩

/-- A block that can be reached can be reached without passing through it before. -/
theorem exists_first_arrival (hB : g.Reachable B) (hne : g.entryBlock ≠ B) :
    ∃ a, Avoids g.Edge B g.entryBlock a ∧ g.Edge a B := by
  have hcases : ∀ v, g.Reachable v →
      (v ≠ B ∧ Avoids g.Edge B g.entryBlock v) ∨ ∃ a, Avoids g.Edge B g.entryBlock a ∧
        g.Edge a B := by
    intro v hv
    induction hv with
    | refl => exact .inl ⟨hne, .refl⟩
    | @tail u v _ hedge ih =>
      rcases ih with ⟨-, havoids⟩ | hfound
      · by_cases hv : v = B
        · exact .inr ⟨u, havoids, hv ▸ hedge⟩
        · exact .inl ⟨hv, havoids.tail ⟨hedge, hv⟩⟩
      · exact .inr hfound
  rcases hcases B hB with ⟨hself, -⟩ | hfound
  · exact absurd rfl hself
  · exact hfound

/-- A path of instructions avoids `d`: it stays before `d` in its block, or outside of it. -/
theorem avoids_inv (hd : (layout.instructions B)[kd]? = some d)
    (hne : layout.header g.entryBlock ≠ d)
    (havoids : Avoids (layout.Next g) d (layout.header g.entryBlock) i) :
    (∃ k < kd, (layout.instructions B)[k]? = some i) ∨
      (layout.block i ≠ B ∧ g.entryBlock ≠ B ∧ Avoids g.Edge B g.entryBlock (layout.block i)) := by
  have hheader {c : Block} (hc : layout.header c ≠ d) (hB : c = B) :
      ∃ k < kd, (layout.instructions B)[k]? = some (layout.header c) := by
    subst hB
    refine ⟨0, Nat.pos_of_ne_zero fun hzero => hc ?_, rfl⟩
    rw [hzero] at hd
    exact some.inj hd
  induction havoids with
  | refl =>
    by_cases hB : g.entryBlock = B
    · exact .inl (hheader hne hB)
    · rw [layout.block_header]
      exact .inr ⟨hB, hB, .refl⟩
  | tail _ hlast ih =>
    obtain ⟨hnext, hlast⟩ := hlast
    cases hnext with
    | @inside b x y k hx hy =>
      rw [block_getElem? hx] at ih
      rw [block_getElem? hy]
      rcases ih with ⟨k', hlt, hx'⟩ | houtside
      · obtain rfl : b = B := (block_getElem? hx).symm.trans (block_getElem? hx')
        obtain rfl : k = k' := position_unique hx hx'
        refine .inl ⟨k + 1, lt_of_le_of_ne hlt fun heq => hlast ?_, hy⟩
        exact some.inj (hy.symm.trans (heq ▸ hd))
      · exact .inr houtside
    | @jump b c x hx hedge =>
      rw [getLast?_eq_getElem?] at hx
      rw [block_getElem? hx] at ih
      rw [layout.block_header]
      rcases ih with ⟨k, hlt, hx'⟩ | ⟨hb, hentry, havoids⟩
      · -- the last instruction of the block is not before `d`
        obtain rfl : b = B := (block_getElem? hx).symm.trans (block_getElem? hx')
        have heq := position_unique hx hx'
        have hlength := (List.getElem?_eq_some_iff.mp hd).1
        omega
      · by_cases hc : c = B
        · exact .inl (hheader hlast hc)
        · exact .inr ⟨hc, hentry, havoids.tail ⟨hedge, hc⟩⟩

/-- **Dominance of instructions**: by position in one block, by dominance of blocks otherwise. -/
theorem dominates_iff {A : Block} {ka : ℕ} {a : Instr} (ha : (layout.instructions A)[ka]? = some a)
    (hd : (layout.instructions B)[kd]? = some d) (hne : a ≠ d) (hA : g.Reachable A) :
    Dominates (layout.Next g) (layout.header g.entryBlock) d a ↔
      (A = B ∧ kd < ka) ∨ (A ≠ B ∧ Dominates g.Edge g.entryBlock B A) := by
  have hblock := block_getElem? ha
  have hdB := block_getElem? hd
  constructor
  · intro hdom
    by_contra hnot
    rw [not_or, not_and, not_and] at hnot
    rw [Dominance.dominates_iff] at hdom
    by_cases hAB : A = B
    · subst hAB
      have hlt : ka < kd := by
        have hkk : ka ≠ kd := fun heq => hne (some.inj (ha.symm.trans (heq ▸ hd)))
        have := hnot.1 rfl
        omega
      -- the first arrival at the block, and down to `a`
      have hheader : layout.header A ≠ d := fun heq => by
        have hzero : (layout.instructions A)[0]? = some d := congrArg some heq
        have := position_unique hzero hd
        omega
      have hdown : Avoids (layout.Next g) d (layout.header A) a := by
        refine ReflTransGen.mono ?_ _ _ (path_inside (g := g) ha)
        rintro y z ⟨hnext, m, hm, hz⟩
        refine ⟨hnext, fun heq => ?_⟩
        have := position_unique hz (heq ▸ hd)
        omega
      by_cases hentry : g.entryBlock = A
      · exact hdom ⟨hentry ▸ hheader, hentry ▸ hdown⟩
      obtain ⟨c, havoids, hedge⟩ := exists_first_arrival hA hentry
      refine hdom ⟨fun heq => hentry ?_, ReflTransGen.trans ?_ hdown⟩
      · exact (layout.block_header _).symm.trans (heq ▸ hdB)
      · obtain ⟨hc, havoids⟩ := avoids_header hdB hentry havoids
        obtain ⟨x, hx, k, hk⟩ := layout.exists_last c
        exact (havoids.trans (avoids_inside hc hdB hk)).tail ⟨.jump hx hedge, hheader⟩
    · have hdom' := hnot.2 hAB
      rw [Dominance.dominates_iff, not_not] at hdom'
      obtain ⟨hentry, havoids⟩ := hdom'
      obtain ⟨-, hpath⟩ := avoids_header hdB hentry havoids
      refine hdom ⟨fun heq => hentry ?_, hpath.trans (avoids_inside hAB hdB ha)⟩
      exact (layout.block_header _).symm.trans (heq ▸ hdB)
  · intro hcases
    rw [Dominance.dominates_iff]
    rintro ⟨hentry, havoids⟩
    have hinv := avoids_inv hd hentry havoids
    rw [hblock] at hinv
    rcases hcases with ⟨rfl, hlt⟩ | ⟨hAB, hdom⟩
    · rcases hinv with ⟨k, hk, hak⟩ | ⟨houtside, -⟩
      · have := position_unique ha hak
        omega
      · exact houtside rfl
    · rcases hinv with ⟨k, -, hak⟩ | ⟨-, hinv⟩
      · exact hAB (hblock.symm.trans (block_getElem? hak))
      · exact Dominance.dominates_iff.mp hdom hinv

variable (layout) in
/-- **The cache**: a block with a number has the positions of all its instructions. -/
def Cached (nums : Instr → ℕ) : Prop :=
  ∀ b, nums (layout.header b) ≠ 0 → ∀ (k : ℕ) i, (layout.instructions b)[k]? = some i →
    nums i = k + 1

theorem cached_zero : layout.Cached fun _ => 0 := fun _ hb => absurd rfl hb

variable [DecidableEq Block] [DecidableEq Instr]

omit [DecidableEq Block] in
theorem foldl_number {l : List Instr} (hl : l.Nodup) (k : ℕ) (nums : Instr → ℕ) :
    (∀ m x, l[m]? = some x →
      (l.zipIdx k).foldl (fun nums (instr, k) => Function.update nums instr (k + 1)) nums x =
        k + m + 1) ∧
    ∀ x ∉ l, (l.zipIdx k).foldl (fun nums (instr, k) => Function.update nums instr (k + 1)) nums x =
      nums x := by
  induction l generalizing k nums with
  | nil => exact ⟨fun m x hx => (nomatch hx), fun x _ => rfl⟩
  | cons y l ih =>
    obtain ⟨hy, hl⟩ := nodup_cons.mp hl
    obtain ⟨ihmem, ihnot⟩ := ih hl (k + 1) (Function.update nums y (k + 1))
    rw [zipIdx_cons, foldl_cons]
    refine ⟨fun m x hx => ?_, fun x hx => ?_⟩
    · cases m with
      | zero =>
        obtain rfl : y = x := some.inj hx
        exact (ihnot y hy).trans (Function.update_self ..)
      | succ m => exact (ihmem m x hx).trans (by omega)
    · rw [mem_cons, not_or] at hx
      exact (ihnot x hx.2).trans (Function.update_of_ne hx.1 ..)

theorem Cached.numberInstructions {nums : Instr → ℕ} (h : layout.Cached nums) (b : Block) :
    layout.Cached (layout.numberInstructions b nums) ∧
      ∀ (k : ℕ) i, (layout.instructions b)[k]? = some i →
        layout.numberInstructions b nums i = k + 1 := by
  by_cases hb : nums (layout.header b) = 0
  · obtain ⟨hmem, hnot⟩ := foldl_number (layout.nodup b) 0 nums
    rw [Layout.numberInstructions, if_pos hb]
    have hself (k : ℕ) (i : Instr) (hi : (layout.instructions b)[k]? = some i) := hmem k i hi
    simp only [Nat.zero_add] at hself
    refine ⟨fun c hc k i hi => ?_, hself⟩
    by_cases hcb : c = b
    · exact hself k i (hcb ▸ hi)
    -- the instructions of other blocks keep their numbers
    have hother {x : Instr} (hx : layout.block x = c) : x ∉ layout.instructions b :=
      fun hxb => hcb (hx.symm.trans (block_eq hxb))
    have hheader := hnot _ (hother (layout.block_header c))
    exact (hnot i (hother (block_getElem? hi))).trans (h c (hheader ▸ hc) k i hi)
  · rw [Layout.numberInstructions, if_neg hb]
    exact ⟨h, h b hb⟩

/-- An instruction of a block that can be reached. -/
def Placed (layout : Layout Block Instr) (g : FlowGraph Block) (i : Instr) : Prop :=
  i ∈ layout.instructions (layout.block i) ∧ g.Reachable (layout.block i)

variable {preorderNumber : Block → ℕ} {nums : BlockNums} {cache : Option (Instr → ℕ)}
  (hnums : ∀ u v, g.Reachable u → g.Reachable v → (nums.preorder (preorderNumber u) <
    nums.preorder (preorderNumber v) ∧ nums.postorder (preorderNumber v) <
    nums.postorder (preorderNumber u) ↔ u ≠ v ∧ Dominates g.Edge g.entryBlock u v))
  (hcache : ∀ n ∈ cache, layout.Cached n)

include hnums hcache

open Classical in
/-- **One query.** -/
theorem isDominatedBy_spec {a : Instr} (ha : layout.Placed g a) (hd : layout.Placed g d) :
    (layout.isDominatedBy preorderNumber nums a d cache).1 =
        decide (a ≠ d ∧ Dominates (layout.Next g) (layout.header g.entryBlock) d a) ∧
      ∀ n ∈ (layout.isDominatedBy preorderNumber nums a d cache).2, layout.Cached n := by
  rw [isDominatedBy]
  by_cases heq : a = d
  · rw [if_pos heq]
    exact ⟨(decide_eq_false fun hboth => hboth.1 heq).symm, hcache⟩
  obtain ⟨ka, hka⟩ := mem_iff_getElem?.mp ha.1
  obtain ⟨kd, hkd⟩ := mem_iff_getElem?.mp hd.1
  have hdom := dominates_iff (g := g) hka hkd heq ha.2
  rw [if_neg heq]
  by_cases hblock : layout.block a = layout.block d
  · rw [if_neg (not_not.mpr hblock)]
    have hstart : layout.Cached (cache.getD fun _ => 0) := by
      cases cache with
      | none => exact cached_zero
      | some n => exact hcache n rfl
    obtain ⟨hcached, hpositions⟩ := hstart.numberInstructions (layout.block a)
    refine ⟨decide_eq_decide.mpr ?_, fun n hn => some.inj hn ▸ hcached⟩
    rw [hpositions ka a hka, hpositions kd d (hblock ▸ hkd), hdom, and_iff_right heq,
      and_iff_right hblock, or_iff_left fun hboth => hboth.1 hblock, Nat.add_lt_add_iff_right]
  · rw [if_pos hblock]
    refine ⟨?_, hcache⟩
    rw [← Bool.decide_and]
    refine decide_eq_decide.mpr ((hnums _ _ hd.2 ha.2).trans ?_)
    rw [hdom, and_iff_right heq, and_iff_right (Ne.symm hblock),
      or_iff_right fun hboth => hblock hboth.1, and_iff_right hblock]

open Classical in
/-- **Any number of queries.** -/
theorem answers_spec (queries : List (Instr × Instr))
    (hqueries : ∀ q ∈ queries, layout.Placed g q.1 ∧ layout.Placed g q.2) :
    layout.answers preorderNumber nums queries cache = queries.map fun q =>
      decide (q.1 ≠ q.2 ∧ Dominates (layout.Next g) (layout.header g.entryBlock) q.2 q.1) := by
  induction queries generalizing cache with
  | nil => rfl
  | cons q queries ih =>
    obtain ⟨hq, hqueries⟩ := forall_mem_cons.mp hqueries
    obtain ⟨hanswer, hcache'⟩ := isDominatedBy_spec hnums hcache hq.1 hq.2
    exact congrArg₂ List.cons hanswer (ih hcache' hqueries)

end Layout

variable {Block Instr : Type} [DecidableEq Block] [DecidableEq Instr]

open Classical in
/-- **`computeDominators` and `isDominatedBy` are exact**, for every graph, every state that an
earlier discovery left behind, every order of instructions and every sequence of queries. -/
theorem dominators_exact (g : FlowGraph Block) (hasPhis : Block → Bool) (s : Discovery Block)
    (layout : Layout Block Instr) :
    ∃ s', discover g hasPhis s = some ((), s') ∧ (∀ b, b ∈ s'.preorder ↔ g.Reachable b) ∧
      ∃ d, computeDominators s' = some d ∧
        (∀ b, g.Reachable b → b ≠ g.entryBlock → ∃ i c,
          d.idom (s'.preorderNumber b).toNat = some i ∧
          s'.preorder[i]? = some c ∧ IsImmediate g.Edge g.entryBlock c b) ∧
        ∃ nums, d.blockNums s'.preorder.length = some nums ∧ ∀ queries : List (Instr × Instr),
          (∀ q ∈ queries, layout.Placed g q.1 ∧ layout.Placed g q.2) →
          layout.answers (fun b => (s'.preorderNumber b).toNat) nums queries none =
            queries.map fun q =>
            decide (q.1 ≠ q.2 ∧
              Dominates (layout.Next g) (layout.header g.entryBlock) q.2 q.1) := by
  obtain ⟨_, s', hrun, parent, h⟩ := wp_discover (g := g) hasPhis s
  have hnumber {b : Block} (hb : g.Reachable b) :
      s'.preorder[(s'.preorderNumber b).toNat]? = some b := by
    obtain ⟨i, hi⟩ := mem_iff_getElem?.mp (h.mem_preorder_iff.mpr hb)
    rw [h.numbered.numbers i b hi, Int.toNat_natCast]
    exact hi
  have hlt {i : ℕ} {b : Block} (hi : s'.preorder[i]? = some b) : i < s'.preorder.length :=
    (List.getElem?_eq_some_iff.mp hi).1
  obtain ⟨d, hd, hdominated⟩ := h.computeDominators
  obtain ⟨nums, hnums, horder⟩ := hdominated.blockNums (hlt h.numbered.entry)
  refine ⟨s', hrun, fun b => h.mem_preorder_iff, d, hd, fun b hb hne => ?_, nums, hnums,
    fun queries hqueries => ?_⟩
  · have hb := hnumber hb
    have hpos : 0 < (s'.preorderNumber b).toNat := by
      refine Nat.pos_of_ne_zero fun hzero => hne ?_
      rw [hzero, h.numbered.entry] at hb
      exact (some.inj hb).symm
    obtain ⟨i, hi, himmediate⟩ := hdominated.below _ hpos (hlt hb)
    have hilt : i < s'.preorder.length := by
      have := hdominated.parent_lt hpos (hlt hb)
      rw [Dominators.parent_eq hi] at this
      exact this.trans (hlt hb)
    exact ⟨i, _, hi, getElem?_eq_getElem hilt,
      h.isImmediate (getElem?_eq_getElem hilt) hb himmediate⟩
  · refine Layout.answers_spec (fun u v hu hv => ?_) (fun n hn => by cases hn) queries hqueries
    have hu := hnumber hu
    have hv := hnumber hv
    refine (horder _ (hlt hu) _ (hlt hv)).trans (and_congr (not_congr ?_) (h.dominates_iff hu hv))
    constructor
    · intro heq
      exact some.inj (hu.symm.trans (heq ▸ hv))
    · rintro rfl
      rfl

end Cfg
