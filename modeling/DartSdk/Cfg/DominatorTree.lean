import DartSdk.Cfg.DominatorsCorrect

/-!
# Cfg/DominatorTree — numbers in the dominator tree, and dominance of instructions

`_numberBlocks` walks the tree with a work list.  A subtree takes an interval of preorder numbers
and one of postorder numbers, so `b` is a proper ancestor of `a` exactly if it has the smaller
preorder and the larger postorder number (`Numbers`).

In a block, an instruction is dominated by those before it; in different blocks, it is dominated by
all instructions of a block that dominates its block (`dominates_iff_block`).
-/

namespace Cfg

open Function List BlockNums
open Finset (notMem_empty mem_union mem_insert)

open Relation Dominance

/-! ## Trees

Parents have smaller numbers than their children, so the ancestors of a node are a chain and the
subtrees of two children are disjoint. -/

/-- The ancestors of a vertex are ancestors of each other. -/
theorem ancestor_total {par : ℕ → ℕ} {n u v y : ℕ} (hpar : ∀ i, 0 < i → i < n → par i < i)
    (hy : y < n) (hu : Ancestor par u y) (hv : Ancestor par v y) (h : u ≤ v) :
    Ancestor par u v := by
  induction y using Nat.strong_induction_on with
  | _ y ih =>
  rcases ancestor_iff.mp hv with rfl | ⟨hpos, hv'⟩
  · exact hu
  rcases ancestor_iff.mp hu with rfl | ⟨-, hu'⟩
  · have := le_of_ancestor hpar hy hv
    obtain rfl : u = v := by omega
    exact .refl
  · have hlt := hpar y hpos hy
    exact ih _ hlt (hlt.trans hy) hu' hv'

section

variable {n : ℕ} {par : ℕ → ℕ} {children : ℕ → List ℕ} {b : ℕ}

variable (n par) in
open Classical in
/-- The vertices of the subtrees of some vertices. -/
noncomputable def forest (roots : List ℕ) : Finset ℕ :=
  (Finset.range n).filter fun y => ∃ c ∈ roots, Ancestor par c y

theorem mem_forest {roots : List ℕ} {y : ℕ} :
    y ∈ forest n par roots ↔ y < n ∧ ∃ c ∈ roots, Ancestor par c y := by
  classical
  rw [forest, Finset.mem_filter, Finset.mem_range]

variable (n par children) in
/-- A tree: parents have smaller numbers, and the children of each vertex are listed once. -/
structure IsTree : Prop where
  parent_lt : ∀ i, 0 < i → i < n → par i < i
  mem_children : ∀ b c, c ∈ children b ↔ 0 < c ∧ c < n ∧ par c = b
  nodup : ∀ b, (children b).Nodup

namespace IsTree

variable (h : IsTree n par children) {b c y : ℕ}

include h

theorem lt_child (hc : c ∈ children b) : b < c := by
  obtain ⟨hpos, hn, rfl⟩ := (h.mem_children b c).mp hc
  exact h.parent_lt c hpos hn

theorem ancestor_child (hc : c ∈ children b) : Ancestor par b c := by
  obtain ⟨hpos, -, hpar⟩ := (h.mem_children b c).mp hc
  exact .single ⟨hpos, hpar⟩

/-- The subtree of a vertex is the vertex and the subtrees of its children. -/
theorem mem_forest_singleton (hb : b < n) :
    y ∈ forest n par [b] ↔ y = b ∨ y ∈ forest n par (children b) := by
  rw [mem_forest, mem_forest]
  constructor
  · rintro ⟨hy, c, hc, hanc⟩
    rw [mem_singleton.mp hc] at hanc
    rcases ReflTransGen.cases_head hanc with rfl | ⟨c', ⟨hpos, hpar⟩, hrest⟩
    · exact .inl rfl
    · have hle := le_of_ancestor h.parent_lt hy hrest
      exact .inr ⟨hy, c', (h.mem_children b c').mpr ⟨hpos, by omega, hpar⟩, hrest⟩
  · rintro (rfl | ⟨hy, c, hc, hanc⟩)
    · exact ⟨hb, y, mem_singleton_self y, .refl⟩
    · exact ⟨hy, b, mem_singleton_self b, (h.ancestor_child hc).trans hanc⟩

theorem not_mem_forest_children (hb : b < n) : b ∉ forest n par (children b) := by
  rw [mem_forest]
  rintro ⟨-, c, hc, hanc⟩
  have := le_of_ancestor h.parent_lt hb hanc
  have := h.lt_child hc
  omega

/-- Different children have nothing in common below them. -/
theorem siblings {c' : ℕ} (hc : c ∈ children b) (hc' : c' ∈ children b) (hne : c ≠ c') (hy : y < n)
    (hanc : Ancestor par c y) (hanc' : Ancestor par c' y) : False := by
  wlog hle : c ≤ c' generalizing c c'
  · exact this hc' hc hne.symm hanc' hanc (by omega)
  have hcc' := ancestor_total h.parent_lt hy hanc hanc' hle
  obtain ⟨-, hn', hpar'⟩ := (h.mem_children b c').mp hc'
  rcases ancestor_iff.mp hcc' with heq | ⟨-, hrest⟩
  · exact hne heq
  have hb := h.lt_child hc'
  have := le_of_ancestor h.parent_lt (by omega) (hpar' ▸ hrest)
  have := h.lt_child hc
  omega

end IsTree

/-! ## Numbers

A subtree is walked between the visit of its root and the return from it; the numbers that are given
in between are an interval of each order. -/

/-- A block gets its preorder number. -/
def BlockNums.enter (nums : BlockNums) (b : ℕ) : BlockNums :=
  { nums with
    preorder := Function.update nums.preorder b nums.nextPreorder
    nextPreorder := nums.nextPreorder + 1 }

/-- A block gets its postorder number. -/
def BlockNums.leave (nums : BlockNums) (b : ℕ) : BlockNums :=
  { nums with
    postorder := Function.update nums.postorder b nums.nextPostorder
    nextPostorder := nums.nextPostorder + 1 }

@[simp] theorem BlockNums.leave_preorder (nums : BlockNums) (b : ℕ) :
    (nums.leave b).preorder = nums.preorder := rfl

@[simp] theorem BlockNums.leave_nextPreorder (nums : BlockNums) (b : ℕ) :
    (nums.leave b).nextPreorder = nums.nextPreorder := rfl

@[simp] theorem BlockNums.leave_nextPostorder (nums : BlockNums) (b : ℕ) :
    (nums.leave b).nextPostorder = nums.nextPostorder + 1 := rfl

variable {nums : BlockNums}

theorem numberBlocks_child {dominated : ℕ → List ℕ} {fuel i c : ℕ} {work : List (ℕ × ℕ)}
    (hc : (dominated b)[i]? = some c) : numberBlocks dominated (fuel + 1) ((b, i) :: work) nums =
      numberBlocks dominated fuel ((c, 0) :: (b, i + 1) :: work)
        (if i = 0 then nums.enter b else nums) := by
  rw [numberBlocks, hc]
  rfl

theorem numberBlocks_leave {dominated : ℕ → List ℕ} {fuel i : ℕ} {work : List (ℕ × ℕ)}
    (hi : (dominated b)[i]? = none) : numberBlocks dominated (fuel + 1) ((b, i) :: work) nums =
      numberBlocks dominated fuel work ((if i = 0 then nums.enter b else nums).leave b) := by
  rw [numberBlocks, hi]
  rfl

variable (par) in
/-- **The vertices of `S` have been numbered** between two states: they take an interval of numbers
each, which tell the ancestors. -/
structure Numbers (S : Finset ℕ) (nums nums' : BlockNums) : Prop where
  nextPreorder : nums'.nextPreorder = nums.nextPreorder + S.card
  nextPostorder : nums'.nextPostorder = nums.nextPostorder + S.card
  preorder : ∀ x ∈ S, nums.nextPreorder ≤ nums'.preorder x ∧ nums'.preorder x < nums'.nextPreorder
  postorder : ∀ x ∈ S, nums.nextPostorder ≤ nums'.postorder x ∧
    nums'.postorder x < nums'.nextPostorder
  frame : ∀ x, x ∉ S → nums'.preorder x = nums.preorder x ∧ nums'.postorder x = nums.postorder x
  order : ∀ x ∈ S, ∀ y ∈ S, nums'.preorder x < nums'.preorder y ∧
    nums'.postorder y < nums'.postorder x ↔
    x ≠ y ∧ Ancestor par x y

theorem Numbers.empty (nums : BlockNums) : Numbers par ∅ nums nums where
  nextPreorder := rfl
  nextPostorder := rfl
  preorder x hx := absurd hx (notMem_empty x)
  postorder x hx := absurd hx (notMem_empty x)
  frame _ _ := ⟨rfl, rfl⟩
  order x hx := absurd hx (notMem_empty x)

/-- One subtree after another. -/
theorem Numbers.union {S S' : Finset ℕ} {nums1 nums2 : BlockNums} (h : Numbers par S nums nums1)
    (h' : Numbers par S' nums1 nums2) (hdisjoint : Disjoint S S')
    (hacross : ∀ x ∈ S, ∀ y ∈ S', ¬Ancestor par x y ∧ ¬Ancestor par y x) :
    Numbers par (S ∪ S') nums nums2 := by
  have hfirst {x : ℕ} (hx : x ∈ S) : nums2.preorder x = nums1.preorder x ∧
      nums2.postorder x = nums1.postorder x := h'.frame x (Finset.disjoint_left.mp hdisjoint hx)
  have hpre := h.nextPreorder
  have hpre' := h'.nextPreorder
  have hpost := h.nextPostorder
  have hpost' := h'.nextPostorder
  refine ⟨?_, ?_, fun x hx => ?_, fun x hx => ?_, fun x hx => ?_, fun x hx y hy => ?_⟩
  · rw [hpre', hpre, Finset.card_union_of_disjoint hdisjoint, Nat.add_assoc]
  · rw [hpost', hpost, Finset.card_union_of_disjoint hdisjoint, Nat.add_assoc]
  · rcases mem_union.mp hx with hx | hx
    · have := h.preorder x hx
      rw [(hfirst hx).1]
      omega
    · have := h'.preorder x hx
      omega
  · rcases mem_union.mp hx with hx | hx
    · have := h.postorder x hx
      rw [(hfirst hx).2]
      omega
    · have := h'.postorder x hx
      omega
  · rw [mem_union, not_or] at hx
    have hframe := h.frame x hx.1
    have hframe' := h'.frame x hx.2
    exact ⟨hframe'.1.trans hframe.1, hframe'.2.trans hframe.2⟩
  · rcases mem_union.mp hx with hx | hx <;> rcases mem_union.mp hy with hy | hy
    · rw [(hfirst hx).1, (hfirst hx).2, (hfirst hy).1, (hfirst hy).2]
      exact h.order x hx y hy
    · -- the second subtree has larger numbers of both kinds
      have := h.postorder x hx
      have := h'.postorder y hy
      rw [(hfirst hx).2]
      refine iff_of_false (fun hlt => ?_) fun hanc => (hacross x hx y hy).1 hanc.2
      omega
    · have := h.preorder y hy
      have := h'.preorder x hx
      rw [(hfirst hy).1]
      refine iff_of_false (fun hlt => ?_) fun hanc => (hacross y hy x hx).2 hanc.2
      omega
    · exact h'.order x hx y hy

/-- A vertex around the subtrees of its children. -/
theorem Numbers.wrap {S : Finset ℕ} {nums' : BlockNums}
    (h : Numbers par S (nums.enter b) nums') (hb : b ∉ S) (hbelow : ∀ y ∈ S, Ancestor par b y)
    (habove : ∀ y ∈ S, ¬Ancestor par y b) : Numbers par (insert b S) nums (nums'.leave b) := by
  have hpre : nums'.nextPreorder = nums.nextPreorder + 1 + S.card := h.nextPreorder
  have hpost : nums'.nextPostorder = nums.nextPostorder + S.card := h.nextPostorder
  have hrange {x : ℕ} (hx : x ∈ S) : nums.nextPreorder + 1 ≤ nums'.preorder x ∧
      nums'.preorder x < nums'.nextPreorder := h.preorder x hx
  have hrange' {x : ℕ} (hx : x ∈ S) : nums.nextPostorder ≤ nums'.postorder x ∧
      nums'.postorder x < nums'.nextPostorder := h.postorder x hx
  have hroot : nums'.preorder b = nums.nextPreorder := (h.frame b hb).1.trans (update_self ..)
  have hne {x : ℕ} (hx : x ∈ S) : x ≠ b := fun heq => hb (heq ▸ hx)
  have hleave {x : ℕ} (hx : x ≠ b) : (nums'.leave b).postorder x = nums'.postorder x :=
    update_of_ne hx ..
  have hleave_self : (nums'.leave b).postorder b = nums'.nextPostorder := update_self ..
  refine ⟨?_, ?_, fun x hx => ?_, fun x hx => ?_, fun x hx => ?_, fun x hx y hy => ?_⟩
  · rw [leave_nextPreorder, hpre, Finset.card_insert_of_notMem hb]
    omega
  · rw [leave_nextPostorder, hpost, Finset.card_insert_of_notMem hb]
    omega
  · rw [leave_preorder, leave_nextPreorder]
    rcases mem_insert.mp hx with rfl | hx
    · omega
    · have := hrange hx
      omega
  · rw [leave_nextPostorder]
    rcases mem_insert.mp hx with rfl | hx
    · omega
    · have := hrange' hx
      rw [hleave (hne hx)]
      omega
  · rw [mem_insert, not_or] at hx
    obtain ⟨hframe, hframe'⟩ := h.frame x hx.2
    exact ⟨hframe.trans (update_of_ne hx.1 ..), (hleave hx.1).trans hframe'⟩
  · rw [leave_preorder]
    rcases mem_insert.mp hx with rfl | hxS <;> rcases mem_insert.mp hy with rfl | hyS
    · exact iff_of_false (fun hlt => Nat.lt_irrefl _ hlt.1) fun hanc => hanc.1 rfl
    · have := hrange hyS
      have := hrange' hyS
      rw [hleave (hne hyS), hleave_self, hroot]
      exact iff_of_true (by omega) ⟨(hne hyS).symm, hbelow y hyS⟩
    · have := hrange hxS
      refine iff_of_false (fun hlt => ?_) fun hanc => habove x hxS hanc.2
      omega
    · rw [hleave (hne hxS), hleave (hne hyS)]
      exact h.order x hxS y hyS

theorem forest_nil : forest n par [] = ∅ :=
  Finset.eq_empty_of_forall_notMem fun y hy => by
    obtain ⟨-, c, hc, -⟩ := mem_forest.mp hy
    exact absurd hc not_mem_nil

theorem forest_cons (c : ℕ) (cs : List ℕ) :
    forest n par (c :: cs) = forest n par [c] ∪ forest n par cs := by
  ext y
  simp [mem_union, mem_forest, mem_cons, not_mem_nil, or_false, exists_eq_or_imp,
    exists_eq_left, and_or_left]

namespace IsTree

variable (h : IsTree n par children) {b : ℕ}

include h

theorem forest_singleton (hb : b < n) :
    forest n par [b] = insert b (forest n par (children b)) := by
  ext y
  rw [h.mem_forest_singleton hb, mem_insert]

/-- The subtrees of a child and of the children after it. -/
theorem numbers_cons {i c : ℕ} {cs : List ℕ} {nums nums1 nums2 : BlockNums}
    (hcs : (children b).drop i = c :: cs) (h1 : Numbers par (forest n par [c]) nums nums1)
    (h2 : Numbers par (forest n par cs) nums1 nums2) :
    Numbers par (forest n par (c :: cs)) nums nums2 ∧
      (forest n par (c :: cs)).card = (forest n par [c]).card + (forest n par cs).card := by
  have hmem {c' : ℕ} (hc' : c' ∈ c :: cs) : c' ∈ children b := mem_of_mem_drop (hcs ▸ hc')
  have hnodup : (c :: cs).Nodup := hcs ▸ (h.nodup b).drop
  have hapart {x y z : ℕ} (hx : x ∈ forest n par [c]) (hy : y ∈ forest n par cs) (hz : z < n)
      (hxz : Ancestor par x z) (hyz : Ancestor par y z) : False := by
    obtain ⟨-, c1, hc1, hx⟩ := mem_forest.mp hx
    obtain ⟨-, c2, hc2, hy⟩ := mem_forest.mp hy
    rw [mem_singleton.mp hc1] at hx
    have hne : c ≠ c2 := fun heq => (nodup_cons.mp hnodup).1 (heq ▸ hc2)
    exact h.siblings (hmem mem_cons_self) (hmem (mem_cons_of_mem c hc2)) hne hz
      (hx.trans hxz) (hy.trans hyz)
  have hdisjoint : Disjoint (forest n par [c]) (forest n par cs) :=
    Finset.disjoint_left.mpr fun x hx hx' => hapart hx hx' (mem_forest.mp hx).1 .refl .refl
  rw [forest_cons]
  refine ⟨h1.union h2 hdisjoint fun x hx y hy => ?_, Finset.card_union_of_disjoint hdisjoint⟩
  exact ⟨fun hxy => hapart hx hy (mem_forest.mp hy).1 hxy .refl,
    fun hyx => hapart hx hy (mem_forest.mp hx).1 .refl hyx⟩

/-- **`_numberBlocks` numbers the subtree of the block on top of its work list.** -/
theorem numberBlocks_subtree (hb : b < n) (nums : BlockNums) (fuel : ℕ) (work : List (ℕ × ℕ)) :
    ∃ nums', Numbers par (forest n par [b]) nums nums' ∧
      numberBlocks children (fuel + 2 * (forest n par [b]).card) ((b, 0) :: work) nums =
        numberBlocks children (fuel + 1) work nums' := by
  -- over the subtrees that hang deeper: children have larger numbers
  induction hk : n - b using Nat.strong_induction_on generalizing b nums fuel work with
  | _ k ih =>
  -- the children from index `i` on
  have hchildren : ∀ cs i nums fuel, (children b).drop i = cs → ∃ nums',
      Numbers par (forest n par cs) (if i = 0 then nums.enter b else nums) nums' ∧
      numberBlocks children (fuel + 2 * (forest n par cs).card + 1) ((b, i) :: work) nums =
        numberBlocks children fuel work (nums'.leave b) := by
    intro cs
    induction cs with
    | nil =>
      intro i nums fuel hcs
      refine ⟨if i = 0 then nums.enter b else nums, forest_nil ▸ Numbers.empty _, ?_⟩
      rw [forest_nil, numberBlocks_leave (getElem?_eq_none (drop_eq_nil_iff.mp hcs))]
      rfl
    | cons c cs ihcs =>
      intro i nums fuel hcs
      have hget : (children b)[i]? = some c := by
        rw [← head?_drop, hcs, head?_cons]
      have hc : c ∈ children b := mem_of_getElem? hget
      have hlt := h.lt_child hc
      have hcn : c < n := ((h.mem_children b c).mp hc).2.1
      obtain ⟨nums1, hnums1, hrun1⟩ :=
        ih (n - c) (by omega) hcn (if i = 0 then nums.enter b else nums)
        (fuel + 2 * (forest n par cs).card) ((b, i + 1) :: work) rfl
      have hdrop : (children b).drop (i + 1) = cs := by
        rw [← tail_drop, hcs, tail_cons]
      obtain ⟨nums2, hnums2, hrun2⟩ := ihcs (i + 1) nums1 fuel hdrop
      obtain ⟨hnums, hcard⟩ := h.numbers_cons hcs hnums1 hnums2
      refine ⟨nums2, hnums, ?_⟩
      rw [numberBlocks_child hget, hcard, ← hrun2, ← hrun1]
      congr 1
      omega
  obtain ⟨nums', hnums', hrun⟩ := hchildren (children b) 0 nums (fuel + 1) rfl
  have hnot := h.not_mem_forest_children hb
  refine ⟨nums'.leave b, ?_, ?_⟩
  · rw [h.forest_singleton hb]
    refine Numbers.wrap hnums' hnot (fun y hy => ?_) fun y hy hanc => ?_
    · obtain ⟨-, c, hc, hanc⟩ := mem_forest.mp hy
      exact (h.ancestor_child hc).trans hanc
    · obtain ⟨-, c, hc, hanc'⟩ := mem_forest.mp hy
      exact hnot (mem_forest.mpr ⟨hb, c, hc, hanc'.trans hanc⟩)
  · rw [← hrun, h.forest_singleton hb, Finset.card_insert_of_notMem hnot]
    congr 1
    omega

/-- **The numbers of the whole tree tell the ancestors.** -/
theorem numberBlocks_order (hn : 0 < n) (nums : BlockNums) :
    ∃ nums', numberBlocks children (2 * n + 1) [(0, 0)] nums = some nums' ∧
      ∀ x < n, ∀ y < n, nums'.preorder x < nums'.preorder y ∧
        nums'.postorder y < nums'.postorder x ↔
        x ≠ y ∧ Ancestor par x y := by
  have hroot (x : ℕ) (hx : x < n) : Ancestor par 0 x := by
    induction x using Nat.strong_induction_on with
    | _ x ih =>
    rcases Nat.eq_zero_or_pos x with rfl | hpos
    · exact .refl
    · have hlt := h.parent_lt x hpos hx
      exact (ih _ hlt (hlt.trans hx)).tail ⟨hpos, rfl⟩
  have hall : forest n par [0] = Finset.range n := by
    ext y
    rw [mem_forest, Finset.mem_range]
    exact ⟨And.left, fun hy => ⟨hy, 0, mem_singleton_self 0, hroot y hy⟩⟩
  obtain ⟨nums', hnums, hrun⟩ := h.numberBlocks_subtree hn nums 1 []
  rw [hall] at hnums hrun
  rw [Finset.card_range, Nat.add_comm] at hrun
  refine ⟨nums', hrun.trans rfl, fun x hx y hy => ?_⟩
  exact hnums.order x (Finset.mem_range.mpr hx) y (Finset.mem_range.mpr hy)

end IsTree

end

variable {n : ℕ} {E : ℕ → ℕ → Prop} {t : DepthFirst n E} {d : Dominators}

/-- The parent of a block in the tree. -/
def Dominators.parent (d : Dominators) (v : ℕ) : ℕ := (d.idom v).getD 0

theorem Dominators.parent_eq {v i : ℕ} (h : d.idom v = some i) : d.parent v = i := by
  rw [Dominators.parent, h, Option.getD_some]

namespace Dominated

variable (h : Dominated t n d) {v : ℕ}

include h

theorem isImmediate (hpos : 0 < v) (hv : v < n) : IsImmediate E 0 (d.parent v) v := by
  obtain ⟨i, hi, himmediate⟩ := h.below v hpos hv
  exact Dominators.parent_eq hi ▸ himmediate

theorem parent_lt (hpos : 0 < v) (hv : v < n) : d.parent v < v :=
  (h.isImmediate hpos hv).ne.lt_of_le
    (t.ancestor_le hv (t.ancestor_of_dominates hv (h.isImmediate hpos hv).dominates))

theorem isTree : IsTree n d.parent d.dominated where
  parent_lt _ := h.parent_lt
  mem_children b c := by
    rw [h.dominated, mem_filter, mem_range, decide_eq_true_eq]
    constructor
    · rintro ⟨hc, hidom⟩
      have hpos : 0 < c := by
        refine Nat.pos_of_ne_zero fun hzero => ?_
        rw [hzero, h.entry] at hidom
        cases hidom
      exact ⟨hpos, hc, Dominators.parent_eq hidom⟩
    · rintro ⟨hpos, hc, rfl⟩
      obtain ⟨i, hi, -⟩ := h.below c hpos hc
      exact ⟨hc, hi.trans (congrArg some (Dominators.parent_eq hi).symm)⟩
  nodup b := by
    rw [h.dominated]
    exact nodup_range.filter _

/-- **The dominators of a block are its ancestors.** -/
theorem dominates_iff_ancestor {b : ℕ} (hv : v < n) : Dominates E 0 b v ↔
    Ancestor d.parent b v := by
  induction v using Nat.strong_induction_on with
  | _ v ih =>
  rw [ancestor_iff]
  rcases Nat.eq_zero_or_pos v with rfl | hpos
  · constructor
    · intro hdom
      exact .inl (mem_singleton.mp (hdom [0] (.single 0)))
    · rintro (rfl | ⟨hlt, -⟩)
      · exact dominates_refl _
      · omega
  have himmediate := h.isImmediate hpos hv
  have hlt := h.parent_lt hpos hv
  have ih := ih _ hlt (hlt.trans hv)
  constructor
  · intro hdom
    by_cases hne : b = v
    · exact .inl hne
    · exact .inr ⟨hpos, ih.mp (himmediate.least b hne hdom)⟩
  · rintro (rfl | ⟨-, hanc⟩)
    · exact dominates_refl _
    · exact (ih.mpr hanc).trans himmediate.dominates

/-- **The numbers in the tree tell the dominators.** -/
theorem blockNums (hn : 0 < n) : ∃ nums, d.blockNums n = some nums ∧ ∀ x < n, ∀ y < n,
    nums.preorder x < nums.preorder y ∧ nums.postorder y < nums.postorder x ↔
      x ≠ y ∧ Dominates E 0 x y := by
  obtain ⟨nums, hrun, horder⟩ := h.isTree.numberBlocks_order hn ⟨fun _ => 0, fun _ => 0, 0, 0⟩
  refine ⟨nums, hrun, fun x hx y hy => (horder x hx y hy).trans ?_⟩
  rw [h.dominates_iff_ancestor hy]

end Dominated

end Cfg
