import DartSdk.Collection.SplayTree

/-!
# Collection/SplaySpec — what splaying does to a search tree

`splay` keeps the in-order sequence and brings a node to the root that divides it: everything to the
left comes before the key, everything to the right after it (`splay_spec`).  The comparison it
returns is the one of that root, although the loop computes it before the last rotation.  Adding,
removing and looking up a key are then operations at the root.
-/

namespace SplayTree

open List SplayTree.Tree SortedList

variable {α K : Type*} {c : K → K → ℤ} {key : α → K} {k : K} {l r : Tree α} {x : α} {cmp : ℤ}
  {s : SplayTree α}

/-- The in-order sequence of the left partial tree, up to its dangling child. -/
def spineLeft : List (Tree α × α) → List α
  | [] => []
  | f :: fs => spineLeft fs ++ (f.1.inorder ++ [f.2])

/-- The in-order sequence of the right partial tree, from its dangling child on. -/
def spineRight : List (α × Tree α) → List α
  | [] => []
  | f :: fs => f.1 :: f.2.inorder ++ spineRight fs

attribute [local simp] spineLeft spineRight

@[simp] theorem inorder_assembleLeft (left : List (Tree α × α)) (l : Tree α) :
    (assembleLeft left l).inorder = spineLeft left ++ l.inorder := by
  induction left generalizing l with
  | nil => rfl
  | cons f fs ih =>
    change (assembleLeft fs (node f.1 f.2 l)).inorder = _
    simp [ih]

@[simp] theorem inorder_assembleRight (right : List (α × Tree α)) (r : Tree α) :
    (assembleRight right r).inorder = r.inorder ++ spineRight right := by
  induction right generalizing r with
  | nil => simp [assembleRight]
  | cons f fs ih =>
    change (assembleRight fs (node r f.1 f.2)).inorder = _
    simp [ih]

/-! ## The loop

Each step moves the root into one of the two trees and goes on with a child. -/

/-- **A node divides the sequence `s` at `k`**: it is the root, `cmp` is its comparison with `k`,
and its subtrees hold what comes before and after. -/
def DividesAt (c : K → K → ℤ) (key : α → K) (k : K) (s : List α) (t : Tree α) (cmp : ℤ) : Prop :=
  ∃ l x r, t = node l x r ∧ cmp = c (key x) k ∧ t.inorder = s ∧
    (∀ y ∈ l.inorder, c (key y) k < 0) ∧ ∀ y ∈ r.inorder, 0 < c (key y) k

/-- The subtrees of a search tree lie on either side of its root. -/
theorem increasing_node : Increasing c key (node l x r).inorder ↔
      Increasing c key l.inorder ∧ Increasing c key r.inorder ∧
        (∀ y ∈ l.inorder, c (key y) (key x) < 0) ∧ (∀ y ∈ r.inorder, c (key x) (key y) < 0) ∧
        ∀ y ∈ l.inorder, ∀ z ∈ r.inorder, c (key y) (key z) < 0 := by
  simp only [Increasing, inorder_node, pairwise_append, pairwise_cons, mem_cons, forall_eq_or_imp]
  constructor
  · rintro ⟨hl, ⟨hxr, hr⟩, hlr⟩
    exact ⟨hl, hr, fun y hy => (hlr y hy).1, hxr, fun y hy => (hlr y hy).2⟩
  · rintro ⟨hl, hr, hlx, hxr, hlr⟩
    exact ⟨hl, ⟨hxr, hr⟩, fun y hy => ⟨hlx y hy, hlr y hy⟩⟩

/-- Right of a node after `k`, everything is after `k`. -/
theorem right_pos (hc : IsTotalPreorder c)
    (hs : Increasing c key (node l x r).inorder) (hx : 0 ≤ c (key x) k) :
    ∀ y ∈ r.inorder, 0 < c (key y) k := fun y hy => by
  have hxy := (increasing_node.mp hs).2.2.2.1 y hy
  exact (hc.swap _ _).mp (hc.lt_of_le_of_lt (hc.le_iff.mpr hx) hxy)

/-- Left of a node before `k`, everything is before `k`. -/
theorem left_neg (hc : IsTotalPreorder c)
    (hs : Increasing c key (node l x r).inorder) (hx : c (key x) k ≤ 0) :
    ∀ y ∈ l.inorder, c (key y) k < 0 := fun y hy =>
  hc.lt_of_lt_of_le ((increasing_node.mp hs).2.2.1 y hy) hx

/-- **The loop of `_splay`**: with partial trees on the two sides of `k`, it ends in a tree of the
whole sequence that divides it at `k`. -/
theorem splayLoop_spec (hc : IsTotalPreorder c) (t : Tree α) (left : List (Tree α × α))
    (right : List (α × Tree α)) (moved : Bool) (hne : t ≠ leaf)
    (hs : Increasing c key t.inorder) (hl : ∀ y ∈ spineLeft left, c (key y) k < 0)
    (hr : ∀ y ∈ spineRight right, 0 < c (key y) k) :
    DividesAt c key k (spineLeft left ++ t.inorder ++ spineRight right)
      (splayLoop c key k t left right moved).tree
      (splayLoop c key k t left right moved).comparison := by
  -- The loop stops at a node `x` whose own subtrees already lie on the two sides of `k`.
  have stop : ∀ (left : List (Tree α × α)) (right : List (α × Tree α)) (l : Tree α) (x : α)
      (r : Tree α), (∀ y ∈ spineLeft left, c (key y) k < 0) →
      (∀ y ∈ spineRight right, 0 < c (key y) k) → (∀ y ∈ l.inorder, c (key y) k < 0) →
      (∀ y ∈ r.inorder, 0 < c (key y) k) →
      DividesAt c key k (spineLeft left ++ (node l x r).inorder ++ spineRight right)
        (assemble left right l x r) (c (key x) k) := by
    intro left right l x r hl hr hl' hr'
    refine ⟨_, x, _, rfl, rfl, by simp [assemble], fun y hy => ?_, fun y hy => ?_⟩
    · rw [inorder_assembleLeft, mem_append] at hy
      exact hy.elim (hl y) (hl' y)
    · rw [inorder_assembleRight, mem_append] at hy
      exact hy.elim (hr' y) (hr y)
  fun_induction splayLoop c key k t left right moved with
  | case1 => exact absurd rfl hne
  | case2 x r left right moved hx => exact stop _ _ _ _ _ hl hr (by simp) (right_pos hc hs hx.le)
  | case3 x r left right moved hx y lr hy =>
    have hsy := (increasing_node.mp hs).1
    have := stop left right leaf y (node lr x r) hl hr (by simp) ?_
    · simpa using this
    · rw [inorder_node, forall_mem_append, forall_mem_cons]
      exact ⟨right_pos hc hsy hy.le, hx, right_pos hc hs hx.le⟩
  | case4 x r left right moved hx y lr hy a z b ih =>
    have hsy := (increasing_node.mp hs).1
    have := ih (by simp) (increasing_node.mp hsy).1 hl ?_
    · simpa using this
    · simp only [spineRight, inorder_node, cons_append, forall_mem_cons, forall_mem_append]
      exact ⟨hy, ⟨right_pos hc hsy hy.le, hx, right_pos hc hs hx.le⟩, hr⟩
  | case5 x r left right moved hx ll y lr hy ih =>
    have := ih (by simp) (increasing_node.mp hs).1 hl ?_
    · simpa using this
    · simp only [spineRight, cons_append, forall_mem_cons, forall_mem_append]
      exact ⟨hx, right_pos hc hs hx.le, hr⟩
  | case6 l x left right moved hx hx' =>
    exact stop _ _ _ _ _ hl hr (left_neg hc hs hx'.le) (by simp)
  | case7 l x left right moved hx hx' rl y hy =>
    have hsy := (increasing_node.mp hs).2.1
    have := stop left right (node l x rl) y leaf hl hr ?_ (by simp)
    · simpa using this
    · rw [inorder_node, forall_mem_append, forall_mem_cons]
      exact ⟨left_neg hc hs hx'.le, hx', left_neg hc hsy hy.le⟩
  | case8 l x left right moved hx hx' rl y hy a z b ih =>
    have hsy := (increasing_node.mp hs).2.1
    have := ih (by simp) (increasing_node.mp hsy).2.1 ?_ hr
    · simpa using this
    · simp only [spineLeft, inorder_node, forall_mem_cons, forall_mem_append]
      exact ⟨hl, ⟨left_neg hc hs hx'.le, hx', left_neg hc hsy hy.le⟩, hy, by simp⟩
  | case9 l x left right moved hx hx' rl y rr hy ih =>
    have := ih (by simp) (increasing_node.mp hs).2.1 ?_ hr
    · simpa using this
    · simp only [spineLeft, forall_mem_append, forall_mem_singleton]
      exact ⟨hl, left_neg hc hs hx'.le, hx'⟩
  | case10 l x r left right moved hx hx' =>
    exact stop _ _ _ _ _ hl hr (left_neg hc hs (by omega)) (right_pos hc hs (by omega))

theorem splayLoop_moved (t : Tree α) (left : List (Tree α × α)) (right : List (α × Tree α)) :
    (splayLoop c key k t left right true).moved = true := by
  generalize hm : true = moved
  fun_induction splayLoop c key k t left right moved <;> simp_all

/-- …and a root that is still the root has its old children. -/
theorem splayLoop_tree (t : Tree α) (h : (splayLoop c key k t [] [] false).moved = false) :
    (splayLoop c key k t [] [] false).tree = t := by
  cases t with
  | leaf => rfl
  | node l x r =>
    unfold splayLoop at h ⊢
    split_ifs at h ⊢
    · cases l with
      | leaf => rfl
      | node ll y lr =>
        simp only at h
        split_ifs at h
        · cases ll <;> simp [splayLoop_moved] at h
        · simp [splayLoop_moved] at h
    · cases r with
      | leaf => rfl
      | node rl y rr =>
        simp only at h
        split_ifs at h
        · cases rr <;> simp [splayLoop_moved] at h
        · simp [splayLoop_moved] at h
    · rfl

/-- **A well-formed tree**: its keys strictly increase and `_count` is its size. -/
structure Inv (c : K → K → ℤ) (key : α → K) (s : SplayTree α) : Prop where
  increasing : Increasing c key s.root.inorder
  count : s.count = s.root.inorder.length

/-- What a rearrangement of the tree keeps: only `_splayCount` tells that there was one. -/
structure Rearranged (s s' : SplayTree α) : Prop where
  inorder : s'.root.inorder = s.root.inorder
  count : s'.count = s.count
  modificationCount : s'.modificationCount = s.modificationCount
  splayCount : s' = s ∨ s.splayCount < s'.splayCount

theorem Rearranged.refl (s : SplayTree α) : Rearranged s s := ⟨rfl, rfl, rfl, .inl rfl⟩

theorem Rearranged.trans {s1 s2 s3 : SplayTree α} (h : Rearranged s1 s2) (h' : Rearranged s2 s3) :
    Rearranged s1 s3 := by
  refine ⟨h'.inorder.trans h.inorder, h'.count.trans h.count,
    h'.modificationCount.trans h.modificationCount, ?_⟩
  rcases h.splayCount with rfl | hlt
  · exact h'.splayCount
  · rcases h'.splayCount with rfl | hlt'
    · exact .inr hlt
    · exact .inr (hlt.trans hlt')

theorem Rearranged.inv {s' : SplayTree α} (h : Rearranged s s') (hs : Inv c key s) : Inv c key s' :=
  ⟨h.inorder ▸ hs.increasing, by rw [h.count, h.inorder, hs.count]⟩

theorem splay_rearranged (hc : IsTotalPreorder c)
    (hs : Increasing c key s.root.inorder) : Rearranged s (splay c key k s).2 := by
  obtain ⟨root, n, m, p⟩ := s
  cases root with
  | leaf => exact .refl _
  | node l x r =>
    obtain ⟨-, -, -, -, -, hin, -⟩ := splayLoop_spec (k := k) hc (node l x r) [] [] false (by simp)
      hs (by simp) (by simp)
    simp only [splay]
    split_ifs with hm
    · exact ⟨by simpa using hin, rfl, rfl, .inr (Nat.lt_succ_self p)⟩
    · exact .refl _

/-- **`_splay` returns the comparison of the new root**, which divides the tree at the key. -/
theorem splay_spec (hc : IsTotalPreorder c)
    (hs : Increasing c key s.root.inorder) (hne : s.root ≠ leaf) :
    DividesAt c key k s.root.inorder (splay c key k s).2.root (splay c key k s).1 := by
  obtain ⟨root, n, m, p⟩ := s
  cases root with
  | leaf => exact absurd rfl hne
  | node l x r =>
    have h := splayLoop_spec (k := k) hc (node l x r) [] [] false (by simp)
      hs (by simp) (by simp)
    simp only [spineLeft, spineRight, nil_append, append_nil] at h
    simp only [splay]
    split_ifs with hm
    · exact h
    · rwa [splayLoop_tree _ (by simpa using hm)] at h

theorem splay_leaf (h : s.root = leaf) : splay c key k s = (-1, s) := by
  rw [splay, h]

/-! ## Operations at the root -/

section

variable {s : List α} {l : Tree α} {x : α} {r : Tree α}

/-- A root equivalent to `k` is the entry at `k`. -/
theorem DividesAt.divides_eq (h : DividesAt c key k s (node l x r) 0) :
    Divides c key k s l.inorder [x] r.inorder := by
  obtain ⟨l', x', r', ht, hcmp, hin, hl, hr⟩ := h
  obtain ⟨rfl, rfl, rfl⟩ := Tree.node.inj ht
  exact ⟨by simpa using hin, hl, by simpa using hcmp.symm, hr⟩

/-- A root before `k` is the last entry before `k`. -/
theorem DividesAt.divides_neg {cmp : ℤ} (h : DividesAt c key k s (node l x r) cmp) (hn : cmp < 0) :
    Divides c key k s (l.inorder ++ [x]) [] r.inorder := by
  obtain ⟨l', x', r', ht, hcmp, hin, hl, hr⟩ := h
  obtain ⟨rfl, rfl, rfl⟩ := Tree.node.inj ht
  refine ⟨by simpa using hin, fun y hy => ?_, by simp, hr⟩
  rcases mem_append.mp hy with hy | hy
  · exact hl y hy
  · obtain rfl := mem_singleton.mp hy
    exact hcmp ▸ hn

/-- A root after `k` is the first entry after `k`. -/
theorem DividesAt.divides_pos {cmp : ℤ} (h : DividesAt c key k s (node l x r) cmp) (hp : 0 < cmp) :
    Divides c key k s l.inorder [] (x :: r.inorder) := by
  obtain ⟨l', x', r', ht, hcmp, hin, hl, hr⟩ := h
  obtain ⟨rfl, rfl, rfl⟩ := Tree.node.inj ht
  refine ⟨by simpa using hin, hl, by simp, fun y hy => ?_⟩
  rcases mem_cons.mp hy with rfl | hy
  · exact hcmp ▸ hp
  · exact hr y hy

end

/-- **Where a splay with `k` leaves the tree**: empty, or divided by its root. -/
def AtRoot (c : K → K → ℤ) (key : α → K) (k : K) (t : Tree α) (cmp : ℤ) : Prop :=
  (t = leaf ∧ cmp ≠ 0) ∨ DividesAt c key k t.inorder t cmp

theorem splay_atRoot (hc : IsTotalPreorder c) (hs : Increasing c key s.root.inorder) :
    AtRoot c key k (splay c key k s).2.root (splay c key k s).1 := by
  by_cases hne : s.root = leaf
  · rw [splay_leaf hne]
    exact .inl ⟨hne, by simp⟩
  · refine .inr ?_
    rw [(splay_rearranged hc hs).inorder]
    exact splay_spec hc hs hne

theorem AtRoot.found {t : Tree α} (h : AtRoot c key k t 0) :
    ∃ l x r, t = node l x r ∧ Divides c key k t.inorder l.inorder [x] r.inorder := by
  rcases h with ⟨-, h⟩ | h
  · exact absurd rfl h
  · obtain ⟨l, x, r, rfl, -⟩ := id h
    exact ⟨l, x, r, rfl, h.divides_eq⟩

/-- A root that is not equivalent to `k` shows that `k` is absent, and where it belongs. -/
theorem AtRoot.absent (h : AtRoot c key k s.root cmp) (hne : cmp ≠ 0) :
    lookup c key k s.root.inorder = none ∧
      ∀ a, (addNewRoot a cmp s).root.inorder = put c key k a s.root.inorder := by
  obtain ⟨root, n, m, p⟩ := s
  rcases h with ⟨h, -⟩ | h
  · obtain rfl : root = leaf := h
    exact ⟨rfl, fun a => rfl⟩
  obtain ⟨l, x, r, hroot, -⟩ := id h
  obtain rfl : root = node l x r := hroot
  rcases lt_or_gt_of_ne hne with hn | hp
  · have hd := h.divides_neg hn
    exact ⟨by rw [hd.lookup_eq]; rfl, fun a => by rw [hd.put_eq]; simp [addNewRoot, hn]⟩
  have hd := h.divides_pos hp
  exact ⟨by rw [hd.lookup_eq]; rfl, fun a => by
    rw [hd.put_eq]
    simp [addNewRoot, not_lt.mpr hp.le]⟩

/-- `_untypedLookup` returns the entry at the key. -/
theorem AtRoot.lookup_eq {t : Tree α} (h : AtRoot c key k t cmp) :
    (if cmp = 0 then t.topEntry else none) = lookup c key k t.inorder := by
  by_cases hz : cmp = 0
  · subst hz
    obtain ⟨l, x, r, rfl, hd⟩ := h.found
    rw [if_pos rfl, hd.lookup_eq]
    rfl
  · rw [if_neg hz]
    exact ((AtRoot.absent (s := ⟨t, 0, 0, 0⟩) h hz).1).symm

section

variable (l : Tree α) (x : α) (r : Tree α) (m : ℕ)

theorem inorder_splayMinLoop : (splayMinLoop l x r m).1.inorder = (node l x r).inorder := by
  fun_induction splayMinLoop l x r m <;> simp_all

theorem inorder_splayMaxLoop : (splayMaxLoop l x r m).1.inorder = (node l x r).inorder := by
  fun_induction splayMaxLoop l x r m <;> simp_all

/-- `_splayMin` ends at a node without a left child. -/
theorem splayMinLoop_root : ∃ y b, (splayMinLoop l x r m).1 = node leaf y b := by
  fun_induction splayMinLoop l x r m with
  | case1 => exact ⟨_, _, rfl⟩
  | case2 _ _ _ _ _ _ ih => exact ih

theorem splayMaxLoop_root : ∃ a y, (splayMaxLoop l x r m).1 = node a y leaf := by
  fun_induction splayMaxLoop l x r m with
  | case1 => exact ⟨_, _, rfl⟩
  | case2 _ _ _ _ _ _ ih => exact ih

end

/-- **`_removeRoot` removes the entry of the root.** -/
theorem removeRoot_spec (h : s.root = node l x r) :
    (removeRoot s).root.inorder = l.inorder ++ r.inorder ∧ (removeRoot s).count = s.count - 1 ∧
      (removeRoot s).modificationCount = s.modificationCount + 1 ∧
      s.splayCount ≤ (removeRoot s).splayCount := by
  obtain ⟨root, n, m, p⟩ := s
  obtain rfl : root = node l x r := h
  cases l with
  | leaf => simp [removeRoot]
  | node a y b =>
    cases r with
    | leaf => simp [removeRoot]
    | node a' y' b' =>
      obtain ⟨u, z, hz⟩ := splayMaxLoop_root a y b 0
      have hin := inorder_splayMaxLoop a y b 0
      rw [hz] at hin
      have hmax : splayMax (node a y b) = (node u z leaf, (splayMaxLoop a y b 0).2) :=
        Prod.ext hz rfl
      simp only [removeRoot, hmax]
      refine ⟨?_, trivial, trivial, Nat.le_add_right _ _⟩
      have hin' : u.inorder ++ [z] = a.inorder ++ y :: b.inorder := by simpa using hin
      calc u.inorder ++ z :: (node a' y' b').inorder
          = (u.inorder ++ [z]) ++ (node a' y' b').inorder := by simp
        _ = (node a y b).inorder ++ (node a' y' b').inorder := by rw [hin']; rfl

/-- A new root is one more node. -/
theorem addNewRoot_count {a : α} (h : s.count = s.root.inorder.length) :
    (addNewRoot a cmp s).count = (addNewRoot a cmp s).root.inorder.length := by
  obtain ⟨root, n, m, p⟩ := s
  rw [show n = root.inorder.length from h]
  cases root with
  | leaf => rfl
  | node l x r =>
    simp only [addNewRoot]
    split_ifs <;> simp <;> omega

/-- Removing the entry at `k` from the root leaves the others, and counts it. -/
theorem removeRoot_erase (hroot : AtRoot c key k s.root 0) (h : s.count = s.root.inorder.length) :
    (removeRoot s).root.inorder = erase c key k s.root.inorder ∧
      (removeRoot s).count = (removeRoot s).root.inorder.length := by
  obtain ⟨l, x, r, ht, hd⟩ := hroot.found
  obtain ⟨hin, hcount, -⟩ := removeRoot_spec ht
  refine ⟨by rw [hin, hd.erase_eq], ?_⟩
  rw [hcount, hin, h, ← hd.append]
  simp
  omega

theorem splayMinLoop_count (l : Tree α) (x : α) (r : Tree α) (n : ℕ) :
    splayMinLoop l x r n = (node l x r, n) ∨ (splayMinLoop l x r n).2 = 1 := by
  fun_induction splayMinLoop l x r n with
  | case1 => exact .inl rfl
  | case2 ll y lr x r n ih => exact .inr (ih.elim (fun h => by rw [h]) id)

theorem splayMaxLoop_count (l : Tree α) (x : α) (r : Tree α) (n : ℕ) :
    splayMaxLoop l x r n = (node l x r, n) ∨ (splayMaxLoop l x r n).2 = 1 := by
  fun_induction splayMaxLoop l x r n with
  | case1 => exact .inl rfl
  | case2 l x rl y rr n ih => exact .inr (ih.elim (fun h => by rw [h]) id)

theorem splayFirst_rearranged (s : SplayTree α) : Rearranged s (splayFirst s) := by
  obtain ⟨root, n, mc, p⟩ := s
  cases root with
  | leaf => exact .refl _
  | node l x r =>
    refine ⟨inorder_splayMinLoop l x r 0, rfl, rfl, ?_⟩
    rcases splayMinLoop_count l x r 0 with h | h
    · exact .inl (by simp [splayFirst, splayMin, h])
    · exact .inr (by simp [splayFirst, splayMin, h])

theorem splayLast_rearranged (s : SplayTree α) : Rearranged s (splayLast s) := by
  obtain ⟨root, n, mc, p⟩ := s
  cases root with
  | leaf => exact .refl _
  | node l x r =>
    refine ⟨inorder_splayMaxLoop l x r 0, rfl, rfl, ?_⟩
    rcases splayMaxLoop_count l x r 0 with h | h
    · exact .inl (by simp [splayLast, splayMax, h])
    · exact .inr (by simp [splayLast, splayMax, h])

theorem splayFirst_entry (s : SplayTree α) :
    (splayFirst s).root.topEntry = s.root.inorder.head? := by
  rw [← (splayFirst_rearranged s).inorder]
  obtain ⟨root, n, mc, p⟩ := s
  cases root with
  | leaf => rfl
  | node l x r =>
    obtain ⟨y, b, hy⟩ := splayMinLoop_root l x r 0
    simp [splayFirst, splayMin, hy, Tree.topEntry]

theorem splayLast_entry (s : SplayTree α) :
    (splayLast s).root.topEntry = s.root.inorder.getLast? := by
  rw [← (splayLast_rearranged s).inorder]
  obtain ⟨root, n, mc, p⟩ := s
  cases root with
  | leaf => rfl
  | node l x r =>
    obtain ⟨a, y, hy⟩ := splayMaxLoop_root l x r 0
    simp [splayLast, splayMax, hy, Tree.topEntry]

end SplayTree
