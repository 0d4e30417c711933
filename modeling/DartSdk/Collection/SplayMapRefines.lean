import DartSdk.Collection.SplaySpec
import DartSdk.Collection.SplayMap

/-!
# Collection/SplayMapRefines — `SplayTreeMap` implements the sorted map

Every operation, from every tree that represents a sorted map, returns what the sorted map returns
and leaves a tree that represents the new sorted map (`MapOp.exec_refines`).  Callbacks may call
the map, so what carries the proof is what any run does to the counters: while `_modificationCount`
stands still the keys do, and while `_splayCount` does too, so does the root.
-/

namespace SplayTree

open SplayTree.Tree SortedList Prod SplayTree MapOp SortedMap MapResult

variable {O K V : Type} {c : K → K → ℤ} {k : K} {s' : SplayTree (K × V)} {cmp : ℤ}

/-! ## Representation

The tree is ordered, and its inorder list is the sorted map. -/

/-- **The tree represents the sorted map.** -/
structure Refines (c : K → K → ℤ) (s : SplayTree (K × V)) (m : SortedMap K V) : Prop where
  inv : Inv c fst s
  bindings : s.root.inorder = m.bindings
  modified : s.modificationCount = m.modified

/-- The tree of the keys. -/
def keyTree : Tree (K × V) → Tree K
  | leaf => leaf
  | node l x r => node (keyTree l) x.1 (keyTree r)

theorem inorder_keyTree (t : Tree (K × V)) : (keyTree t).inorder = t.inorder.map fst := by
  induction t with
  | leaf => rfl
  | node l x r ihl ihr => simp [keyTree, ihl, ihr]

/-- **What a run may do to the tree**, as far as the counters tell. -/
structure Evolves (s s' : SplayTree (K × V)) : Prop where
  modificationCount : s.modificationCount ≤ s'.modificationCount
  splayCount : s.splayCount ≤ s'.splayCount
  keys : s'.modificationCount = s.modificationCount →
    s'.root.inorder.map fst = s.root.inorder.map fst
  root : s'.modificationCount = s.modificationCount → s'.splayCount = s.splayCount →
    keyTree s'.root = keyTree s.root

theorem Evolves.refl (s : SplayTree (K × V)) : Evolves s s :=
  ⟨le_rfl, le_rfl, fun _ => rfl, fun _ _ => rfl⟩

theorem Evolves.trans {s₁ s₂ s3 : SplayTree (K × V)} (h : Evolves s₁ s₂) (h' : Evolves s₂ s3) :
    Evolves s₁ s3 := by
  have hm := h.modificationCount
  have hm' := h'.modificationCount
  have hp := h.splayCount
  have hp' := h'.splayCount
  refine ⟨hm.trans hm', hp.trans hp', fun he => ?_, fun he he' => ?_⟩
  · rw [h'.keys (by omega), h.keys (by omega)]
  · rw [h'.root (by omega) (by omega), h.root (by omega) (by omega)]

theorem Rearranged.evolves (h : Rearranged s s') : Evolves s s' := by
  refine ⟨h.modificationCount.ge, ?_, fun _ => by rw [h.inorder], fun _ hp => ?_⟩
  · rcases h.splayCount with rfl | hlt
    · exact le_rfl
    · exact hlt.le
  · rcases h.splayCount with rfl | hlt
    · rfl
    · omega

theorem Rearranged.refines (h : Rearranged s s') (hR : Refines c s m) : Refines c s' m :=
  ⟨h.inv hR.inv, h.inorder.trans hR.bindings, h.modificationCount.trans hR.modified⟩

/-- A change of the keys is counted. -/
theorem Evolves.of_modified
    (h : s'.modificationCount = s.modificationCount + 1) (hp : s.splayCount ≤ s'.splayCount) :
    Evolves s s' :=
  ⟨by omega, hp, fun _ => by omega, fun _ => by omega⟩

theorem AtRoot.of_keyTree {t t' : Tree (K × V)} (h : AtRoot c fst k t cmp)
    (he : keyTree t' = keyTree t) : AtRoot c fst k t' cmp := by
  have hmem : ∀ {u u' : Tree (K × V)} {p : K → Prop}, keyTree u' = keyTree u →
      (∀ y ∈ u.inorder, p y.1) → ∀ y ∈ u'.inorder, p y.1 := by
    intro u u' p hu hp y hy
    have hy' : y.1 ∈ u.inorder.map fst := by
      rw [← inorder_keyTree, ← hu, inorder_keyTree]
      exact List.mem_map_of_mem hy
    obtain ⟨z, hz, hzy⟩ := List.mem_map.mp hy'
    exact hzy ▸ hp z hz
  rcases h with ⟨rfl, hne⟩ | ⟨l, x, r, rfl, hcmp, -, hl, hr⟩
  · cases t' with
    | leaf => exact .inl ⟨rfl, hne⟩
    | node => cases he
  cases t' with
  | leaf => cases he
  | node l' x' r' =>
    obtain ⟨hel, hex, her⟩ := Tree.node.inj he
    exact .inr ⟨l', x', r', rfl, by rw [hcmp, hex], rfl,
      hmem (p := fun y => c y k < 0) hel hl, hmem (p := fun y => 0 < c y k) her hr⟩

/-- **Once the tree is splayed with `k`, binding `k` is a change at the root.** -/
theorem Refines.commit (hc : IsTotalPreorder c)
    (hR : Refines c s m) (hroot : AtRoot c fst k s.root cmp) (v : V) :
    Refines c (if cmp = 0 then setRootValue v s else addNewRoot (k, v) cmp s) (m.set c k v) ∧
      Evolves s (if cmp = 0 then setRootValue v s else addNewRoot (k, v) cmp s) := by
  obtain ⟨⟨hinc, hcount⟩, hbind, hmod⟩ := hR
  by_cases hz : cmp = 0
  · subst hz
    obtain ⟨l, x, r, ht, hd⟩ := hroot.found
    have hx : c x.1 k = 0 := hd.mid x (by simp)
    have hput : put c fst k (x.1, v) m.bindings = l.inorder ++ (x.1, v) :: r.inorder := by
      rw [← hbind, hd.put_eq]
    have hset : m.set c k v = { m with bindings := put c fst k (x.1, v) m.bindings } := by
      simp [SortedMap.set, ← hbind, hd.lookup_eq]
    rw [if_pos rfl, hset]
    obtain ⟨root, n, mc, p⟩ := s
    obtain rfl : root = node l x r := ht
    refine ⟨⟨⟨?_, ?_⟩, ?_, hmod⟩, le_rfl, le_rfl, fun _ => ?_, fun _ _ => rfl⟩
    · have := Increasing.put (a := (x.1, v)) hc hinc hx
      rwa [hd.put_eq] at this
    · simpa [setRootValue] using hcount
    · exact hput.symm
    · simp [setRootValue]
  · obtain ⟨hnone, hadd⟩ := hroot.absent hz
    have hset : m.set c k v = ⟨put c fst k (k, v) m.bindings, m.modified + 1⟩ := by
      simp [SortedMap.set, ← hbind, hnone]
    rw [if_neg hz, hset]
    refine ⟨⟨⟨?_, ?_⟩, ?_, ?_⟩, .of_modified rfl le_rfl⟩
    · rw [hadd]
      exact Increasing.put hc hinc (hc.refl k)
    · exact addNewRoot_count hcount
    · rw [hadd, hbind]
    · change s.modificationCount + 1 = _
      rw [hmod]

/-! ## Operations -/

/-- **A run from `s` does what the sorted map does**: the same result, a tree that represents the
new map, and counters that tell what has changed. -/
structure Simulates {β : Type} (c : K → K → ℤ) (s : SplayTree (K × V))
    (run : Except Error β × SplayTree (K × V)) (run' : Except Error β × SortedMap K V) : Prop where
  result : run.1 = run'.1
  refines : Refines c run.2 run'.2
  evolves : Evolves s run.2

variable {β : Type} {run : Except Error β × SplayTree (K × V)}
  {run' : Except Error β × SortedMap K V}

theorem Simulates.map {γ : Type} (h : Simulates c s run run') (f : β → γ) :
    Simulates c s (run.map (Except.map f) id) (run'.map (Except.map f) id) :=
  ⟨congrArg (Except.map f) h.result, h.refines, h.evolves⟩

/-- A run throws or returns, and its counterpart does the same. -/
@[elab_as_elim]
theorem Simulates.ends
    {motive : Except Error β × SplayTree (K × V) → Except Error β × SortedMap K V → Prop}
    (h : Simulates c s run run')
    (error : ∀ e s₂ m₂, Refines c s₂ m₂ → Evolves s s₂ → motive (.error e, s₂) (.error e, m₂))
    (ok : ∀ v s₂ m₂, Refines c s₂ m₂ → Evolves s s₂ → motive (.ok v, s₂) (.ok v, m₂)) :
    motive run run' := by
  obtain ⟨res, s₂⟩ := run
  obtain ⟨res', m₂⟩ := run'
  obtain rfl : res = res' := h.result
  cases res with
  | error e => exact error e s₂ m₂ h.refines h.evolves
  | ok v => exact ok v s₂ m₂ h.refines h.evolves

/-- A rearrangement before a run does not show. -/
theorem Simulates.after {s₁ : SplayTree (K × V)} (h : Simulates c s₁ run run')
    (he : Evolves s s₁) : Simulates c s run run' :=
  ⟨h.result, h.refines, he.trans h.evolves⟩

variable {s : SplayTree (K × V)} {m : SortedMap K V} {T : KeyTest O K} {isNull : K → Bool}

section

variable (hc : IsTotalPreorder c) (h : Refines c s m)

include hc h

theorem Refines.splay (k : K) : Refines c (splay c fst k s).2 m ∧ Evolves s (splay c fst k s).2 ∧
      AtRoot c fst k (splay c fst k s).2.root (splay c fst k s).1 := by
  have hre := splay_rearranged (k := k) hc h.inv.increasing
  exact ⟨hre.refines h, hre.evolves, splay_atRoot hc h.inv.increasing⟩

theorem untypedLookup_refines (o : O) :
    Simulates c s (untypedLookup c fst T o s) (m.find c T o, m) := by
  simp only [untypedLookup, find]
  cases T.test o with
  | error e => exact ⟨rfl, h, .refl s⟩
  | ok k? =>
    cases k? with
    | none => exact ⟨rfl, h, .refl s⟩
    | some k =>
      obtain ⟨hR, he, hroot⟩ := h.splay hc k
      refine ⟨?_, hR, he⟩
      change Except.ok _ = Except.ok (lookup c fst k m.bindings)
      rw [hroot.lookup_eq, hR.bindings]

theorem Refines.removeRoot (hroot : AtRoot c fst k s.root 0) :
    Refines c (removeRoot s) ⟨erase c fst k m.bindings, m.modified + 1⟩ ∧
      Evolves s (removeRoot s) := by
  obtain ⟨l, x, r, ht, -⟩ := hroot.found
  obtain ⟨-, -, hmod, hsplay⟩ := removeRoot_spec ht
  obtain ⟨hin, hcount⟩ := removeRoot_erase hroot h.inv.count
  rw [h.bindings] at hin
  refine ⟨⟨⟨?_, hcount⟩, hin, by rw [hmod, h.modified]⟩, .of_modified hmod hsplay⟩
  rw [hin]
  exact (h.bindings ▸ h.inv.increasing : Increasing c fst m.bindings).erase hc

theorem mapRemove_refines (o : O) : Simulates c s (mapRemove c T o s) (m.remove c T o) := by
  simp only [mapRemove, untypedLookup, SortedMap.remove]
  cases T.test o with
  | error e => exact ⟨rfl, h, .refl s⟩
  | ok k? =>
    cases k? with
    | none => exact ⟨rfl, h, .refl s⟩
    | some k =>
      obtain ⟨hR, he, hroot⟩ := h.splay hc k
      have hlook := hroot.lookup_eq
      rw [hR.bindings] at hlook
      simp only [← hlook]
      by_cases hz : (splay c fst k s).1 = 0
      · rw [hz] at hroot
        obtain ⟨l, x, r, ht, -⟩ := hroot.found
        obtain ⟨hR', he'⟩ := hR.removeRoot hc hroot
        simp only [hz, if_true, ht, Tree.topEntry]
        exact ⟨rfl, hR', he.trans he'⟩
      · simp only [hz, if_false]
        exact ⟨rfl, hR, he⟩

theorem mapSet_refines (k : K) (v : V) :
    Refines c (mapSet c k v s) (m.set c k v) ∧ Evolves s (mapSet c k v s) := by
  obtain ⟨hR, he, hroot⟩ := h.splay hc k
  obtain ⟨hR', he'⟩ := hR.commit hc hroot v
  exact ⟨hR', he.trans he'⟩

end

/-- A callback does what its counterpart does to the sorted map. -/
def CallbackRefines (c : K → K → ℤ) (f : SplayTree (K × V) → Except Error V × SplayTree (K × V))
    (f' : SortedMap K V → Except Error V × SortedMap K V) : Prop :=
  ∀ s m, Refines c s m → Simulates c s (f s) (f' m)

/-- **`putIfAbsent`**, with a callback that may call the map. -/
theorem mapPutIfAbsent_refines (hc : IsTotalPreorder c) (h : Refines c s m) (k : K)
    {f : SplayTree (K × V) → Except Error V × SplayTree (K × V)}
    {f' : SortedMap K V → Except Error V × SortedMap K V} (hf : CallbackRefines c f f') :
    Simulates c s (mapPutIfAbsent c k f s) (m.putIfAbsent c k f') := by
  obtain ⟨hR, he, hroot⟩ := h.splay hc k
  have hlook := hroot.lookup_eq
  rw [hR.bindings] at hlook
  simp only [mapPutIfAbsent, SortedMap.putIfAbsent]
  rw [← hlook]
  by_cases hz : (splay c fst k s).1 = 0
  · rw [hz] at hroot
    obtain ⟨l, x, r, ht, -⟩ := hroot.found
    simp only [hz, if_true, ht, Tree.topEntry]
    exact ⟨rfl, hR, he⟩
  simp only [hz, if_false]
  refine (hf _ _ hR).ends (fun e s₂ m₂ hR2 he2 => ⟨rfl, hR2, he.trans he2⟩)
    fun v s₂ m₂ hR2 he2 => ?_
  dsimp only
  split_ifs with hchg
  · obtain ⟨hR3, he3⟩ := mapSet_refines hc hR2 k v
    exact ⟨rfl, hR3, (he.trans he2).trans he3⟩
  -- Both counters stand still: the old comparison is still the one of the root.
  push Not at hchg
  have hroot2 := hroot.of_keyTree (he2.root hchg.1.symm hchg.2.symm)
  have hcommit := hR2.commit hc hroot2 v
  simp only [hz, if_false] at hcommit
  exact ⟨rfl, hcommit.1, (he.trans he2).trans hcommit.2⟩

/-- Whether a key is there is a matter of the keys. -/
theorem lookup_isSome (b : List (K × V)) :
    (lookup c fst k b).isSome = (b.map fst).any fun x => decide (c x k = 0) := by
  rw [lookup, List.any_map, Bool.eq_iff_iff, List.find?_isSome, List.any_eq_true]
  rfl

theorem AtRoot.eq_zero_iff {t : Tree (K × V)} (h : AtRoot c fst k t cmp) :
    cmp = 0 ↔ (t.inorder.map fst).any (fun x => decide (c x k = 0)) = true := by
  rw [← lookup_isSome]
  constructor
  · rintro rfl
    obtain ⟨l, x, r, rfl, hd⟩ := h.found
    rw [hd.lookup_eq]
    rfl
  · intro hsome
    by_contra hz
    rw [(AtRoot.absent (s := ⟨t, 0, 0, 0⟩) h hz).1] at hsome
    cases hsome

section

variable {s₁ s₂ : SplayTree (K × V)} {m₂ : SortedMap K V} {cmp : ℤ}

variable (hc : IsTotalPreorder c) (hroot : AtRoot c fst k s₁.root cmp) (hR : Refines c s₂ m₂)
  (he : Evolves s₁ s₂)

include hc hroot hR he

/-- A callback of `update` that has not changed the keys has not changed what a splay finds. -/
theorem splay_eq_zero_iff (hmod : s₁.modificationCount = s₂.modificationCount) :
    (splay c fst k s₂).1 = 0 ↔ cmp = 0 := by
  obtain ⟨hR', -, hroot'⟩ := hR.splay hc k
  rw [hroot'.eq_zero_iff, hroot.eq_zero_iff, ← he.keys hmod.symm, hR'.bindings, hR.bindings]

/-- **The end of `update`**: back from a callback that has not changed the keys, the key is bound at
the root, which is splayed for again when the tree was rearranged. -/
theorem commit_after (v : V) {n : ℕ} (hn : s₁.modificationCount = n)
    (tail : SplayTree (K × V) → ℤ → Except Error (Option V) × SplayTree (K × V))
    (htail : ∀ s cmp', (cmp' = 0 ↔ cmp = 0) → tail s cmp' =
      (.ok (some v), if cmp' = 0 then setRootValue v s else addNewRoot (k, v) cmp' s)) :
    Simulates c s₂ (if s₁.modificationCount ≠ s₂.modificationCount
        then (.error .concurrentModification, s₂)
        else if s₁.splayCount ≠ s₂.splayCount
        then tail (splay c fst k s₂).2 (splay c fst k s₂).1
        else tail s₂ cmp) (if n = m₂.modified then (.ok (some v), m₂.set c k v)
        else (.error .concurrentModification, m₂)) := by
  rw [← hn, ← hR.modified]
  by_cases hmod : s₁.modificationCount = s₂.modificationCount
  swap
  · rw [if_pos hmod, if_neg hmod]
    exact ⟨rfl, hR, .refl s₂⟩
  rw [if_neg (not_not.mpr hmod), if_pos hmod]
  split_ifs with hchg
  · obtain ⟨hR', he', hroot'⟩ := hR.splay hc k
    obtain ⟨hR'', he''⟩ := hR'.commit hc hroot' v
    rw [htail _ _ (splay_eq_zero_iff hc hroot hR he hmod)]
    exact ⟨rfl, hR'', he'.trans he''⟩
  · have hroot' := hroot.of_keyTree (he.root hmod.symm (not_not.mp hchg).symm)
    obtain ⟨hR'', he''⟩ := hR.commit hc hroot' v
    rw [htail _ _ Iff.rfl]
    exact ⟨rfl, hR'', he''⟩

end

/-- **`update`**, with callbacks that may call the map. -/
theorem mapUpdate_refines (hc : IsTotalPreorder c) (h : Refines c s m) (k : K)
    {f : V → SplayTree (K × V) → Except Error V × SplayTree (K × V)}
    {f' : V → SortedMap K V → Except Error V × SortedMap K V}
    (hf : ∀ v, CallbackRefines c (f v) (f' v))
    {g : Option (SplayTree (K × V) → Except Error V × SplayTree (K × V))}
    {g' : Option (SortedMap K V → Except Error V × SortedMap K V)}
    (hg : Option.Rel (CallbackRefines c) g g') :
    Simulates c s (mapUpdate c k f g s) (m.update c k f' g') := by
  obtain ⟨hR, he, hroot⟩ := h.splay hc k
  have hlook := hroot.lookup_eq
  rw [hR.bindings] at hlook
  simp only [mapUpdate, SortedMap.update]
  rw [hlook]
  cases hx : lookup c fst k m.bindings with
  | some x =>
    have hz : (splay c fst k s).1 = 0 := by
      by_contra hz
      rw [if_neg hz, hx] at hlook
      cases hlook
    dsimp only
    refine (hf x.2 _ _ hR).ends (fun e s₂ m₂ hR2 he2 => ⟨rfl, hR2, he.trans he2⟩)
      fun v s₂ m₂ hR2 he2 => ?_
    have hcommit := commit_after hc hroot hR2 he2 v hR.modified
      (fun s cmp' => if cmp' ≠ 0 then (.error .concurrentModification, s)
        else (.ok (some v), setRootValue v s))
      fun s cmp' hiff => by simp [hiff.mpr hz]
    simp only [hz, ne_eq, not_true_eq_false, if_false] at hcommit
    exact hcommit.after (he.trans he2)
  | none =>
    have hz : (splay c fst k s).1 ≠ 0 := fun hz => by
      rw [hz] at hroot
      obtain ⟨l, x, r, -, hd⟩ := hroot.found
      rw [← hR.bindings, hd.lookup_eq] at hx
      cases hx
    cases hg with
    | none => exact ⟨rfl, hR, he⟩
    | @some g g' hg =>
      dsimp only
      refine (hg _ _ hR).ends (fun e s₂ m₂ hR2 he2 => ⟨rfl, hR2, he.trans he2⟩)
        fun v s₂ m₂ hR2 he2 => ?_
      have hcommit := commit_after hc hroot hR2 he2 v hR.modified
        (fun s cmp' => if cmp' = 0 then (.error .concurrentModification, s)
          else (.ok (some v), addNewRoot (k, v) cmp' s))
        fun s cmp' hiff => by simp [mt hiff.mp hz]
      simp only [hz, if_false] at hcommit
      exact hcommit.after (he.trans he2)

theorem rightmost_eq {α : Type*} (t : Tree α) : rightmost t = t.inorder.getLast? := by
  fun_induction rightmost t with
  | case1 => rfl
  | case2 => simp
  | case3 l x l' y r ih =>
    rw [ih, inorder_node, inorder_node, List.getLast?_append, List.getLast?_cons]
    simp [List.getLast?_append, List.getLast?_cons]

theorem leftmost_eq {α : Type*} (t : Tree α) : leftmost t = t.inorder.head? := by
  fun_induction leftmost t with
  | case1 => rfl
  | case2 => simp
  | case3 l y r x r' ih =>
    rw [ih]
    simp only [inorder_node, List.append_assoc]
    cases l.inorder <;> rfl

theorem mapLastKeyBefore_refines (hc : IsTotalPreorder c) (h : Refines c s m) (k : K) :
    Simulates c s (mapLastKeyBefore c isNull k s)
      (m.neighbour isNull (fun b => (before c fst k b).getLast?) k, m) := by
  simp only [mapLastKeyBefore, neighbour]
  cases isNull k with
  | true => exact ⟨rfl, h, .refl s⟩
  | false =>
    obtain ⟨hR, he, hroot⟩ := h.splay hc k
    rcases hroot with ⟨hleaf, -⟩ | hdiv
    · rw [← hR.bindings, hleaf]
      exact ⟨rfl, hR, he⟩
    obtain ⟨l, x, r, ht, -⟩ := id hdiv
    rw [ht] at hdiv
    rw [← hR.bindings, ht]
    refine ⟨congrArg Except.ok ?_, hR, he⟩
    rcases lt_trichotomy (splay c fst k s).1 0 with hn | hz | hp
    · rw [if_pos hn, (hdiv.divides_neg hn).before_eq]
      simp
    · rw [hz] at hdiv
      rw [if_neg hz.not_lt, hdiv.divides_eq.before_eq, rightmost_eq]
    · rw [if_neg hp.le.not_gt, (hdiv.divides_pos hp).before_eq, rightmost_eq]

theorem mapFirstKeyAfter_refines (hc : IsTotalPreorder c) (h : Refines c s m) (k : K) :
    Simulates c s (mapFirstKeyAfter c isNull k s)
      (m.neighbour isNull (fun b => (after c fst k b).head?) k, m) := by
  simp only [mapFirstKeyAfter, neighbour]
  cases isNull k with
  | true => exact ⟨rfl, h, .refl s⟩
  | false =>
    obtain ⟨hR, he, hroot⟩ := h.splay hc k
    rcases hroot with ⟨hleaf, -⟩ | hdiv
    · rw [← hR.bindings, hleaf]
      exact ⟨rfl, hR, he⟩
    obtain ⟨l, x, r, ht, -⟩ := id hdiv
    rw [ht] at hdiv
    rw [← hR.bindings, ht]
    refine ⟨congrArg Except.ok ?_, hR, he⟩
    rcases lt_trichotomy (splay c fst k s).1 0 with hn | hz | hp
    · rw [if_neg hn.le.not_gt, (hdiv.divides_neg hn).after_eq, leftmost_eq]
    · rw [hz] at hdiv
      rw [if_neg hz.not_gt, hdiv.divides_eq.after_eq, leftmost_eq]
    · rw [if_pos hp, (hdiv.divides_pos hp).after_eq]
      rfl

theorem clear_refines (h : Refines c s m) :
    Refines c (clear s) ⟨[], m.modified + 1⟩ ∧ Evolves s (clear s) :=
  ⟨⟨⟨List.Pairwise.nil, rfl⟩, rfl, congrArg (· + 1) h.modified⟩, .of_modified rfl le_rfl⟩

mutual

/-- **Every operation does what the sorted map does**, whatever its callbacks do to the map. -/
theorem MapOp.exec_refines (T : KeyTest O K) (isNull : K → Bool) (hc : IsTotalPreorder c) :
    ∀ (op : MapOp O K V) {s : SplayTree (K × V)} {m : SortedMap K V}, Refines c s m →
      Simulates c s (op.exec c T isNull s) (op.spec c T isNull m)
  | .get o, s, m, h => by
    obtain ⟨hres, hR, he⟩ := untypedLookup_refines (T := T) hc h o
    refine ⟨?_, hR, he⟩
    simp only [exec, spec, mapGet, map, hres]
    cases m.find c T o <;> rfl
  | .set k v, s, m, h => by
    obtain ⟨hR, he⟩ := mapSet_refines hc h k v
    exact ⟨rfl, hR, he⟩
  | .remove o, s, m, h => (mapRemove_refines hc h o).map value
  | .putIfAbsent k f, s, m, h =>
    (mapPutIfAbsent_refines hc h k fun _ _ => f.exec_refines T isNull hc).map value
  | .update k f, s, m, h =>
    (mapUpdate_refines hc h k (fun v _ _ => (f v).exec_refines T isNull hc) .none).map value
  | .updateOrAdd k f g, s, m, h =>
    (mapUpdate_refines hc h k (fun v _ _ => (f v).exec_refines T isNull hc)
      (.some fun _ _ => g.exec_refines T isNull hc)).map value
  | .containsKey o, s, m, h => by
    obtain ⟨hres, hR, he⟩ := untypedLookup_refines (T := T) hc h o
    refine ⟨?_, hR, he⟩
    simp only [exec, spec, mapContainsKey, map, hres]
    cases m.find c T o <;> rfl
  | .firstKey, s, m, h => by
    have hre := splayFirst_rearranged s
    refine ⟨?_, hre.refines h, hre.evolves⟩
    simp [exec, spec, mapFirstKey, splayFirst_entry, h.bindings]
  | .lastKey, s, m, h => by
    have hre := splayLast_rearranged s
    refine ⟨?_, hre.refines h, hre.evolves⟩
    simp [exec, spec, mapLastKey, splayLast_entry, h.bindings]
  | .lastKeyBefore k, s, m, h => (mapLastKeyBefore_refines hc h k).map key
  | .firstKeyAfter k, s, m, h => (mapFirstKeyAfter_refines hc h k).map key
  | .length, s, m, h =>
    ⟨by simp [exec, spec, h.inv.count, h.bindings], h, .refl s⟩
  | .clear, s, m, h => ⟨rfl, (clear_refines h).1, (clear_refines h).2⟩

theorem Callback.exec_refines (T : KeyTest O K) (isNull : K → Bool) (hc : IsTotalPreorder c) :
    ∀ (f : Callback O K V) {s : SplayTree (K × V)} {m : SortedMap K V}, Refines c s m →
      Simulates c s (f.exec c T isNull s) (f.spec c T isNull m)
  | .ret v, s, m, h => ⟨rfl, h, .refl s⟩
  | .throw e, s, m, h => ⟨rfl, h, .refl s⟩
  | .call op next, s, m, h => by
    obtain ⟨hres, hR, he⟩ := op.exec_refines T isNull hc h
    have hnext := (next (op.exec c T isNull s).1).exec_refines T isNull hc hR
    rw [Callback.exec, Callback.spec, ← hres]
    exact hnext.after he

end

end SplayTree
