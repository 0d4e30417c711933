import DartSdk.Collection.SplaySpec
import DartSdk.Collection.SplaySet

/-!
# Collection/SplaySetRefines — `SplayTreeSet` implements the sorted set

The iterator visits the elements in order, however the tree is rearranged on the way
(`moveNext_spec`): what its path still has to visit is a list, `pending`, that a rebuilt path has in
common with the stale one.
-/

namespace SplayTree

open List SortedSet SplayTree.Tree SortedList

/-! ## The path of an iterator

The nodes on the path whose right part is still to be visited. -/

section

variable {α K : Type*} {c : K → K → ℤ} {key : α → K} {path : List (Bool × Tree α)} {x : α}
  {it : Iterator α} {rest seen : List α}

/-- What a path has still to visit, without its current node if that is to be skipped: a node that
was reached as a right child has its parent behind it. -/
def pending : List (Bool × Tree α) → Bool → List α
  | [], _ => []
  | (_, leaf) :: _, _ => []
  | (b, node _ x r) :: path, skip => (if skip then [] else x :: r.inorder) ++ pending path b

attribute [local simp] pending

/-- The nodes of a path are there. -/
def Walkable (path : List (Bool × Tree α)) : Prop := ∀ e ∈ path, e.2 ≠ leaf

theorem walkable_descend {b : Bool} {t : Tree α}
    (h : Walkable path) : Walkable (descend b t path) := by
  induction t generalizing b path with
  | leaf => exact h
  | node l x r ihl =>
    refine ihl fun e he => ?_
    rcases mem_cons.mp he with rfl | he
    · simp
    · exact h e he

theorem walkable_ascend (h : Walkable path) : Walkable (ascend path) := by
  induction path with
  | nil => exact h
  | cons e path ih =>
    have htail : Walkable path := fun e' he' => h e' (mem_cons_of_mem _ he')
    rw [ascend]
    split_ifs
    · exact ih htail
    · exact htail

theorem pending_descend {b : Bool} {t : Tree α}
    (h : t ≠ leaf ∨ b = false) :
      pending (descend b t path) false = t.inorder ++ pending path b := by
  induction t generalizing b path with
  | leaf =>
    obtain rfl : b = false := h.resolve_left (by simp)
    rfl
  | node l x r ihl =>
    rw [descend, ihl (.inr rfl)]
    simp

theorem pending_ascend (h : Walkable path) : pending (ascend path) false = pending path true := by
  induction path with
  | nil => rfl
  | cons e path ih =>
    obtain ⟨b, t⟩ := e
    have htail : Walkable path := fun e' he' => h e' (mem_cons_of_mem _ he')
    cases t with
    | leaf => exact absurd rfl (h (b, leaf) (by simp))
    | node l x r =>
      cases b with
      | true => simpa [ascend] using ih htail
      | false => simp [ascend]

/-- **`advance` leaves the current node behind.** -/
theorem advance_spec (h : Walkable path) {xs : List α} (hp : pending path false = x :: xs) :
    Walkable (advance path) ∧ pending (advance path) false = xs := by
  cases path with
  | nil => cases hp
  | cons e path =>
    obtain ⟨b, t⟩ := e
    cases t with
    | leaf => exact absurd rfl (h (b, leaf) (by simp))
    | node l y r =>
      obtain ⟨-, rfl⟩ : y = x ∧ r.inorder ++ pending path b = xs := by simpa using hp
      cases r with
      | leaf =>
        refine ⟨walkable_ascend h, ?_⟩
        change pending (ascend ((b, node l y leaf) :: path)) false = _
        rw [pending_ascend h]
        simp
      | node a z d =>
        refine ⟨walkable_descend h, ?_⟩
        change pending (descend true (node a z d) ((b, node l y (node a z d)) :: path)) false = _
        rw [pending_descend (.inl (by simp))]
        simp

theorem isEmpty_eq_pending (h : Walkable path) : path.isEmpty = (pending path false).isEmpty := by
  cases path with
  | nil => rfl
  | cons e path =>
    obtain ⟨b, t⟩ := e
    cases t with
    | leaf => exact absurd rfl (h (b, leaf) (by simp))
    | node l x r => rfl

theorem current_eq_pending (h : Walkable it.path) : it.current = (pending it.path false).head? := by
  obtain ⟨path, n, p⟩ := it
  cases path with
  | nil => rfl
  | cons e path =>
    obtain ⟨b, t⟩ := e
    cases t with
    | leaf => exact absurd rfl (h (b, leaf) (by simp))
    | node l x r => rfl

/-- **An iterator on its way**: the elements are those it has left behind and those that are
pending, its current one first. -/
structure Visiting (s : SplayTree α) (it : Iterator α) (seen rest : List α) : Prop where
  walkable : Walkable it.path
  modificationCount : it.modificationCount = some s.modificationCount
  pending_eq : pending it.path false = rest
  inorder : s.root.inorder = seen ++ rest

theorem Visiting.rearranged {s s' : SplayTree α}
    (h : Visiting s it seen rest) (hs : Rearranged s s') : Visiting s' it seen rest :=
  ⟨h.walkable, by rw [h.modificationCount, hs.modificationCount], h.pending_eq,
    hs.inorder.trans h.inorder⟩

/-- An element divides a strictly increasing list where it stands. -/
theorem divides_of_increasing (hc : IsTotalPreorder c) (h : Increasing c key (seen ++ x :: rest)) :
    Divides c key (key x) (seen ++ x :: rest) seen [x] rest := by
  obtain ⟨-, hx, hlt⟩ := pairwise_append.mp h
  exact ⟨by simp, fun y hy => hlt y hy x (by simp), by simp [hc.refl],
    fun y hy => (hc.swap _ _).mp ((pairwise_cons.mp hx).1 y hy)⟩

/-- **The first `moveNext`** goes to the first element. -/
theorem moveNext_iterator (c : K → K → ℤ) (key : α → K) (s : SplayTree α) :
    ∃ it, moveNext c key (iterator s) s = (.ok (!s.root.inorder.isEmpty), it, s) ∧
      Visiting s it [] s.root.inorder := by
  have hw : Walkable (descend false s.root []) := walkable_descend (by simp [Walkable])
  have hp : pending (descend false s.root []) false = s.root.inorder := by
    rw [pending_descend (.inr rfl)]
    simp
  refine ⟨⟨descend false s.root [], some s.modificationCount, s.splayCount⟩, ?_, hw, rfl, hp, rfl⟩
  simp [moveNext, iterator, isEmpty_eq_pending hw, hp]

/-- **Every later `moveNext`** goes to the next element, and may rearrange the tree. -/
theorem moveNext_spec (hc : IsTotalPreorder c) {s : SplayTree α}
    (hs : Increasing c key s.root.inorder) (h : Visiting s it seen (x :: rest)) :
    ∃ it' s', moveNext c key it s = (.ok (!rest.isEmpty), it', s') ∧ Rearranged s s' ∧
      Visiting s' it' (seen ++ [x]) rest := by
  have hcur : it.current = some x := by rw [current_eq_pending h.walkable, h.pending_eq]; rfl
  have hin : s.root.inorder = (seen ++ [x]) ++ rest := by simpa using h.inorder
  by_cases hstale : it.splayCount = s.splayCount
  · obtain ⟨hw, hp⟩ := advance_spec h.walkable h.pending_eq
    refine ⟨{ it with path := advance it.path }, s, ?_, .refl s, hw, h.modificationCount, hp, hin⟩
    simp [moveNext, h.modificationCount, hcur, hstale, isEmpty_eq_pending hw, hp]
  -- The splay brings the current element to the root, and what is right of it is pending.
  have hre := splay_rearranged (k := key x) hc hs
  have hroot := splay_atRoot (k := key x) hc hs
  have hdiv := divides_of_increasing hc (h.inorder ▸ hs)
  rw [← h.inorder, ← hre.inorder] at hdiv
  have hz : (splay c key (key x) s).1 = 0 := by
    by_contra hz
    have := (hroot.absent hz).1
    rw [hdiv.lookup_eq] at this
    cases this
  obtain ⟨l, y, r, ht, hd⟩ := (hz ▸ hroot : AtRoot c key (key x) _ 0).found
  have hr : r.inorder = rest := by rw [← hd.after_eq, hdiv.after_eq]
  have hw : Walkable [(false, (splay c key (key x) s).2.root)] := by
    simp [Walkable, ht]
  have hp : pending [(false, (splay c key (key x) s).2.root)] false = y :: rest := by
    simp [ht, hr]
  obtain ⟨hw', hp'⟩ := advance_spec hw hp
  refine ⟨⟨advance [(false, (splay c key (key x) s).2.root)], it.modificationCount,
    (splay c key (key x) s).2.splayCount⟩, (splay c key (key x) s).2, ?_, hre, hw',
    by rw [h.modificationCount, hre.modificationCount], hp', hre.inorder.trans hin⟩
  simp [moveNext, h.modificationCount, hcur, hstale, rebuildPath, hz, isEmpty_eq_pending hw', hp']

end

variable {O K : Type} {c : K → K → ℤ} {T : KeyTest O K} {s : SplayTree K} {m : List K} {k : K}

/-- **The tree represents the sorted set.** -/
structure SetRefines (c : K → K → ℤ) (s : SplayTree K) (m : List K) : Prop where
  inv : Inv c id s
  inorder : s.root.inorder = m

theorem SetRefines.increasing (h : SetRefines c s m) : Increasing c id m :=
  h.inorder ▸ h.inv.increasing

theorem SetRefines.empty : SetRefines c (.empty : SplayTree K) [] :=
  ⟨⟨List.Pairwise.nil, rfl⟩, rfl⟩

theorem Rearranged.setRefines {s' : SplayTree K} (h : Rearranged s s') (hR : SetRefines c s m) :
    SetRefines c s' m :=
  ⟨h.inv hR.inv, h.inorder.trans hR.inorder⟩

section

variable (hc : IsTotalPreorder c)

include hc

variable (h : SetRefines c s m)

include h

theorem SetRefines.splay (k : K) :
    Rearranged s (splay c id k s).2 ∧ SetRefines c (splay c id k s).2 m ∧
      AtRoot c id k (splay c id k s).2.root (splay c id k s).1 := by
  have hre := splay_rearranged (k := k) hc h.inv.increasing
  exact ⟨hre, hre.setRefines h, splay_atRoot hc h.inv.increasing⟩

/-- `_untypedLookup` finds the element and only rearranges the tree. -/
theorem setLookup_refines (o : O) : (untypedLookup c id T o s).1 = find c T o m ∧
      Rearranged s (untypedLookup c id T o s).2 := by
  simp only [untypedLookup, find]
  cases T.test o with
  | error e => exact ⟨rfl, .refl s⟩
  | ok k? =>
    cases k? with
    | none => exact ⟨rfl, .refl s⟩
    | some k =>
      obtain ⟨hre, hR, hroot⟩ := h.splay hc k
      refine ⟨?_, hre⟩
      change Except.ok _ = Except.ok (lookup c id k m)
      rw [hroot.lookup_eq, hR.inorder]

theorem setAdd_refines (k : K) : (setAdd c k s).1 = (add c k m).1 ∧
      SetRefines c (setAdd c k s).2 (add c k m).2 := by
  obtain ⟨-, hR, hroot⟩ := h.splay hc k
  simp only [setAdd, add]
  by_cases hz : (SplayTree.splay c id k s).1 = 0
  · rw [hz] at hroot
    obtain ⟨l, x, r, -, hd⟩ := hroot.found
    have hlook : lookup c id k m = some x := by rw [← hR.inorder, hd.lookup_eq]; rfl
    simp only [hz, if_true, hlook]
    exact ⟨trivial, hR⟩
  obtain ⟨hnone, hadd⟩ := hroot.absent hz
  have hlook : lookup c id k m = none := hR.inorder ▸ hnone
  simp only [hz, if_false, hlook]
  have hput : (addNewRoot k (SplayTree.splay c id k s).1 (SplayTree.splay c id k s).2).root.inorder
      = put c id k k m := by rw [hadd, hR.inorder]
  refine ⟨trivial, ⟨?_, ?_⟩, hput⟩
  · rw [hput]
    exact Increasing.put hc hR.increasing (hc.refl k)
  · exact addNewRoot_count hR.inv.count

theorem setAddAll_refines (ks : List K) :
    SetRefines c (setAddAll c ks s) (ks.foldl (fun m k => (add c k m).2) m) := by
  induction ks generalizing s m with
  | nil => exact h
  | cons k ks ih => exact ih (setAdd_refines hc h k).2

theorem setRemove_refines (o : O) : (setRemove c T o s).1 = (remove c T o m).1 ∧
      SetRefines c (setRemove c T o s).2 (remove c T o m).2 := by
  simp only [setRemove, untypedLookup, remove]
  cases T.test o with
  | error e => exact ⟨rfl, h⟩
  | ok k? =>
    cases k? with
    | none => exact ⟨rfl, h⟩
    | some k =>
      obtain ⟨-, hR, hroot⟩ := h.splay hc k
      have hlook := hroot.lookup_eq
      rw [hR.inorder] at hlook
      simp only [← hlook]
      by_cases hz : (SplayTree.splay c id k s).1 = 0
      · rw [hz] at hroot
        obtain ⟨l, x, r, ht, hd⟩ := hroot.found
        obtain ⟨hin, hcount⟩ := removeRoot_erase hroot hR.inv.count
        rw [hR.inorder] at hin
        simp only [hz, if_true, ht, Tree.topEntry]
        exact ⟨trivial, ⟨hin ▸ hR.increasing.erase hc, hcount⟩, hin⟩
      · simp only [hz, if_false]
        exact ⟨trivial, hR⟩

theorem setRemoveAll_refines (os : List O) : (setRemoveAll c T os s).1 = (removeAll c T os m).1 ∧
      SetRefines c (setRemoveAll c T os s).2 (removeAll c T os m).2 := by
  induction os generalizing s m with
  | nil => exact ⟨rfl, h⟩
  | cons o os ih =>
    obtain ⟨hres, hR⟩ := setRemove_refines (T := T) hc h o
    rw [setRemoveAll, SortedSet.removeAll]
    generalize setRemove c T o s = run at hres hR ⊢
    generalize SortedSet.remove c T o m = run' at hres hR ⊢
    obtain ⟨res, s'⟩ := run
    obtain ⟨res', m'⟩ := run'
    obtain rfl : res = res' := hres
    cases res with
    | error e => exact ⟨rfl, hR⟩
    | ok b => exact ih hR

omit h

/-- Adding an element of `m` to a part of `m`. -/
theorem mem_add (hm : Increasing c id m) {kept : List K}
    (hsub : ∀ x ∈ kept, x ∈ m) {x y : K} (hx : x ∈ m) :
    y ∈ (add c x kept).2 ↔ y ∈ kept ∨ y = x := by
  cases hlook : lookup c id x kept with
  | none =>
    rw [add, hlook]
    exact mem_put_self hlook
  | some z =>
    rw [add, hlook]
    obtain ⟨hz, hzx⟩ := lookup_eq_some hlook
    obtain rfl : z = x := hm.eq_of_eq_zero hc (hsub z hz) hx hzx
    exact ⟨.inl, fun h => h.elim id fun h => h ▸ hz⟩

/-- The element that an argument stands for is the one that it matches. -/
theorem mem_iff_lookup (hm : Increasing c id m) {y : K} :
    y ∈ m ∧ c y k = 0 ↔ lookup c id k m = some y := by
  constructor
  · rintro ⟨hy, hyk⟩
    cases hlook : lookup c id k m with
    | none => exact absurd hyk (by simpa using find?_eq_none.mp hlook y hy)
    | some z =>
      obtain ⟨hz, hzk⟩ := lookup_eq_some hlook
      rw [hm.eq_of_eq_zero hc hz hy (hc.eq_trans hzk (hc.eq_comm.mp hyk))]
  · exact lookup_eq_some

end

/-- Whether one of the tested keys matches `x`. -/
def matchesAny (c : K → K → ℤ) (ks : List (Option K)) (x : K) : Bool :=
  ks.any fun k => k.any fun k => decide (c x k = 0)

/-- A run of the loop of `retainAll` adds the elements that the arguments stand for. -/
def Retains (c : K → K → ℤ) (s : SplayTree K) (m kept : List K)
    (ks : Except Error (List (Option K))) (run : Except Error (SplayTree K) × SplayTree K) : Prop :=
  Rearranged s run.2 ∧
    match ks with
    | .error e => run.1 = .error e
    | .ok ks => ∃ ret' kept', run.1 = .ok ret' ∧ SetRefines c ret' kept' ∧
        ∀ x, x ∈ kept' ↔ x ∈ kept ∨ (x ∈ m ∧ matchesAny c ks x = true)

theorem Retains.cons {s' : SplayTree K} {kept kept' : List K} {ks : Except Error (List (Option K))}
    {run : Except Error (SplayTree K) × SplayTree K} {k? : Option K}
    (h : Retains c s' m kept' ks run) (hre : Rearranged s s')
    (hmem : ∀ x, x ∈ kept' ↔ x ∈ kept ∨ (x ∈ m ∧ matchesAny c [k?] x = true)) :
    Retains c s m kept (do return k? :: (← ks)) run := by
  obtain ⟨hre', h⟩ := h
  refine ⟨hre.trans hre', ?_⟩
  cases ks with
  | error e => exact h
  | ok ks =>
    obtain ⟨ret', kept'', hrun, hR, hmem'⟩ := h
    refine ⟨ret', kept'', hrun, hR, fun x => ?_⟩
    rw [hmem', hmem]
    simp only [matchesAny, any_cons, any_nil, Bool.or_false, Bool.or_eq_true]
    tauto

/-- **The loop of `retainAll`** collects the elements that the arguments stand for. -/
theorem retainLoop_spec (hc : IsTotalPreorder c) (os : List O) {ret : SplayTree K} {kept : List K}
    (h : SetRefines c s m) (hret : SetRefines c ret kept) (hsub : ∀ x ∈ kept, x ∈ m) :
    Retains c s m kept (os.mapM (T.test ·)) (retainLoop c T s.modificationCount os ret s) := by
  induction os generalizing s ret kept with
  | nil => exact ⟨.refl s, ret, kept, rfl, hret, fun x => by simp [matchesAny]⟩
  | cons o os ih =>
    obtain ⟨hres, hre⟩ := setLookup_refines (T := T) hc h o
    rw [mapM_cons]
    simp only [retainLoop, ne_eq, not_true_eq_false, if_false]
    rw [find] at hres
    generalize untypedLookup c id T o s = run at hres hre ⊢
    obtain ⟨res, s'⟩ := run
    cases htest : T.test o with
    | error e =>
      rw [htest] at hres
      obtain rfl : res = .error e := hres
      exact ⟨hre, rfl⟩
    | ok k? =>
      rw [htest] at hres
      obtain rfl : res = .ok (k?.bind fun k => lookup c id k m) := hres
      rw [← hre.modificationCount]
      cases hfound : k?.bind fun k => lookup c id k m with
      | none =>
        refine (ih (hre.setRefines h) hret hsub).cons hre fun x =>
          ⟨.inl, fun hx => hx.elim id fun ⟨hxm, hmatch⟩ => ?_⟩
        cases k? with
        | none => simp [matchesAny] at hmatch
        | some k =>
          have hxk : c x k = 0 := by simpa [matchesAny] using hmatch
          have := (mem_iff_lookup hc h.increasing).mp ⟨hxm, hxk⟩
          simp [this] at hfound
      | some root =>
        cases k? with
        | none => cases hfound
        | some k =>
          have hlook : lookup c id k m = some root := hfound
          have hroot := (lookup_eq_some hlook).1
          refine (ih (hre.setRefines h) (setAdd_refines hc hret root).2 fun x hx => ?_).cons hre
            fun x => ?_
          · exact ((mem_add hc h.increasing hsub hroot).mp hx).elim (hsub x) fun hx => hx ▸ hroot
          rw [mem_add hc h.increasing hsub hroot]
          have hiff : (x ∈ m ∧ matchesAny c [some k] x = true) ↔ x = root := by
            have := mem_iff_lookup (k := k) (y := x) hc h.increasing
            rw [hlook] at this
            simpa [matchesAny, eq_comm] using this
          rw [hiff]

/-- Taking over a part of the elements. -/
theorem takeOver_refines {s' ret : SplayTree K} {p : K → Bool} (hR : SetRefines c s' m)
    (hret : SetRefines c ret (m.filter p)) : (takeOver (.ok ret, s')).1 = .ok () ∧
      SetRefines c (takeOver (.ok ret, s')).2 (m.filter p) := by
  rw [takeOver]
  split_ifs with hcount
  · exact ⟨rfl, ⟨hret.inv.increasing, hret.inv.count⟩, hret.inorder⟩
  -- As many elements were retained as there are, so all of them were.
  refine ⟨rfl, ?_⟩
  have hlen : (m.filter p).length = m.length := by
    have h1 : ret.count = (m.filter p).length := by rw [hret.inv.count, hret.inorder]
    have h2 : s'.count = m.length := by rw [hR.inv.count, hR.inorder]
    omega
  rwa [filter_eq_self.mpr (length_filter_eq_length_iff.mp hlen)]

theorem setRetainAll_refines (hc : IsTotalPreorder c) (h : SetRefines c s m) (os : List O) :
    match retained c T os m with
    | .error e => (setRetainAll c T os s).1 = .error e ∧ SetRefines c (setRetainAll c T os s).2 m
    | .ok kept => (setRetainAll c T os s).1 = .ok () ∧
        SetRefines c (setRetainAll c T os s).2 kept := by
  obtain ⟨hre, hloop⟩ := retainLoop_spec (T := T) hc os h .empty (by simp)
  have hR := hre.setRefines h
  rw [retained, setRetainAll]
  generalize retainLoop c T s.modificationCount os .empty s = run at hre hloop hR ⊢
  obtain ⟨res, s'⟩ := run
  cases hks : os.mapM (T.test ·) with
  | error e =>
    rw [hks] at hloop
    obtain rfl : res = .error e := hloop
    exact ⟨rfl, hR⟩
  | ok ks =>
    rw [hks] at hloop
    obtain ⟨ret, kept, hres, hret, hmem⟩ := hloop
    obtain rfl : res = .ok ret := hres
    have hkept : kept = m.filter fun x => matchesAny c ks x :=
      hret.increasing.ext hc (h.increasing.filter _) fun x => by simp [hmem]
    exact takeOver_refines hR (hkept ▸ hret)

/-- Typed keys pass the test for keys, or are not valid. -/
theorem test_ofKey (k : K) : T.test (T.ofKey k) = .ok (some k) ∨ T.test (T.ofKey k) = .ok none := by
  rw [KeyTest.test]
  cases T.validKey with
  | none => exact .inl (by simp [T.asKey_ofKey])
  | some isValidKey =>
    by_cases hv : isValidKey (T.ofKey k) = true
    · exact .inl (by simp [hv, T.asKey_ofKey])
    · exact .inr (by simp [hv])

/-- Asking for an element only rearranges the receiver, if it is asked itself. -/
theorem contains_spec (hc : IsTotalPreorder c) (h : SetRefines c s m) (other : Other K) (k : K) :
    ∃ s', other.contains c T k s = (.ok (holds c T other m k), s') ∧ Rearranged s s' := by
  cases other with
  | set contains => exact ⟨s, rfl, .refl s⟩
  | self =>
    obtain ⟨hres, hre⟩ := setLookup_refines (T := T) hc h (T.ofKey k)
    refine ⟨_, Prod.ext ?_ rfl, hre⟩
    simp only [Other.contains, holds, hres, find]
    rcases test_ofKey (T := T) k with ht | ht
    · rw [ht]
      cases hl : lookup c id k m <;> simp [Except.map, hl]
    · rw [ht]
      rfl

/-- The next `moveNext` goes to the first of `rest`, if there is one. -/
def Upcoming (c : K → K → ℤ) (s : SplayTree K) (it : Iterator K) (seen rest : List K) : Prop :=
  ∃ it' s', moveNext c id it s = (.ok (!rest.isEmpty), it', s') ∧ Rearranged s s' ∧
    Visiting s' it' seen rest

/-- A round of a loop over the set only rearranges it, and keeps `P`, which says what there is after
the elements `seen`. -/
def Keeps {β : Type} (s : SplayTree K) (m : List K)
    (body : K → β → SplayTree K → Except Error β × SplayTree K) (P : List K → β → Prop) : Prop :=
  ∀ seen x rest acc s', m = seen ++ x :: rest → Rearranged s s' → P seen acc →
    ∃ acc' s'', body x acc s' = (.ok acc', s'') ∧ Rearranged s' s'' ∧ P (seen ++ [x]) acc'

/-- **A loop over the set** whose body only rearranges it meets the elements in order, and keeps
what each round keeps. -/
theorem forIn_spec {β : Type} {body : K → β → SplayTree K → Except Error β × SplayTree K}
    {P : List K → β → Prop} (hc : IsTotalPreorder c) (h : SetRefines c s m)
    (hbody : Keeps s m body P) {rest seen : List K} {fuel : ℕ} (hfuel : rest.length < fuel)
    {it : Iterator K} {s' : SplayTree K} (hre : Rearranged s s') (hm : m = seen ++ rest)
    (hnext : Upcoming c s' it seen rest) {acc : β} (hP : P seen acc) :
    ∃ acc' s'', forIn c body fuel it acc s' = some (.ok acc', s'') ∧ Rearranged s s'' ∧
      P m acc' := by
  induction rest generalizing fuel s' it seen acc with
  | nil =>
    obtain ⟨it', s'', hmove, hre', -⟩ := hnext
    obtain ⟨fuel, rfl⟩ : ∃ f, fuel = f + 1 := ⟨fuel - 1, by omega⟩
    refine ⟨acc, s'', by simp [forIn, hmove], hre.trans hre', ?_⟩
    rwa [hm, append_nil]
  | cons x rest ih =>
    obtain ⟨it1, s1, hmove, hre1, hvis⟩ := hnext
    obtain ⟨fuel, rfl⟩ : ∃ f, fuel = f + 1 := ⟨fuel - 1, by omega⟩
    have hcur : it1.current = some x := by
      rw [current_eq_pending hvis.walkable, hvis.pending_eq]
      rfl
    obtain ⟨acc', s2, hrun, hre2, hP'⟩ := hbody seen x rest acc s1 hm (hre.trans hre1) hP
    have hre' := (hre.trans hre1).trans hre2
    obtain ⟨it3, s3, hmove3, hre3, hvis3⟩ :=
      moveNext_spec hc (hre'.setRefines h).inv.increasing (hvis.rearranged hre2)
    obtain ⟨acc'', s'', hrest, hre'', hP''⟩ := ih (by simpa using hfuel) hre'
      (by rw [hm, append_assoc]; rfl) ⟨it3, s3, hmove3, hre3, hvis3⟩ hP'
    exact ⟨acc'', s'', by simp [forIn, hmove, hcur, hrun, hrest], hre'', hP''⟩

/-- A loop over the whole set. -/
theorem forIn_iterator {β : Type} {body : K → β → SplayTree K → Except Error β × SplayTree K}
    {P : List K → β → Prop} (hc : IsTotalPreorder c) (h : SetRefines c s m)
    (hbody : Keeps s m body P) {fuel : ℕ} (hfuel : m.length < fuel) {acc : β} (hP : P [] acc) :
    ∃ acc' s'', forIn c body fuel (iterator s) acc s = some (.ok acc', s'') ∧ Rearranged s s'' ∧
      P m acc' := by
  obtain ⟨it, hmove, hvis⟩ := moveNext_iterator c id s
  rw [h.inorder] at hmove hvis
  exact forIn_spec hc h hbody hfuel (.refl s) rfl ⟨it, s, hmove, .refl s, hvis⟩ hP

theorem setFilter_refines (hc : IsTotalPreorder c) (h : SetRefines c s m) (other : Other K)
    (keep : Bool) {fuel : ℕ} (hfuel : m.length < fuel) :
    ∃ t s', setFilter c T fuel other keep s = some (.ok t, s') ∧ Rearranged s s' ∧
      SetRefines c t (m.filter (holds c T other m · == keep)) := by
  -- The elements that pass are on a left spine.
  let P (seen : List K) (acc : Tree K × ℤ) : Prop :=
    acc.1.inorder = seen.filter (holds c T other m · == keep) ∧ acc.2 = acc.1.inorder.length
  have hbody : Keeps s m (filterBody c T other keep) P := by
    intro seen x rest acc s' _ hre hP
    obtain ⟨s2, hcont, hre2⟩ := contains_spec (T := T) hc (hre.setRefines h) other x
    refine ⟨_, s2, by rw [filterBody, hcont], hre2, ?_⟩
    obtain ⟨hin, hcount⟩ := hP
    by_cases hb : holds c T other m x = keep
    · simp [P, hb, hin, hcount]
    · simp [P, hb, hin, hcount]
  have hstart : P [] (leaf, 0) := ⟨rfl, rfl⟩
  obtain ⟨acc, s', hrun, hre, hin, hcount⟩ := forIn_iterator hc h hbody hfuel hstart
  refine ⟨⟨acc.1, acc.2, 0, 0⟩, s', by simp [setFilter, hrun, Except.map], hre, ⟨?_, hcount⟩, hin⟩
  rw [hin]
  exact h.increasing.filter _

/-! ## The set as its own argument

`addAll`, `removeAll` and `retainAll` of the receiver walk the tree that they change. -/

theorem setAddAllSelf_refines (hc : IsTotalPreorder c) (h : SetRefines c s m) {fuel : ℕ}
    (hfuel : m.length < fuel) :
    ∃ s', setAddAllSelf c fuel s = some (.ok (), s') ∧ Rearranged s s' := by
  have hbody : Keeps s m (fun k (_ : Unit) s => (.ok (), (setAdd c k s).2)) fun _ _ => True := by
    intro seen x rest acc s' hm hre _
    refine ⟨(), _, rfl, ?_, trivial⟩
    have hR := hre.setRefines h
    obtain ⟨hre', -, hroot⟩ := hR.splay hc x
    have hlook : lookup c id x s'.root.inorder = some x := by
      rw [hR.inorder]
      exact (mem_iff_lookup hc h.increasing).mp ⟨by simp [hm], hc.refl x⟩
    rw [← hre'.inorder, ← hroot.lookup_eq] at hlook
    have hz : (SplayTree.splay c id x s').1 = 0 := by
      by_contra hz
      simp [hz] at hlook
    simpa [setAdd, hz] using hre'
  obtain ⟨acc, s', hrun, hre, -⟩ := forIn_iterator hc h hbody hfuel trivial
  exact ⟨s', hrun, hre⟩

/-- An element of the set is found, if it is a valid key. -/
theorem find_ofKey (hc : IsTotalPreorder c) (hm : Increasing c id m) {x : K} (hx : x ∈ m) :
    find c T (T.ofKey x) m = .ok (if holds c T .self m x then some x else none) := by
  have hlook : lookup c id x m = some x := (mem_iff_lookup hc hm).mp ⟨hx, hc.refl x⟩
  rcases test_ofKey (T := T) x with ht | ht <;> simp [find, holds, ht, hlook, Except.map]

theorem setRetainAllSelf_refines (hc : IsTotalPreorder c) (h : SetRefines c s m) {fuel : ℕ}
    (hfuel : m.length < fuel) : ∃ s', setRetainAllSelf c T fuel s = some (.ok (), s') ∧
      SetRefines c s' (m.filter (holds c T .self m)) := by
  let P (seen : List K) (ret : SplayTree K) : Prop :=
    ∃ kept, SetRefines c ret kept ∧ ∀ x, x ∈ kept ↔ x ∈ seen.filter (holds c T .self m)
  have hbody : Keeps s m (fun k => retainLoop c T s.modificationCount [T.ofKey k]) P := by
    rintro seen x rest ret s' hm hre ⟨kept, hret, hmem⟩
    have hx : x ∈ m := by simp [hm]
    have hR := hre.setRefines h
    obtain ⟨hres, hre'⟩ := setLookup_refines (T := T) hc hR (T.ofKey x)
    rw [find_ofKey hc h.increasing hx] at hres
    simp only [retainLoop, hre.modificationCount, ne_eq, not_true_eq_false, if_false]
    generalize untypedLookup c id T (T.ofKey x) s' = run at hres hre' ⊢
    obtain ⟨res, s2⟩ := run
    obtain rfl := hres
    cases hv : holds c T .self m x with
    | false =>
      refine ⟨ret, s2, rfl, hre', kept, hret, fun y => ?_⟩
      rw [hmem, filter_append]
      simp [hv]
    | true =>
      refine ⟨_, s2, rfl, hre', _, (setAdd_refines hc hret x).2, fun y => ?_⟩
      have hsub : ∀ y ∈ kept, y ∈ m := fun y hy => by
        have := (mem_filter.mp ((hmem y).mp hy)).1
        rw [hm]
        exact mem_append_left _ this
      rw [mem_add hc h.increasing hsub hx, hmem, filter_append]
      simp [hv]
  have hstart : P [] .empty := ⟨[], .empty, by simp⟩
  obtain ⟨ret, s', hrun, hre, kept, hret, hmem⟩ := forIn_iterator hc h hbody hfuel hstart
  have hkept : kept = m.filter (holds c T .self m) :=
    hret.increasing.ext hc (h.increasing.filter _) hmem
  obtain ⟨hres, hR⟩ := takeOver_refines (hre.setRefines h) (hkept ▸ hret)
  refine ⟨_, ?_, hR⟩
  rw [setRetainAllSelf, hrun, Option.map_some, ← hres]

theorem removeRoot_modificationCount (s : SplayTree K) :
    removeRoot s = s ∨ (removeRoot s).modificationCount = s.modificationCount + 1 := by
  rw [removeRoot]
  repeat' split
  all_goals first | exact .inl rfl | exact .inr rfl

theorem setRemove_ofKey (hc : IsTotalPreorder c) (h : SetRefines c s m) {x : K} (hx : x ∈ m) :
    (holds c T .self m x = false → ∃ s', setRemove c T (T.ofKey x) s = (.ok false, s') ∧
      Rearranged s s') ∧
    (holds c T .self m x = true → ∃ s', setRemove c T (T.ofKey x) s = (.ok true, s') ∧
      SetRefines c s' (erase c id x m) ∧ s'.modificationCount ≠ s.modificationCount) := by
  obtain ⟨hres, hre⟩ := setLookup_refines (T := T) hc h (T.ofKey x)
  obtain ⟨-, hR⟩ := setRemove_refines (T := T) hc h (T.ofKey x)
  rw [find_ofKey hc h.increasing hx] at hres
  have hlook : lookup c id x m = some x := (mem_iff_lookup hc h.increasing).mp ⟨hx, hc.refl x⟩
  have htest (hv : holds c T .self m x = true) : T.test (T.ofKey x) = .ok (some x) := by
    rcases test_ofKey (T := T) x with ht | ht
    · exact ht
    · simp [holds, find, ht, Except.map] at hv
  rw [setRemove, SortedSet.remove] at *
  generalize untypedLookup c id T (T.ofKey x) s = run at hres hre hR ⊢
  obtain ⟨res, s'⟩ := run
  obtain rfl := hres
  refine ⟨fun hv => ⟨s', by simp [hv], hre⟩, fun hv => ⟨removeRoot s', by simp [hv], ?_, ?_⟩⟩
  · simpa [hv, htest hv, hlook] using hR
  · have hR : SetRefines c (removeRoot s') (erase c id x m) := by
      simpa [hv, htest hv, hlook] using hR
    rcases removeRoot_modificationCount s' with heq | heq
    · have hin : erase c id x m = m := by
        rw [← hR.inorder, heq, hre.inorder, h.inorder]
      rw [← hin] at hx
      rcases mem_append.mp hx with hx | hx <;> simp [before, SortedList.after, hc.refl x] at hx
    · rw [heq, hre.modificationCount]
      omega

/-- **The set removed from itself**: its first valid element goes, and the iterator throws. -/
theorem removeLoop_spec (hc : IsTotalPreorder c) {rest seen : List K} {fuel : ℕ}
    (hfuel : rest.length < fuel) {it : Iterator K} (h : SetRefines c s m) (hm : m = seen ++ rest)
    (hnext : Upcoming c s it seen rest) :
    ∃ res s', forIn c (fun k _ s => (setRemove c T (T.ofKey k) s).map (Except.map fun _ => ()) id)
        fuel it () s = some (res, s') ∧
      match rest.find? (holds c T .self m) with
      | none => res = .ok () ∧ SetRefines c s' m
      | some k => res = .error .concurrentModification ∧ SetRefines c s' (erase c id k m) := by
  induction rest generalizing fuel s it seen with
  | nil =>
    obtain ⟨it', s', hmove, hre, -⟩ := hnext
    obtain ⟨fuel, rfl⟩ : ∃ f, fuel = f + 1 := ⟨fuel - 1, by omega⟩
    exact ⟨.ok (), s', by simp [forIn, hmove], rfl, hre.setRefines h⟩
  | cons x rest ih =>
    obtain ⟨it1, s1, hmove, hre1, hvis⟩ := hnext
    obtain ⟨fuel, rfl⟩ : ∃ f, fuel = f + 2 := ⟨fuel - 2, by simp at hfuel; omega⟩
    have hcur : it1.current = some x := by
      rw [current_eq_pending hvis.walkable, hvis.pending_eq]
      rfl
    have hR := hre1.setRefines h
    obtain ⟨hkeep, hremove⟩ := setRemove_ofKey (T := T) hc hR (show x ∈ m by simp [hm])
    cases hv : holds c T .self m x with
    | false =>
      obtain ⟨s2, hrun, hre2⟩ := hkeep hv
      have hR2 := hre2.setRefines hR
      obtain ⟨it3, s3, hmove3, hre3, hvis3⟩ :=
        moveNext_spec hc hR2.inv.increasing (hvis.rearranged hre2)
      have hfuel' : rest.length < fuel + 1 := by simpa using hfuel
      obtain ⟨res, s', hrest, hspec⟩ := ih hfuel' hR2
        (by rw [hm, append_assoc]; rfl) ⟨it3, s3, hmove3, hre3, hvis3⟩
      refine ⟨res, s', ?_, by simpa [hv] using hspec⟩
      rw [forIn, hmove]
      simp [hcur, hrun, hrest, Except.map]
    | true =>
      -- The iterator still has the modification count from before the removal.
      obtain ⟨s2, hrun, hR2, hne⟩ := hremove hv
      have hmove2 : moveNext c id it1 s2 = (.error .concurrentModification, it1, s2) := by
        simp [moveNext, hvis.modificationCount, hne.symm]
      refine ⟨.error .concurrentModification, s2, ?_, ?_⟩
      · rw [forIn, hmove]
        simp only [isEmpty_cons, Bool.not_false, hcur, hrun, Prod.map, Except.map, id]
        rw [forIn, hmove2]
      · simp [hv, hR2]

theorem setRemoveAllSelf_refines (hc : IsTotalPreorder c) (h : SetRefines c s m) {fuel : ℕ}
    (hfuel : m.length < fuel) :
    ∃ s', setRemoveAllSelf c T fuel s = some ((removeAllSelf c T m).1, s') ∧
      SetRefines c s' (removeAllSelf c T m).2 := by
  obtain ⟨it, hmove, hvis⟩ := moveNext_iterator c id s
  rw [h.inorder] at hmove hvis
  obtain ⟨res, s', hrun, hspec⟩ := removeLoop_spec (T := T) hc hfuel h (nil_append m).symm
    ⟨it, s, hmove, .refl s, hvis⟩
  refine ⟨s', ?_, ?_⟩ <;> rw [removeAllSelf] <;>
    cases hfind : m.find? (holds c T .self m) <;> rw [hfind] at hspec
  · rw [setRemoveAllSelf, hrun, hspec.1]
  · rw [setRemoveAllSelf, hrun, hspec.1]
  · exact hspec.2
  · exact hspec.2

theorem copyNode_eq (t : Tree K) : copyNode t = t := by
  induction t with
  | leaf => rfl
  | node l x r ihl ihr => rw [copyNode, ihl, ihr]

theorem clone_refines (h : SetRefines c s m) : SetRefines c (clone s) m := by
  obtain ⟨root, n, mc, p⟩ := s
  cases root with
  | leaf => exact h.inorder ▸ SetRefines.empty
  | node l x r =>
    obtain ⟨⟨hinc, hcount⟩, hin⟩ := h
    refine ⟨⟨?_, ?_⟩, ?_⟩ <;> simp only [clone, copyNode_eq] <;> assumption

end SplayTree
