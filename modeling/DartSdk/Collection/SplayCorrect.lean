import DartSdk.Collection.SplayMapRefines
import DartSdk.Collection.SplaySetRefines

/-!
# Collection/SplayCorrect — runs of `SplayTreeMap` and `SplayTreeSet`

Whole sequences of operations, on the trees and on the sorted collections that they implement.  The
one place where the map does not answer like a sorted map is a null key: `firstKeyAfter` and
`lastKeyBefore` reject it, also where `null` is a key like any other (`firstKeyAfter_null`).
-/

namespace SplayTree

open SplayTree.Tree SortedList SetOp MapOp

variable {O K V : Type} {c : K → K → ℤ} {m : List K}

/-- The results of a sequence of operations, and the state after it. -/
def runAll {Op σ ρ : Type} (exec : Op → σ → ρ × σ) : List Op → σ → List ρ × σ
  | [], s => ([], s)
  | op :: ops, s =>
    ((exec op s).1 :: (runAll exec ops (exec op s).2).1, (runAll exec ops (exec op s).2).2)

/-- …and for operations that may run out of fuel. -/
def runAll? {Op σ ρ : Type} (exec : Op → σ → Option (ρ × σ)) : List Op → σ → Option (List ρ × σ)
  | [], s => some ([], s)
  | op :: ops, s => do
    let (result, s') ← exec op s
    let (results, s'') ← runAll? exec ops s'
    return (result :: results, s'')

theorem runAll_refines (T : KeyTest O K) (isNull : K → Bool) (hc : IsTotalPreorder c)
    (ops : List (MapOp O K V)) {s : SplayTree (K × V)} {m : SortedMap K V} (h : Refines c s m) :
    (runAll (exec c T isNull) ops s).1 = (runAll (spec c T isNull) ops m).1 ∧
      Refines c (runAll (exec c T isNull) ops s).2 (runAll (spec c T isNull) ops m).2 := by
  induction ops generalizing s m with
  | nil => exact ⟨rfl, h⟩
  | cons op ops ih =>
    obtain ⟨hres, hR, -⟩ := op.exec_refines T isNull hc h
    obtain ⟨hres', hR'⟩ := ih hR
    exact ⟨congrArg₂ List.cons hres hres', hR'⟩

/-- The results of a set operation agree; a new set represents the one of the specification. -/
inductive ResultRefines (c : K → K → ℤ) : Except Error (SetResult (SplayTree K) K) →
    Except Error (SetResult (List K) K) → Prop
  | error (e : Error) : ResultRefines c (.error e) (.error e)
  | unit : ResultRefines c (.ok .unit) (.ok .unit)
  | bool (b : Bool) : ResultRefines c (.ok (.bool b)) (.ok (.bool b))
  | element (k : Option K) : ResultRefines c (.ok (.element k)) (.ok (.element k))
  | length (n : ℤ) : ResultRefines c (.ok (.length n)) (.ok (.length n))
  | set {t : SplayTree K} {m : List K} (h : SetRefines c t m) :
      ResultRefines c (.ok (.set t)) (.ok (.set m))

/-- A run without fuel whose results agree. -/
theorem exists_agree {β : Type} {run : Except Error β × SplayTree K} {res : Except Error β}
    {f : β → SetResult (SplayTree K) K} {f' : β → SetResult (List K) K}
    (hf : ∀ b, ResultRefines c (.ok (f b)) (.ok (f' b))) (hres : run.1 = res)
    (hR : SetRefines c run.2 m) :
    ∃ result s', some (run.map (Except.map f) id) = some (result, s') ∧
      ResultRefines c result (res.map f') ∧ SetRefines c s' m := by
  refine ⟨run.1.map f, run.2, rfl, ?_, hR⟩
  subst hres
  cases run.1 with
  | error e => exact .error e
  | ok b => exact hf b

/-- …and a run with fuel. -/
theorem exists_agree_unit {run : Option (Except Error Unit × SplayTree K)} {res : Except Error Unit}
    {s : SplayTree K} (hrun : run = some (res, s)) (hR : SetRefines c s m) :
    ∃ result s', run.map (Prod.map (Except.map fun _ => .unit) id) = some (result, s') ∧
      ResultRefines c result (res.map fun _ => .unit) ∧ SetRefines c s' m := by
  refine ⟨_, s, by rw [hrun]; rfl, ?_, hR⟩
  cases res with
  | error e => exact .error e
  | ok _ => exact .unit

/-- **Every set operation does what the sorted set does**, with fuel for each element. -/
theorem SetOp.exec_refines (T : KeyTest O K) (hc : IsTotalPreorder c) (op : SetOp O K)
    {s : SplayTree K} (h : SetRefines c s m) {fuel : ℕ} (hfuel : m.length < fuel) :
    ∃ result s', op.exec c T fuel s = some (result, s') ∧
      ResultRefines c result (op.spec c T m).1 ∧ SetRefines c s' (op.spec c T m).2 := by
  cases op with
  | contains o =>
    obtain ⟨hres, hre⟩ := setLookup_refines (T := T) hc h o
    exact exists_agree (fun x => .bool x.isSome) hres (hre.setRefines h)
  | lookup o =>
    obtain ⟨hres, hre⟩ := setLookup_refines (T := T) hc h o
    exact exists_agree (fun x => .element x) hres (hre.setRefines h)
  | add k =>
    obtain ⟨hres, hR⟩ := setAdd_refines hc h k
    refine ⟨.ok (.bool (setAdd c k s).1), (setAdd c k s).2, rfl, ?_, hR⟩
    rw [hres]
    exact .bool _
  | remove o =>
    obtain ⟨hres, hR⟩ := setRemove_refines (T := T) hc h o
    exact exists_agree (fun b => .bool b) hres hR
  | addAll elements =>
    cases elements with
    | list ks => exact ⟨.ok .unit, setAddAll c ks s, rfl, .unit, setAddAll_refines hc h ks⟩
    | self =>
      obtain ⟨s', hrun, hre⟩ := setAddAllSelf_refines hc h hfuel
      exact exists_agree_unit hrun (hre.setRefines h)
  | removeAll elements =>
    cases elements with
    | list os =>
      obtain ⟨hres, hR⟩ := setRemoveAll_refines (T := T) hc h os
      exact exists_agree (fun _ => .unit) hres hR
    | self =>
      obtain ⟨s', hrun, hR⟩ := setRemoveAllSelf_refines (T := T) hc h hfuel
      exact exists_agree_unit hrun hR
  | retainAll elements =>
    cases elements with
    | list os =>
      have hret := setRetainAll_refines (T := T) hc h os
      simp only [spec]
      cases hkept : SortedSet.retained c T os m with
      | error e | ok kept =>
      rw [hkept] at hret
      exact exists_agree (fun _ => .unit) hret.1 hret.2
    | self =>
      obtain ⟨s', hrun, hR⟩ := setRetainAllSelf_refines (T := T) hc h hfuel
      exact exists_agree_unit hrun hR
  | intersection other =>
    obtain ⟨t, s', hrun, hre, hR⟩ := setFilter_refines (T := T) hc h other true hfuel
    refine ⟨.ok (.set t), s', by simp [exec, hrun, Except.map], .set ?_, hre.setRefines h⟩
    simpa using hR
  | difference other =>
    obtain ⟨t, s', hrun, hre, hR⟩ := setFilter_refines (T := T) hc h other false hfuel
    refine ⟨.ok (.set t), s', by simp [exec, hrun, Except.map], .set ?_, hre.setRefines h⟩
    simpa using hR
  | union ks =>
    exact ⟨.ok (.set (setAddAll c ks (clone s))), s, rfl,
      .set (setAddAll_refines hc (clone_refines h) ks), h⟩
  | first =>
    have hentry := splayFirst_entry s
    rw [h.inorder] at hentry
    cases hr : s.root with
    | leaf =>
      obtain rfl : m = [] := by rw [← h.inorder, hr]; rfl
      exact ⟨.error .noElement, s, by simp [exec, setEnd, hr, Except.map], .error _, h⟩
    | node l y r =>
      cases m with
      | nil => simpa [hr] using h.inorder
      | cons x xs =>
        refine ⟨.ok (.element (some x)), splayFirst s, ?_, .element _,
          (splayFirst_rearranged s).setRefines h⟩
        simp [exec, setEnd, hr, Except.map, hentry]
  | last =>
    have hentry := splayLast_entry s
    rw [h.inorder] at hentry
    simp only [spec]
    cases hr : s.root with
    | leaf =>
      obtain rfl : m = [] := by rw [← h.inorder, hr]; rfl
      exact ⟨.error .noElement, s, by simp [exec, setEnd, hr, Except.map], .error _, h⟩
    | node l y r =>
      cases hlast : m.getLast? with
      | none => simp [← h.inorder, hr] at hlast
      | some z =>
        rw [hlast] at hentry
        refine ⟨.ok (.element (some z)), splayLast s, ?_, .element _,
          (splayLast_rearranged s).setRefines h⟩
        simp [exec, setEnd, hr, Except.map, hentry]
  | length =>
    refine ⟨.ok (.length s.count), s, rfl, ?_, h⟩
    rw [h.inv.count, h.inorder]
    exact .length _
  | clear =>
    exact ⟨.ok .unit, SplayTree.clear s, rfl, .unit, ⟨List.Pairwise.nil, rfl⟩, rfl⟩

/-- Fuel for a run: one more than the size of the largest set on the way. -/
def enoughFuel (c : K → K → ℤ) (T : KeyTest O K) : List (SetOp O K) → List K → ℕ
  | [], _ => 0
  | op :: ops, m => max (m.length + 1) (enoughFuel c T ops (op.spec c T m).2)

theorem runAll?_refines (T : KeyTest O K) (hc : IsTotalPreorder c) (ops : List (SetOp O K))
    {s : SplayTree K} (h : SetRefines c s m) {fuel : ℕ} (hfuel : enoughFuel c T ops m ≤ fuel) :
    ∃ results s', runAll? (exec c T fuel) ops s = some (results, s') ∧
      List.Forall₂ (ResultRefines c) results (runAll (spec c T) ops m).1 ∧
      SetRefines c s' (runAll (spec c T) ops m).2 := by
  induction ops generalizing s m with
  | nil => exact ⟨[], s, rfl, .nil, h⟩
  | cons op ops ih =>
    obtain ⟨hlen, hrest⟩ := max_le_iff.mp hfuel
    obtain ⟨result, s', hrun, hres, hR⟩ := op.exec_refines T hc h hlen
    obtain ⟨results, s'', hrun', hres', hR'⟩ := ih hR hrest
    exact ⟨result :: results, s'', by simp [runAll?, hrun, hrun'], .cons hres hres', hR'⟩

/-- Nullable numbers, with `null` first. -/
def nullsFirst (x y : Option ℕ) : ℤ :=
  (x.elim 0 fun n => (n : ℤ) + 1) - y.elim 0 fun n => (n : ℤ) + 1

theorem nullsFirst_isTotalPreorder : IsTotalPreorder nullsFirst :=
  ⟨fun x y => by simp only [nullsFirst]; omega, fun x y z => by simp only [nullsFirst]; omega⟩

/-- Keys that are their own untyped arguments, all of them valid. -/
def allKeys (K : Type) : KeyTest K K := ⟨id, some, fun _ => rfl, none⟩

/-- **A map with a null key does not tell what comes after it**: the sorted map has the key `1`
there, and `firstKeyAfter` throws. -/
theorem firstKeyAfter_null : IsTotalPreorder nullsFirst ∧
    (runAll (exec nullsFirst (allKeys (Option ℕ)) Option.isNone)
      [.set none 10, .set (some 1) 11, .firstKeyAfter none] (.empty : SplayTree (Option ℕ × ℕ))).1
      = [.ok .unit, .ok .unit, .error .argument] ∧ (after nullsFirst Prod.fst none
      (runAll (exec nullsFirst (allKeys (Option ℕ)) Option.isNone)
        [.set none 10, .set (some 1) 11] (.empty : SplayTree (Option ℕ × ℕ))).2.root.inorder).head?
      = some (some 1, 11) :=
  ⟨nullsFirst_isTotalPreorder, rfl, rfl⟩

/-- **`SplayTreeMap` and `SplayTreeSet` are sorted maps and sets.**  From every tree that represents
one, in particular the empty tree, every sequence of operations returns what the sorted collection
returns and ends in a tree that represents it: a search tree with strictly increasing keys, its
number of nodes in `_count`.  The callbacks of a map may call the map. -/
theorem splayTree_refines (T : KeyTest O K) (isNull : K → Bool) (hc : IsTotalPreorder c) :
    (Refines c (.empty : SplayTree (K × V)) ⟨[], 0⟩ ∧
      ∀ (ops : List (MapOp O K V)) (s : SplayTree (K × V)) (m : SortedMap K V), Refines c s m →
        (runAll (exec c T isNull) ops s).1 = (runAll (spec c T isNull) ops m).1 ∧
        Refines c (runAll (exec c T isNull) ops s).2 (runAll (spec c T isNull) ops m).2) ∧
    (SetRefines c (.empty : SplayTree K) [] ∧
      ∀ (ops : List (SetOp O K)) (s : SplayTree K) (m : List K), SetRefines c s m →
        ∀ fuel ≥ enoughFuel c T ops m, ∃ results s',
          runAll? (exec c T fuel) ops s = some (results, s') ∧
          List.Forall₂ (ResultRefines c) results (runAll (spec c T) ops m).1 ∧
          SetRefines c s' (runAll (spec c T) ops m).2) :=
  ⟨⟨⟨⟨List.Pairwise.nil, rfl⟩, rfl, rfl⟩, fun ops _ _ h => runAll_refines T isNull hc ops h⟩,
    .empty, fun ops _ _ h _ hfuel => runAll?_refines T hc ops h hfuel⟩

theorem splayTree_refines_nullsFirst : (runAll (exec nullsFirst (allKeys (Option ℕ)) Option.isNone)
        [.set (some 2) 20, .set (some 1) 10, .firstKeyAfter (some 1)]
        (.empty : SplayTree (Option ℕ × ℕ))).1
      = (runAll (spec nullsFirst (allKeys (Option ℕ)) Option.isNone)
        [.set (some 2) 20, .set (some 1) 10, .firstKeyAfter (some 1)] ⟨[], 0⟩).1 := by
  obtain ⟨⟨hempty, hmap⟩, -⟩ := splayTree_refines (V := ℕ) (allKeys (Option ℕ)) Option.isNone
    nullsFirst_isTotalPreorder
  exact (hmap _ _ _ hempty).1

end SplayTree
