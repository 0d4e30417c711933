import DartSdk.Collection.SplayTree

/-!
# Collection/SplaySet — `SplayTreeSet`, its iterator, and the sorted set it implements

`for (E element in this)` walks the tree by a path from the root to the current node.  A splay in
between — the set may be asked about its own elements — makes the path stale, which the iterator
notices by `_splayCount` and repairs by splaying for its current key.

`SetOp.spec` says what the operations do to a strictly increasing list of elements.  An argument may
be the receiver itself: then a loop over the argument walks the tree that its body splays, and a
body that removes an element makes the iterator throw.
-/

namespace SplayTree

open SplayTree.Tree SortedList

/-- `_SplayTreeIterator`.  The path has the current node first; each node is paired with whether it
is the right child of the node after it, the source's `identical(_path.last._right, node)`. -/
structure Iterator (α : Type*) where
  path : List (Bool × Tree α)
  modificationCount : Option ℕ
  splayCount : ℕ

section

variable {α K : Type*}

/-- A fresh iterator. -/
def iterator (s : SplayTree α) : Iterator α := ⟨[], none, s.splayCount⟩

/-- `_path.add(node); node = node._left`, down to the leftmost descendant. -/
def descend (isRight : Bool) : Tree α → List (Bool × Tree α) → List (Bool × Tree α)
  | leaf, path => path
  | node l x r, path => descend false l ((isRight, node l x r) :: path)

/-- `_path.removeLast()`, and on while the removed node is a right child. -/
def ascend : List (Bool × Tree α) → List (Bool × Tree α)
  | [] => []
  | (isRight, _) :: path => if isRight then ascend path else path

/-- The step from a valid path to the next node. -/
def advance : List (Bool × Tree α) → List (Bool × Tree α)
  | [] => []
  | (b, t) :: path =>
    match t.right with
    | leaf => ascend ((b, t) :: path)
    | node l x r => descend true (node l x r) ((b, t) :: path)

/-- `current`. -/
def Iterator.current (it : Iterator α) : Option α :=
  it.path.head?.bind fun e => e.2.topEntry

/-- `_rebuildPath`. -/
def rebuildPath (c : K → K → ℤ) (key : α → K) (k : K) (it : Iterator α) (s : SplayTree α) :
    Except Error Unit × Iterator α × SplayTree α :=
  let (comparison, s') := splay c key k s
  if comparison = 0 then
    (.ok (), { it with path := [(false, s'.root)], splayCount := s'.splayCount }, s')
  else (.error .concurrentModification, { it with path := [] }, s')

/-- `_SplayTreeIterator.moveNext`: a changed tree is an error, and a splayed one is walked anew from
the current node. -/
def moveNext (c : K → K → ℤ) (key : α → K) (it : Iterator α) (s : SplayTree α) :
    Except Error Bool × Iterator α × SplayTree α :=
  let step (it : Iterator α) (s : SplayTree α) : Except Error Bool × Iterator α × SplayTree α :=
    let path := advance it.path
    (.ok (!path.isEmpty), { it with path := path }, s)
  match it.modificationCount with
  | none =>
    let path := descend false s.root it.path
    (.ok (!path.isEmpty),
      { it with path := path, modificationCount := some s.modificationCount }, s)
  | some n =>
    if n ≠ s.modificationCount then (.error .concurrentModification, it, s)
    else
      match it.current with
      | none => (.ok false, it, s)
      | some x =>
        if it.splayCount ≠ s.splayCount then
          match rebuildPath c key (key x) it s with
          | (.ok (), it', s') => step it' s'
          | (.error e, it', s') => (.error e, it', s')
        else step it s

end

/-! ## The operations of `SplayTreeSet` -/

/-- The argument of `intersection` and `difference`: some set, or the receiver itself. -/
inductive Other (K : Type) where
  | set (contains : K → Bool)
  | self

/-- An iterable argument: some elements, or the receiver itself. -/
inductive Elements (α : Type) where
  | list (elements : List α)
  | self

/-- What an operation returns, with `σ` for a new set. -/
inductive SetResult (σ K : Type) where
  | unit
  | bool (b : Bool)
  | element (k : Option K)
  | length (n : ℤ)
  | set (s : σ)

/-- The methods of a set, with their arguments. -/
inductive SetOp (O K : Type) where
  | contains (element : O)
  | lookup (element : O)
  | add (element : K)
  | remove (element : O)
  | addAll (elements : Elements K)
  | removeAll (elements : Elements O)
  | retainAll (elements : Elements O)
  | intersection (other : Other K)
  | difference (other : Other K)
  | union (other : List K)
  | first
  | last
  | length
  | clear

variable {O K : Type}

section

variable (c : K → K → ℤ) (T : KeyTest O K)

/-- `_add`. -/
def setAdd (k : K) (s : SplayTree K) : Bool × SplayTree K :=
  let (compare, s') := splay c id k s
  if compare = 0 then (false, s') else (true, addNewRoot k compare s')

/-- `addAll` of a list. -/
def setAddAll (ks : List K) (s : SplayTree K) : SplayTree K :=
  ks.foldl (fun s k => (setAdd c k s).2) s

/-- `remove`: whether the element was there. -/
def setRemove (o : O) (s : SplayTree K) : Except Error Bool × SplayTree K :=
  match untypedLookup c id T o s with
  | (.ok (some _), s') => (.ok true, removeRoot s')
  | (.ok none, s') => (.ok false, s')
  | (.error e, s') => (.error e, s')

/-- `removeAll`: the loop ends with the first error. -/
def setRemoveAll : List O → SplayTree K → Except Error Unit × SplayTree K
  | [], s => (.ok (), s)
  | o :: os, s =>
    match setRemove c T o s with
    | (.ok _, s') => setRemoveAll os s'
    | (.error e, s') => (.error e, s')

/-- The loop of `retainAll`, which fills `retainSet`. -/
def retainLoop (originalModificationCount : ℕ) : List O → SplayTree K → SplayTree K →
    Except Error (SplayTree K) × SplayTree K
  | [], retainSet, s => (.ok retainSet, s)
  | o :: os, retainSet, s =>
    if originalModificationCount ≠ s.modificationCount then (.error .concurrentModification, s)
    else
      match untypedLookup c id T o s with
      | (.ok (some root), s') =>
        retainLoop originalModificationCount os (setAdd c root retainSet).2 s'
      | (.ok none, s') => retainLoop originalModificationCount os retainSet s'
      | (.error e, s') => (.error e, s')

/-- The end of `retainAll`. -/
def takeOver : Except Error (SplayTree K) × SplayTree K → Except Error Unit × SplayTree K
  | (.error e, s) => (.error e, s)
  | (.ok retainSet, s) =>
    -- Take over the elements from the retained set, if it differs.
    if retainSet.count ≠ s.count then
      (.ok (), { s with root := retainSet.root, count := retainSet.count,
                        modificationCount := s.modificationCount + 1 })
    else (.ok (), s)

/-- `retainAll` of a list: a new set of the retained elements takes over. -/
def setRetainAll (os : List O) (s : SplayTree K) : Except Error Unit × SplayTree K :=
  takeOver (retainLoop c T s.modificationCount os .empty s)

/-- `for (E element in this)`, with a body that may rearrange or change the set; `none` is lack of
fuel. -/
def forIn {β : Type} (body : K → β → SplayTree K → Except Error β × SplayTree K) :
    ℕ → Iterator K → β → SplayTree K → Option (Except Error β × SplayTree K)
  | 0, _, _, _ => none
  | fuel + 1, it, acc, s =>
    match moveNext c id it s with
    | (.error e, _, s₁) => some (.error e, s₁)
    | (.ok false, _, s₁) => some (.ok acc, s₁)
    | (.ok true, it₁, s₁) =>
      match it₁.current with
      | none => none
      | some element =>
        match body element acc s₁ with
        | (.error e, s₂) => some (.error e, s₂)
        | (.ok acc', s₂) => forIn body fuel it₁ acc' s₂

/-- `addAll` of the set to itself. -/
def setAddAllSelf (fuel : ℕ) (s : SplayTree K) : Option (Except Error Unit × SplayTree K) :=
  forIn c (fun k _ s => (.ok (), (setAdd c k s).2)) fuel (iterator s) () s

/-- `removeAll` of the set from itself. -/
def setRemoveAllSelf (fuel : ℕ) (s : SplayTree K) : Option (Except Error Unit × SplayTree K) :=
  forIn c (fun k _ s => (setRemove c T (T.ofKey k) s).map (Except.map fun _ => ()) id) fuel
    (iterator s) () s

/-- `retainAll` of the set in itself. -/
def setRetainAllSelf (fuel : ℕ) (s : SplayTree K) : Option (Except Error Unit × SplayTree K) :=
  (forIn c (fun k retainSet s' => retainLoop c T s.modificationCount [T.ofKey k] retainSet s') fuel
    (iterator s) .empty s).map takeOver

/-- `other.contains(element)`. -/
def Other.contains (other : Other K) (k : K) (s : SplayTree K) : Except Error Bool × SplayTree K :=
  match other with
  | .set contains => (.ok (contains k), s)
  | .self =>
    let (found, s') := untypedLookup c id T (T.ofKey k) s
    (found.map Option.isSome, s')

/-- The body of the loop of `_filter`, with `root` and `count`. -/
def filterBody (other : Other K) (keep : Bool) (element : K) (acc : Tree K × ℤ) (s : SplayTree K) :
    Except Error (Tree K × ℤ) × SplayTree K :=
  match other.contains c T element s with
  | (.error e, s') => (.error e, s')
  | (.ok b, s') => (.ok (if b = keep then (node acc.1 element leaf, acc.2 + 1) else acc), s')

/-- `_filter`. -/
def setFilter (fuel : ℕ) (other : Other K) (keep : Bool) (s : SplayTree K) :
    Option (Except Error (SplayTree K) × SplayTree K) :=
  (forIn c (filterBody c T other keep) fuel (iterator s) (leaf, 0) s).map
    (Prod.map (Except.map fun acc => ⟨acc.1, acc.2, 0, 0⟩) id)

/-- `_copyNode`, whose loop goes on with the child that it has just linked. -/
def copyNode : Tree K → Tree K
  | leaf => leaf
  | node l x r => node (copyNode l) x (copyNode r)

/-- `_clone`. -/
def clone (s : SplayTree K) : SplayTree K :=
  match s.root with
  | leaf => .empty
  | node l x r => { (SplayTree.empty : SplayTree K) with
      root := copyNode (node l x r), count := s.count }

/-- An end of the set, which an empty set does not have. -/
def setEnd (splayEnd : SplayTree K → SplayTree K) (s : SplayTree K) :
    Except Error (Option K) × SplayTree K :=
  match s.root with
  | leaf => (.error .noElement, s)
  | node _ _ _ => (.ok (splayEnd s).root.topEntry, splayEnd s)

/-- A call of an operation. -/
def SetOp.exec (fuel : ℕ) : SetOp O K → SplayTree K →
    Option (Except Error (SetResult (SplayTree K) K) × SplayTree K)
  | .contains o, s =>
    some ((untypedLookup c id T o s).map (Except.map fun x => .bool x.isSome) id)
  | .lookup o, s => some ((untypedLookup c id T o s).map (Except.map .element) id)
  | .add k, s => some ((setAdd c k s).map (fun b => .ok (.bool b)) id)
  | .remove o, s => some ((setRemove c T o s).map (Except.map .bool) id)
  | .addAll (.list ks), s => some (.ok .unit, setAddAll c ks s)
  | .addAll .self, s =>
    (setAddAllSelf c fuel s).map (Prod.map (Except.map fun _ => .unit) id)
  | .removeAll (.list os), s =>
    some ((setRemoveAll c T os s).map (Except.map fun _ => .unit) id)
  | .removeAll .self, s =>
    (setRemoveAllSelf c T fuel s).map (Prod.map (Except.map fun _ => .unit) id)
  | .retainAll (.list os), s =>
    some ((setRetainAll c T os s).map (Except.map fun _ => .unit) id)
  | .retainAll .self, s =>
    (setRetainAllSelf c T fuel s).map (Prod.map (Except.map fun _ => .unit) id)
  | .intersection other, s =>
    (setFilter c T fuel other true s).map (Prod.map (Except.map .set) id)
  | .difference other, s =>
    (setFilter c T fuel other false s).map (Prod.map (Except.map .set) id)
  | .union ks, s => some (.ok (.set (setAddAll c ks (clone s))), s)
  | .first, s => some ((setEnd splayFirst s).map (Except.map .element) id)
  | .last, s => some ((setEnd splayLast s).map (Except.map .element) id)
  | .length, s => some (.ok (.length s.count), s)
  | .clear, s => some (.ok .unit, SplayTree.clear s)

end

namespace SortedSet

variable (c : K → K → ℤ) (T : KeyTest O K)

/-- The element that an untyped argument stands for. -/
def find (o : O) (m : List K) : Except Error (Option K) :=
  (T.test o).map fun k => k.bind fun k => SortedList.lookup c id k m

/-- Adding to the sorted list: whether the element is new. -/
def add (k : K) (m : List K) : Bool × List K :=
  match SortedList.lookup c id k m with
  | some _ => (false, m)
  | none => (true, put c id k k m)

/-- Removing from the sorted list, where the object is a valid key. -/
def remove (o : O) (m : List K) : Except Error Bool × List K :=
  match T.test o with
  | .error e => (.error e, m)
  | .ok none => (.ok false, m)
  | .ok (some k) =>
    match SortedList.lookup c id k m with
    | some _ => (.ok true, erase c id k m)
    | none => (.ok false, m)

/-- Removes the objects in turn; an error keeps what is removed before. -/
def removeAll : List O → List K → Except Error Unit × List K
  | [], m => (.ok (), m)
  | o :: os, m =>
    match remove c T o m with
    | (.ok _, m') => removeAll os m'
    | (.error e, m') => (.error e, m')

/-- The elements that the arguments stand for, unless one of them throws. -/
def retained (os : List O) (m : List K) : Except Error (List K) :=
  (os.mapM (T.test ·)).map fun ks =>
    m.filter fun x => ks.any fun k => k.any fun k => decide (c x k = 0)

/-- Membership in the argument of `intersection` and `difference`. -/
def holds (other : Other K) (m : List K) (k : K) : Bool :=
  match other with
  | .set contains => contains k
  | .self =>
    match find c T (T.ofKey k) m with
    | .ok (some _) => true
    | _ => false

/-- `removeAll` of the set from itself: the first valid element goes, and the iterator throws. -/
def removeAllSelf (m : List K) : Except Error Unit × List K :=
  match m.find? (holds c T .self m) with
  | none => (.ok (), m)
  | some k => (.error .concurrentModification, erase c id k m)

end SortedSet

/-- What a call does to the sorted set. -/
def SetOp.spec (c : K → K → ℤ) (T : KeyTest O K) :
    SetOp O K → List K → Except Error (SetResult (List K) K) × List K
  | .contains o, m => ((SortedSet.find c T o m).map fun x => .bool x.isSome, m)
  | .lookup o, m => ((SortedSet.find c T o m).map .element, m)
  | .add k, m => (SortedSet.add c k m).map (fun b => .ok (.bool b)) id
  | .remove o, m => (SortedSet.remove c T o m).map (Except.map .bool) id
  | .addAll (.list ks), m => (.ok .unit, ks.foldl (fun m k => (SortedSet.add c k m).2) m)
  | .addAll .self, m => (.ok .unit, m)
  | .removeAll (.list os), m => (SortedSet.removeAll c T os m).map (Except.map fun _ => .unit) id
  | .removeAll .self, m => (SortedSet.removeAllSelf c T m).map (Except.map fun _ => .unit) id
  | .retainAll (.list os), m =>
    match SortedSet.retained c T os m with
    | .error e => (.error e, m)
    | .ok kept => (.ok .unit, kept)
  | .retainAll .self, m => (.ok .unit, m.filter (SortedSet.holds c T .self m))
  | .intersection other, m =>
    (.ok (.set (m.filter fun k => SortedSet.holds c T other m k)), m)
  | .difference other, m =>
    (.ok (.set (m.filter fun k => !SortedSet.holds c T other m k)), m)
  | .union ks, m => (.ok (.set (ks.foldl (fun m k => (SortedSet.add c k m).2) m)), m)
  | .first, m =>
    match m with
    | [] => (.error .noElement, m)
    | x :: _ => (.ok (.element (some x)), m)
  | .last, m =>
    match m.getLast? with
    | none => (.error .noElement, m)
    | some x => (.ok (.element (some x)), m)
  | .length, m => (.ok (.length m.length), m)
  | .clear, _ => (.ok .unit, [])

end SplayTree
