import DartSdk.Collection.SplayTree

/-!
# Collection/SplayMap — `SplayTreeMap` and the sorted map it implements

The operations of `SplayTreeMap` are functions of the tree.  Those with a callback call it in the
middle: a callback is itself a program of map operations (`Callback`), so it may look up, add and
remove keys of the map that is calling it, and the counters of the tree are what the source notices
that by.

`SortedMap` says what the map is for: a strictly increasing list of bindings, with the number of
times that its keys have changed.
-/

namespace SplayTree

open SplayTree.Tree SortedList Prod

/-- What an operation returns. -/
inductive MapResult (K V : Type) where
  | unit
  | value (v : Option V)
  | bool (b : Bool)
  | key (k : Option K)
  | length (n : ℤ)
  deriving Repr, DecidableEq

mutual

/-- A call of a map operation.  `O` is the type of an `Object?` argument. -/
inductive MapOp (O K V : Type) where
  | get (key : O)
  | set (key : K) (value : V)
  | remove (key : O)
  | putIfAbsent (key : K) (ifAbsent : Callback O K V)
  | update (key : K) (update : V → Callback O K V)
  | updateOrAdd (key : K) (update : V → Callback O K V) (ifAbsent : Callback O K V)
  | containsKey (key : O)
  | firstKey
  | lastKey
  | lastKeyBefore (key : K)
  | firstKeyAfter (key : K)
  | length
  | clear

/-- A callback: it returns, throws, or calls an operation and goes on with the result. -/
inductive Callback (O K V : Type) where
  | ret (v : V)
  | throw (e : Error)
  | call (op : MapOp O K V) (next : Except Error (MapResult K V) → Callback O K V)

end

variable {O K V : Type}

/-! ## The operations of `SplayTreeMap` -/

section

variable (c : K → K → ℤ) (T : KeyTest O K) (isNull : K → Bool)

/-- `_root!.value = value`. -/
def setRootValue (v : V) (s : SplayTree (K × V)) : SplayTree (K × V) :=
  match s.root with
  | leaf => s
  | node l x r => { s with root := node l (x.1, v) r }

/-- `operator []`. -/
def mapGet (o : O) (s : SplayTree (K × V)) :
    Except Error (Option V) × SplayTree (K × V) :=
  let (found, s') := untypedLookup c fst T o s
  (found.map (Option.map snd), s')

/-- `containsKey`: an object that is not a valid key is in no map. -/
def mapContainsKey (o : O) (s : SplayTree (K × V)) : Except Error Bool × SplayTree (K × V) :=
  let (found, s') := untypedLookup c fst T o s
  (found.map Option.isSome, s')

/-- `remove`: the value, if the key is there. -/
def mapRemove (o : O) (s : SplayTree (K × V)) : Except Error (Option V) × SplayTree (K × V) :=
  match untypedLookup c fst T o s with
  | (.ok (some x), s') => (.ok (some x.2), removeRoot s')
  | (.ok none, s') => (.ok none, s')
  | (.error e, s') => (.error e, s')

/-- `operator []=`. -/
def mapSet (k : K) (v : V) (s : SplayTree (K × V)) : SplayTree (K × V) :=
  let (comparison, s') := splay c fst k s
  if comparison = 0 then setRootValue v s' else addNewRoot (k, v) comparison s'

/-- `putIfAbsent`: the callback may change the tree, and then the key is looked for again. -/
def mapPutIfAbsent (k : K) (ifAbsent : SplayTree (K × V) → Except Error V × SplayTree (K × V))
    (s : SplayTree (K × V)) : Except Error (Option V) × SplayTree (K × V) :=
  let (comparison, s₁) := splay c fst k s
  if comparison = 0 then (.ok (s₁.root.topEntry.map snd), s₁)
  else
    match ifAbsent s₁ with
    | (.error e, s₂) => (.error e, s₂)
    | (.ok v, s₂) =>
      if s₁.modificationCount ≠ s₂.modificationCount ∨ s₁.splayCount ≠ s₂.splayCount then
        -- Key may have been added by `ifAbsent`.
        (.ok (some v), mapSet c k v s₂)
      else (.ok (some v), addNewRoot (k, v) comparison s₂)

/-- `update`; the parameter `ifAbsent` may be omitted. -/
def mapUpdate (k : K) (update : V → SplayTree (K × V) → Except Error V × SplayTree (K × V))
    (ifAbsent : Option (SplayTree (K × V) → Except Error V × SplayTree (K × V)))
    (s : SplayTree (K × V)) : Except Error (Option V) × SplayTree (K × V) :=
  let (comparison, s₁) := splay c fst k s
  match (if comparison = 0 then s₁.root.topEntry else none) with
  | some x =>
    match update x.2 s₁ with
    | (.error e, s₂) => (.error e, s₂)
    | (.ok v, s₂) =>
      if s₁.modificationCount ≠ s₂.modificationCount then (.error .concurrentModification, s₂)
      else if s₁.splayCount ≠ s₂.splayCount then
        let (comparison, s₃) := splay c fst k s₂
        if comparison ≠ 0 then (.error .concurrentModification, s₃)
        else (.ok (some v), setRootValue v s₃)
      else (.ok (some v), setRootValue v s₂)
  | none =>
    match ifAbsent with
    | none => (.error .argument, s₁)
    | some ifAbsent =>
      match ifAbsent s₁ with
      | (.error e, s₂) => (.error e, s₂)
      | (.ok v, s₂) =>
        if s₁.modificationCount ≠ s₂.modificationCount then (.error .concurrentModification, s₂)
        else if s₁.splayCount ≠ s₂.splayCount then
          let (comparison, s₃) := splay c fst k s₂
          if comparison = 0 then (.error .concurrentModification, s₃)
          else (.ok (some v), addNewRoot (k, v) comparison s₃)
        else (.ok (some v), addNewRoot (k, v) comparison s₂)

/-- The walk of `lastKeyBefore` down the right children. -/
def rightmost {α : Type*} : Tree α → Option α
  | leaf => none
  | node _ x leaf => some x
  | node _ _ (node l y r) => rightmost (node l y r)

/-- The walk of `firstKeyAfter` down the left children. -/
def leftmost {α : Type*} : Tree α → Option α
  | leaf => none
  | node leaf x _ => some x
  | node (node l y r) _ _ => leftmost (node l y r)

/-- `lastKeyBefore`: a null key is an argument error. -/
def mapLastKeyBefore (k : K) (s : SplayTree (K × V)) :
    Except Error (Option K) × SplayTree (K × V) :=
  if isNull k then (.error .argument, s)
  else
    let (comparison, s') := splay c fst k s
    match s'.root with
    | leaf => (.ok none, s')
    | node l x _ =>
      (.ok (if comparison < 0 then some x.1 else (rightmost l).map fst), s')

/-- `firstKeyAfter`: a null key is an argument error. -/
def mapFirstKeyAfter (k : K) (s : SplayTree (K × V)) :
    Except Error (Option K) × SplayTree (K × V) :=
  if isNull k then (.error .argument, s)
  else
    let (comparison, s') := splay c fst k s
    match s'.root with
    | leaf => (.ok none, s')
    | node _ x r =>
      (.ok (if 0 < comparison then some x.1 else (leftmost r).map fst), s')

/-- `firstKey`: splays the least key to the root. -/
def mapFirstKey (s : SplayTree (K × V)) : Option K × SplayTree (K × V) :=
  let s' := splayFirst s
  (s'.root.topEntry.map fst, s')

/-- `lastKey`: splays the greatest key to the root. -/
def mapLastKey (s : SplayTree (K × V)) : Option K × SplayTree (K × V) :=
  let s' := splayLast s
  (s'.root.topEntry.map fst, s')

mutual

/-- A call of an operation. -/
def MapOp.exec : MapOp O K V → SplayTree (K × V) →
    Except Error (MapResult K V) × SplayTree (K × V)
  | .get o, s => (mapGet c T o s).map (Except.map .value) id
  | .set k v, s => (.ok .unit, mapSet c k v s)
  | .remove o, s => (mapRemove c T o s).map (Except.map .value) id
  | .putIfAbsent k f, s => (mapPutIfAbsent c k f.exec s).map (Except.map .value) id
  | .update k f, s => (mapUpdate c k (fun v => (f v).exec) none s).map (Except.map .value) id
  | .updateOrAdd k f g, s =>
    (mapUpdate c k (fun v => (f v).exec) (some g.exec) s).map (Except.map .value) id
  | .containsKey o, s => (mapContainsKey c T o s).map (Except.map .bool) id
  | .firstKey, s => (mapFirstKey s).map (fun k => .ok (.key k)) id
  | .lastKey, s => (mapLastKey s).map (fun k => .ok (.key k)) id
  | .lastKeyBefore k, s => (mapLastKeyBefore c isNull k s).map (Except.map .key) id
  | .firstKeyAfter k, s => (mapFirstKeyAfter c isNull k s).map (Except.map .key) id
  | .length, s => (.ok (.length s.count), s)
  | .clear, s => (.ok .unit, clear s)

/-- A callback of `putIfAbsent`, run on the tree. -/
def Callback.exec : Callback O K V → SplayTree (K × V) → Except Error V × SplayTree (K × V)
  | .ret v, s => (.ok v, s)
  | .throw e, s => (.error e, s)
  | .call op next, s => (next (op.exec s).1).exec (op.exec s).2

end

end

/-- **A sorted map**: its bindings, and how often a key has been added or removed. -/
structure SortedMap (K V : Type) where
  bindings : List (K × V)
  modified : ℕ

namespace SortedMap

variable (c : K → K → ℤ) (T : KeyTest O K) (isNull : K → Bool)

/-- The binding of an untyped key: none when the key is not one of the map's. -/
def find (o : O) (m : SortedMap K V) : Except Error (Option (K × V)) :=
  (T.test o).map fun k => k.bind fun k => lookup c fst k m.bindings

/-- The map with `v` bound to `k`, under the key that is there if there is one. -/
def set (k : K) (v : V) (m : SortedMap K V) : SortedMap K V :=
  match lookup c fst k m.bindings with
  | some x => { m with bindings := put c fst k (x.1, v) m.bindings }
  | none => ⟨put c fst k (k, v) m.bindings, m.modified + 1⟩

/-- Removing a key from the sorted map, where the object is a valid key. -/
def remove (o : O) (m : SortedMap K V) : Except Error (Option V) × SortedMap K V :=
  match T.test o with
  | .error e => (.error e, m)
  | .ok none => (.ok none, m)
  | .ok (some k) =>
    match lookup c fst k m.bindings with
    | some x => (.ok (some x.2), ⟨erase c fst k m.bindings, m.modified + 1⟩)
    | none => (.ok none, m)

/-- The callback runs only if the key is absent; what it returns goes into the map that it
leaves. -/
def putIfAbsent (k : K) (ifAbsent : SortedMap K V → Except Error V × SortedMap K V)
    (m : SortedMap K V) : Except Error (Option V) × SortedMap K V :=
  match lookup c fst k m.bindings with
  | some x => (.ok (some x.2), m)
  | none =>
    match ifAbsent m with
    | (.error e, m') => (.error e, m')
    | (.ok v, m') => (.ok (some v), set c k v m')

/-- A callback of `update` may not change the keys. -/
def update (k : K) (update : V → SortedMap K V → Except Error V × SortedMap K V)
    (ifAbsent : Option (SortedMap K V → Except Error V × SortedMap K V))
    (m : SortedMap K V) : Except Error (Option V) × SortedMap K V :=
  let commit : Except Error V × SortedMap K V → Except Error (Option V) × SortedMap K V
    | (.error e, m') => (.error e, m')
    | (.ok v, m') =>
      if m.modified = m'.modified then (.ok (some v), set c k v m')
      else (.error .concurrentModification, m')
  match lookup c fst k m.bindings with
  | some x => commit (update x.2 m)
  | none =>
    match ifAbsent with
    | none => (.error .argument, m)
    | some ifAbsent => commit (ifAbsent m)

/-- The neighbour of `k` on one side. -/
def neighbour (side : List (K × V) → Option (K × V)) (k : K) (m : SortedMap K V) :
    Except Error (Option K) :=
  if isNull k then .error .argument else .ok ((side m.bindings).map fst)

end SortedMap

mutual

/-- What a call does to the sorted map. -/
def MapOp.spec (c : K → K → ℤ) (T : KeyTest O K) (isNull : K → Bool) :
    MapOp O K V → SortedMap K V → Except Error (MapResult K V) × SortedMap K V
  | .get o, m => ((m.find c T o).map fun x => .value (x.map snd), m)
  | .set k v, m => (.ok .unit, m.set c k v)
  | .remove o, m => (m.remove c T o).map (Except.map .value) id
  | .putIfAbsent k f, m =>
    (m.putIfAbsent c k (f.spec c T isNull)).map (Except.map .value) id
  | .update k f, m =>
    (m.update c k (fun v => (f v).spec c T isNull) none).map (Except.map .value) id
  | .updateOrAdd k f g, m =>
    (m.update c k (fun v => (f v).spec c T isNull) (some (g.spec c T isNull))).map
      (Except.map .value) id
  | .containsKey o, m => ((m.find c T o).map fun x => .bool x.isSome, m)
  | .firstKey, m => (.ok (.key (m.bindings.head?.map fst)), m)
  | .lastKey, m => (.ok (.key (m.bindings.getLast?.map fst)), m)
  | .lastKeyBefore k, m =>
    ((m.neighbour isNull (fun s => (before c fst k s).getLast?) k).map .key, m)
  | .firstKeyAfter k, m =>
    ((m.neighbour isNull (fun s => (after c fst k s).head?) k).map .key, m)
  | .length, m => (.ok (.length m.bindings.length), m)
  | .clear, m => (.ok .unit, ⟨[], m.modified + 1⟩)

/-- The same callback, run on the sorted map. -/
def Callback.spec (c : K → K → ℤ) (T : KeyTest O K) (isNull : K → Bool) :
    Callback O K V → SortedMap K V → Except Error V × SortedMap K V
  | .ret v, m => (.ok v, m)
  | .throw e, m => (.error e, m)
  | .call op next, m =>
    (next (op.spec c T isNull m).1).spec c T isNull (op.spec c T isNull m).2

end

end SplayTree
