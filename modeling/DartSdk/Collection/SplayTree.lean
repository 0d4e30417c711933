import DartSdk.Lib.SortedList

/-!
# Collection/SplayTree — the splay tree of `dart:collection`

`_SplayTree` and its iterator.  A `Node?` is a `Tree`, with `leaf` for `null`; the entries `α` are
keys for a set and key–value pairs for a map, so `key : α → K` reads the key of a node.

The two partial trees that `_splay` builds while it walks are linked through a dangling child.
`left` hangs by a right child and `right` by a left child, so each is the list of its spine, the
node with the dangling child first: `newTreeLeft` and `newTreeRight` are the last nodes of the
lists.
-/

namespace SplayTree

/-- A splay tree: a node has its entry between the subtrees. -/
inductive Tree (α : Type*) where
  | leaf
  | node (left : Tree α) (entry : α) (right : Tree α)
  deriving Repr, DecidableEq

namespace Tree

variable {α : Type*}

/-- The entries from left to right. -/
def inorder : Tree α → List α
  | leaf => []
  | node l x r => l.inorder ++ x :: r.inorder

@[simp] theorem inorder_leaf : (leaf : Tree α).inorder = [] := rfl

@[simp] theorem inorder_node (l : Tree α) (x : α) (r : Tree α) :
    (node l x r).inorder = l.inorder ++ x :: r.inorder := rfl

/-- The right child of a node and, for the missing node, nothing. -/
def right : Tree α → Tree α
  | leaf => leaf
  | node _ _ r => r

/-- The entry of a node. -/
def topEntry : Tree α → Option α
  | leaf => none
  | node _ x _ => some x

end Tree

open SplayTree.Tree

variable {α K : Type*}

/-! ## Splaying

The top-down splay of `_splay`, with both partial trees as lists of nodes. -/

/-- `left._right = current._left; current._left = newTreeLeft`. -/
def assembleLeft (left : List (Tree α × α)) (l : Tree α) : Tree α :=
  left.foldl (fun acc f => node f.1 f.2 acc) l

/-- `right._left = current._right; current._right = newTreeRight`. -/
def assembleRight (right : List (α × Tree α)) (r : Tree α) : Tree α :=
  right.foldl (fun acc f => node acc f.1 f.2) r

/-- What the loop of `_splay` ends with: the assembled tree, the last comparison, and whether
`current` has left the root. -/
structure Splayed (α : Type*) where
  tree : Tree α
  comparison : ℤ
  moved : Bool

/-- The end of a splay: the two trees that were split off become the children of the found node. -/
def assemble (left : List (Tree α × α)) (right : List (α × Tree α)) (l : Tree α) (x : α)
    (r : Tree α) : Tree α :=
  node (assembleLeft left l) x (assembleRight right r)

/-- The loop of `_splay`, on `current`. -/
def splayLoop (c : K → K → ℤ) (key : α → K) (k : K) :
    Tree α → List (Tree α × α) → List (α × Tree α) → Bool → Splayed α
  | leaf, _, _, moved => ⟨leaf, -1, moved⟩
  | node l x r, left, right, moved =>
    if 0 < c (key x) k then
      match l with
      | leaf => ⟨assemble left right leaf x r, c (key x) k, moved⟩
      | node ll y lr =>
        if 0 < c (key y) k then
          -- Rotate right.
          match ll with
          | leaf => ⟨assemble left right leaf y (node lr x r), c (key y) k, true⟩
          | node a z b => splayLoop c key k (node a z b) left ((y, node lr x r) :: right) true
        else
          -- Link right.
          splayLoop c key k (node ll y lr) left ((x, r) :: right) true
    else if c (key x) k < 0 then
      match r with
      | leaf => ⟨assemble left right l x leaf, c (key x) k, moved⟩
      | node rl y rr =>
        if c (key y) k < 0 then
          -- Rotate left.
          match rr with
          | leaf => ⟨assemble left right (node l x rl) y leaf, c (key y) k, true⟩
          | node a z b => splayLoop c key k (node a z b) ((node l x rl, y) :: left) right true
        else
          -- Link left.
          splayLoop c key k (node rl y rr) ((l, x) :: left) right true
    else ⟨assemble left right l x r, c (key x) k, moved⟩

/-- The fields of `_SplayTree`. -/
structure SplayTree (α : Type*) where
  root : Tree α
  count : ℤ
  modificationCount : ℕ
  splayCount : ℕ
  deriving Repr, DecidableEq

/-- A new, empty tree. -/
def SplayTree.empty : SplayTree α := ⟨leaf, 0, 0, 0⟩

/-- `_splay`. -/
def splay (c : K → K → ℤ) (key : α → K) (k : K) (s : SplayTree α) : ℤ × SplayTree α :=
  match s.root with
  | leaf => (-1, s)
  | node _ _ _ =>
    let res := splayLoop c key k s.root [] [] false
    (res.comparison,
      if res.moved then { s with root := res.tree, splayCount := s.splayCount + 1 } else s)

/-- The loop of `_splayMin`, on the `current` node with its children. -/
def splayMinLoop : Tree α → α → Tree α → ℕ → Tree α × ℕ
  | leaf, x, r, modified => (node leaf x r, modified)
  | node ll y lr, x, r, _ => splayMinLoop ll y (node lr x r) 1

/-- The loop of `_splayMax`. -/
def splayMaxLoop : Tree α → α → Tree α → ℕ → Tree α × ℕ
  | l, x, leaf, modified => (node l x leaf, modified)
  | l, x, node rl y rr, _ => splayMaxLoop (node l x rl) y rr 1

/-- `_splayMin`: the new subtree and what is added to `_splayCount`. -/
def splayMin : Tree α → Tree α × ℕ
  | leaf => (leaf, 0)
  | node l x r => splayMinLoop l x r 0

/-- `_splayMax`. -/
def splayMax : Tree α → Tree α × ℕ
  | leaf => (leaf, 0)
  | node l x r => splayMaxLoop l x r 0

/-- `_removeRoot`. -/
def removeRoot (s : SplayTree α) : SplayTree α :=
  match s.root with
  | leaf => s
  | node l _ r =>
    let done (root : Tree α) (modified : ℕ) : SplayTree α :=
      ⟨root, s.count - 1, s.modificationCount + 1, s.splayCount + modified⟩
    match l, r with
    | leaf, r => done r 0
    | l, leaf => done l 0
    | l, r =>
      match splayMax l with
      | (leaf, _) => s
      | (node a y _, modified) => done (node a y r) modified

/-- `_addNewRoot`, with the entry of the new node. -/
def addNewRoot (a : α) (comparison : ℤ) (s : SplayTree α) : SplayTree α :=
  let root := match s.root with
    | leaf => node leaf a leaf
    | node l x r =>
      if comparison < 0 then node (node l x leaf) a r else node l a (node leaf x r)
  ⟨root, s.count + 1, s.modificationCount + 1, s.splayCount⟩

/-- `_clear`. -/
def clear (s : SplayTree α) : SplayTree α :=
  ⟨leaf, 0, s.modificationCount + 1, s.splayCount⟩

/-- `_root = _splayMin(root)`. -/
def splayFirst (s : SplayTree α) : SplayTree α :=
  { s with root := (splayMin s.root).1, splayCount := s.splayCount + (splayMin s.root).2 }

/-- `_root = _splayMax(root)`. -/
def splayLast (s : SplayTree α) : SplayTree α :=
  { s with root := (splayMax s.root).1, splayCount := s.splayCount + (splayMax s.root).2 }

/-- The errors that the operations throw, and those of a callback's own. -/
inductive Error where
  | concurrentModification
  | argument
  | type
  | noElement
  | callback
  deriving Repr, DecidableEq

/-- The `Object?` arguments `O` of a tree with keys `K`: every key is one, `asKey` is the test
`key is K`, and `validKey` the field `_validKey`. -/
structure KeyTest (O K : Type*) where
  ofKey : K → O
  asKey : O → Option K
  asKey_ofKey : ∀ k, asKey (ofKey k) = some k
  validKey : Option (O → Bool)

/-- The key that `_untypedLookup` splays with, if it gets that far; `key as K` may throw. -/
def KeyTest.test {O : Type*} (T : KeyTest O K) (o : O) : Except Error (Option K) :=
  match T.validKey with
  | none => .ok (T.asKey o)
  | some isValidKey =>
    if isValidKey o then
      match T.asKey o with
      | none => .error .type
      | some k => .ok (some k)
    else .ok none

/-- `_untypedLookup`: the entry of the root that it returns. -/
def untypedLookup {O : Type*} (c : K → K → ℤ) (key : α → K) (T : KeyTest O K) (o : O)
    (s : SplayTree α) : Except Error (Option α) × SplayTree α :=
  match T.test o with
  | .error e => (.error e, s)
  | .ok none => (.ok none, s)
  | .ok (some k) =>
    let (comparison, s') := splay c key k s
    (.ok (if comparison = 0 then s'.root.topEntry else none), s')

end SplayTree
