import DartSdk.Lib.Chains

/-!
# FlowAnalysis/FlowLink — a reader for persistent maps

A map is a chain of links, each with a key; the value of a key is the nearest link with that key.
Links share their tails, so the maps form a tree.

The reader caches the map of the link it has read last (`cache`).  To read another link it walks
from both links to their common ancestor (`diffCore`), with an entry for each key it meets, and
writes the entries to its cache.  `none` is an exception: a null check or an index out of range.
-/

namespace FlowAnalysis

/-- Links with integer keys, without their pointers to equal keys. -/
structure KeyedLinks (Link : Type) extends Chains Link where
  key : Link → ℕ

/-- `_computePreviousForKey`: the nearest link with a key, from a link on. -/
def KeyedLinks.computePreviousForKey {Link : Type} (t : KeyedLinks Link) (key : ℕ) :
    Option Link → Option Link
  | none => none
  | some link =>
    if t.key link = key then some link else t.computePreviousForKey key (t.previous link)
termination_by link => t.depthOf link
decreasing_by
  rw [Chains.depthOf_some]
  exact Nat.lt_succ_self _

/-- **The links**: each points to the nearest previous link with its key. -/
structure FlowLinks (Link : Type) extends KeyedLinks Link where
  previousForKey : Link → Option Link
  previousForKey_eq : ∀ link,
    previousForKey link = toKeyedLinks.computePreviousForKey (key link) (previous link)

/-- The two arguments of `diff`. -/
inductive Side where
  | left
  | right
  deriving DecidableEq

/-- `FlowLinkDiffEntry`. -/
structure DiffEntry (Link : Type) where
  key : ℕ
  firstLeft : Option Link
  firstRight : Option Link
  previousForKey : Option Link

namespace DiffEntry

variable {Link : Type} (entry : DiffEntry Link)

/-- What the key has at the common ancestor. -/
def ancestor : Option Link := entry.previousForKey

/-- What the key has on the left. -/
def left : Option Link := entry.firstLeft.or entry.previousForKey

/-- What the key has on the right. -/
def right : Option Link := entry.firstRight.or entry.previousForKey

/-- The assignments of a step: the first link of the side stays, the pointer is replaced. -/
def visit (side : Side) (link : Link) (previousForKey : Option Link) : DiffEntry Link :=
  match side with
  | .left => { entry with firstLeft := entry.firstLeft.or (some link), previousForKey }
  | .right => { entry with firstRight := entry.firstRight.or (some link), previousForKey }

end DiffEntry

/-- The entry of an index, `null` out of range. -/
def getSafe {α : Type} (l : List (Option α)) (index : ℕ) : Option α := (l[index]?).join

/-- The list with a new entry at an index, extended by `null` if necessary. -/
def setSafe {α : Type} (l : List (Option α)) (index : ℕ) (value : Option α) : List (Option α) :=
  (l ++ List.replicate (index + 1 - l.length) none).set index value

/-! ## The walk to the common ancestor

Both sides step towards the root, the deeper one first, until they meet; the first link of each key
is kept for each side. -/

/-- What the steps of a walk change. -/
structure Scratch (Link : Type) where
  entries : List (DiffEntry Link)
  diffIndices : List (Option ℕ)

namespace FlowLinks

variable {Link : Type} (t : FlowLinks Link)

/-- A step from a link to the previous one.  The entry of its key is updated; a new one starts
without first links. -/
def step (side : Side) (link : Link) (s : Scratch Link) : Option (Scratch Link) :=
  match getSafe s.diffIndices (t.key link) with
  | none => some
      { entries := s.entries ++
          [DiffEntry.visit ⟨t.key link, none, none, none⟩ side link (t.previousForKey link)]
        diffIndices := setSafe s.diffIndices (t.key link) (some s.entries.length) }
  | some index =>
    if index < s.entries.length then
      some { s with
        entries :=
          s.entries.modify index fun entry => entry.visit side link (t.previousForKey link) }
    else none

/-- One step of the left side. -/
def stepLeft (left : Link) (s : Scratch Link) : Option (Scratch Link) := t.step .left left s

/-- One step of the right side. -/
def stepRight (right : Link) (s : Scratch Link) : Option (Scratch Link) := t.step .right right s

/-- A loop that walks from the deeper link until the depth is that of the other one. -/
def descend (side : Side) (otherDepth : ℕ) :
    ℕ → Option Link → Scratch Link → Option (Option Link × Scratch Link)
  | 0, link, s => some (link, s)
  | depth + 1, link, s =>
    if depth + 1 > otherDepth then
      match link with
      | none => none
      | some link => (t.step side link s).bind (descend side otherDepth depth (t.previous link))
    else some (link, s)

variable [DecidableEq Link]

/-- The loop that walks from both links until they are identical. -/
def walk (left right : Option Link) (s : Scratch Link) : Option (Option Link × Scratch Link) :=
  if left = right then some (left, s)
  else
    match left, right with
    | some l, some r => (t.stepLeft l s).bind fun s => (t.stepRight r s).bind fun s =>
      walk (t.previous l) (t.previous r) s
    | _, _ => none
termination_by t.depthOf left
decreasing_by
  rw [Chains.depthOf_some]
  exact Nat.lt_succ_self _

/-- The loop that clears the indices of the entries. -/
def clear : List (DiffEntry Link) → List (Option ℕ) → Option (List (Option ℕ))
  | [], diffIndices => some diffIndices
  | entry :: entries, diffIndices =>
    if entry.key < diffIndices.length then clear entries (diffIndices.set entry.key none) else none

/-- `_diffCore`: the common ancestor, the entries, and the scratch list. -/
def diffCore (diffIndices : List (Option ℕ)) (left right : Option Link) :
    Option (Option Link × List (DiffEntry Link) × List (Option ℕ)) :=
  let leftDepth := t.depthOf left
  let rightDepth := t.depthOf right
  let s : Scratch Link := ⟨[], diffIndices⟩
  let walked :=
    if leftDepth > rightDepth then
      (t.descend .left rightDepth leftDepth left s).bind fun (left, s) => t.walk left right s
    else (t.descend .right leftDepth rightDepth right s).bind fun (right, s) => t.walk left right s
  walked.bind fun (ancestor, s) =>
    (clear s.entries s.diffIndices).map fun diffIndices => (ancestor, s.entries, diffIndices)

end FlowLinks

/-- `FlowLinkReader`. -/
structure Reader (Link : Type) where
  current : Option Link
  cache : List (Option Link)
  diffIndices : List (Option ℕ)

namespace Reader

variable {Link : Type} [DecidableEq Link] (t : FlowLinks Link)

/-- A new reader. -/
def new : Reader Link := ⟨none, [], []⟩

/-- `_setCurrent`. -/
def setCurrent (r : Reader Link) (value : Option Link) : Option (Reader Link) :=
  if value = r.current then some r
  else (t.diffCore r.diffIndices r.current value).map fun (_, entries, diffIndices) =>
    { current := value
      cache := entries.foldl (fun cache entry => setSafe cache entry.key entry.right) r.cache
      diffIndices }

/-- `get`: the nearest link with the key, from the cache after it has been brought to the link. -/
def get (r : Reader Link) (link : Option Link) (key : ℕ) : Option (Option Link × Reader Link) :=
  match link with
  | none => some (none, r)
  | some link => (r.setCurrent t (some link)).map fun r => (getSafe r.cache key, r)

/-- `diff`: the common ancestor, and an entry for each key with a link above it. -/
def diff (r : Reader Link) (left right : Option Link) :
    Option ((Option Link × List (DiffEntry Link)) × Reader Link) :=
  if left = right then some ((left, []), r)
  else (t.diffCore r.diffIndices left right).map fun (ancestor, entries, diffIndices) =>
    ((ancestor, entries), { r with diffIndices })

end Reader

/-- A call of a reader. -/
inductive Call (Link : Type) where
  | get (link : Option Link) (key : ℕ)
  | diff (left right : Option Link)

/-- What a call returns. -/
inductive Answer (Link : Type) where
  | link (link : Option Link)
  | difference (ancestor : Option Link) (entries : List (DiffEntry Link))

namespace Reader

variable {Link : Type} [DecidableEq Link] (t : FlowLinks Link)

/-- One call of the reader. -/
def call (r : Reader Link) : Call Link → Option (Answer Link × Reader Link)
  | .get link key => (r.get t link key).map fun (link, r) => (.link link, r)
  | .diff left right => (r.diff t left right).map fun ((ancestor, entries), r) =>
    (.difference ancestor entries, r)

/-- The answers of a history of calls, and the reader after it. -/
def run : Reader Link → List (Call Link) → Option (List (Answer Link) × Reader Link)
  | r, [] => some ([], r)
  | r, c :: calls => (r.call t c).bind fun (answer, r) =>
    (run r calls).map fun (answers, r) => (answer :: answers, r)

end Reader

end FlowAnalysis
