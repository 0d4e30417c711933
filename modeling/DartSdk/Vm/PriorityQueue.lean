import DartSdk.Vm.HashMap

/-!
# Vm/PriorityQueue — the timeout queue

A binary heap in an array with a hash map from values to positions, for `int64_t` priorities and
`Dart_Port` values.  A failed assertion, an index outside the used part of the array and an overflow
of a signed difference give no result.
-/

namespace PriorityQueue

/-- `PriorityQueue::Entry`. -/
structure Entry where
  priority : BitVec 64
  value : BitVec 64
  deriving DecidableEq

/-- The first `size_` entries of the array, its length, and the map. -/
structure Queue where
  minHeap : List Entry
  minHeapSize : ℕ
  hashmap : HashMap

/-- `kMinimumSize`. -/
def kMinimumSize : ℕ := 16

/-- `HashKey`: the low bits of the key. -/
def hashKey (key : BitVec 64) : ℕ := key.toNat % 2 ^ 32

namespace Queue

/-- An empty queue. -/
def new : Queue := ⟨[], kMinimumSize, .initialized kMinimumSize⟩

/-- `size_`. -/
def size (q : Queue) : ℕ := q.minHeap.length

/-- `FindMapEntry`, with the value of the entry. -/
def findMapEntry (q : Queue) (key : BitVec 64) : Option (Option ℕ) := do
  match ← q.hashmap.lookup key (hashKey key) with
  | none => return none
  | some p =>
    let entry ← q.hashmap.slots[p]?
    return some entry.value

/-- `RemoveMapEntry`. -/
def removeMapEntry (q : Queue) (key : BitVec 64) : Option Queue := do
  let entry ← q.findMapEntry key
  if entry = none then none
  let hashmap ← q.hashmap.remove key (hashKey key)
  return { q with hashmap }

/-- `SetMapEntry`. -/
def setMapEntry (q : Queue) (key : BitVec 64) (value : ℕ) : Option Queue := do
  let hashmap ← q.hashmap.store key (hashKey key) value
  return { q with hashmap }

/-- `Resize`. -/
def resize (q : Queue) (newMinHeapSize : ℕ) : Option Queue :=
  if q.size < newMinHeapSize ∧ newMinHeapSize ≠ q.minHeapSize then
    some { q with minHeapSize := newMinHeapSize }
  else none

/-- `Set`, at the end of the used part. -/
def set (q : Queue) (entry : Entry) : Option Queue :=
  if q.size < q.minHeapSize then
    { q with minHeap := q.minHeap ++ [entry] }.setMapEntry entry.value q.size
  else none

/-- `Swap`. -/
def swap (q : Queue) (offset1 offset2 : ℕ) : Option Queue := do
  let entry1 ← q.minHeap[offset1]?
  let entry2 ← q.minHeap[offset2]?
  let q := { q with minHeap := (q.minHeap.set offset1 entry2).set offset2 entry1 }
  let q ← q.setMapEntry entry2.value offset1
  q.setMapEntry entry1.value offset2

/-- `Replace`. -/
def replace (q : Queue) (index withOther : ℕ) : Option Queue := do
  let old ← q.minHeap[index]?
  let q ← q.removeMapEntry old.value
  let entry ← q.minHeap[withOther]?
  let q ← q.setMapEntry entry.value index
  return { q with minHeap := q.minHeap.set index entry }

/-- The way goes to the root in any case; `offset + 1` rounds are enough. -/
def bubbleUp : ℕ → Queue → ℕ → Option Queue
  | 0, _, _ => none
  | fuel + 1, q, offset =>
    if offset = 0 then some q
    else do
      let parent := (offset - 1) / 2
      let above ← q.minHeap[parent]?
      let entry ← q.minHeap[offset]?
      let q ← if above.priority.toInt > entry.priority.toInt then q.swap parent offset else some q
      bubbleUp fuel q parent

/-- The position of the least of an entry and its children. -/
def smallestIndex (q : Queue) (offset : ℕ) : Option ℕ := do
  let leftChildIndex := 2 * offset + 1
  let left ← q.minHeap[leftChildIndex]?
  let entry ← q.minHeap[offset]?
  let smallest := if left.priority.toInt < entry.priority.toInt then leftChildIndex else offset
  let rightChildIndex := leftChildIndex + 1
  if rightChildIndex < q.size then
    let right ← q.minHeap[rightChildIndex]?
    let least ← q.minHeap[smallest]?
    return if right.priority.toInt < least.priority.toInt then rightChildIndex else smallest
  else return smallest

/-- `size_` rounds are enough. -/
def bubbleDown : ℕ → Queue → ℕ → Option Queue
  | 0, _, _ => none
  | fuel + 1, q, offset =>
    if 2 * offset + 1 < q.size then do
      let smallest ← q.smallestIndex offset
      if offset = smallest then return q
      let q ← q.swap offset smallest
      bubbleDown fuel q smallest
    else some q

/-- `RemoveAt`: the last entry takes the place, and is bubbled down. -/
def removeAt (q : Queue) (offset : ℕ) : Option Queue := do
  if ¬ offset < q.size then none
  let size := q.size - 1
  let q ←
    if offset = size then do
      let entry ← q.minHeap[offset]?
      let q ← q.removeMapEntry entry.value
      pure { q with minHeap := q.minHeap.take size }
    else do
      let q ← q.replace offset size
      let q := { q with minHeap := q.minHeap.take size }
      q.bubbleDown (size + 1) offset
  if size ≤ q.minHeapSize / 4 ∧ kMinimumSize ≤ q.minHeapSize / 2 then q.resize (q.minHeapSize / 2)
  else return q

/-- A new entry; the value must not be there. -/
def insert (q : Queue) (priority value : BitVec 64) : Option Queue := do
  let entry ← q.findMapEntry value
  if entry ≠ none then none
  let q ← if q.size = q.minHeapSize then q.resize (q.minHeapSize * 2) else some q
  let offset := q.size
  let q ← q.set ⟨priority, value⟩
  q.bubbleUp (offset + 1) offset

/-- The entry at the root; the queue must not be empty. -/
def minimum (q : Queue) : Option Entry := q.minHeap[0]?

/-- `RemoveMinimum`. -/
def removeMinimum (q : Queue) : Option Queue := q.removeAt 0

/-- `RemoveByValue`: whether there was such an entry. -/
def removeByValue (q : Queue) (value : BitVec 64) : Option (Bool × Queue) := do
  match ← q.findMapEntry value with
  | some offset =>
    let q ← q.removeAt offset
    if q.hashmap.occupancy = q.size then return (true, q) else none
  | none => return (false, q)

/-- `a - b` as `intptr_t`. -/
def diff (a b : BitVec 64) : Option ℤ :=
  let d := a.toInt - b.toInt
  if -2 ^ 63 ≤ d ∧ d < 2 ^ 63 then some d else none

/-- A new priority for the entry at a position. -/
def changePriority (q : Queue) (offset : ℕ) (priority : BitVec 64) : Option Queue := do
  let entry ← q.minHeap[offset]?
  let q := { q with minHeap := q.minHeap.set offset { entry with priority } }
  if offset = 0 then q.bubbleDown (q.size + 1) offset
  else
    let parent ← q.minHeap[(offset - 1) / 2]?
    let d ← diff priority parent.priority
    if d < 0 then q.bubbleUp (offset + 1) offset
    else if d > 0 then q.bubbleDown (q.size + 1) offset
    else return q

/-- `InsertOrChangePriority`: whether the entry is new. -/
def insertOrChangePriority (q : Queue) (priority value : BitVec 64) : Option (Bool × Queue) := do
  match ← q.findMapEntry value with
  | none => return (true, ← q.insert priority value)
  | some offset => return (false, ← q.changePriority offset priority)

end Queue

/-- The calls on a queue. -/
inductive Op where
  | insert (priority value : BitVec 64)
  | insertOrChangePriority (priority value : BitVec 64)
  | removeByValue (value : BitVec 64)
  | removeMinimum

/-- The queue after a call. -/
def step (q : Queue) : Op → Option Queue
  | .insert priority value => q.insert priority value
  | .insertOrChangePriority priority value => (·.2) <$> q.insertOrChangePriority priority value
  | .removeByValue value => (·.2) <$> q.removeByValue value
  | .removeMinimum => q.removeMinimum

/-- The calls in turn. -/
def run : Queue → List Op → Option Queue := List.foldlM step

end PriorityQueue
