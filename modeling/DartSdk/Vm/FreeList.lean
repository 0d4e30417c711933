import DartSdk.Vm.BitSet

/-!
# Vm/FreeList — the free lists of old space

Blocks of less than 128 units are kept in lists of one size each, with a bit per list in `freeMap`
and the largest of these sizes in `lastFreeSmallSize`; larger blocks share the last list, which is
searched within a budget.  A list is the chain of its elements, and an element is its address with
the size that its header holds.  `none` is a null pointer followed or a remainder that is no block.

The incremental compactor removes the elements of evacuated pages and rebuilds `freeMap`
(`pruneFreeLists`); **it leaves `lastFreeSmallSize` as it is.**
-/

namespace FreeList

/-- `kWordSizeLog2` of a 64-bit target, and its object alignment. -/
def kWordSizeLog2 : ℕ := 3
def kObjectAlignmentLog2 : ℕ := 4
def kObjectAlignment : ℕ := 16

/-- `SizeTag::kMaxSizeTag`: four bits, in units of the alignment. -/
def kMaxSizeTag : ℕ := 15 * kObjectAlignment

/-- A free block; a size that does not fit in the tag is embedded after the header. -/
structure Element where
  addr : ℕ
  sizeTag : ℕ
  embeddedSize : Option ℕ
  deriving DecidableEq

/-- `HeapSize`: from the tag, or from the word that a large element has for it. -/
def Element.heapSize (e : Element) : ℕ :=
  let size := e.sizeTag <<< kObjectAlignmentLog2
  if size ≠ 0 then size else e.embeddedSize.getD 0

/-- `FreeListElement::AsElement`. -/
def asElement (addr size : ℕ) : Element where
  addr := addr
  sizeTag := if size ≤ kMaxSizeTag then size >>> kObjectAlignmentLog2 else 0
  embeddedSize := if size > kMaxSizeTag then some size else none

/-! ## Lists

Small blocks are in a list of their size; all others are in the last list. -/

/-- `kNumLists`: one list for each small size, and one more for all others. -/
def kNumLists : ℕ := 128
def kInitialFreeListSearchBudget : ℤ := 1000

/-- `FreeList`: the lists by index, the set of those that are not empty, and the search budget. -/
structure Lists where
  freeMap : BitSet 2
  freeLists : ℕ → List Element
  freelistSearchBudget : ℤ
  lastFreeSmallSize : ℤ

/-- `IndexForSize`. -/
def indexForSize (size : ℕ) : ℕ :=
  let index := size >>> kObjectAlignmentLog2
  if index ≥ kNumLists then kNumLists else index

namespace Lists

/-- `Reset`. -/
def reset (s : Lists) : Lists :=
  { s with freeMap := .reset, lastFreeSmallSize := -1, freeLists := fun _ => [] }

/-- The constructor. -/
def new : Lists := reset ⟨.reset, fun _ => [], kInitialFreeListSearchBudget, -1⟩

/-- `EnqueueElement`. -/
def enqueueElement (s : Lists) (element : Element) (index : ℕ) : Lists :=
  let next := s.freeLists index
  let s :=
    if next = [] ∧ index ≠ kNumLists then
      { s with
        freeMap := s.freeMap.set index true
        lastFreeSmallSize := max s.lastFreeSmallSize (index <<< kObjectAlignmentLog2 : ℕ) }
    else s
  { s with freeLists := Function.update s.freeLists index (element :: next) }

/-- `DequeueElement`. -/
def dequeueElement (s : Lists) (index : ℕ) : Option (Element × Lists) :=
  match s.freeLists index with
  | [] => none
  | result :: next =>
    let s :=
      if next = [] ∧ index ≠ kNumLists then
        let size := index <<< kObjectAlignmentLog2
        if (size : ℤ) = s.lastFreeSmallSize then
          let (last, freeMap) := s.freeMap.clearLastAndFindPrevious index
          { s with freeMap, lastFreeSmallSize := last * kObjectAlignment }
        else { s with freeMap := s.freeMap.set index false }
      else s
    some (result, { s with freeLists := Function.update s.freeLists index next })

/-- `SplitElementAfterAndEnqueue`: the rest of an element goes back to the lists. -/
def splitElementAfterAndEnqueue (s : Lists) (element : Element) (size : ℕ) : Option Lists :=
  if element.heapSize < size then none
  else
    let remainderSize := element.heapSize - size
    if remainderSize = 0 then some s
    else
      let remainder := asElement (element.addr + size) remainderSize
      some (s.enqueueElement remainder (indexForSize remainderSize))

/-- Free `size` bytes at `addr`. -/
def free (s : Lists) (addr size : ℕ) : Lists :=
  s.enqueueElement (asElement addr size) (indexForSize size)

/-! ## Allocation

A small request is served from the list of its size or from a larger block, which is split. -/

/-- What both allocation functions do with the lists of small blocks: a block from the list of the
size, or the first part of one from the next list.  The result is `some none` if there is none. -/
def allocateSmall (s : Lists) (size : ℕ) : Option (Option (ℕ × Lists)) := do
  let index := indexForSize size
  if index ≠ kNumLists ∧ s.freeMap.test index = true then
    let (element, s) ← s.dequeueElement index
    return some (element.addr, s)
  if index + 1 < kNumLists then
    let nextIndex := s.freeMap.next (index + 1)
    if nextIndex ≠ -1 then
      let (element, s) ← s.dequeueElement nextIndex.toNat
      let s ← s.splitElementAfterAndEnqueue element size
      return some (element.addr, s)
  return none

/-- How the search in the last list ends. -/
inductive Search where
  | found (element : Element) (others : List Element) (triesLeft : ℤ)
  | outOfTries
  | notFound

/-- The search for an element of at least `size` bytes. -/
def search (size : ℕ) : List Element → ℤ → Search
  | [], _ => .notFound
  | current :: next, triesLeft =>
    if current.heapSize ≥ size then .found current next triesLeft
    else if triesLeft < 0 then .outOfTries
    else
      match search size next (triesLeft - 1) with
      | .found element others triesLeft => .found element (current :: others) triesLeft
      | result => result

/-- How many large elements a search may look at. -/
def triesLeft (s : Lists) (size : ℕ) : ℤ := s.freelistSearchBudget + (size >>> kWordSizeLog2 : ℕ)

/-- The large elements without the one that was taken. -/
def unlinkLarge (s : Lists) (others : List Element) : Lists :=
  { s with freeLists := Function.update s.freeLists kNumLists others }

/-- `TryAllocateLocked`; the address is `none` for the result `0`. -/
def tryAllocate (s : Lists) (size : ℕ) : Option (Option ℕ × Lists) := do
  match ← s.allocateSmall size with
  | some (addr, s) => return (some addr, s)
  | none =>
    match search size (s.freeLists kNumLists) (s.triesLeft size) with
    | .found current others triesLeft =>
      let s ← (s.unlinkLarge others).splitElementAfterAndEnqueue current size
      return (some current.addr,
        { s with freelistSearchBudget := min triesLeft kInitialFreeListSearchBudget })
    | .outOfTries => return (none, { s with freelistSearchBudget := kInitialFreeListSearchBudget })
    | .notFound => return (none, s)

/-- `TryAllocateSmallLocked`. -/
def tryAllocateSmall (s : Lists) (size : ℕ) : Option (Option ℕ × Lists) := do
  if size > s.lastFreeSmallSize then return (none, s)
  match ← s.allocateSmall size with
  | some (addr, s) => return (some addr, s)
  | none => return (none, s)

/-- `TryAllocateLargeLocked`. -/
def tryAllocateLarge (s : Lists) (minimumSize : ℕ) : Option Element × Lists :=
  match search minimumSize (s.freeLists kNumLists) (s.triesLeft minimumSize) with
  | .found current others triesLeft =>
    (some current, { s.unlinkLarge others with
      freelistSearchBudget := min triesLeft kInitialFreeListSearchBudget })
  | .outOfTries => (none, { s with freelistSearchBudget := kInitialFreeListSearchBudget })
  | .notFound => (none, s)

/-- `kPageSize`. -/
def kPageSize : ℕ := 2 * 1024 * 1024

/-- `Page::Of`. -/
def pageOf (addr : ℕ) : ℕ := addr - addr % kPageSize

-- the pages with `is_evacuation_candidate`
variable (isEvacuationCandidate : ℕ → Bool)

/-- The loop over one list; the elements that stay are chained in the other order. -/
def pruneChunk : List Element → List Element → List Element
  | [], kept => kept
  | current :: next, kept =>
    if isEvacuationCandidate (pageOf current.addr) then pruneChunk next kept
    else pruneChunk next (current :: kept)

/-- `free_map_` made anew. -/
def rebuildMap (freeLists : ℕ → List Element) (freeMap : BitSet 2) : ℕ → BitSet 2
  | 0 => freeMap
  | j + 1 => (rebuildMap freeLists freeMap j).set j (!(freeLists j).isEmpty)

/-- `PruneFreeLists`, and the end of `SelectEvacuationCandidates`. -/
def pruneFreeLists (s : Lists) : Lists :=
  let freeLists := fun i => pruneChunk isEvacuationCandidate (s.freeLists i) []
  { s with freeLists, freeMap := rebuildMap freeLists .reset kNumLists }

end Lists

end FreeList
