import Mathlib.Data.BitVec

/-!
# Vm/HashMap — `SimpleHashMap`

A hash map with linear probing.  A slot with a null key is empty.  The map grows to twice its
capacity when it is four fifths full, and a removal moves later entries back, so that a search never
meets an empty slot before its key.

A slot is named by its index, and `none` is a failed assertion or an index that is out of bounds.
The keys are pointers that are matched by equality, and the values are offsets.
-/

/-- An entry of the table: a key that is not null, its value and its full hash value. -/
structure Slot where
  key : BitVec 64
  value : ℕ
  hash : ℕ
  deriving DecidableEq

namespace Slot

/-- `Entry()`. -/
def empty : Slot := ⟨0, 0, 0⟩

/-- The slot has an entry. -/
def Used (s : Slot) : Prop := s.key ≠ 0

instance (s : Slot) : Decidable s.Used := inferInstanceAs (Decidable (_ ≠ _))

end Slot

/-- `SimpleHashMap`. -/
structure HashMap where
  slots : List Slot
  occupancy : ℕ
  deriving DecidableEq

namespace HashMap

/-- `Initialize`. -/
def initialized (capacity : ℕ) : HashMap := ⟨List.replicate capacity .empty, 0⟩

/-- `capacity_`. -/
def capacity (m : HashMap) : ℕ := m.slots.length

/-- The next slot, with a wrap at the end of the array. -/
def advance (capacity p : ℕ) : ℕ := if p + 1 = capacity then 0 else p + 1

/-- Where the search for a hash value starts. -/
def startOf (capacity hash : ℕ) : ℕ := hash &&& (capacity - 1)

/-- The loop of `Probe`; the capacity is fuel enough. -/
def probeLoop (slots : List Slot) (key : BitVec 64) (hash : ℕ) : ℕ → ℕ → Option ℕ
  | 0, _ => none
  | fuel + 1, p => do
    let s ← slots[p]?
    if s.Used ∧ (hash ≠ s.hash ∨ key ≠ s.key) then
      probeLoop slots key hash fuel (advance slots.length p)
    else some p

/-- `Probe`: the slot of the key, or an empty one. -/
def probe (m : HashMap) (key : BitVec 64) (hash : ℕ) : Option ℕ :=
  if key ≠ 0 ∧ m.occupancy < m.capacity then
    probeLoop m.slots key hash m.capacity (startOf m.capacity hash)
  else none

/-- `Lookup` without an insertion: the slot, if the key is there. -/
def lookup (m : HashMap) (key : BitVec 64) (hash : ℕ) : Option (Option ℕ) := do
  let p ← m.probe key hash
  let s ← m.slots[p]?
  return if s.Used then some p else none

/-- The value of a slot is replaced. -/
def setValue (m : HashMap) (p value : ℕ) : Option HashMap := do
  let s ← m.slots[p]?
  return { m with slots := m.slots.set p { s with value } }

/-- The loop of `Resize` over the old slots.  It stops after as many entries as there are; the slots
after them are empty. -/
def rehash (lookup : HashMap → BitVec 64 → ℕ → Option (ℕ × HashMap)) :
    List Slot → HashMap → Option HashMap
  | [], m => some m
  | s :: slots, m =>
    if s.Used then do
      let (p, m) ← lookup m s.key s.hash
      rehash lookup slots (← m.setValue p s.value)
    else rehash lookup slots m

/-- `Resize`. -/
def resize (lookup : HashMap → BitVec 64 → ℕ → Option (ℕ × HashMap)) (m : HashMap) :
    Option HashMap :=
  rehash lookup m.slots (initialized (m.capacity * 2))

/-- `Lookup` with an insertion: the slot of the key.  It calls `Resize`, which calls `Lookup` again;
the first argument is the number of calls of `Resize` that may be nested. -/
def lookupInsert : ℕ → HashMap → BitVec 64 → ℕ → Option (ℕ × HashMap)
  | nested, m, key, hash => do
    let p ← m.probe key hash
    let s ← m.slots[p]?
    if s.Used then return (p, m)
    let m : HashMap := ⟨m.slots.set p ⟨key, 0, hash⟩, m.occupancy + 1⟩
    if m.occupancy + m.occupancy / 4 ≥ m.capacity then
      match nested with
      | 0 => none
      | nested + 1 =>
        let m ← resize (lookupInsert nested) m
        let p ← m.probe key hash
        return (p, m)
    else return (p, m)

/-- `Lookup(key, hash, true)->value = value`; in a map of twice the capacity nothing grows. -/
def store (m : HashMap) (key : BitVec 64) (hash value : ℕ) : Option HashMap := do
  let (p, m) ← lookupInsert 1 m key hash
  m.setValue p value

/-- The loop of `Remove`: the slots after the moves, and the one to clear. -/
def removeLoop : ℕ → List Slot → ℕ → ℕ → Option (List Slot × ℕ)
  | 0, _, _, _ => none
  | fuel + 1, slots, candidate, next => do
    let next := advance slots.length next
    let s ← slots[next]?
    if s.Used then
      let start := startOf slots.length s.hash
      if next > candidate ∧ (start ≤ candidate ∨ start > next) ∨
          next < candidate ∧ (start ≤ candidate ∧ start > next) then
        removeLoop fuel (slots.set candidate s) next next
      else removeLoop fuel slots candidate next
    else return (slots, candidate)

/-- `Remove`. -/
def remove (m : HashMap) (key : BitVec 64) (hash : ℕ) : Option HashMap := do
  let candidate ← m.probe key hash
  let s ← m.slots[candidate]?
  if s.Used then
    if m.occupancy < m.capacity then
      let (slots, candidate) ← removeLoop m.capacity m.slots candidate candidate
      let s ← slots[candidate]?
      return ⟨slots.set candidate { s with key := 0 }, m.occupancy - 1⟩
    else none
  else return m

end HashMap
