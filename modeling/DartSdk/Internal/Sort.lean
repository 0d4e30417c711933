import DartSdk.Lib.Wp

/-!
# Internal/Sort — the dual-pivot quicksort of `dart:_internal`

`Sort.sort` and `Sort.sortRange` of `sort.dart`.  A list is its elements together with the indices
accessed so far; an access out of bounds fails, and so does a run that outgrows its fuel.  The long
body of `_dualPivotQuicksort` is cut at its comments: the five-element network, the three
partitioning loops, and the move of the pivots into place.
-/

namespace DartSort

open Prog

/-- The list being sorted: its elements, and the indices read or written so far. -/
structure DartList (E : Type) where
  elems : List E
  accessed : List ℤ

section

variable {E : Type}

/-- `a[i]`. -/
def getAt (i : ℤ) : Prog (DartList E) E := fun a =>
  if 0 ≤ i then a.elems[i.toNat]?.map fun x => (x, { a with accessed := i :: a.accessed })
  else none

/-- `a[i] = x`. -/
def setAt (i : ℤ) (x : E) : Prog (DartList E) Unit := fun a =>
  if 0 ≤ i ∧ i.toNat < a.elems.length then
    some ((), ⟨a.elems.set i.toNat x, i :: a.accessed⟩)
  else none

end

variable {E : Type} (compare : E → E → ℤ)

/-- When a list has less elements, it is sorted by an insertion sort. -/
def insertionSortThreshold : ℤ := 32

/-- `_insertionSort`: the elements before `i` are sorted, and `el` sinks into them. -/
def insertionSort (fuel : ℕ) (left right : ℤ) : Prog (DartList E) Unit :=
  loop fuel (fun i => do
    if i ≤ right then
      let el ← getAt i
      let j ← loop fuel (fun j => do
        if left < j then
          if compare (← getAt (j - 1)) el > 0 then
            setAt j (← getAt (j - 1))
            return .inl (j - 1)
          else return .inr j
        else return .inr j) i
      setAt j el
      return .inl (i + 1)
    else return .inr ()) (left + 1)

/-- One comparator of the sorting network. -/
def exchange (x y : E) : E × E := if compare x y > 0 then (y, x) else (x, y)

/-- The network that sorts the five selected elements. -/
def sortFive (el1 el2 el3 el4 el5 : E) : E × E × E × E × E :=
  let (el1, el2) := exchange compare el1 el2
  let (el4, el5) := exchange compare el4 el5
  let (el1, el3) := exchange compare el1 el3
  let (el2, el3) := exchange compare el2 el3
  let (el1, el4) := exchange compare el1 el4
  let (el3, el4) := exchange compare el3 el4
  let (el2, el5) := exchange compare el2 el5
  let (el2, el3) := exchange compare el2 el3
  let (el4, el5) := exchange compare el4 el5
  (el1, el2, el3, el4, el5)

/-! ## Partitioning

The three loops share their exchanges: `ak` is the element at `k`. -/

section

variable {E : Type}

/-- `ak` joins the first part, which grows by one. -/
def exchangeLess (k less : ℤ) (ak : E) : Prog (DartList E) Unit := do
  if k ≠ less then
    setAt k (← getAt less)
    setAt less ak

/-- `ak` joins the last part, in exchange for `a[great]`. -/
def exchangeGreat (k great : ℤ) (ak : E) : Prog (DartList E) Unit := do
  setAt k (← getAt great)
  setAt great ak

/-- `ak` joins the last part, in exchange for an `a[great]` that joins the first. -/
def tripleExchange (k less great : ℤ) (ak : E) : Prog (DartList E) Unit := do
  setAt k (← getAt less)
  setAt less (← getAt great)
  setAt great ak

end

/-- The degenerated case of equal pivots: a Dutch national flag. -/
def partitionEqual (fuel : ℕ) (pivot : E) (less great : ℤ) : Prog (DartList E) (ℤ × ℤ) :=
  loop fuel (fun (k, less, great) => do
    if k ≤ great then
      let ak ← getAt k
      let comp := compare ak pivot
      if comp = 0 then return .inl (k + 1, less, great)
      else if comp < 0 then
        exchangeLess k less ak
        return .inl (k + 1, less + 1, great)
      else
        -- unguarded: an element equal to the pivot stops the search
        let (less, great) ← loop fuel (fun great => do
          let comp := compare (← getAt great) pivot
          if comp > 0 then return .inl (great - 1)
          else if comp < 0 then
            tripleExchange k less great ak
            return .inr (less + 1, great - 1)
          else
            exchangeGreat k great ak
            return .inr (less, great - 1)) great
        return .inl (k + 1, less, great)
    else return .inr (less, great)) (less, less, great)

/-- The three-way partitioning loop, which the source has twice.  `isLow` and `isHigh` are asked of
`ak`, `isHigh` and then `isLow'` of `a[great]`. -/
def partitionLoop (isLow isHigh isLow' : E → Bool) (fuel : ℕ) (less great : ℤ) :
    Prog (DartList E) (ℤ × ℤ) :=
  loop fuel (fun (k, less, great) => do
    if k ≤ great then
      let ak ← getAt k
      if isLow ak then
        exchangeLess k less ak
        return .inl (k + 1, less + 1, great)
      else if isHigh ak then
        let (less, great) ← loop fuel (fun great => do
          if isHigh (← getAt great) then
            if great - 1 < k then return .inr (less, great - 1)
            else return .inl (great - 1)
          else if isLow' (← getAt great) then
            tripleExchange k less great ak
            return .inr (less + 1, great - 1)
          else
            exchangeGreat k great ak
            return .inr (less, great - 1)) great
        return .inl (k + 1, less, great)
      else return .inl (k + 1, less, great)
    else return .inr (less, great)) (less, less, great)

/-- The partition into `< pivot1`, between the pivots, and `> pivot2`. -/
def partition (fuel : ℕ) (pivot1 pivot2 : E) (less great : ℤ) : Prog (DartList E) (ℤ × ℤ) :=
  partitionLoop (compare · pivot1 < 0) (compare · pivot2 > 0) (compare · pivot1 < 0) fuel less great

/-- The second partitioning pass: a large middle part loses its elements equal to a pivot.  The
copied loop asks `a[great] < pivot1` where its comment says `a[great] == pivot1`. -/
def partitionMiddle (fuel : ℕ) (pivot1 pivot2 : E) (less great : ℤ) :
    Prog (DartList E) (ℤ × ℤ) := do
  let less ← loop fuel (fun less => do
    if compare (← getAt less) pivot1 = 0 then return .inl (less + 1) else return .inr less) less
  let great ← loop fuel (fun great => do
    if compare (← getAt great) pivot2 = 0 then return .inl (great - 1) else return .inr great) great
  partitionLoop (compare · pivot1 = 0) (compare · pivot2 = 0) (compare · pivot1 < 0) fuel less great

/-- The choice of the pivots: five elements are sorted, the second and the fourth are taken out of
the list, and the first and the last element of the range take their places. -/
def takePivots (left right : ℤ) : Prog (DartList E) (E × E) := do
  let sixth := (right - left + 1).tdiv 6
  let index1 := left + sixth
  let index5 := right - sixth
  let index3 := (left + right).tdiv 2
  let index2 := index3 - sixth
  let index4 := index3 + sixth
  let el1 ← getAt index1
  let el2 ← getAt index2
  let el3 ← getAt index3
  let el4 ← getAt index4
  let el5 ← getAt index5
  let (el1, el2, el3, el4, el5) := sortFive compare el1 el2 el3 el4 el5
  setAt index1 el1
  setAt index3 el3
  setAt index5 el5
  setAt index2 (← getAt left)
  setAt index4 (← getAt right)
  return (el2, el4)

/-- The pivots go back, between the partitions. -/
def putPivots (left right : ℤ) (pivot1 pivot2 : E) (less great : ℤ) : Prog (DartList E) Unit := do
  setAt left (← getAt (less - 1))
  setAt (less - 1) pivot1
  setAt right (← getAt (great + 1))
  setAt (great + 1) pivot2

/-- `_dualPivotQuicksort`, with `doSort` for the recursive descent. -/
def dualPivotQuicksort (doSort : ℤ → ℤ → Prog (DartList E) Unit) (fuel : ℕ) (left right : ℤ) :
    Prog (DartList E) Unit := do
  let (pivot1, pivot2) ← takePivots compare left right
  let pivotsAreEqual := compare pivot1 pivot2 = 0
  let (less, great) ←
    if pivotsAreEqual then partitionEqual compare fuel pivot1 (left + 1) (right - 1)
    else partition compare fuel pivot1 pivot2 (left + 1) (right - 1)
  putPivots left right pivot1 pivot2 less great
  doSort left (less - 2)
  doSort (great + 2) right
  if pivotsAreEqual then return ()
  else
    let sixth := (right - left + 1).tdiv 6
    if less < left + sixth ∧ great > right - sixth then
      let (less, great) ← partitionMiddle compare fuel pivot1 pivot2 less great
      doSort less great
    else doSort less great

/-- `_doSort`: the range is inclusive on both sides. -/
def doSort : ℕ → ℤ → ℤ → Prog (DartList E) Unit
  | 0, _, _ => failure
  | fuel + 1, left, right =>
    if right - left ≤ insertionSortThreshold then insertionSort compare fuel left right
    else dualPivotQuicksort compare (doSort fuel) fuel left right

/-- `Sort.sort`. -/
def sort (fuel : ℕ) : Prog (DartList E) Unit := do
  doSort compare fuel 0 ((← get).elems.length - 1)

/-- `Sort.sortRange`: the elements from `start` up to, but not including, `stop`. -/
def sortRange (fuel : ℕ) (start stop : ℤ) : Prog (DartList E) Unit := do
  if start < 0 ∨ stop > (← get).elems.length ∨ stop < start then failure
  else doSort compare fuel start (stop - 1)

end DartSort
