import Mathlib.Data.List.Sort
import DartSdk.Exhaustiveness.Space

/-!
# Exhaustiveness/Checker — the search for a value that no case matches

The checker looks at the first column of a matrix of spaces.  For each single space of the value it
tries the type of that space, and the subtypes of a sealed type only if the type as a whole was not
covered.  A type keeps the rows whose type is above it (`filterByType`), and the columns of the
properties take the place of the first column (`expandProperties`).

Sealed types need not be finite here, so the search takes fuel: `none` means that there was not
enough of it, or that the widths of the rows differ.  `some none` is the `null` of the source — no
witness, all values are covered.
-/

namespace Exhaustiveness

/-! ## The order of keys

The keys are sorted by their class, and within a class by index or by text. -/

/-- The code units of a character. -/
def codeUnits (c : Char) : List ℕ :=
  if c.toNat < 0x10000 then [c.toNat]
  else [0xD800 + (c.toNat - 0x10000) / 0x400, 0xDC00 + (c.toNat - 0x10000) % 0x400]

/-- `String.compareTo`. -/
def compareText (a b : String) : Ordering :=
  compare (a.toList.flatMap codeUnits) (b.toList.flatMap codeUnits)

variable {T C : Type}

/-- The order of the classes of keys. -/
def Key.rank : Key T C → ℕ
  | .headKey _ => 0
  | .restKey _ _ => 1
  | .tailKey _ => 2
  | .mapKey _ _ => 3
  | .recordIndexKey _ => 4
  | .nameKey _ => 5
  | .recordNameKey _ => 5
  | .extensionKey _ _ _ => 6

/-- `compareTo`.  The sizes at the end of a list are compared the other way round. -/
def Key.compareTo (types : Types T C) : Key T C → Key T C → Ordering
  | .headKey index, .headKey index' => compare index index'
  | .restKey headSize tailSize, .restKey headSize' tailSize' =>
    (compare headSize headSize').then (compare tailSize' tailSize)
  | .tailKey index, .tailKey index' => compare index' index
  | .mapKey _ text, .mapKey _ text' => compareText text text'
  | .recordIndexKey index, .recordIndexKey index' => compare index index'
  | .extensionKey receiver name _, .extensionKey receiver' name' _ =>
    (compareText (types.name receiver) (types.name receiver')).then (compareText name name')
  | key, key' =>
    if key.rank = 5 ∧ key'.rank = 5 then
      compareText (key.name?.getD "") (key'.name?.getD "")
    else compare key.rank key'.rank

section

variable [DecidableEq T] [DecidableEq C]

/-- A set of keys, in the order of insertion. -/
def keySet (keys : List (Key T C)) : List (Key T C) :=
  keys.foldl (fun set key => if set.any fun other => other == key then set else set ++ [key]) []

/-- `toList()..sort()`. -/
def sortKeys (types : Types T C) (keys : List (Key T C)) : List (Key T C) :=
  keys.insertionSort fun a b => (a.compareTo types b).isLE = true

end

/-- A type that the value at a path has. -/
structure Predicate (T C : Type) where
  path : List (Key T C)
  staticType : T
  valueType : T

/-- The predicates of a value that no row matches. -/
abbrev Witness (T C : Type) := List (Predicate T C)

/-- A list of witnesses or `null`, if the search has come to an end. -/
abbrev Result (T C : Type) := Option (Option (List (Witness T C)))

/-- The rows of the matrix. -/
abbrev Rows (T C : Type) := List (List (Space T C))

namespace Types

variable (types : Types T C) [DecidableEq T] [DecidableEq C]

/-! ## One type of the first column

The rows that may match a value of the type are kept, and their first spaces are restricted. -/

/-- The type of a property that a pattern does not test. -/
def defaultPropertyType (type : T) (key : Key T C) : T :=
  ((types.getPropertyType type key).or key.extensionType?).getD types.nullableObject

/-- The type of an additional property that a pattern does not test. -/
def defaultAdditionalType (type : T) (key : Key T C) : T :=
  (types.getAdditionalPropertyType type key).getD types.nullableObject

/-- `_expandProperties`: a column for each key, with all values where the space has none. -/
def expandProperties (propertyKeys additionalPropertyKeys : List (Key T C))
    (singleSpace : SingleSpace T C) (type : T) (path : List (Key T C)) : List (Space T C) :=
  propertyKeys.map (fun key => (lookup singleSpace.properties key).getD
    (.ofType (path ++ [key]) (types.defaultPropertyType type key))) ++
  additionalPropertyKeys.map fun key => (lookup singleSpace.additionalProperties key).getD
    (.ofType (path ++ [key]) (types.defaultAdditionalType type key))

/-- The rows that a value of the type must match as far as the type is concerned: the single space
of the first column, and the other columns. -/
def remainingRows (type : T) (caseRows : Rows T C) : List (SingleSpace T C × List (Space T C)) :=
  caseRows.flatMap fun row =>
    match row with
    | [] => []
    | firstSpace :: rest =>
      (firstSpace.singleSpaces.filter fun s => types.isSubtypeOf type s.type).map (·, rest)

/-- The keys of the properties of the value and of the rows. -/
def expandedKeys (map : SingleSpace T C → List (Key T C × Space T C)) (value : SingleSpace T C)
    (rows : List (SingleSpace T C × List (Space T C))) : List (Key T C) :=
  sortKeys types (keySet ((map value).map Prod.fst ++
    rows.flatMap fun row => (map row.1).map Prod.fst))

/-- `_filterByType`, where `unmatched` searches in the expanded matrix. -/
def filterByType (unmatched : Rows T C → List (Space T C) → Witness T C → Bool → Result T C)
    (contextType type : T) (caseRows : Rows T C) (firstValue : SingleSpace T C)
    (restValues : List (Space T C)) (witnessPredicates : Witness T C) (path : List (Key T C))
    (returnMultipleWitnesses : Bool) : Result T C :=
  let rows := types.remainingRows type caseRows
  let propertyKeys := types.expandedKeys SingleSpace.properties firstValue rows
  let additionalPropertyKeys := types.expandedKeys SingleSpace.additionalProperties firstValue rows
  unmatched
    (rows.map fun row =>
      types.expandProperties propertyKeys additionalPropertyKeys row.1 row.1.type path ++ row.2)
    (types.expandProperties propertyKeys additionalPropertyKeys firstValue type path ++ restValues)
    (witnessPredicates ++ [⟨path, contextType, type⟩]) returnMultipleWitnesses

/-- The loop over the stack of types; `filter` looks for the witnesses of a type. -/
def exhaustTypes (filter : T → Result T C) (keysOfInterest : List (Key T C))
    (returnMultipleWitnesses : Bool) : ℕ → List T → Option (List (Witness T C)) → Result T C
  | 0, _, _ => none
  | _ + 1, [], witnesses => some witnesses
  | fuel + 1, type :: stack, witnesses =>
    let next := exhaustTypes filter keysOfInterest returnMultipleWitnesses fuel
    -- Don't try to exhaust the Never type.
    if types.isSubtypeOf type types.neverType then next stack witnesses
    else
      match filter type with
      | none => none
      | some none => next stack witnesses
      | some (some result) =>
        -- The witnesses of a sealed type are not used, those of its subtypes are.
        if types.isSealed type then next (stack ++ types.getSubtypes type keysOfInterest) witnesses
        else
          let witnesses := witnesses.getD [] ++ result
          if returnMultipleWitnesses then next stack (some witnesses) else some (some witnesses)

/-- The loop over the single spaces of the first value. -/
def exhaustSpaces (exhaust : SingleSpace T C → Result T C) : List (SingleSpace T C) → Result T C
  | [] => some none
  | singleSpace :: singleSpaces =>
    match exhaust singleSpace with
    | some none => exhaustSpaces exhaust singleSpaces
    | result => result

/-- The additional keys of the first column. -/
def keysOfInterest (caseRows : Rows T C) : List (Key T C) :=
  keySet (caseRows.flatMap fun row => row.head?.toList.flatMap fun firstSpace =>
    firstSpace.singleSpaces.flatMap fun s => s.additionalProperties.map Prod.fst)

/-- `_unmatched`: the witnesses of values that the rows do not match. -/
def unmatched : ℕ → Rows T C → List (Space T C) → Witness T C → Bool → Result T C
  | 0, _, _, _, _ => none
  | fuel + 1, caseRows, valuePatterns, witnessPredicates, returnMultipleWitnesses =>
    if caseRows.any fun row => row.length ≠ valuePatterns.length then none
    else
      match valuePatterns with
      | [] => if caseRows.isEmpty then some (some [witnessPredicates]) else some none
      | firstValuePatterns :: restValues =>
        if caseRows.isEmpty && !returnMultipleWitnesses then some (some [witnessPredicates])
        else exhaustSpaces (fun firstValuePattern =>
          types.exhaustTypes (fun type =>
              types.filterByType (unmatched fuel) firstValuePattern.type type caseRows
                firstValuePattern restValues witnessPredicates firstValuePatterns.path false)
            (keysOfInterest caseRows) returnMultipleWitnesses fuel [firstValuePattern.type] none)
          firstValuePatterns.singleSpaces

/-- The loop of `computeExhaustiveness`: the rows of the cases without a guard, and the indices of
the cases that the rows before them cover. -/
def caseUnreachabilities (fuel : ℕ) : ℕ → Rows T C → List ℕ → List (Bool × Space T C) →
    Option (Rows T C × List ℕ)
  | _, caseRows, unreachable, [] => some (caseRows, unreachable)
  | i, caseRows, unreachable, (isGuarded, caseSpace) :: cases =>
    let unreachable? := if i = 0 then some unreachable else
      Option.map (fun result => if result.isNone then unreachable ++ [i] else unreachable)
        (types.unmatched fuel caseRows [caseSpace] [] false)
    unreachable?.bind fun unreachable => caseUnreachabilities fuel (i + 1)
      (if isGuarded then caseRows else caseRows ++ [[caseSpace]]) unreachable cases

/-- `computeExhaustiveness`: the witnesses of values without a case, and the unreachable cases. -/
def computeExhaustiveness (fuel : ℕ) (valueType : T) (cases : List (Bool × Space T C)) :
    Option (Option (List (Witness T C)) × List ℕ) :=
  (types.caseUnreachabilities fuel 0 [] [] cases).bind fun (caseRows, unreachable) =>
    Option.map (·, unreachable) (types.unmatched fuel caseRows [.ofType [] valueType] [] true)

end Types

end Exhaustiveness
