import Mathlib.Tactic

/-!
# Exhaustiveness/Space — spaces of values, and how patterns build them

A pattern of a switch is turned into a space: a union of single spaces, each with a type, the
subspaces of its properties, and *additional* properties for the elements of lists and the entries
of maps.

A logical-or pattern joins two spaces (`Space.union`), a logical-and pattern intersects them
(`Types.createSpaceIntersection`).

Types and their operations are given (`Types`), as the source leaves them to its clients.
Assertions about paths are left out: they are not checked in production.
-/

namespace Exhaustiveness

/-- The keys of properties.  `T` is the type of static types, `C` that of the constants of map
keys. -/
inductive Key (T C : Type) where
  | mapKey (value : C) (valueAsText : String)
  | headKey (index : ℕ)
  | tailKey (index : ℕ)
  | restKey (headSize tailSize : ℕ)
  | nameKey (name : String)
  | recordIndexKey (index : ℕ)
  | recordNameKey (name : String)
  | extensionKey (receiverType : T) (name : String) (type : T)

namespace Key

variable {T C : Type}

/-- The name of a `NameKey`, and of its subclasses. -/
def name? : Key T C → Option String
  | nameKey name => some name
  | recordIndexKey index => some (String.append "$" (toString (index + 1)))
  | recordNameKey name => some name
  | _ => none

/-- `operator ==`: the text of a map key and the type of an extension key do not count. -/
protected def beq [DecidableEq T] [DecidableEq C] : Key T C → Key T C → Bool
  | mapKey value _, mapKey value' _ => value = value'
  | headKey index, headKey index' => index = index'
  | tailKey index, tailKey index' => index = index'
  | restKey headSize tailSize, restKey headSize' tailSize' =>
    headSize = headSize' ∧ tailSize = tailSize'
  | extensionKey receiver name _, extensionKey receiver' name' _ =>
    receiver = receiver' ∧ name = name'
  | a, b =>
    match a.name?, b.name? with
    | some name, some name' => name = name'
    | _, _ => false

instance [DecidableEq T] [DecidableEq C] : BEq (Key T C) := ⟨Key.beq⟩

/-- The type of an extension key. -/
def extensionType? : Key T C → Option T
  | extensionKey _ _ type => some type
  | _ => none

end Key

/-- The interface `StaticType`, with the lookup of the members of `Object` fixed. -/
structure Types (T C : Type) where
  neverType : T
  nullType : T
  nullableObject : T
  unknownType : T
  name : T → String
  isSubtypeOf : T → T → Bool
  isSealed : T → Bool
  nullable : T → T
  getSubtypes : T → List (Key T C) → List T
  getPropertyType : T → Key T C → Option T
  getAdditionalPropertyType : T → Key T C → Option T

/-! ## Spaces -/

mutual

/-- A type, and the subspaces of properties and additional properties. -/
inductive SingleSpace (T C : Type) where
  | mk (type : T) (properties : List (Key T C × Space T C))
      (additionalProperties : List (Key T C × Space T C))

/-- A union of single spaces.  Two spaces are equal if they are the same object: `identity` is the
name of an object that may be met again, and a new object has none. -/
inductive Space (T C : Type) where
  | mk (identity : Option ℕ) (path : List (Key T C)) (singleSpaces : List (SingleSpace T C))

end

variable {T C : Type}

namespace SingleSpace

/-- The static type of the values. -/
def type : SingleSpace T C → T
  | mk type _ _ => type

/-- The constraints on properties. -/
def properties : SingleSpace T C → List (Key T C × Space T C)
  | mk _ properties _ => properties

/-- The constraints on keys, elements and tails. -/
def additionalProperties : SingleSpace T C → List (Key T C × Space T C)
  | mk _ _ additionalProperties => additionalProperties

end SingleSpace

namespace Space

/-- Which object a space is, if it is shared. -/
def identity : Space T C → Option ℕ
  | mk identity _ _ => identity

/-- Where the space stands in its scrutinee. -/
def path : Space T C → List (Key T C)
  | mk _ path _ => path

/-- The spaces that it is the union of. -/
def singleSpaces : Space T C → List (SingleSpace T C)
  | mk _ _ singleSpaces => singleSpaces

/-- The space of a type, without properties. -/
def ofType (path : List (Key T C)) (type : T) : Space T C := mk none path [.mk type [] []]

/-- `identical`. -/
def identical (a b : Space T C) : Bool := a.identity.isSome && a.identity = b.identity

theorem sizeOf_property_lt {a : Space T C} {s : SingleSpace T C} {entry : Key T C × Space T C}
    (hs : s ∈ a.singleSpaces) (hentry : entry ∈ s.properties) : sizeOf entry.2 < sizeOf a := by
  have hsizes := List.sizeOf_lt_of_mem hs
  have hsizep := List.sizeOf_lt_of_mem hentry
  obtain ⟨identity, path, singleSpaces⟩ := a
  obtain ⟨type, properties, additional⟩ := s
  obtain ⟨key, space⟩ := entry
  simp only [Space.singleSpaces, SingleSpace.properties, Prod.mk.sizeOf_spec,
    SingleSpace.mk.sizeOf_spec, Space.mk.sizeOf_spec] at *
  omega

end Space

variable [DecidableEq T] [DecidableEq C]

/-- The value of a key in a map. -/
def lookup {α : Type} (map : List (Key T C × α)) (key : Key T C) : Option α :=
  (map.find? fun entry => entry.1 == key).map Prod.snd

/-- `operator ==` of single spaces. -/
def SingleSpace.eq (a b : SingleSpace T C) : Bool :=
  a.type = b.type && a.properties.length = b.properties.length &&
    a.properties.all fun entry =>
      match lookup b.properties entry.1 with
      | some space => entry.2.identical space
      | none => false

namespace Types

variable (types : Types T C)

/-- `SingleSpace.empty`. -/
def empty : SingleSpace T C := .mk types.neverType [] []

/-- The loop over the single spaces: a set, in the order of insertion, without the empty space. -/
def distinct : List (SingleSpace T C) → List (SingleSpace T C) → List (SingleSpace T C)
  | set, [] => set
  | set, s :: singleSpaces =>
    if s.eq types.empty then distinct set singleSpaces
    else if set.any fun t => t.eq s then distinct set singleSpaces
    else distinct (set ++ [s]) singleSpaces

/-- A pair of `Null` and another type becomes one nullable type. -/
def collapse : List (SingleSpace T C) → List (SingleSpace T C)
  | [] => [types.empty]
  | [s, t] =>
    if s.type = types.nullType ∧ s.properties.isEmpty ∧ t.properties.isEmpty then
      [.mk (types.nullable t.type) [] []]
    else if t.type = types.nullType ∧ t.properties.isEmpty ∧ s.properties.isEmpty then
      [.mk (types.nullable s.type) [] []]
    else [s, t]
  | singleSpaces => singleSpaces

/-- `Space.fromSingleSpaces`: equal and empty ones are dropped, and some pairs become one. -/
def fromSingleSpaces (path : List (Key T C)) (singleSpaces : List (SingleSpace T C)) : Space T C :=
  .mk none path (types.collapse (types.distinct [] singleSpaces))

/-- `union`. -/
def union (a b : Space T C) : Space T C :=
  types.fromSingleSpaces a.path (a.singleSpaces ++ b.singleSpaces)

/-- The type of an intersection, if one of the types is below the other. -/
def intersectionType (a b : T) : Option T :=
  if types.isSubtypeOf a b then some a else if types.isSubtypeOf b a then some b else none

/-- `_createSpaceIntersection`, with `_createSingleSpaceIntersection` for the pairs of single
spaces. A key of both has the intersection of its spaces, another one the space there is. -/
def createSpaceIntersection (path : List (Key T C)) (a b : Space T C) : Space T C :=
  let meets := a.singleSpaces.attach.flatMap fun ⟨s, hs⟩ => b.singleSpaces.map fun t =>
    (types.intersectionType s.type t.type).map fun type =>
      SingleSpace.mk type
        (s.properties.attach.map (fun ⟨entry, _⟩ =>
          (entry.1, ((lookup t.properties entry.1).map fun space =>
            createSpaceIntersection (path ++ [entry.1]) entry.2 space).getD entry.2)) ++
          t.properties.filter fun entry => (lookup s.properties entry.1).isNone) []
  let unknown := if meets.any Option.isNone then [SingleSpace.mk types.unknownType [] []] else []
  types.fromSingleSpaces path (meets.filterMap id ++ unknown)
termination_by sizeOf a
decreasing_by exact Space.sizeOf_property_lt hs ‹entry ∈ s.properties›

end Types

end Exhaustiveness
