import DartSdk.FlowAnalysis.FlowLink
import DartSdk.FlowAnalysis.PromotionModel
import DartSdk.Lib.OrderedMap
import DartSdk.Lib.Wp

/-!
# FlowAnalysis/FlowModel — flow models and their join

A flow model is a reachability and a persistent map from promotion keys to promotion models: a chain
of links (`PromotionInfo`), read through the reader of the helper.

Versions of values are objects with a mutable map from the names of their properties to the versions
of these; the helper's list `versions` has the map of each object.  A join makes new versions, new
keys for their properties, new lists and new links.  `none` is an exception, a failed assertion or a
null check.
-/

namespace FlowAnalysis

variable {T : Type}

/-- What a link holds besides its predecessor. -/
structure PromotionLink (T : Type) where
  object : ℕ
  key : ℕ
  model : PromotionModel T
  deriving DecidableEq

/-- `PromotionInfo`: a link, with the links before it. -/
structure PromotionInfo (T : Type) where
  link : PromotionLink T
  before : List (PromotionLink T)
  deriving DecidableEq

namespace PromotionInfo

/-- The links of a map, which may be `null`. -/
def links : Option (PromotionInfo T) → List (PromotionLink T)
  | none => []
  | some info => info.link :: info.before

/-- The model of a list of links, the newest first. -/
def ofLinks : List (PromotionLink T) → Option (PromotionInfo T)
  | [] => none
  | link :: before => some ⟨link, before⟩

/-- **The tree of all links.** -/
def tree (T : Type) : FlowLinks (PromotionInfo T) where
  previous info := ofLinks info.before
  depth info := info.before.length + 1
  depth_eq info := by cases h : info.before <;> rfl
  key info := info.link.key
  previousForKey info := KeyedLinks.computePreviousForKey
    { previous := fun info => ofLinks info.before
      depth := fun info => info.before.length + 1
      depth_eq := fun info => by cases h : info.before <;> rfl
      key := fun info => info.link.key } info.link.key (ofLinks info.before)
  previousForKey_eq _ := rfl

end PromotionInfo

/-- `_PropertyValueVersion`: an object with a map of properties, and its key. -/
structure PropertyValueVersion where
  version : ℕ
  promotionKey : ℕ
  deriving DecidableEq

/-- `_promotableProperties`. -/
abbrev Properties := List (String × PropertyValueVersion)

namespace Properties

/-- The version of a property. -/
def get (properties : Properties) (name : String) : Option PropertyValueVersion :=
  (OrderedMap.lookup Prod.fst (fun a b => decide (a = b)) name properties).map Prod.snd

/-- Adds or replaces a property; a new one goes to the end. -/
def set (properties : Properties) (name : String) (property : PropertyValueVersion) : Properties :=
  OrderedMap.put Prod.fst (fun a b => decide (a = b)) (fun _ entry => entry)
    (name, property) properties

end Properties

/-- The part of a `FlowModelHelper` that a join changes: the reader, the number of promotion keys,
the number of objects, and the maps of the versions. -/
structure Helper (T : Type) where
  reader : Reader (PromotionInfo T)
  keys : ℕ
  objects : ℕ
  versions : List Properties

/-- The part that it only reads. -/
structure TypeOperations (T : Type) where
  isSubtypeOf : T → T → Bool
  promotionChainIntersectionJoinEnabled : Bool

namespace Helper

/-- `_promotableProperties` of a version. -/
def properties (h : Helper T) (version : ℕ) : Properties := h.versions[version]?.getD []

/-- `makeTemporaryKey`. -/
def makeTemporaryKey : Prog (Helper T) ℕ := fun h => some (h.keys, { h with keys := h.keys + 1 })

/-- `new ValueVersion()`. -/
def newVersion : Prog (Helper T) ℕ := fun h =>
  some (h.versions.length, { h with versions := h.versions ++ [[]] })

/-- `_promotableProperties[propertyName] = propertyVersion`. -/
def setProperty (version : ℕ) (name : String) (property : PropertyValueVersion) :
    Prog (Helper T) Unit := fun h =>
  some ((), { h with versions := h.versions.modify version (·.set name property) })

/-- A list that is returned, as an object. -/
def returned : Returned T → Prog (Helper T) (TypeList T)
  | .same list => pure list
  | .fresh types => fun h => some (⟨h.objects, types⟩, { h with objects := h.objects + 1 })

/-- `promotionInfo?.get(helper, promotionKey)`. -/
def get [DecidableEq T] (info : Option (PromotionInfo T)) (promotionKey : ℕ) :
    Prog (Helper T) (Option (PromotionModel T)) := fun h =>
  (h.reader.get (PromotionInfo.tree T) info promotionKey).map fun (found, reader) =>
    (found.map (·.link.model), { h with reader })

/-- `reader.diff`. -/
def diff [DecidableEq T] (left right : Option (PromotionInfo T)) : Prog (Helper T)
    (Option (PromotionInfo T) × List (DiffEntry (PromotionInfo T))) := fun h =>
  (h.reader.diff (PromotionInfo.tree T) left right).map fun (difference, reader) =>
  (difference, { h with reader })

end Helper

/-- The part of a `Reachability` that a join reads: its parent object, and whether the point is
reachable from the most recent checkpoint. -/
structure Reachability where
  parent : Option ℕ
  locallyReachable : Bool
  deriving DecidableEq

/-- `FlowModel`: reachability, and what is known of each promotion key. -/
structure FlowModel (T : Type) where
  reachable : Reachability
  promotionInfo : Option (PromotionInfo T)
  deriving DecidableEq

variable [DecidableEq T] (operations : TypeOperations T)

/-- `updatePromotionInfo`.  The assertion of the new link compares `previousForKey` with a
search. -/
def FlowModel.updatePromotionInfo (flowModel : FlowModel T) (promotionKey : ℕ)
    (model : PromotionModel T) : Prog (Helper T) (FlowModel T) := fun h =>
  (h.reader.get (PromotionInfo.tree T) flowModel.promotionInfo promotionKey).bind fun
  (previousForKey, reader) =>
    if previousForKey =
        (PromotionInfo.tree T).computePreviousForKey promotionKey flowModel.promotionInfo then
      let newPromotionInfo : PromotionInfo T :=
        ⟨⟨h.objects, promotionKey, model⟩, PromotionInfo.links flowModel.promotionInfo⟩
      some (⟨flowModel.reachable, some newPromotionInfo⟩,
        { h with reader, objects := h.objects + 1 })
    else none

/-- `PromotionModel.join`.  `joinVersion` is what gives the new version: for a property the version
it was called with, for a variable the join of the two versions. -/
def PromotionModel.join (first second : PromotionModel T) (newFlowModel : FlowModel T)
    (joinVersion : FlowModel T → Prog (Helper T) (ℕ × FlowModel T)) :
    Prog (Helper T) (PromotionModel T × FlowModel T) := do
  let newPromotedTypes ← Helper.returned (joinPromotedTypes operations.isSubtypeOf
    operations.promotionChainIntersectionJoinEnabled first.promotedTypes second.promotedTypes)
  let newAssigned := first.assigned && second.assigned
  let newUnassigned := first.unassigned && second.unassigned
  let newWriteCaptured := first.writeCaptured || second.writeCaptured
  if newWriteCaptured then
    let newPromotionModel ← StateT.lift (identicalOrNew first second newPromotedTypes (.const T)
      newAssigned newUnassigned none)
    pure (newPromotionModel, newFlowModel)
  else
    let newTested ← Helper.returned (joinTested first.tested second.tested)
    let (newVersion, newFlowModel) ← joinVersion newFlowModel
    let newPromotionModel ← StateT.lift (identicalOrNew first second newPromotedTypes newTested
      newAssigned newUnassigned (some newVersion))
    pure (newPromotionModel, newFlowModel)

section

variable (firstInfo secondInfo : Option (PromotionInfo T))

/-- The body of the loop of `_joinProperties`, for the property `firstProperty` of the first
version. `nested` is the recursive call. -/
def joinProperty
    (nested : ℕ → Properties → Properties → FlowModel T → Prog (Helper T) (FlowModel T))
    (version : ℕ) (propertyName : String) (firstProperty : PropertyValueVersion)
    (second : Properties) (newFlowModel : FlowModel T) : Prog (Helper T) (FlowModel T) :=
  match second.get propertyName with
  | none => pure newFlowModel
  | some secondProperty => do
    let newPromotionKey ← Helper.makeTemporaryKey
    let firstPromotionModel ← Helper.get firstInfo firstProperty.promotionKey
    let propertyVersion ← Helper.newVersion
    Helper.setProperty version propertyName ⟨propertyVersion, newPromotionKey⟩
    let newFlowModel ← joinModels firstPromotionModel secondProperty propertyVersion newPromotionKey
    let h ← get
    nested propertyVersion (h.properties firstProperty.version)
      (h.properties secondProperty.version)
      newFlowModel
where
  /-- If the property has a model along both paths, the join of these is the model of the new
  key. -/
  joinModels (firstPromotionModel : Option (PromotionModel T))
    (secondProperty : PropertyValueVersion)
      (propertyVersion newPromotionKey : ℕ) : Prog (Helper T) (FlowModel T) :=
    match firstPromotionModel with
    | none => pure newFlowModel
    | some firstPromotionModel => do
      match ← Helper.get secondInfo secondProperty.promotionKey with
      | none => pure newFlowModel
      | some secondPromotionModel =>
        let (newPromotionModel, newFlowModel) ← PromotionModel.join operations firstPromotionModel
          secondPromotionModel newFlowModel fun newFlowModel => pure (propertyVersion, newFlowModel)
        newFlowModel.updatePromotionInfo newPromotionKey newPromotionModel

/-- `_joinProperties`, with fuel for nested properties. -/
def joinProperties : ℕ → ℕ → Properties → Properties → FlowModel T → Prog (Helper T) (FlowModel T)
  | 0, _, _, _, _ => failure
  | fuel + 1, version, first, second, newFlowModel =>
    first.foldlM (fun newFlowModel (propertyName, firstProperty) =>
      joinProperty operations firstInfo secondInfo (joinProperties fuel) version propertyName
        firstProperty second newFlowModel) newFlowModel

/-- `ValueVersion._join`.  There are no more nested properties than versions. -/
def ValueVersion.join (first second : ℕ) (newFlowModel : FlowModel T) :
    Prog (Helper T) (ℕ × FlowModel T) :=
  if first = second then pure (first, newFlowModel)
  else do
    let version ← Helper.newVersion
    let h ← get
    let newFlowModel ← joinProperties operations firstInfo secondInfo h.versions.length version
      (h.properties first) (h.properties second) newFlowModel
    pure (version, newFlowModel)

/-- The body of the loop of `joinPromotionInfo`: an entry of the difference. -/
def joinEntry (newFlowModel : FlowModel T) (entry : DiffEntry (PromotionInfo T)) :
    Prog (Helper T) (FlowModel T) :=
  match entry.left.map (·.link.model), entry.right.map (·.link.model) with
  | some firstModel, some secondModel => do
    let (joined, newFlowModel) ← PromotionModel.join operations firstModel secondModel newFlowModel
      fun newFlowModel => do
        let firstVersion ← StateT.lift firstModel.version
        let secondVersion ← StateT.lift secondModel.version
        ValueVersion.join operations firstInfo secondInfo firstVersion secondVersion newFlowModel
    newFlowModel.updatePromotionInfo entry.key joined
  | _, _ => pure newFlowModel

end

namespace FlowModel

/-- `joinPromotionInfo`.  Two models are identical if their fields are. -/
def joinPromotionInfo (first second : FlowModel T) : Prog (Helper T) (FlowModel T) :=
  if first = second then pure first
  else if first.promotionInfo = none then pure first
  else if second.promotionInfo = none then pure second
  else do
    let (ancestor, entries) ← Helper.diff first.promotionInfo second.promotionInfo
    entries.foldlM (joinEntry operations first.promotionInfo second.promotionInfo)
      ⟨first.reachable, ancestor⟩

/-- `FlowModel.join`. -/
def join (first second : Option (FlowModel T)) : Prog (Helper T) (FlowModel T) :=
  match first, second with
  | none, none => failure
  | none, some second => pure second
  | some first, none => pure first
  | some first, some second =>
    if first.reachable.parent ≠ second.reachable.parent then failure
    else if first.reachable.locallyReachable ∧ ¬second.reachable.locallyReachable then pure first
    else if ¬first.reachable.locallyReachable ∧ second.reachable.locallyReachable then pure second
    else joinPromotionInfo operations first second

end FlowModel

/-- An order in which inputs are joined. -/
inductive JoinOrder (T : Type) where
  | input (model : FlowModel T)
  | join (first second : JoinOrder T)

/-- Joins the inputs in the order. -/
def JoinOrder.run : JoinOrder T → Prog (Helper T) (FlowModel T)
  | input model => pure model
  | join first second => do
    let first ← first.run
    let second ← second.run
    FlowModel.join operations (some first) (some second)

end FlowAnalysis
