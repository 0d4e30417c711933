import DartSdk.Exhaustiveness.Union

/-!
# Exhaustiveness/Intersection — the space of a logical-and pattern

The intersection pairs the single spaces of both sides.  A pair with comparable types has the
smaller type and the merged properties — but none of the additional properties.  So the values it
matches are matched by both sides if the additional properties refuse no value
(`intersection_sound_of_free`).
-/

namespace Exhaustiveness

open List Option Space SingleSpace

variable {T C V : Type} {s u t : SingleSpace T C} {path : List (Key T C)}

/-- The spaces in a space: itself, and those of its properties at any depth. -/
inductive Space.Inside : Space T C → Space T C → Prop
  | refl (a : Space T C) : Inside a a
  | property {a x : Space T C} {s : SingleSpace T C} {entry : Key T C × Space T C}
      (hs : s ∈ a.singleSpaces) (hentry : entry ∈ s.properties) (hx : Inside x entry.2) : Inside x a

variable {a b : Space T C} {entry : Key T C × Space T C}

/-- **The additional properties refuse no value**, at any depth: each value of the type of a single
space has additional properties that match. -/
def Space.Free (m : Values T C V) (a : Space T C) : Prop :=
  ∀ x, Inside x a → ∀ s ∈ x.singleSpaces, ∀ v, m.has v s.type → s.Accepts m v

theorem Space.Free.property {m : Values T C V} (h : a.Free m) (hs : s ∈ a.singleSpaces)
    (hentry : entry ∈ s.properties) : entry.2.Free m :=
  fun x hx => h x (.property hs hentry hx)

variable [DecidableEq T] [DecidableEq C] {types : Types T C}

/-- Objects with the same identity are the same, and a map has one entry for a key. -/
structure Objects (a b : Space T C) : Prop where
  same : ∀ x y, Inside x a ∨ Inside x b → Inside y a ∨ Inside y b → x.identical y = true → x = y
  keys : ∀ x, Inside x a ∨ Inside x b → ∀ s ∈ x.singleSpaces,
    s.properties.Pairwise fun entry entry' => (entry.1 == entry'.1) = false

theorem Objects.property {entry' : Key T C × Space T C} (h : Objects a b)
    (hs : s ∈ a.singleSpaces) (hentry : entry ∈ s.properties) (ht : t ∈ b.singleSpaces)
    (hentry' : entry' ∈ t.properties) : Objects entry.2 entry'.2 where
  same x y hx hy := h.same x y (hx.imp (.property hs hentry) (.property ht hentry'))
    (hy.imp (.property hs hentry) (.property ht hentry'))
  keys x hx := h.keys x (hx.imp (.property hs hentry) (.property ht hentry'))

/-- `_createSingleSpaceIntersection`. -/
def Types.createSingleSpaceIntersection (types : Types T C) (path : List (Key T C))
    (s t : SingleSpace T C) : Option (SingleSpace T C) :=
  (types.intersectionType s.type t.type).map fun type =>
    .mk type
      (s.properties.map (fun entry =>
        (entry.1, ((lookup t.properties entry.1).map fun space =>
          types.createSpaceIntersection (path ++ [entry.1]) entry.2 space).getD entry.2)) ++
        t.properties.filter fun entry => (lookup s.properties entry.1).isNone) []

/-- The pairs of single spaces. -/
def Types.meets (types : Types T C) (path : List (Key T C)) (a b : Space T C) :
    List (Option (SingleSpace T C)) :=
  a.singleSpaces.flatMap fun s => b.singleSpaces.map (types.createSingleSpaceIntersection path s)

/-- The intersections of the pairs, and the unknown type for a pair that has none. -/
def Types.alternatives (types : Types T C) (path : List (Key T C)) (a b : Space T C) :
    List (SingleSpace T C) :=
  (types.meets path a b).filterMap id ++
    if (types.meets path a b).any Option.isNone then [.mk types.unknownType [] []] else []

theorem createSpaceIntersection_eq (path : List (Key T C)) (a b : Space T C) :
    types.createSpaceIntersection path a b =
      types.fromSingleSpaces path (types.alternatives path a b) := by
  have hattach {α β : Type} (l : List α) (f : α → β) : (l.attach.map fun x => f x.1) = l.map f :=
    attach_map_val
  have hsingle (s t : SingleSpace T C) :
      ((types.intersectionType s.type t.type).map fun type => mk type
        ((s.properties.attach.map fun x => (x.1.1, ((lookup t.properties x.1.1).map fun space =>
            types.createSpaceIntersection (path ++ [x.1.1]) x.1.2 space).getD x.1.2)) ++
          t.properties.filter fun entry => (lookup s.properties entry.1).isNone) []) =
      types.createSingleSpaceIntersection path s t := by
    rw [Types.createSingleSpaceIntersection, ← hattach s.properties]
  have hmeets : (a.singleSpaces.attach.flatMap fun x =>
      b.singleSpaces.map fun t => types.createSingleSpaceIntersection path x.1 t) =
        types.meets path a b := by
    rw [Types.meets, flatMap_def, flatMap_def, ← hattach a.singleSpaces]
  rw [Types.createSpaceIntersection]
  simp only [hsingle, hmeets]
  rfl

theorem identity_createSpaceIntersection (path : List (Key T C)) (a b : Space T C) :
    (types.createSpaceIntersection path a b).identity = none := by
  rw [createSpaceIntersection_eq]
  rfl

/-- Values of types with sound subtyping; the unknown type has none. -/
structure SubtypeModel (types : Types T C) (V : Type) extends Model types V where
  has_of_subtype : ∀ {t u v}, types.isSubtypeOf t u = true → has v t → has v u
  has_unknown : ∀ v, ¬has v types.unknownType

variable {model : SubtypeModel types V} {v : V}

omit [DecidableEq T] [DecidableEq C] in
/-- The type of a pair is below both types. -/
theorem SubtypeModel.has_intersectionType (model : SubtypeModel types V) {s t type : T}
    (h : types.intersectionType s t = some type) (hhas : model.has v type) :
    model.has v s ∧ model.has v t := by
  rw [Types.intersectionType] at h
  split at h
  · next hsub =>
    obtain rfl := Option.some.inj h
    exact ⟨hhas, model.has_of_subtype hsub hhas⟩
  · split at h
    · next hsub =>
      obtain rfl := Option.some.inj h
      exact ⟨model.has_of_subtype hsub hhas, hhas⟩
    · exact absurd h (by simp)

/-- A single space of the result is that of a pair, or the unknown one. -/
theorem mem_alternatives (hu : u ∈ types.alternatives path a b) :
    (∃ s ∈ a.singleSpaces, ∃ t ∈ b.singleSpaces,
      types.createSingleSpaceIntersection path s t = some u) ∨ u = .mk types.unknownType [] [] := by
  rcases mem_append.mp hu with hu | hu
  · obtain ⟨o, ho, rfl⟩ := mem_filterMap.mp hu
    obtain ⟨s, hs, ho⟩ := mem_flatMap.mp ho
    obtain ⟨t, ht, ho⟩ := mem_map.mp ho
    exact .inl ⟨s, hs, t, ht, ho⟩
  · split at hu
    · exact .inr (mem_singleton.mp hu)
    · exact absurd hu not_mem_nil

variable (hu : types.createSingleSpaceIntersection path s t = some u)

include hu

theorem mem_properties_of_pair (hentry : entry ∈ u.properties) :
    entry.2.identity = none ∨ (∃ x ∈ s.properties, x.2 = entry.2) ∨ entry ∈ t.properties := by
  obtain ⟨type, -, rfl⟩ := map_eq_some_iff.mp hu
  rcases mem_append.mp hentry with hentry | hentry
  · obtain ⟨x, hx, rfl⟩ := mem_map.mp hentry
    cases hlookup : lookup t.properties x.1 with
    | none => exact .inr (.inl ⟨x, hx, rfl⟩)
    | some space =>
      refine .inl ?_
      exact identity_createSpaceIntersection _ _ _
  · exact .inr (.inr (mem_of_mem_filter hentry))

theorem additional_of_pair : u.additionalProperties = [] := by
  obtain ⟨type, -, rfl⟩ := map_eq_some_iff.mp hu
  rfl

/-- A value of the single space of a pair. -/
theorem matches_of_pair {m : Values T C V} (hmatches : u.Matches m v) :
    ∃ type, types.intersectionType s.type t.type = some type ∧ m.has v type ∧
      (∀ entry ∈ s.properties, ∀ space, lookup t.properties entry.1 = some space →
        (types.createSpaceIntersection (path ++ [entry.1]) entry.2 space).Matches m
          (m.property v entry.1)) ∧
      (∀ entry ∈ s.properties, lookup t.properties entry.1 = none →
        entry.2.Matches m (m.property v entry.1)) ∧
      ∀ entry ∈ t.properties, lookup s.properties entry.1 = none →
        entry.2.Matches m (m.property v entry.1) := by
  obtain ⟨type, htype, rfl⟩ := map_eq_some_iff.mp hu
  obtain ⟨hhas, hproperty, -⟩ := hmatches
  have hmerged (entry) (hentry : entry ∈ s.properties) :=
    hproperty _ (mem_append_left _ (mem_map_of_mem hentry))
  refine ⟨type, htype, hhas, fun entry hentry space hlookup => ?_,
    fun entry hentry hlookup => ?_, fun entry hentry hlookup => ?_⟩
  · simpa [hlookup, map_some, getD_some] using hmerged entry hentry
  · simpa [hlookup, map_none, getD_none] using hmerged entry hentry
  · exact hproperty entry (mem_append_right _
      (mem_filter.mpr ⟨hentry, isNone_iff_eq_none.mpr hlookup⟩))

omit hu

/-- The result matches what one of its single spaces does: none has additional properties. -/
theorem matches_alternatives (h : Objects a b) :
    (types.createSpaceIntersection path a b).Matches model.toValues v ↔
      ∃ u ∈ types.alternatives path a b, u.Matches model.toValues v := by
  rw [createSpaceIntersection_eq]
  refine fromSingleSpaces_exact model.toModel path ?_ (respects_of_noAdditional fun u hu => ?_)
  · intro u hu u' hu' x hx y hy hidentical
    have hinside : ∀ u ∈ types.alternatives path a b, ∀ x ∈ u.properties,
        x.2.identity = none ∨ Inside x.2 a ∨ Inside x.2 b := by
      intro u hu x hx
      rcases mem_alternatives hu with ⟨s, hs, t, ht, hpair⟩ | rfl
      · refine (mem_properties_of_pair hpair hx).imp_right ?_
        rintro (⟨y, hy, hxy⟩ | hmem)
        · exact .inl (hxy ▸ .property hs hy (.refl _))
        · exact .inr (.property ht hmem (.refl _))
      · exact absurd hx not_mem_nil
    have hnamed : x.2.identity ≠ none ∧ y.2.identity ≠ none := by
      simp only [identical, Bool.and_eq_true, decide_eq_true_eq] at hidentical
      have hsome := isSome_iff_ne_none.mp hidentical.1
      exact ⟨hsome, hidentical.2 ▸ hsome⟩
    exact h.same x.2 y.2 ((hinside u hu x hx).resolve_left hnamed.1)
      ((hinside u' hu' y hy).resolve_left hnamed.2) hidentical
  · rcases mem_alternatives hu with ⟨s, hs, t, ht, hpair⟩ | rfl
    · exact additional_of_pair hpair
    · rfl

/-- **Both sides match** what the intersection matches, if their additional properties refuse no
value. -/
theorem matches_of_intersection (h : Objects a b) (ha : a.Free model.toValues)
    (hb : b.Free model.toValues)
    (hmatches : (types.createSpaceIntersection path a b).Matches model.toValues v) :
    a.Matches model.toValues v ∧ b.Matches model.toValues v := by
  -- By induction on the size of the left side, which is what the recursion of the source goes down.
  induction hsize : sizeOf a using Nat.strong_induction_on generalizing a b v path with
  | _ size ih =>
  obtain ⟨u, hu, hmatches⟩ := (matches_alternatives h).mp hmatches
  rcases mem_alternatives hu with ⟨s, hs, t, ht, hpair⟩ | rfl
  swap
  · exact absurd (matches_ofType.mp hmatches) (model.has_unknown v)
  obtain ⟨type, htype, hhas, hboth, hleft, hright⟩ := matches_of_pair hpair hmatches
  obtain ⟨hhas, hhas'⟩ := model.has_intersectionType htype hhas
  have hnested {x y} (hx : x ∈ s.properties) (hy : y ∈ t.properties)
      (hlookup : lookup t.properties x.1 = some y.2) :=
    ih _ (hsize ▸ sizeOf_property_lt hs hx) (h.property hs hx ht hy) (ha.property hs hx)
      (hb.property ht hy) (hboth x hx y.2 hlookup) rfl
  refine ⟨⟨hs, hhas, fun entry hentry => ?_, ha a (.refl a) s hs v hhas⟩,
    ⟨ht, hhas', fun entry hentry => ?_, hb b (.refl b) t ht v hhas'⟩⟩
  · cases hlookup : lookup t.properties entry.1 with
    | none => exact hleft entry hentry hlookup
    | some space =>
      obtain ⟨entry', hentry', -, rfl⟩ := mem_of_lookup hlookup
      exact (hnested hentry hentry' hlookup).1
  · cases hlookup : lookup s.properties entry.1 with
    | none => exact hright entry hentry hlookup
    | some space =>
      obtain ⟨entry', hentry', hkey, rfl⟩ := mem_of_lookup hlookup
      have hlookup' : lookup t.properties entry'.1 = some entry.2 := by
        rw [lookup_congr hkey, lookup_of_mem (h.keys b (.inr (.refl b)) t ht) hentry]
      rw [← model.property_congr v _ _ (Key.beq_iff.mp hkey)]
      exact (hnested hentry' hentry hlookup').2

theorem matches_intersection_types {type : T} (h : Objects a b) (hs : a.singleSpaces = [s])
    (ht : b.singleSpaces = [t]) (hnil : s.properties = []) (hnil' : t.properties = [])
    (htype : types.intersectionType s.type t.type = some type) :
    (types.createSpaceIntersection path a b).Matches model.toValues v ↔ model.has v type := by
  have halternatives : types.alternatives path a b = [.mk type [] []] := by
    simp [Types.alternatives, Types.meets, Types.createSingleSpaceIntersection, hs, ht, hnil, hnil',
      htype]
  rw [matches_alternatives h, halternatives]
  simp only [mem_singleton, exists_eq_left, SingleSpace.matches_ofType]

/-- The subtypes agree with the values of the types. -/
def bitSubtypeModel : SubtypeModel bitTypes BitValue where
  toModel := bitModel
  has_of_subtype h hhas := of_decide_eq_true h ▸ hhas
  has_unknown _ := id

/-- The value of a getter: `0` or `1`. -/
def bitSpace : Space BitType Unit :=
  .mk (some 0) [.nameKey "first"] [.mk (.bit false) [] [], .mk (.bit true) [] []]

/-- A list pattern with a wildcard, `[_] && List(first: 0 || 1)`. -/
def firstSpace : Space BitType Unit :=
  .mk none [] [.mk .list [(.nameKey "first", bitSpace)]
    [(.headKey 0, .ofType [.headKey 0] .object)]]

/-- `List(first: 0 || 1, last: 1)`. -/
def lastSpace : Space BitType Unit :=
  .mk none [] [.mk .list [(.nameKey "first", bitSpace),
    (.nameKey "last", .ofType [.nameKey "last"] (.bit true))] []]

theorem Space.Inside.eq_of_nil {x a : Space BitType Unit} (hx : Inside x a)
    (h : ∀ s ∈ a.singleSpaces, s.properties = []) : x = a := by
  cases hx with
  | refl => rfl
  | property hs hentry _ =>
    rw [h _ hs] at hentry
    exact absurd hentry not_mem_nil

theorem objects_listSpace (b : Bool) : Objects (listSpace b) (listSpace b) := by
  have hinside (x) (hx : Inside x (listSpace b) ∨ Inside x (listSpace b)) : x = listSpace b :=
    (or_self_iff.mp hx).eq_of_nil (by simp [listSpace, listOf, singleSpaces, properties])
  refine ⟨fun x y hx hy _ => (hinside x hx).trans (hinside y hy).symm, fun x hx s hs => ?_⟩
  rw [hinside x hx] at hs
  rw [mem_singleton.mp hs]
  exact Pairwise.nil

theorem inside_firstSpace {x : Space BitType Unit} (hx : Inside x firstSpace ∨ Inside x lastSpace) :
    x = firstSpace ∨ x = lastSpace ∨ x = bitSpace ∨ x = .ofType [.nameKey "last"] (.bit true) := by
  have hbit {y} (hy : Inside y bitSpace) : y = bitSpace :=
    hy.eq_of_nil (by simp [bitSpace, singleSpaces, properties])
  rcases hx with hx | hx
  · cases hx with
    | refl => exact .inl rfl
    | property hs hentry hx =>
      rw [mem_singleton.mp hs] at hentry
      rw [mem_singleton.mp hentry] at hx
      exact .inr (.inr (.inl (hbit hx)))
  · cases hx with
    | refl => exact .inr (.inl rfl)
    | property hs hentry hx =>
      rw [mem_singleton.mp hs] at hentry
      rcases mem_cons.mp hentry with rfl | hentry
      · exact .inr (.inr (.inl (hbit hx)))
      · rw [mem_singleton.mp hentry] at hx
        exact .inr (.inr (.inr (hx.eq_of_nil (by simp [ofType, singleSpaces, properties]))))

end Exhaustiveness
