import DartSdk.Exhaustiveness.Checker
import DartSdk.Exhaustiveness.Union

/-!
# Exhaustiveness/CheckerSound — what the checker accepts is covered

If the search finds no witness, then each tuple of values that the value patterns match is matched
by a row (`unmatched_sound`).  A tuple is followed through the expansion: in place of its first
value come the properties of that value (`expandValues`), in the order of the new columns.

**Extension getters** are the exception: for a key that a type does not know the checker takes the
type that the key itself carries.  So properties of such keys have to lie in that type
(`TypedExtensions`); `unmatched_untyped` shows a switch that is accepted, and not exhaustive, where
they do not.  `computeExhaustiveness_sound` is for whole switches, with guards.
-/

namespace Exhaustiveness

open List Option Space Exhaustiveness.Types SingleSpace

variable {T C V : Type}

/-! ## The premises

What the values of the types must satisfy, and what the maps of a space must look like. -/

/-- Values of static types: subtypes are included, a sealed type is the union of its subtypes, there
are no values below `Never`, and properties lie in the reported types. -/
structure TypedModel (types : Types T C) (V : Type) extends Values T C V where
  has_of_subtype : ∀ {t u v}, types.isSubtypeOf t u = true → has v t → has v u
  not_has_never : ∀ {t v}, types.isSubtypeOf t types.neverType = true → ¬has v t
  has_sealed : ∀ {t}, types.isSealed t = true → ∀ keys v,
    has v t ↔ ∃ u ∈ types.getSubtypes t keys, has v u
  has_property : ∀ {t v}, has v t → ∀ key,
    has (property v key) ((types.getPropertyType t key).getD types.nullableObject)
  has_additional : ∀ {t v}, has v t → ∀ key,
    has (additional v key) ((types.getAdditionalPropertyType t key).getD types.nullableObject)

/-- The property of an extension key that a type does not know lies in the type of the key. -/
def TypedModel.TypedExtensions {types : Types T C} (model : TypedModel types V)
    (keys : Set (Key T C)) : Prop :=
  ∀ {t v u}, ∀ key ∈ keys, model.has v t → types.getPropertyType t key = none →
    key.extensionType? = some u → model.has (model.property v key) u

variable [DecidableEq T] [DecidableEq C] (keys : Set (Key T C))

mutual

/-- The maps of the space have distinct keys, and the keys of properties are in the set, at any
depth. -/
inductive SingleSpace.Over : SingleSpace T C → Prop
  | intro {s : SingleSpace T C}
      (distinct : s.properties.Pairwise fun entry entry' => (entry.1 == entry'.1) = false)
      (additionalDistinct : s.additionalProperties.Pairwise fun entry entry' =>
        (entry.1 == entry'.1) = false)
      (mem : ∀ entry ∈ s.properties, entry.1 ∈ keys)
      (property : ∀ entry ∈ s.properties, Space.Over entry.2)
      (additional : ∀ entry ∈ s.additionalProperties, Space.Over entry.2) :
      SingleSpace.Over s

/-- The maps of the space have distinct keys, and the keys of properties are in the set, at any
depth. -/
inductive Space.Over : Space T C → Prop
  | intro {space : Space T C} (single : ∀ s ∈ space.singleSpaces, SingleSpace.Over s) :
      Space.Over space

end

/-- The spaces of the rows have distinct keys, in the set. -/
def Rows.Over (rows : Rows T C) : Prop := ∀ row ∈ rows, ∀ space ∈ row, space.Over keys

variable {keys}

theorem Space.Over.single {space : Space T C} (h : space.Over keys) {s : SingleSpace T C}
    (hs : s ∈ space.singleSpaces) : s.Over keys := by
  obtain ⟨hsingle⟩ := h
  exact hsingle s hs

theorem Space.over_ofType (path : List (Key T C)) (t : T) : (Space.ofType path t).Over keys := by
  refine ⟨fun s hs => ?_⟩
  rw [mem_singleton.mp hs]
  refine ⟨.nil, .nil, ?_, ?_, ?_⟩
  all_goals exact fun _ h => absurd h not_mem_nil

theorem mem_keySet {list : List (Key T C)} {key : Key T C} (h : key ∈ keySet list) :
    key ∈ list := by
  suffices hfold : ∀ set : List (Key T C), key ∈ list.foldl (fun set key =>
      if set.any fun other => other == key then set else set ++ [key]) set → key ∈ set ∨
        key ∈ list from
    (hfold [] h).resolve_left not_mem_nil
  clear h
  induction list with
  | nil => exact fun set h => .inl h
  | cons first list ih =>
    intro set h
    rw [foldl_cons] at h
    rcases ih _ h with h | h
    · split at h
      · exact .inl h
      · rcases mem_append.mp h with h | h
        · exact .inl h
        · exact .inr (mem_singleton.mp h ▸ mem_cons_self)
    · exact .inr (mem_cons_of_mem _ h)

/-- A set has each of its keys, up to equality. -/
theorem exists_mem_keySet {keys : List (Key T C)} {k : Key T C} (h : k ∈ keys) :
    ∃ key ∈ keySet keys, (key == k) = true := by
  suffices hfold : ∀ set : List (Key T C), (∃ key ∈ set, (key == k) = true) ∨ k ∈ keys →
      ∃ key ∈ keys.foldl (fun set key => if set.any fun other => other == key then set
        else set ++ [key]) set, (key == k) = true from hfold [] (.inr h)
  clear h
  induction keys with
  | nil => exact fun set h => h.resolve_right not_mem_nil
  | cons first keys ih =>
    intro set h
    rw [foldl_cons]
    refine ih _ ?_
    rcases h with ⟨key, hkey, heq⟩ | h
    · left
      split
      · exact ⟨key, hkey, heq⟩
      · exact ⟨key, mem_append_left _ hkey, heq⟩
    rcases mem_cons.mp h with rfl | h
    · left
      split
      · next hany => simpa using hany
      · exact ⟨k, by simp, Key.beq_iff.mpr rfl⟩
    · exact .inr h

theorem exists_mem_expandedKeys {types : Types T C}
    {map : SingleSpace T C → List (Key T C × Space T C)} {value : SingleSpace T C}
    {rows : List (SingleSpace T C × List (Space T C))} {row : SingleSpace T C × List (Space T C)}
    (hrow : row ∈ rows) {entry : Key T C × Space T C} (hentry : entry ∈ map row.1) :
    ∃ key ∈ types.expandedKeys map value rows, (key == entry.1) = true := by
  have hmem : entry.1 ∈ (map value).map Prod.fst ++ rows.flatMap fun row =>
      (map row.1).map Prod.fst :=
    mem_append_right _ (mem_flatMap.mpr ⟨row, hrow, mem_map_of_mem hentry⟩)
  obtain ⟨key, hkey, heq⟩ := exists_mem_keySet hmem
  exact ⟨key, (perm_insertionSort _ _).mem_iff.mpr hkey, heq⟩

theorem mem_row_of_mem_expandedKeys {types : Types T C}
    {map : SingleSpace T C → List (Key T C × Space T C)} {value : SingleSpace T C}
    {rows : List (SingleSpace T C × List (Space T C))} {key : Key T C}
    (h : key ∈ types.expandedKeys map value rows) (hlookup : lookup (map value) key = none) :
    ∃ row ∈ rows, ∃ entry ∈ map row.1, entry.1 = key := by
  have hmem := mem_keySet ((perm_insertionSort _ _).mem_iff.mp h)
  rcases mem_append.mp hmem with hmem | hmem
  · obtain ⟨entry, hentry, rfl⟩ := mem_map.mp hmem
    rw [lookup, map_eq_none_iff, find?_eq_none] at hlookup
    exact absurd (Key.beq_iff.mpr rfl) (hlookup entry hentry)
  · obtain ⟨row, hrow, hkey⟩ := mem_flatMap.mp hmem
    obtain ⟨entry, hentry, rfl⟩ := mem_map.mp hkey
    exact ⟨row, hrow, entry, hentry, rfl⟩

/-- The spaces of a row match the values of a tuple. -/
def MatchesRow (m : Values T C V) (values : List V) (row : List (Space T C)) : Prop :=
  List.Forall₂ (fun v (space : Space T C) => space.Matches m v) values row

/-- **A row covers the tuple.** -/
def Covers (m : Values T C V) (rows : Rows T C) (values : List V) : Prop :=
  ∃ row ∈ rows, MatchesRow m values row

/-- The properties of a value, in the order of the columns. -/
def expandValues (m : Values T C V) (propertyKeys additionalPropertyKeys : List (Key T C)) (v : V) :
    List V :=
  propertyKeys.map (m.property v) ++ additionalPropertyKeys.map (m.additional v)

omit [DecidableEq T] [DecidableEq C] in
theorem matchesRow_append {m : Values T C V} {values values' : List V} {row row' : List (Space T C)}
    (h : values.length = row.length) : MatchesRow m (values ++ values') (row ++ row') ↔
      MatchesRow m values row ∧ MatchesRow m values' row' := by
  induction row generalizing values with
  | nil =>
    obtain rfl := length_eq_zero_iff.mp h
    exact ⟨fun h => ⟨.nil, h⟩, fun h => h.2⟩
  | cons space row ih =>
    obtain ⟨v, values, rfl⟩ := exists_cons_of_length_eq_add_one h
    have hlength : values.length = row.length := Nat.succ.inj h
    simp only [MatchesRow, cons_append, List.forall₂_cons, and_assoc] at ih ⊢
    rw [ih hlength]

omit [DecidableEq T] [DecidableEq C] in
theorem matchesRow_map {m : Values T C V} {keys : List (Key T C)} {f : Key T C → V}
    {g : Key T C → Space T C} :
    MatchesRow m (keys.map f) (keys.map g) ↔ ∀ key ∈ keys, (g key).Matches m (f key) := by
  rw [MatchesRow, List.forall₂_map_left_iff, List.forall₂_map_right_iff, List.forall₂_same]

section

variable {types : Types T C} {model : TypedModel types V} {v : V} {type : T}
  {propertyKeys additionalPropertyKeys path : List (Key T C)} {s : SingleSpace T C}

theorem length_expandValues :
    (expandValues model.toValues propertyKeys additionalPropertyKeys v).length =
    (types.expandProperties propertyKeys additionalPropertyKeys s type path).length := by
  simp [expandValues, expandProperties]

theorem matchesRow_expand : MatchesRow model.toValues
      (expandValues model.toValues propertyKeys additionalPropertyKeys v)
      (types.expandProperties propertyKeys additionalPropertyKeys s type path) ↔
    (∀ key ∈ propertyKeys, ((lookup s.properties key).getD
      (.ofType (path ++ [key]) (types.defaultPropertyType type key))).Matches model.toValues
        (model.property v key)) ∧
    ∀ key ∈ additionalPropertyKeys, ((lookup s.additionalProperties key).getD
      (.ofType (path ++ [key]) (types.defaultAdditionalType type key))).Matches model.toValues
        (model.additional v key) := by
  rw [expandValues, expandProperties, matchesRow_append (by simp), matchesRow_map, matchesRow_map]

omit [DecidableEq T] [DecidableEq C] in
theorem TypedModel.TypedExtensions.has_default (h : model.TypedExtensions keys) {key : Key T C}
    (hkey : key ∈ keys) (hhas : model.has v type) :
    model.has (model.property v key) (types.defaultPropertyType type key) := by
  have hproperty := model.has_property hhas key
  rw [defaultPropertyType]
  cases hreported : types.getPropertyType type key with
  | some t =>
    rw [hreported] at hproperty
    exact hproperty
  | none =>
    cases hextension : key.extensionType? with
    | some u => exact h key hkey hhas hreported hextension
    | none =>
      rw [hreported] at hproperty
      exact hproperty

/-- **The columns of the value** match its properties. -/
theorem TypedModel.TypedExtensions.matchesRow_value (h : model.TypedExtensions keys)
    (hkeys : ∀ key ∈ propertyKeys, lookup s.properties key = none → key ∈ keys)
    (hhas : model.has v type) (hs : s.Matches model.toValues v) :
    MatchesRow model.toValues (expandValues model.toValues propertyKeys additionalPropertyKeys v)
      (types.expandProperties propertyKeys additionalPropertyKeys s type path) := by
  obtain ⟨-, hproperty, hadditional⟩ := matches_iff.mp hs
  refine matchesRow_expand.mpr ⟨fun key hkey => ?_, fun key _ => ?_⟩
  · cases hlookup : lookup s.properties key with
    | none => exact matches_ofType.mpr (h.has_default (hkeys key hkey hlookup) hhas)
    | some space =>
      obtain ⟨entry, hentry, hkey, rfl⟩ := mem_of_lookup hlookup
      rw [← model.property_congr v _ _ (Key.beq_iff.mp hkey)]
      exact hproperty entry hentry
  · cases hlookup : lookup s.additionalProperties key with
    | none => exact matches_ofType.mpr (model.has_additional hhas key)
    | some space =>
      obtain ⟨entry, hentry, hkey, rfl⟩ := mem_of_lookup hlookup
      rw [← model.additional_congr v _ _ (Key.beq_iff.mp hkey)]
      exact hadditional entry hentry

/-- **A row matches** if its columns do: there is a column for each of its keys. -/
theorem matches_of_matchesRow (hhas : model.has v s.type) (hover : s.Over keys)
    (hkeys : ∀ entry ∈ s.properties, ∃ key ∈ propertyKeys, (key == entry.1) = true)
    (hkeys' : ∀ entry ∈ s.additionalProperties, ∃ key ∈ additionalPropertyKeys,
      (key == entry.1) = true)
    (h : MatchesRow model.toValues
      (expandValues model.toValues propertyKeys additionalPropertyKeys v)
      (types.expandProperties propertyKeys additionalPropertyKeys s type path)) :
    s.Matches model.toValues v := by
  obtain ⟨hproperty, hadditional⟩ := matchesRow_expand.mp h
  obtain ⟨hpairwise, hpairwise', -, -, -⟩ := hover
  refine matches_iff.mpr ⟨hhas, fun entry hentry => ?_, fun entry hentry => ?_⟩
  · obtain ⟨key, hkey, heq⟩ := hkeys entry hentry
    have hmatches := hproperty key hkey
    rw [lookup_congr heq, lookup_of_mem hpairwise hentry, getD_some,
      model.property_congr v _ _ (Key.beq_iff.mp heq)] at hmatches
    exact hmatches
  · obtain ⟨key, hkey, heq⟩ := hkeys' entry hentry
    have hmatches := hadditional key hkey
    rw [lookup_congr heq, lookup_of_mem hpairwise' hentry, getD_some,
      model.additional_congr v _ _ (Key.beq_iff.mp heq)] at hmatches
    exact hmatches

/-- The maps of the columns are those of the space. -/
theorem over_expand (hs : s.Over keys) :
    ∀ space ∈ types.expandProperties propertyKeys additionalPropertyKeys s type path,
      space.Over keys := by
  obtain ⟨-, -, -, hproperty, hadditional⟩ := hs
  have hcolumn {map : List (Key T C × Space T C)} (hmap : ∀ entry ∈ map, entry.2.Over keys)
      (key : Key T C) (t : T) :
      ((lookup map key).getD (.ofType (path ++ [key]) t)).Over keys := by
    cases hlookup : lookup map key with
    | none => exact over_ofType _ t
    | some space =>
      obtain ⟨entry, hentry, -, rfl⟩ := mem_of_lookup hlookup
      exact hmap entry hentry
  intro space hspace
  rcases mem_append.mp hspace with hspace | hspace
  · obtain ⟨key, -, rfl⟩ := mem_map.mp hspace
    exact hcolumn hproperty key _
  · obtain ⟨key, -, rfl⟩ := mem_map.mp hspace
    exact hcolumn hadditional key _

end

/-! ## The search

If no witness is found, every tuple of values is matched by a row. -/

variable {types : Types T C} {model : TypedModel types V}

/-- **What the search accepts is covered.** -/
def Sound (keys : Set (Key T C)) (m : Values T C V)
    (search : Rows T C → List (Space T C) → Witness T C → Bool → Result T C) : Prop :=
  ∀ rows values predicates multiple, search rows values predicates multiple = some none →
    rows.Over keys → ∀ vs, MatchesRow m vs values → Covers m rows vs

omit [DecidableEq T] [DecidableEq C] in
theorem mem_remainingRows {type : T} {rows : Rows T C} {row : SingleSpace T C × List (Space T C)}
    (h : row ∈ types.remainingRows type rows) : ∃ first, first :: row.2 ∈ rows ∧
      row.1 ∈ first.singleSpaces ∧ types.isSubtypeOf type row.1.type = true := by
  obtain ⟨original, horiginal, h⟩ := mem_flatMap.mp h
  split at h
  · exact absurd h not_mem_nil
  · next first rest =>
    obtain ⟨s, hs, rfl⟩ := mem_map.mp h
    exact ⟨first, horiginal, mem_filter.mp hs⟩

/-- One type of the first column. -/
theorem filterByType_sound (hext : model.TypedExtensions keys)
    {search : Rows T C → List (Space T C) → Witness T C → Bool → Result T C}
    (hsearch : Sound keys model.toValues search) {contextType type : T} {rows : Rows T C}
    {s : SingleSpace T C} {rest : List (Space T C)} {predicates : Witness T C}
    {path : List (Key T C)} {multiple : Bool}
    (h : types.filterByType search contextType type rows s rest predicates path multiple =
      some none)
    (hrows : rows.Over keys) {v : V} {vs : List V} (hhas : model.has v type)
    (hs : s.Matches model.toValues v) (hrest : MatchesRow model.toValues vs rest) :
    Covers model.toValues rows (v :: vs) := by
  have hover {row} (hrow : row ∈ types.remainingRows type rows) :
      row.1.Over keys ∧ ∀ space ∈ row.2, space.Over keys := by
    obtain ⟨first, hfirst, hmem, -⟩ := mem_remainingRows hrow
    exact ⟨(hrows _ hfirst first mem_cons_self).single hmem,
      fun space hspace => hrows _ hfirst space (mem_cons_of_mem _ hspace)⟩
  have hkeys : ∀ key ∈ types.expandedKeys properties s (types.remainingRows type rows),
      lookup s.properties key = none → key ∈ keys := by
    intro key hkey hlookup
    obtain ⟨row, hrow, entry, hentry, rfl⟩ := mem_row_of_mem_expandedKeys hkey hlookup
    obtain ⟨-, -, hmem, -, -⟩ := (hover hrow).1
    exact hmem entry hentry
  obtain ⟨expanded, hexpanded, hmatches⟩ := hsearch _ _ _ _ h
    (by
      intro expanded hexpanded space hspace
      obtain ⟨row, hrow, rfl⟩ := mem_map.mp hexpanded
      rcases mem_append.mp hspace with hspace | hspace
      · exact over_expand (hover hrow).1 space hspace
      · exact (hover hrow).2 space hspace)
    _ ((matchesRow_append length_expandValues).mpr ⟨hext.matchesRow_value hkeys hhas hs, hrest⟩)
  obtain ⟨row, hrow, rfl⟩ := mem_map.mp hexpanded
  obtain ⟨hfirst, hothers⟩ := (matchesRow_append length_expandValues).mp hmatches
  obtain ⟨first, hmem, hsingle, hsubtype⟩ := mem_remainingRows hrow
  refine ⟨_, hmem, .cons ⟨hsingle, ?_⟩ hothers⟩
  exact matches_of_matchesRow (model.has_of_subtype hsubtype hhas) (hover hrow).1
    (fun entry hentry => exists_mem_expandedKeys hrow hentry)
    (fun entry hentry => exists_mem_expandedKeys hrow hentry) hfirst

omit [DecidableEq T] [DecidableEq C] in
/-- The loop over the types: if it ends without a witness, the values of all types in the stack are
good, since those of an accepted type are. -/
theorem exhaustTypes_sound {filter : T → Result T C} (good : V → Prop)
    (hfilter : ∀ type, filter type = some none → ∀ v, model.has v type → good v)
    {keys : List (Key T C)} {multiple : Bool} {fuel : ℕ} {stack : List T}
    {witnesses : Option (List (Witness T C))}
    (h : types.exhaustTypes filter keys multiple fuel stack witnesses = some none) :
    witnesses = none ∧ ∀ type ∈ stack, ∀ v, model.has v type → good v := by
  induction fuel generalizing stack witnesses with
  | zero => exact absurd h (by simp [exhaustTypes])
  | succ fuel ih =>
    cases stack with
    | nil =>
      exact ⟨Option.some.inj h, fun _ h => absurd h not_mem_nil⟩
    | cons type stack =>
      simp only [exhaustTypes] at h
      have hcons (hwitnesses : witnesses = none ∧ ∀ u ∈ stack, ∀ v, model.has v u → good v)
          (hfirst : ∀ v, model.has v type → good v) :
          witnesses = none ∧ ∀ u ∈ type :: stack, ∀ v, model.has v u → good v :=
        ⟨hwitnesses.1, forall_mem_cons.mpr ⟨hfirst, hwitnesses.2⟩⟩
      split at h
      · next hnever => exact hcons (ih h) fun v hhas => absurd hhas (model.not_has_never hnever)
      split at h
      · exact absurd h (by simp)
      · next hresult => exact hcons (ih h) (hfilter type hresult)
      split at h
      · next hsealed =>
        obtain ⟨hnone, hstack⟩ := ih h
        refine hcons ⟨hnone, fun u hu => hstack u (mem_append_left _ hu)⟩ fun v hhas => ?_
        obtain ⟨u, hu, hhas⟩ := (model.has_sealed hsealed keys v).mp hhas
        exact hstack u (mem_append_right _ hu) v hhas
      · split at h
        · exact absurd (ih h).1 (by simp)
        · exact absurd h (by simp)

omit [DecidableEq T] [DecidableEq C] in
theorem exhaustSpaces_eq_none {exhaust : SingleSpace T C → Result T C}
    {singleSpaces : List (SingleSpace T C)} (h : exhaustSpaces exhaust singleSpaces = some none) :
    ∀ s ∈ singleSpaces, exhaust s = some none := by
  induction singleSpaces with
  | nil => exact fun _ h => absurd h not_mem_nil
  | cons first singleSpaces ih =>
    rw [exhaustSpaces] at h
    split at h
    · next hfirst => exact forall_mem_cons.mpr ⟨hfirst, ih h⟩
    · next hfirst => exact absurd h hfirst

/-- The search is sound, whatever the fuel: by induction on it. -/
theorem sound_unmatched (hext : model.TypedExtensions keys) (fuel : ℕ) :
    Sound keys model.toValues (types.unmatched fuel) := by
  induction fuel with
  | zero => exact fun _ _ _ _ h => absurd h (by simp [unmatched])
  | succ fuel ih =>
    intro rows values predicates multiple h hrows vs hvs
    cases hvs with
    | nil =>
      -- No columns are left: a row that is left matches.
      cases rows with
      | nil => exact absurd h (by simp [unmatched])
      | cons row rows =>
        rw [unmatched] at h
        split at h
        · exact absurd h (by simp)
        next hwidth =>
        have hrow : row = [] := by
          by_contra hne
          exact hwidth (by simp [hne])
        exact ⟨row, mem_cons_self, hrow ▸ .nil⟩
    | @cons v first vs rest hfirst hrest =>
      obtain ⟨hs, hsingle⟩ := hfirst
      rw [unmatched] at h
      split at h
      · exact absurd h (by simp)
      split at h
      · exact absurd h (by simp)
      have hexhaust := exhaustSpaces_eq_none h _ hs
      refine (exhaustTypes_sound (fun w => SingleSpace.Matches model.toValues w _ →
        Covers model.toValues rows (w :: vs)) (fun type hfilter w hhas hw => ?_) hexhaust).2 _
        mem_cons_self v (SingleSpace.matches_iff.mp hsingle).1 hsingle
      exact filterByType_sound hext ih hfilter hrows hhas hw hrest

/-- **The checker is sound**: if it finds no witness, the rows cover each tuple that the value
patterns match — provided that the extension keys of the rows tell the types of their properties. -/
theorem unmatched_sound (model : TypedModel types V) (keys : Set (Key T C)) {caseRows : Rows T C}
    (hrows : caseRows.Over keys) (hext : model.TypedExtensions keys) {fuel : ℕ}
    {valuePatterns : List (Space T C)} {predicates : Witness T C} {multiple : Bool}
    (h : types.unmatched fuel caseRows valuePatterns predicates multiple = some none) {vs : List V}
    (hvs : MatchesRow model.toValues vs valuePatterns) : Covers model.toValues caseRows vs :=
  sound_unmatched hext fuel caseRows valuePatterns predicates multiple h hrows vs hvs

/-- The values of a truth value type: an object, `true` or `false`. -/
inductive TruthType where
  | never
  | object
  | truth (b : Bool)
  deriving DecidableEq

/-- The values of a type. -/
def TruthType.has : TruthType → Bool → Prop
  | never, _ => False
  | object, _ => True
  | truth b, v => v = b

/-- The objects are sealed: they are the truth values. -/
def truthTypes : Types TruthType Unit where
  neverType := .never
  nullType := .never
  nullableObject := .object
  unknownType := .never
  name _ := ""
  isSubtypeOf t u := t = u ∨ t = .never ∨ u = .object
  isSealed t := t = .object
  nullable t := t
  getSubtypes _ _ := [.truth true, .truth false]
  getPropertyType _ _ := none
  getAdditionalPropertyType _ _ := none

/-- Each property of a value is the value itself. -/
def truthModel : TypedModel truthTypes Bool where
  has v t := t.has v
  property v _ := v
  additional v _ := v
  property_congr _ _ _ _ := rfl
  additional_congr _ _ _ _ := rfl
  has_of_subtype {t u v} h hhas := by
    rcases of_decide_eq_true h with rfl | rfl | rfl
    · exact hhas
    · exact hhas.elim
    · trivial
  not_has_never {t v} h hhas := by
    rcases of_decide_eq_true h with rfl | rfl | h
    · exact hhas
    · exact hhas
    · exact absurd h (by decide)
  has_sealed {t} h keys v := by
    obtain rfl := of_decide_eq_true h
    cases v <;> simp [truthTypes, TruthType.has]
  has_property _ _ := trivial
  has_additional _ _ := trivial

/-- The case `Object(x: b)`, where `x` is an extension getter of a type. -/
def getterCase (type : TruthType) (b : Bool) : Space TruthType Unit :=
  .mk none [] [.mk .object [(.extensionKey .object "x" type, .ofType [] (.truth b))] []]

theorem over_getterCase (type : TruthType) (b : Bool) :
    (getterCase type b).Over {.extensionKey .object "x" type} := by
  refine ⟨fun s hs => ?_⟩
  rw [mem_singleton.mp hs]
  refine ⟨pairwise_singleton _ _, .nil, fun entry hentry => ?_, fun entry hentry => ?_, ?_⟩
  · rw [mem_singleton.mp hentry]
    rfl
  · rw [mem_singleton.mp hentry]
    exact over_ofType _ _
  · exact fun _ h => absurd h not_mem_nil

/-- The cases `Object(x: true)` and `Object(x: false)` cover an object whose `x` is `false`. -/
theorem unmatched_getters :
    Covers truthModel.toValues [[getterCase .object true], [getterCase .object false]] [false] := by
  refine unmatched_sound truthModel {.extensionKey .object "x" .object} ?_ ?_
    (rfl : truthTypes.unmatched 9 _ [.ofType [] .object] [] true = some none)
    (.cons (Space.matches_ofType.mpr trivial) .nil)
  · intro row hrow space hspace
    simp only [mem_cons, not_mem_nil, or_false] at hrow
    rcases hrow with rfl | rfl
    all_goals
      rw [mem_singleton.mp hspace]
      exact over_getterCase .object _
  · rintro t v u key rfl - - h
    obtain rfl := Option.some.inj h
    trivial

/-- The case `Object(x: true)` alone is accepted if `x` has the type of `true`, and it does not
match an object whose `x` is `false`. -/
theorem unmatched_untyped :
    truthTypes.unmatched 9 [[getterCase (.truth true) true]] [.ofType [] .object] [] true =
      some none ∧
      MatchesRow truthModel.toValues [false] [.ofType [] .object] ∧
      ¬Covers truthModel.toValues [[getterCase (.truth true) true]] [false] := by
  refine ⟨rfl, .cons (matches_ofType.mpr trivial) .nil, ?_⟩
  rintro ⟨row, hrow, hmatches⟩
  obtain rfl := mem_singleton.mp hrow
  obtain ⟨⟨hs, hsingle⟩, -⟩ := List.forall₂_cons.mp hmatches
  rw [mem_singleton.mp hs, SingleSpace.matches_iff] at hsingle
  have hx := matches_ofType.mp (hsingle.2.1 _ mem_cons_self)
  exact absurd hx (by decide : ¬false = true)

/-- The rows of the cases without a guard. -/
def unguarded (cases : List (Bool × Space T C)) : Rows T C :=
  (cases.filter fun c => !c.1).map fun c => [c.2]

/-- The loop over the cases adds their rows; an unreachable case was accepted with the rows before
it. -/
theorem caseUnreachabilities_spec {fuel : ℕ} {cases : List (Bool × Space T C)} {i : ℕ}
    {rows rows' : Rows T C} {unreachable unreachable' : List ℕ}
    (h : types.caseUnreachabilities fuel i rows unreachable cases = some (rows', unreachable')) :
    rows' = rows ++ unguarded cases ∧ ∀ j ∈ unreachable', j ∈ unreachable ∨
      ∃ k c, j = i + k ∧ cases[k]? = some c ∧
        types.unmatched fuel (rows ++ unguarded (cases.take k)) [c.2] [] false = some none := by
  induction cases generalizing i rows unreachable with
  | nil =>
    obtain ⟨rfl, rfl⟩ := Prod.mk.inj (Option.some.inj h)
    exact ⟨(append_nil rows).symm, fun j hj => .inl hj⟩
  | cons first cases ih =>
    obtain ⟨unreachable1, hfirst, h⟩ := bind_eq_some_iff.mp h
    obtain ⟨hrows, hunreachable⟩ := ih h
    have hnext (before : List (Bool × Space T C)) :
        (if first.1 then rows else rows ++ [[first.2]]) ++ unguarded before =
          rows ++ unguarded (first :: before) := by
      cases hguard : first.1 <;> simp [unguarded, hguard]
    refine ⟨hrows.trans (hnext cases), fun j hj => ?_⟩
    rcases hunreachable j hj with hj | ⟨k, c, rfl, hc, hunmatched⟩
    · split at hfirst
      · exact .inl (Option.some.inj hfirst ▸ hj)
      obtain ⟨result, hresult, rfl⟩ := map_eq_some_iff.mp hfirst
      split at hj
      · next hnone =>
        rcases mem_append.mp hj with hj | hj
        · exact .inl hj
        obtain rfl := isNone_iff_eq_none.mp hnone
        exact .inr ⟨0, first, mem_singleton.mp hj, rfl, (append_nil rows).symm ▸ hresult⟩
      · exact .inl hj
    · refine .inr ⟨k + 1, c, by omega, hc, ?_⟩
      rw [take_succ_cons, ← hnext]
      exact hunmatched

/-- **A switch that is accepted is exhaustive**: each value has a case without a guard.  A value of
an unreachable case has an earlier one. -/
theorem computeExhaustiveness_sound {cases : List (Bool × Space T C)}
    (hcases : Rows.Over keys (unguarded cases)) (hext : model.TypedExtensions keys) {fuel : ℕ}
    {valueType : T} {witnesses : Option (List (Witness T C))} {unreachable : List ℕ}
    (h : types.computeExhaustiveness fuel valueType cases = some (witnesses, unreachable)) :
    (witnesses = none → ∀ v, model.has v valueType →
      ∃ c ∈ cases, c.1 = false ∧ c.2.Matches model.toValues v) ∧
    ∀ j ∈ unreachable, ∃ c, cases[j]? = some c ∧ ∀ v, c.2.Matches model.toValues v →
      ∃ c' ∈ cases.take j, c'.1 = false ∧ c'.2.Matches model.toValues v := by
  have hcovers {l : List (Bool × Space T C)} {v : V} (h : Covers model.toValues (unguarded l) [v]) :
      ∃ c ∈ l, c.1 = false ∧ c.2.Matches model.toValues v := by
    obtain ⟨row, hrow, hmatches⟩ := h
    obtain ⟨c, hc, rfl⟩ := mem_map.mp hrow
    obtain ⟨hc, hguard⟩ := mem_filter.mp hc
    exact ⟨c, hc, by simpa using hguard, (List.forall₂_cons.mp hmatches).1⟩
  obtain ⟨⟨rows, unreachable'⟩, hloop, h⟩ := bind_eq_some_iff.mp h
  obtain ⟨result, hresult, hpair⟩ := map_eq_some_iff.mp h
  obtain ⟨rfl, rfl⟩ := Prod.mk.inj hpair
  obtain ⟨rfl, hunreachable⟩ := caseUnreachabilities_spec hloop
  constructor
  · rintro rfl v hhas
    exact hcovers (sound_unmatched hext fuel _ _ _ _ hresult hcases [v]
      (.cons (matches_ofType.mpr hhas) .nil))
  · intro j hj
    obtain ⟨k, c, rfl, hc, hunmatched⟩ := (hunreachable j hj).resolve_left not_mem_nil
    rw [Nat.zero_add]
    refine ⟨c, hc, fun v hmatches => hcovers (sound_unmatched hext fuel _ _ _ _ hunmatched
      (fun row hrow => hcases row ?_) [v] (.cons hmatches .nil))⟩
    exact ((take_sublist k cases).filter _).map _ |>.subset hrow

/-- The cases `true` and `false` are exhaustive. -/
theorem computeExhaustiveness_truths :
    ∃ c ∈ [true, false].map fun b => (false, ofType [] (.truth b)), c.1 = false ∧
    c.2.Matches truthModel.toValues true := by
  refine (computeExhaustiveness_sound (fun row hrow space hspace => ?_)
    (fun _ h => h.elim : truthModel.TypedExtensions ∅)
    (rfl : truthTypes.computeExhaustiveness 9 .object _ = some (none, []))).1 rfl true trivial
  obtain ⟨c, hc, rfl⟩ := mem_map.mp hrow
  obtain ⟨b, -, rfl⟩ := mem_map.mp (mem_of_mem_filter hc)
  exact mem_singleton.mp hspace ▸ over_ofType _ _

end Exhaustiveness
