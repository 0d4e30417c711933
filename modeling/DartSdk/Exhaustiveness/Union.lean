import DartSdk.Exhaustiveness.Space

/-!
# Exhaustiveness/Union — the values of a space, and of a union

A model gives the values of the types and the properties of the values.  A single space matches a
value of its type whose properties, additional ones included, are matched by their subspaces; a
space matches what one of its single spaces matches.

`Types.fromSingleSpaces` keeps one single space of several that are equal — and their additional
properties do not count — and makes one nullable type of a pair with `Null`, whatever additional
properties that pair has.  So it can lose values and add some.  It does neither if the additional
properties make no difference (`Model.Respects`, `union_exact_of_respects`).
-/

namespace Exhaustiveness

open List SingleSpace Exhaustiveness.Types

variable {T C V : Type} {α : Type}

/-- A key without what equality does not look at. -/
def Key.normal : Key T C → Key T C
  | .mapKey value _ => .mapKey value ""
  | .recordIndexKey index => .nameKey (String.append "$" (toString (index + 1)))
  | .recordNameKey name => .nameKey name
  | .extensionKey receiverType name _ => .extensionKey receiverType name receiverType
  | key => key

/-- The values of the types, and the properties of a value. -/
structure Values (T C V : Type) where
  has : V → T → Prop
  property : V → Key T C → V
  additional : V → Key T C → V
  property_congr : ∀ v k l, k.normal = l.normal → property v k = property v l
  additional_congr : ∀ v k l, k.normal = l.normal → additional v k = additional v l

/-- A model of `Null` and nullable types. -/
structure Model (types : Types T C) (V : Type) extends Values T C V where
  null : V
  has_never : ∀ v, ¬has v types.neverType
  has_null : ∀ v, has v types.nullType ↔ v = null
  has_nullable : ∀ v t, has v (types.nullable t) ↔ has v t ∨ v = null

variable (m : Values T C V)

mutual

/-- **A single space matches** a value of its type with properties that match. -/
inductive SingleSpace.Matches : V → SingleSpace T C → Prop
  | intro {v : V} {s : SingleSpace T C} (hasType : m.has v s.type)
      (property : ∀ entry ∈ s.properties, Space.Matches (m.property v entry.1) entry.2)
      (additional : ∀ entry ∈ s.additionalProperties,
        Space.Matches (m.additional v entry.1) entry.2) : SingleSpace.Matches v s

/-- **A space matches** what one of its single spaces does. -/
inductive Space.Matches : V → Space T C → Prop
  | intro {v : V} {space : Space T C} {s : SingleSpace T C} (mem : s ∈ space.singleSpaces)
      (single : SingleSpace.Matches v s) : Space.Matches v space

end

variable {m} {v : V} {types : Types T C} {model : Model types V} {s t : SingleSpace T C}

theorem SingleSpace.matches_iff : s.Matches m v ↔ m.has v s.type ∧
    (∀ entry ∈ s.properties, Space.Matches m (m.property v entry.1) entry.2) ∧
    ∀ entry ∈ s.additionalProperties, Space.Matches m (m.additional v entry.1) entry.2 :=
  ⟨fun ⟨htype, hproperty, hadditional⟩ => ⟨htype, hproperty, hadditional⟩,
    fun ⟨htype, hproperty, hadditional⟩ => ⟨htype, hproperty, hadditional⟩⟩

theorem Space.matches_iff {space : Space T C} :
    space.Matches m v ↔ ∃ s ∈ space.singleSpaces, s.Matches m v :=
  ⟨fun ⟨hmem, hsingle⟩ => ⟨_, hmem, hsingle⟩, fun ⟨_, hmem, hsingle⟩ => ⟨hmem, hsingle⟩⟩

/-- A type without properties. -/
theorem SingleSpace.matches_ofType {t : T} :
    (SingleSpace.mk t [] [] : SingleSpace T C).Matches m v ↔ m.has v t := by
  rw [SingleSpace.matches_iff]
  exact ⟨fun h => h.1, fun h => ⟨h, fun _ he => absurd he not_mem_nil,
    fun _ he => absurd he not_mem_nil⟩⟩

variable {path : List (Key T C)}

theorem Space.matches_ofType {t : T} : (Space.ofType path t).Matches m v ↔ m.has v t := by
  rw [Space.matches_iff, ← SingleSpace.matches_ofType (C := C)]
  exact ⟨fun ⟨s, hs, hmatches⟩ => mem_singleton.mp hs ▸ hmatches,
    fun h => ⟨_, mem_singleton_self _, h⟩⟩

variable [DecidableEq T] [DecidableEq C] {k : Key T C}

theorem Key.beq_iff {l : Key T C} : (k == l) = true ↔ k.normal = l.normal := by
  change k.beq l = true ↔ _
  cases k <;> cases l <;> simp [Key.beq, Key.normal, Key.name?]
  exact fun hreceiver _ => hreceiver

instance : EquivBEq (Key T C) where
  rfl := Key.beq_iff.mpr rfl
  symm h := Key.beq_iff.mpr (Key.beq_iff.mp h).symm
  trans h h' := Key.beq_iff.mpr ((Key.beq_iff.mp h).trans (Key.beq_iff.mp h'))

/-- Equal keys find the same. -/
theorem lookup_congr {map : List (Key T C × α)} {l : Key T C} (h : (k == l) = true) :
    lookup map k = lookup map l := by
  have heq : (fun entry : Key T C × α => entry.1 == k) = fun entry => entry.1 == l := by
    funext entry
    exact BEq.congr_right h
  rw [lookup, lookup, heq]

theorem mem_of_lookup {map : List (Key T C × α)} {x : α}
    (h : lookup map k = some x) : ∃ entry ∈ map, (entry.1 == k) = true ∧ entry.2 = x := by
  rw [lookup, Option.map_eq_some_iff] at h
  obtain ⟨entry, hfind, rfl⟩ := h
  have hkey := find?_some hfind
  exact ⟨entry, mem_of_find?_eq_some hfind, hkey, rfl⟩

/-- A map finds each of its entries. -/
theorem lookup_of_mem {map : List (Key T C × α)} {entry : Key T C × α}
    (h : map.Pairwise fun entry entry' => (entry.1 == entry'.1) = false) (hentry : entry ∈ map) :
    lookup map entry.1 = some entry.2 := by
  induction h with
  | nil => exact absurd hentry not_mem_nil
  | @cons first map hfirst _ ih =>
    rw [lookup, find?_cons]
    rcases mem_cons.mp hentry with rfl | hentry
    · rw [Key.beq_iff.mpr rfl]
      rfl
    · rw [hfirst entry hentry]
      exact ih hentry

namespace SingleSpace

variable {s t u : SingleSpace T C}

theorem eq_iff : s.eq t = true ↔ s.type = t.type ∧ s.properties.length = t.properties.length ∧
    ∀ entry ∈ s.properties, ∃ space, lookup t.properties entry.1 = some space ∧
      entry.2.identical space = true := by
  simp only [eq, Bool.and_eq_true, decide_eq_true_eq, and_assoc, all_eq_true]
  refine and_congr_right fun _ => and_congr_right fun _ => forall₂_congr fun entry _ => ?_
  cases lookup t.properties entry.1 <;> simp

/-- Only the type counts for the empty space. -/
theorem eq_empty_iff : s.eq types.empty = true ↔ s.type = types.neverType ∧ s.properties = [] := by
  rw [eq_iff]
  constructor
  · exact fun ⟨htype, hlength, _⟩ => ⟨htype, length_eq_zero_iff.mp hlength⟩
  · rintro ⟨htype, hnil⟩
    refine ⟨htype, by rw [hnil]; rfl, fun entry hentry => ?_⟩
    rw [hnil] at hentry
    exact absurd hentry not_mem_nil

theorem not_matches_of_eq_empty (h : s.eq types.empty = true) : ¬s.Matches model.toValues v := by
  intro hmatches
  refine model.has_never v ?_
  rw [← (eq_empty_iff.mp h).1]
  exact (matches_iff.mp hmatches).1

end SingleSpace

variable {l : List (SingleSpace T C)}

theorem mem_distinct_of_mem {set : List (SingleSpace T C)} (hs : s ∈ set) :
    s ∈ types.distinct set l := by
  induction l generalizing set with
  | nil => exact hs
  | cons x l ih =>
    rw [distinct]
    split
    · exact ih hs
    split
    · exact ih hs
    · exact ih (mem_append_left _ hs)

theorem mem_of_mem_distinct {set : List (SingleSpace T C)} (hs : s ∈ types.distinct set l) :
    s ∈ set ∨ s ∈ l := by
  induction l generalizing set with
  | nil => exact .inl hs
  | cons x l ih =>
    rw [distinct] at hs
    split at hs
    · exact (ih hs).imp_right (mem_cons_of_mem _)
    split at hs
    · exact (ih hs).imp_right (mem_cons_of_mem _)
    · rcases ih hs with hset | hl
      · exact (mem_append.mp hset).imp_right fun h => mem_cons.mpr (.inl (mem_singleton.mp h))
      · exact .inr (mem_cons_of_mem _ hl)

/-- A single space that is not empty is kept, or an equal one in front of it is. -/
theorem exists_mem_distinct {R : SingleSpace T C → SingleSpace T C → Prop}
    {set : List (SingleSpace T C)} (hset : ∀ t ∈ set, ∀ s ∈ l, R t s) (hl : l.Pairwise R)
    (hs : s ∈ l) (hempty : s.eq types.empty = false) :
    ∃ t ∈ types.distinct set l, t = s ∨ t.eq s = true ∧ R t s := by
  induction l generalizing set with
  | nil => exact absurd hs not_mem_nil
  | cons x l ih =>
    obtain ⟨hx, hl⟩ := pairwise_cons.mp hl
    have hset' : ∀ t ∈ set, ∀ s ∈ l, R t s := fun t ht s hs => hset t ht s (mem_cons_of_mem _ hs)
    rw [distinct]
    split
    · rename_i hxempty
      rcases mem_cons.mp hs with rfl | hs
      · rw [hempty] at hxempty
        contradiction
      · exact ih hset' hl hs
    split
    · rename_i hany
      rcases mem_cons.mp hs with rfl | hs
      · obtain ⟨t, ht, heq⟩ := any_eq_true.mp hany
        exact ⟨t, mem_distinct_of_mem ht, .inr ⟨heq, hset t ht _ mem_cons_self⟩⟩
      · exact ih hset' hl hs
    · rcases mem_cons.mp hs with rfl | hs
      · exact ⟨s, mem_distinct_of_mem (mem_append_right _ (mem_singleton_self _)), .inl rfl⟩
      · refine ih (fun t ht s hs => ?_) hl hs
        rcases mem_append.mp ht with ht | ht
        · exact hset' t ht s hs
        · exact mem_singleton.mp ht ▸ hx s hs

theorem pairwise_distinct {set : List (SingleSpace T C)}
    (hset : set.Pairwise fun s t => s.eq t = false) :
    (types.distinct set l).Pairwise fun s t => s.eq t = false := by
  induction l generalizing set with
  | nil => exact hset
  | cons x l ih =>
    rw [distinct]
    split
    · exact ih hset
    split
    · exact ih hset
    rename_i hany
    refine ih (pairwise_append.mpr ⟨hset, pairwise_singleton _ _, fun s hs t ht => ?_⟩)
    rw [mem_singleton.mp ht]
    by_contra heq
    rw [Bool.not_eq_false] at heq
    exact hany (any_eq_true.mpr ⟨s, hs, heq⟩)

theorem not_empty_of_mem_distinct {set : List (SingleSpace T C)}
    (hset : ∀ s ∈ set, s.eq types.empty = false) (hs : s ∈ types.distinct set l) :
    s.eq types.empty = false := by
  induction l generalizing set with
  | nil => exact hset s hs
  | cons x l ih =>
    rw [distinct] at hs
    split at hs
    · exact ih hset hs
    split at hs
    · exact ih hset hs
    · rename_i hx _
      exact ih (forall_mem_append.mpr ⟨hset, forall_mem_singleton.mpr (Bool.eq_false_iff.mpr hx)⟩)
        hs

theorem SingleSpace.eq_of_nil (htype : s.type = t.type)
    (hs : s.properties = []) (ht : t.properties = []) : s.eq t = true := by
  refine eq_iff.mpr ⟨htype, by rw [hs, ht], fun entry hentry => ?_⟩
  rw [hs] at hentry
  exact absurd hentry not_mem_nil

/-! ## The union

Neither equality nor the pair with `Null` looks at additional properties.  The condition for a union
is that this makes no difference: of two equal single spaces the first one accepts what the second
one matches, and where a nullable type is made no value of it is refused. -/

/-- The additional properties of the value are matched. -/
def SingleSpace.Accepts (m : Values T C V) (v : V) (s : SingleSpace T C) : Prop :=
  ∀ entry ∈ s.additionalProperties, entry.2.Matches m (m.additional v entry.1)

/-- `Null` and another type, both without properties, and all else is equal to one of them. -/
structure NullPair (types : Types T C) (l : List (SingleSpace T C)) (n t : SingleSpace T C) :
    Prop where
  mem : n ∈ l ∧ t ∈ l
  null : n.type = types.nullType
  other : t.type ≠ types.nullType
  nil : n.properties = [] ∧ t.properties = []
  nonempty : n.type ≠ types.neverType ∧ t.type ≠ types.neverType
  only : ∀ s ∈ l, s.eq types.empty = true ∨ n.eq s = true ∨ t.eq s = true

/-- **The additional properties make no difference**: of two equal single spaces the first one
accepts what the second one matches, and of a pair with `Null` no value is refused. -/
structure Model.Respects (model : Model types V) (l : List (SingleSpace T C)) : Prop where
  equal : l.Pairwise fun s t => s.eq t = true → ∀ v, t.Matches model.toValues v →
    s.Accepts model.toValues v
  nullable : ∀ n t, NullPair types l n t → ∀ v, model.has v t.type ∨ v = model.null →
    ∃ s ∈ l, s.properties = [] ∧ model.has v s.type ∧ s.Accepts model.toValues v

/-- Property spaces that are identical are the same. -/
def Coherent (l : List (SingleSpace T C)) : Prop :=
  ∀ s ∈ l, ∀ t ∈ l, ∀ x ∈ s.properties, ∀ y ∈ t.properties, x.2.identical y.2 = true → x.2 = y.2

omit [DecidableEq T] [DecidableEq C] in
theorem matches_of_nil (hnil : s.properties = []) (hhas : m.has v s.type)
    (haccepts : s.Accepts m v) : s.Matches m v := by
  refine ⟨hhas, fun entry hentry => ?_, haccepts⟩
  rw [hnil] at hentry
  exact absurd hentry not_mem_nil

/-- Equal single spaces differ in additional properties only. -/
theorem matches_of_eq (hcoherent : Coherent l) (hs : s ∈ l) (ht : t ∈ l) (heq : t.eq s = true)
    (hmatches : s.Matches m v) (haccepts : t.Accepts m v) : t.Matches m v := by
  obtain ⟨htype, -, hproperties⟩ := eq_iff.mp heq
  obtain ⟨hhas, hproperty, -⟩ := matches_iff.mp hmatches
  refine matches_iff.mpr ⟨htype ▸ hhas, fun entry hentry => ?_, haccepts⟩
  obtain ⟨space, hlookup, hidentical⟩ := hproperties entry hentry
  obtain ⟨entry', hentry', hkey, rfl⟩ := mem_of_lookup hlookup
  rw [hcoherent t ht s hs entry hentry entry' hentry' hidentical,
    m.property_congr v _ _ (Key.beq_iff.mp hkey).symm]
  exact hproperty entry' hentry'

omit [DecidableEq C] in
/-- What `collapse` does: nothing, or `Null` and another type become one nullable type. -/
theorem collapse_cases (set : List (SingleSpace T C)) :
    (∃ n t, (set = [n, t] ∨ set = [t, n]) ∧ n.type = types.nullType ∧ n.properties = [] ∧
      t.properties = [] ∧ types.collapse set = [.mk (types.nullable t.type) [] []]) ∨
    set = [] ∧ types.collapse set = [types.empty] ∨ types.collapse set = set := by
  rcases set with _ | ⟨s, _ | ⟨t, _ | ⟨u, rest⟩⟩⟩
  · exact .inr (.inl ⟨rfl, rfl⟩)
  · exact .inr (.inr rfl)
  · rw [collapse]
    split
    · rename_i h
      exact .inl ⟨s, t, .inl rfl, h.1, isEmpty_iff.mp h.2.1, isEmpty_iff.mp h.2.2, rfl⟩
    split
    · rename_i h
      exact .inl ⟨t, s, .inr rfl, h.1, isEmpty_iff.mp h.2.1, isEmpty_iff.mp h.2.2, rfl⟩
    · exact .inr (.inr rfl)
  · exact .inr (.inr rfl)

theorem nullPair_of_distinct (hset : types.distinct [] l = [s, t] ∨ types.distinct [] l = [t, s])
    (hnull : s.type = types.nullType) (hs : s.properties = []) (ht : t.properties = []) :
    NullPair types l s t := by
  have hmem (x) : x ∈ types.distinct [] l ↔ x = s ∨ x = t := by
    rcases hset with hset | hset <;> simp [hset, or_comm]
  have hl (x) (hx : x = s ∨ x = t) : x ∈ l :=
    (mem_of_mem_distinct ((hmem x).mpr hx)).resolve_left not_mem_nil
  have hnonempty (x) (hx : x = s ∨ x = t) (hnil : x.properties = []) :
      x.type ≠ types.neverType := by
    intro htype
    have hfalse := not_empty_of_mem_distinct (forall_mem_nil _) ((hmem x).mpr hx)
    rw [eq_empty_iff.mpr ⟨htype, hnil⟩] at hfalse
    contradiction
  refine ⟨⟨hl s (.inl rfl), hl t (.inr rfl)⟩, hnull, fun htype => ?_, ⟨hs, ht⟩,
    ⟨hnonempty s (.inl rfl) hs, hnonempty t (.inr rfl) ht⟩, fun x hx => ?_⟩
  · have hpairwise : (types.distinct [] l).Pairwise fun s t => s.eq t = false :=
      pairwise_distinct Pairwise.nil
    rcases hset with hset | hset
    all_goals
      rw [hset, pairwise_pair] at hpairwise
    · rw [eq_of_nil (hnull.trans htype.symm) hs ht] at hpairwise
      contradiction
    · rw [eq_of_nil (htype.trans hnull.symm) ht hs] at hpairwise
      contradiction
  · cases hempty : x.eq types.empty with
    | true => exact .inl rfl
    | false =>
      have hpairwise : l.Pairwise fun _ _ => True := pairwise_of_forall fun _ _ => trivial
      obtain ⟨u, hu, heq⟩ := exists_mem_distinct (forall_mem_nil _) hpairwise hx hempty
      have hux : u.eq x = true := by
        rcases heq with rfl | ⟨heq, -⟩
        · rcases (hmem u).mp hu with rfl | rfl
          · exact eq_of_nil rfl hs hs
          · exact eq_of_nil rfl ht ht
        · exact heq
      rcases (hmem u).mp hu with rfl | rfl
      · exact .inr (.inl hux)
      · exact .inr (.inr hux)

/-- **A union is exact** if the additional properties make no difference. -/
theorem fromSingleSpaces_exact (model : Model types V) (path : List (Key T C))
    (hcoherent : Coherent l) (hrespects : model.Respects l) :
    (types.fromSingleSpaces path l).Matches model.toValues v ↔
      ∃ s ∈ l, s.Matches model.toValues v := by
  have hmem {x} (hx : x ∈ types.distinct [] l) : x ∈ l :=
    (mem_of_mem_distinct hx).resolve_left not_mem_nil
  -- What a single space of the list matches, one that is kept matches.
  have hkept : (∃ s ∈ l, s.Matches model.toValues v) →
      ∃ s ∈ types.distinct [] l, s.Matches model.toValues v := by
    rintro ⟨s, hs, hmatches⟩
    have hempty : s.eq types.empty = false :=
      Bool.eq_false_iff.mpr fun hempty => not_matches_of_eq_empty hempty hmatches
    obtain ⟨t, ht, rfl | ⟨heq, haccepts⟩⟩ := exists_mem_distinct (forall_mem_nil _)
      hrespects.equal hs hempty
    · exact ⟨t, ht, hmatches⟩
    · exact ⟨t, ht, matches_of_eq hcoherent hs (hmem ht) heq hmatches (haccepts heq v hmatches)⟩
  rw [Space.matches_iff, fromSingleSpaces, Space.singleSpaces]
  have hcases : _ ∨ _ ∨ types.collapse (types.distinct [] l) = _ := collapse_cases _
  rcases hcases with ⟨n, t, hset, hnull, hn, ht, hcollapse⟩ | ⟨hset, hcollapse⟩ | hcollapse
  · simp only [hcollapse, mem_singleton, exists_eq_left, SingleSpace.matches_ofType,
      model.has_nullable]
    constructor
    · intro hv
      obtain ⟨s, hs, hnil, hhas, haccepts⟩ :=
        hrespects.nullable n t (nullPair_of_distinct hset hnull hn ht) v hv
      exact ⟨s, hs, matches_of_nil hnil hhas haccepts⟩
    · intro hv
      obtain ⟨s, hs, hmatches⟩ := hkept hv
      have hhas := (matches_iff.mp hmatches).1
      have hs : s = n ∨ s = t := by
        rcases hset with hset | hset <;> simpa [hset, or_comm] using hs
      rcases hs with rfl | rfl
      · rw [hnull, model.has_null] at hhas
        exact .inr hhas
      · exact .inl hhas
  · simp only [hcollapse, mem_singleton, exists_eq_left]
    refine iff_of_false (not_matches_of_eq_empty (eq_empty_iff.mpr ⟨rfl, rfl⟩)) fun hv => ?_
    obtain ⟨s, hs, -⟩ := hkept hv
    rw [hset] at hs
    exact absurd hs not_mem_nil
  · rw [hcollapse]
    refine ⟨?_, hkept⟩
    rintro ⟨s, hs, hmatches⟩
    exact ⟨s, hmem hs, hmatches⟩

theorem respects_of_noAdditional (hnone : ∀ s ∈ l, s.additionalProperties = []) :
    model.Respects l := by
  have haccepts {s} (hs : s ∈ l) (v) : s.Accepts model.toValues v := by
    intro entry hentry
    rw [hnone s hs] at hentry
    exact absurd hentry not_mem_nil
  refine ⟨pairwise_of_forall_mem_list fun s hs t _ _ v _ => haccepts hs v, ?_⟩
  rintro n t ⟨⟨hn, ht⟩, hnull, -, ⟨hnil, hnil'⟩, -, -⟩ v (hv | hv)
  · exact ⟨t, ht, hnil', hv, haccepts ht v⟩
  · exact ⟨n, hn, hnil, by rw [hnull, model.has_null, hv], haccepts hn v⟩

/-- Both of a pair with `Null` are kept, and become one nullable type. -/
theorem collapse_of_nullPair {n u : SingleSpace T C} (h : NullPair types [s, t] n u) :
    types.collapse (types.distinct [] [s, t]) = [.mk (types.nullable u.type) [] []] := by
  obtain ⟨⟨hn, hu⟩, hnull, hother, ⟨hnil, hnil'⟩, ⟨hnever, hnever'⟩, -⟩ := h
  have hne : n.type ≠ u.type := fun h => hother (h ▸ hnull)
  have hempty {x : SingleSpace T C} (hx : x.type ≠ types.neverType) : x.eq types.empty = false :=
    Bool.eq_false_iff.mpr fun h => hx (eq_empty_iff.mp h).1
  have hdistinct {x y : SingleSpace T C} (hxy : x.type ≠ y.type) : x.eq y = false :=
    Bool.eq_false_iff.mpr fun h => hxy (eq_iff.mp h).1
  simp only [mem_cons, not_mem_nil, or_false] at hn hu
  rcases hn with rfl | rfl <;> rcases hu with rfl | rfl
  · exact absurd rfl hne
  · simp [distinct, hempty hnever, hempty hnever', hdistinct hne, collapse, hnull, hnil, hnil']
  · simp [distinct, hempty hnever, hempty hnever', hdistinct hne.symm, collapse, hother, hnull,
      hnil, hnil']
  · exact absurd rfl hne

/-- For two single spaces the condition is necessary. -/
theorem respects_of_exact (path : List (Key T C))
    (hexact : ∀ v, (types.fromSingleSpaces path [s, t]).Matches model.toValues v ↔
      ∃ u ∈ [s, t], u.Matches model.toValues v) : model.Respects [s, t] := by
  simp only [Space.matches_iff, fromSingleSpaces, Space.singleSpaces] at hexact
  refine ⟨pairwise_pair.mpr fun heq v hmatches => ?_, fun n u hpair v hv => ?_⟩
  · have hempty : s.eq types.empty = false := by
      refine Bool.eq_false_iff.mpr fun hs => model.has_never v ?_
      rw [← (eq_empty_iff.mp hs).1, (eq_iff.mp heq).1]
      exact (matches_iff.mp hmatches).1
    have hkept : types.collapse (types.distinct [] [s, t]) = [s] := by
      simp [distinct, hempty, heq, collapse]
    obtain ⟨u, hu, hmatches⟩ := (hexact v).mpr ⟨t, by simp, hmatches⟩
    rw [hkept, mem_singleton] at hu
    exact (matches_iff.mp (hu ▸ hmatches)).2.2
  · rw [collapse_of_nullPair hpair] at hexact
    obtain ⟨x, hx, hmatches⟩ := (hexact v).mp
      ⟨_, mem_singleton_self _, SingleSpace.matches_ofType.mpr ((model.has_nullable v _).mpr hv)⟩
    obtain ⟨hhas, -, haccepts⟩ := matches_iff.mp hmatches
    refine ⟨x, hx, ?_, hhas, haccepts⟩
    rcases hpair.only x hx with heq | heq | heq
    · exact (eq_empty_iff.mp heq).2
    all_goals
      have hlength := (eq_iff.mp heq).2.1
      simp only [hpair.nil, length_nil] at hlength
      exact length_eq_zero_iff.mp hlength.symm

/-- **Unions.**  A union of single spaces, and the union of two spaces, match what one of them
matches if the additional properties make no difference; for two single spaces only then. -/
theorem union_exact_of_respects (model : Model types V) :
    (∀ path l, Coherent l → model.Respects l → ∀ v,
      (types.fromSingleSpaces path l).Matches model.toValues v ↔
        ∃ s ∈ l, s.Matches model.toValues v) ∧
    (∀ a b, Coherent (a.singleSpaces ++ b.singleSpaces) →
      model.Respects (a.singleSpaces ++ b.singleSpaces) → ∀ v,
        (types.union a b).Matches model.toValues v ↔
          a.Matches model.toValues v ∨ b.Matches model.toValues v) ∧
    ∀ path s t, (∀ v, (types.fromSingleSpaces path [s, t]).Matches model.toValues v ↔
      ∃ u ∈ [s, t], u.Matches model.toValues v) → model.Respects [s, t] := by
  refine ⟨fun path l hcoherent hrespects v => fromSingleSpaces_exact model path hcoherent hrespects,
    fun a b hcoherent hrespects v => ?_, fun path s t => respects_of_exact path⟩
  rw [union, fromSingleSpaces_exact model a.path hcoherent hrespects, Space.matches_iff,
    Space.matches_iff]
  simp [mem_append, or_and_right, exists_or]

/-- The types `Never`, `Null`, `Object?`, that of a bit, that of a list with one element, and
nullable types. -/
inductive BitType where
  | never
  | null
  | object
  | bit (b : Bool)
  | list
  | nullable (t : BitType)
  deriving DecidableEq

/-- The null value, bits, and lists of a bit. -/
inductive BitValue where
  | null
  | bit (b : Bool)
  | list (b : Bool)
  deriving DecidableEq

/-- The values of a type. -/
def BitType.has : BitType → BitValue → Prop
  | never, _ => False
  | null, v => v = .null
  | object, _ => True
  | bit b, v => v = .bit b
  | list, v => ∃ b, v = .list b
  | nullable t, v => t.has v ∨ v = .null

/-- Two bits, lists and null, with their subtypes. -/
def bitTypes : Types BitType Unit where
  neverType := .never
  nullType := .null
  nullableObject := .object
  unknownType := .never
  name _ := ""
  isSubtypeOf t u := t = u
  isSealed _ := false
  nullable := .nullable
  getSubtypes _ _ := []
  getPropertyType _ _ := none
  getAdditionalPropertyType _ _ := none

/-- The element of a list, which is also the value of its getters. -/
def BitValue.element : BitValue → BitValue
  | list b => bit b
  | v => v

/-- The elements of a list are its additional properties. -/
def bitModel : Model bitTypes BitValue where
  has v t := t.has v
  property v _ := v.element
  additional v _ := v.element
  property_congr _ _ _ _ := rfl
  additional_congr _ _ _ _ := rfl
  null := .null
  has_never _ := id
  has_null _ := Iff.rfl
  has_nullable _ _ := Iff.rfl

/-- The list pattern with one element of a type. -/
def listOf (t : BitType) : Space BitType Unit :=
  .mk none [] [.mk .list [] [(.headKey 0, .ofType [.headKey 0] t)]]

/-- The list pattern with one constant. -/
def listSpace (b : Bool) : Space BitType Unit := listOf (.bit b)

theorem listSpace_matches {b : Bool} {v : BitValue} :
    (listSpace b).Matches bitModel.toValues v ↔ v = .list b := by
  constructor
  · rintro ⟨hmem, hsingle⟩
    rw [mem_singleton.mp hmem, matches_iff] at hsingle
    obtain ⟨⟨c, rfl⟩, -, hadditional⟩ := hsingle
    have helement := Space.matches_ofType.mp (hadditional _ mem_cons_self)
    rw [BitValue.bit.inj helement]
  · rintro rfl
    refine ⟨mem_singleton_self _, SingleSpace.matches_iff.mpr ⟨⟨b, rfl⟩, ?_, ?_⟩⟩
    · exact fun _ h => absurd h not_mem_nil
    · intro entry hentry
      rw [mem_singleton.mp hentry]
      exact Space.matches_ofType.mpr rfl

/-- The pattern `[0] || null`, before its union is made. -/
def zeroOrNull : Space BitType Unit :=
  .mk none [] ((listSpace false).singleSpaces ++ (Space.ofType [] .null).singleSpaces)

/-- The pattern `[_] || ([0] || null)`: the additional properties of `[_]` accept every list. -/
theorem union_exact_wildcard :
    (bitTypes.union (listOf .object) zeroOrNull).Matches bitModel.toValues (.list true) ∧
    ∀ v, (bitTypes.union (listOf .object) zeroOrNull).Matches bitModel.toValues v ↔
      (listOf .object).Matches bitModel.toValues v ∨ zeroOrNull.Matches bitModel.toValues v := by
  have hobject (v : BitValue) : ∀ s ∈ (listOf .object).singleSpaces,
      s.Accepts bitModel.toValues v := by
    intro s hs entry hentry
    rw [mem_singleton.mp hs] at hentry
    rw [mem_singleton.mp hentry]
    exact Space.matches_ofType.mpr trivial
  have hcoherent : Coherent ((listOf .object).singleSpaces ++ zeroOrNull.singleSpaces) := by
    intro s hs t _ x hx
    rcases mem_cons.mp hs with rfl | hs
    · exact absurd hx not_mem_nil
    rcases mem_cons.mp hs with rfl | hs
    · exact absurd hx not_mem_nil
    · rw [mem_singleton.mp hs] at hx
      exact absurd hx not_mem_nil
  have hrespects : bitModel.Respects
      ((listOf .object).singleSpaces ++ zeroOrNull.singleSpaces) := by
    refine ⟨pairwise_cons.mpr ⟨fun t _ _ v _ => hobject v _ mem_cons_self, ?_⟩, ?_⟩
    · exact pairwise_pair.mpr fun heq => absurd heq (by decide)
    · rintro n t hpair v (hv | rfl)
      · have htype : t.type = .list := by
          have ht := hpair.mem.2
          simp only [listOf, zeroOrNull, listSpace, Space.ofType, Space.singleSpaces, cons_append,
            nil_append, mem_cons, not_mem_nil, or_false] at ht
          rcases ht with rfl | rfl | rfl
          · rfl
          · rfl
          · exact absurd rfl hpair.other
        exact ⟨_, mem_cons_self, rfl, htype ▸ hv, hobject v _ mem_cons_self⟩
      · exact ⟨.mk .null [] [], by simp [zeroOrNull, Space.ofType, Space.singleSpaces], rfl, rfl,
          fun _ h => absurd h not_mem_nil⟩
  have hunion := union_exact_of_respects bitModel |>.2.1 _ _ hcoherent hrespects
  refine ⟨(hunion _).mpr (.inl ⟨mem_singleton_self _, ?_⟩), hunion⟩
  exact ⟨⟨true, rfl⟩, fun _ h => absurd h not_mem_nil, hobject _ _ (mem_singleton_self _)⟩

/-- The pattern `[0] || [1]` does not match `[1]`, and `[0] || null` does. -/
theorem union_lists : ((listSpace true).Matches bitModel.toValues (.list true) ∧
      ¬(bitTypes.union (listSpace false) (listSpace true)).Matches bitModel.toValues (.list true)) ∧
    (bitTypes.union (listSpace false) (.ofType [] .null)).Matches bitModel.toValues (.list true) ∧
      ¬(listSpace false).Matches bitModel.toValues (.list true) ∧
      ¬(Space.ofType [] .null).Matches bitModel.toValues (.list true) := by
  have hunion : bitTypes.union (listSpace false) (listSpace true) = listSpace false := rfl
  have hnull : bitTypes.union (listSpace false) (.ofType [] .null) = .ofType [] (.nullable .list) :=
    rfl
  rw [hunion, hnull]
  simp only [listSpace_matches, Space.matches_ofType]
  refine ⟨⟨trivial, by decide⟩, .inl ⟨true, rfl⟩, by decide, ?_⟩
  exact fun h => absurd h (by decide : BitValue.list true ≠ .null)

end Exhaustiveness
