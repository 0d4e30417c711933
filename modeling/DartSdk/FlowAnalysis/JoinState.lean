import DartSdk.FlowAnalysis.FlowLinkCorrect
import DartSdk.FlowAnalysis.FlowModel

/-!
# FlowAnalysis/JoinState — what holds while two flow models are joined

A map is the function from keys to models that its reader computes (`PromotionInfo.models`); the
rules here say what the operations of a helper do to it.

**While a join runs** (`Joining`), the versions and keys it started with are untouched.  Each
version it has made is the join of two old ones, its properties are properties of both, and a model
of such a property is common to the models on both sides.
-/

namespace FlowAnalysis

open Function List Option PromotionInfo OrderedMap Prog

variable {T : Type}

/-! ## Maps as functions

The links of a promotion info are a map, in which the newest link of a key counts. -/

/-- The model of a key. -/
def PromotionInfo.models (info : Option (PromotionInfo T)) (key : ℕ) : Option (PromotionModel T) :=
  ((tree T).nearest key info).map (·.link.model)

/-- The model of each promotion key. -/
def FlowModel.models (flowModel : FlowModel T) : ℕ → Option (PromotionModel T) :=
  PromotionInfo.models flowModel.promotionInfo

theorem PromotionInfo.ofLinks_links (info : Option (PromotionInfo T)) :
    ofLinks (links info) = info := by
  cases info <;> rfl

/-- A map with one more link. -/
theorem PromotionInfo.models_of_links {info info' : Option (PromotionInfo T)}
    {link : PromotionLink T} (h : links info' = link :: links info) :
    models info' = Function.update (models info) link.key (some link.model) := by
  obtain rfl : info' = some ⟨link, links info⟩ := by rw [← ofLinks_links info', h]; rfl
  funext k
  rw [models, FlowLinks.nearest_some]
  have hprevious : (tree T).previous ⟨link, links info⟩ = info := ofLinks_links info
  have hkey : (tree T).key ⟨link, links info⟩ = link.key := rfl
  rw [hprevious, hkey]
  by_cases hk : link.key = k
  · subst hk
    rw [update_self, if_pos rfl]
    rfl
  · rw [update_of_ne (Ne.symm hk), if_neg hk]
    rfl

theorem PromotionInfo.map_chain (info : Option (PromotionInfo T)) :
    ((tree T).chain info).map link = links info := by
  induction info using Chains.chain.induct (tree T).toChains with
  | case1 => rw [Chains.chain_none]; rfl
  | case2 info ih =>
    rw [Chains.chain_some, map_cons, ih]
    have hprevious : (tree T).previous info = ofLinks info.before := rfl
    rw [hprevious]
    cases hbefore : info.before <;> simp [links, ofLinks, hbefore]

theorem PromotionInfo.exists_link {info : Option (PromotionInfo T)} {key : ℕ}
    {model : PromotionModel T} (h : models info key = some model) :
    ∃ link ∈ links info, link.key = key ∧ link.model = model := by
  obtain ⟨found, hfound, rfl⟩ := map_eq_some_iff.mp h
  refine ⟨found.link, map_chain info ▸ mem_map_of_mem (mem_of_find?_eq_some hfound), ?_, rfl⟩
  have hkey := find?_some hfound
  exact of_decide_eq_true hkey

/-- A helper that may have read other links and made other objects. -/
structure Helper.SameState (h h' : Helper T) : Prop where
  reader : h'.reader.Exact (tree T)
  keys : h'.keys = h.keys
  versions : h'.versions = h.versions

section

variable [DecidableEq T] {h : Helper T} (hreader : h.reader.Exact (tree T))

include hreader

theorem Helper.wp_get (info : Option (PromotionInfo T)) (key : ℕ) :
    wp (get info key) (fun model h' => model = models info key ∧ h.SameState h') h := by
  obtain ⟨reader, hget, hexact⟩ := hreader.get info key
  exact ⟨_, { h with reader }, by rw [get, hget]; rfl, rfl, hexact, rfl, rfl⟩

theorem Helper.wp_diff (left right : Option (PromotionInfo T)) :
    wp (diff left right) (fun difference h' =>
      (tree T).IsDifference left right difference.1 difference.2 ∧ h.SameState h') h := by
  obtain ⟨a, entries, reader, hdiff, hdifference, hexact⟩ := hreader.diff left right
  exact ⟨_, { h with reader }, by rw [diff, hdiff]; rfl, hdifference, hexact, rfl, rfl⟩

omit [DecidableEq T] in
theorem Helper.wp_returned (list : Returned T) :
    wp (returned list) (fun result h' => result.types = list.types ∧ h.SameState h') h := by
  cases list with
  | same list => exact ⟨list, h, rfl, rfl, hreader, rfl, rfl⟩
  | fresh types => exact ⟨_, _, rfl, rfl, hreader, rfl, rfl⟩

theorem FlowModel.wp_updatePromotionInfo (flowModel : FlowModel T) (key : ℕ)
    (model : PromotionModel T) :
    wp (flowModel.updatePromotionInfo key model) (fun newFlowModel h' =>
      newFlowModel.reachable = flowModel.reachable ∧ (∃ object, links newFlowModel.promotionInfo =
        ⟨object, key, model⟩ :: links flowModel.promotionInfo) ∧ h.SameState h') h := by
  obtain ⟨reader, hget, hexact⟩ := hreader.get flowModel.promotionInfo key
  refine ⟨⟨flowModel.reachable, some ⟨⟨h.objects, key, model⟩, links flowModel.promotionInfo⟩⟩,
    { h with reader, objects := h.objects + 1 }, ?_, rfl, ⟨_, rfl⟩, hexact, rfl, rfl⟩
  rw [updatePromotionInfo, hget, bind_some]
  dsimp only
  rw [if_pos]
  exact (KeyedLinks.computePreviousForKey_eq _ key flowModel.promotionInfo).symm

omit hreader

namespace Properties

variable {properties : Properties} {name name' : String} {property property' : PropertyValueVersion}

theorem mem_set (h : (name', property') ∈ properties.set name property) :
    (name' = name ∧ property' = property) ∨ (name', property') ∈ properties := by
  induction properties with
  | nil => exact .inl (by simpa [set, put] using h)
  | cons entry properties ih =>
    rw [set, put] at h
    split at h
    · rcases mem_cons.mp h with h | h
      · exact .inl (Prod.mk.inj h)
      · exact .inr (mem_cons_of_mem _ h)
    · rcases mem_cons.mp h with h | h
      · exact .inr (h ▸ mem_cons_self)
      · exact (ih h).imp_right (mem_cons_of_mem _)

theorem nodup_set (h : (properties.map Prod.fst).Nodup) :
    ((properties.set name property).map Prod.fst).Nodup := by
  induction properties with
  | nil => simp [set, put]
  | cons entry properties ih =>
    rw [map_cons, nodup_cons] at h
    rw [set, put]
    split
    · next heq =>
      rw [map_cons, nodup_cons]
      exact ⟨of_decide_eq_true heq ▸ h.1, h.2⟩
    next hne =>
    rw [map_cons, nodup_cons]
    refine ⟨fun hmem => ?_, ih h.2⟩
    obtain ⟨⟨name', property'⟩, hmem, hname⟩ := mem_map.mp hmem
    rcases mem_set hmem with ⟨heq, -⟩ | hmem
    · exact hne (decide_eq_true (hname.symm.trans heq))
    · exact h.1 (mem_map.mpr ⟨_, hmem, hname⟩)

theorem mem_of_get (h : properties.get name = some property) : (name, property) ∈ properties := by
  obtain ⟨⟨name', property'⟩, hfind, rfl⟩ := map_eq_some_iff.mp h
  have hname : name' = name := by simpa using find?_some hfind
  subst hname
  exact mem_of_find?_eq_some hfind

theorem get_of_mem (hnodup : (properties.map Prod.fst).Nodup) (h : (name, property) ∈ properties) :
    properties.get name = some property := by
  obtain ⟨before, after, rfl⟩ := append_of_mem h
  have hdistinct : Distinct Prod.fst (fun a b : String => decide (a = b))
      (before ++ (name, property) :: after) := by
    refine (pairwise_map.mp hnodup).imp fun hne => ?_
    exact fun heq => hne (of_decide_eq_true heq)
  have hequivalence : Equivalence fun a b : String => decide (a = b) = true :=
    ⟨fun a => decide_eq_true rfl, fun h => decide_eq_true (of_decide_eq_true h).symm,
      fun h h' => decide_eq_true ((of_decide_eq_true h).trans (of_decide_eq_true h'))⟩
  rw [get, lookup_mid hequivalence hdistinct (decide_eq_true rfl)]
  rfl

end Properties

/-- **The join of two models**, but for the version it has if it is not write-captured. -/
structure PromotionModel.IsJoin (first second model : PromotionModel T) : Prop where
  assigned : model.assigned = (first.assigned && second.assigned)
  unassigned : model.unassigned = (first.unassigned && second.unassigned)
  captured : model.version = none ↔ first.version = none ∨ second.version = none
  promoted : Common first.promotedTypes.types second.promotedTypes.types model.promotedTypes.types

omit [DecidableEq T] in
theorem PromotionModel.isJoin_self (model : PromotionModel T) : model.IsJoin model model where
  assigned := (Bool.and_self _).symm
  unassigned := (Bool.and_self _).symm
  captured := (or_self_iff).symm
  promoted _ ht := ⟨ht, ht⟩

omit [DecidableEq T] in
/-- Of a write-captured model and any other one, nothing is left to promote or to keep
unassigned. -/
theorem PromotionModel.join_captured {first second : PromotionModel T} {l : List T}
    (hl : Common first.promotedTypes.types second.promotedTypes.types l)
    (h : first.version = none ∨ second.version = none) :
    l = [] ∧ (first.unassigned && second.unassigned) = false := by
  rcases h with h | h
  · refine ⟨eq_nil_iff_forall_not_mem.mpr fun t ht => ?_, by rw [first.unassigned_captured h]; rfl⟩
    have := (hl t ht).1
    rw [first.promotedTypes_captured h] at this
    exact absurd this not_mem_nil
  · refine ⟨eq_nil_iff_forall_not_mem.mpr fun t ht => ?_, by
      rw [second.unassigned_captured h, Bool.and_false]⟩
    have := (hl t ht).2
    rw [second.promotedTypes_captured h] at this
    exact absurd this not_mem_nil

omit [DecidableEq T] in
theorem Helper.SameState.trans {h' h'' : Helper T} (h1 : h.SameState h') (h2 : h'.SameState h'') :
    h.SameState h'' := ⟨h2.reader, h2.keys.trans h1.keys, h2.versions.trans h1.versions⟩

/-- **A join of two models.**  If neither is write-captured, the version is what `joinVersion`
gives; no assertion fails. -/
theorem PromotionModel.wp_join (operations : TypeOperations T) {first second : PromotionModel T}
    {newFlowModel : FlowModel T} {joinVersion : FlowModel T → Prog (Helper T) (ℕ × FlowModel T)}
    {Q : ℕ → FlowModel T → Helper T → Prop} (hreader : h.reader.Exact (tree T))
    (hversion : ∀ v1 v2 h', first.version = some v1 → second.version = some v2 → h.SameState h' →
      wp (joinVersion newFlowModel) (fun r h'' => Q r.1 r.2 h'') h') :
    wp (join operations first second newFlowModel joinVersion) (fun r h' =>
      first.IsJoin second r.1 ∧ ((r.1.version = none ∧ r.2 = newFlowModel ∧ h.SameState h') ∨
        ∃ v, r.1.version = some v ∧ Q v r.2 h')) h := by
  have hboth : ¬((first.assigned && second.assigned) = true ∧
      (first.unassigned && second.unassigned) = true) := by
    rintro ⟨ha, hu⟩
    exact first.not_both ⟨(Bool.and_eq_true_iff.mp ha).1, (Bool.and_eq_true_iff.mp hu).1⟩
  rw [join]
  refine wp_bind (wp_mono (Helper.wp_returned hreader _) ?_)
  rintro newPromotedTypes h1 ⟨htypes, hsame1⟩
  have hcommon := joinPromotedTypes_common operations.isSubtypeOf
    operations.promotionChainIntersectionJoinEnabled first.promotedTypes second.promotedTypes
  rw [← htypes] at hcommon
  refine wp_ite (fun hcaptured => ?_) (fun hcaptured => ?_)
  · have hnone : first.version = none ∨ second.version = none := by simpa using hcaptured
    obtain ⟨hnil, hunassigned⟩ := join_captured hcommon hnone
    obtain ⟨model, hmodel, hp, ha, hu, hv⟩ := identicalOrNew_spec first second (.const T) none hboth
      (fun _ => hnil) (fun _ => hunassigned)
    refine wp_bind (wp_lift hmodel (wp_pure ⟨⟨ha, hu, ?_, hp ▸ hcommon⟩, .inl ⟨hv, rfl, hsame1⟩⟩))
    simp [hv, hnone]
  have hsome : ¬(first.version = none ∨ second.version = none) := by simpa using hcaptured
  rw [not_or] at hsome
  obtain ⟨v1, hv1⟩ := ne_none_iff_exists'.mp hsome.1
  obtain ⟨v2, hv2⟩ := ne_none_iff_exists'.mp hsome.2
  refine wp_bind (wp_mono (Helper.wp_returned hsame1.reader _) ?_)
  rintro newTested h2 ⟨-, hsame2⟩
  refine wp_bind (wp_mono (hversion v1 v2 h2 hv1 hv2 (hsame1.trans hsame2)) ?_)
  rintro ⟨newVersion, newFlowModel'⟩ h3 hQ
  obtain ⟨model, hmodel, hp, ha, hu, hv⟩ := identicalOrNew_spec first second newTested
    (some newVersion) hboth (fun hnone => absurd hnone (some_ne_none _))
    (fun hnone => absurd hnone (some_ne_none _))
  refine wp_bind (wp_lift hmodel (wp_pure ⟨⟨ha, hu, ?_, hp ▸ hcommon⟩, .inr ⟨newVersion, hv, hQ⟩⟩))
  simp [hv, hv1, hv2]

end

/-! ## States of a join

While models are joined, old versions stay as they are, and each new version has two origins. -/

/-- **The objects of a helper**: a property is an object made after the one that has it. -/
structure Helper.WellFormed (h : Helper T) : Prop where
  reader : h.reader.Exact (tree T)
  names : ∀ v, ((h.properties v).map Prod.fst).Nodup
  property : ∀ v name c, (name, c) ∈ h.properties v →
    v < c.version ∧ c.version < h.versions.length ∧ c.promotionKey < h.keys

/-- The keys and versions of a flow model exist. -/
def Helper.Valid (h : Helper T) (flowModel : FlowModel T) : Prop :=
  ∀ link ∈ links flowModel.promotionInfo,
    link.key < h.keys ∧ ∀ v, link.model.version = some v → v < h.versions.length

theorem Helper.Valid.models {h : Helper T} {flowModel : FlowModel T} (hvalid : h.Valid flowModel)
    {key : ℕ} {model : PromotionModel T} (hmodel : flowModel.models key = some model) :
    key < h.keys ∧ ∀ v, model.version = some v → v < h.versions.length := by
  obtain ⟨link, hlink, rfl, rfl⟩ := PromotionInfo.exists_link hmodel
  exact hvalid link hlink

theorem Helper.properties_of_length_le {h : Helper T} {v : ℕ} (hv : h.versions.length ≤ v) :
    h.properties v = [] := by
  rw [properties, getElem?_eq_none hv]
  rfl

theorem Helper.properties_newVersion (h : Helper T) (v : ℕ) :
    { h with versions := h.versions ++ [[]] }.properties v = h.properties v := by
  rw [properties, properties, getElem?_append]
  split
  · rfl
  · next hv =>
    rw [getElem?_eq_none (not_lt.mp hv)]
    cases v - h.versions.length <;> rfl

theorem Helper.properties_setProperty (h : Helper T) {version : ℕ}
    (hversion : version < h.versions.length) (name : String) (property : PropertyValueVersion)
    (v : ℕ) :
    { h with versions := h.versions.modify version (·.set name property) }.properties v =
      if v = version then (h.properties v).set name property else h.properties v := by
  rw [properties, properties, getElem?_modify]
  by_cases hv : v = version
  · subst hv
    rw [getElem?_eq_getElem hversion, if_pos rfl]
    simp
  · rw [if_neg hv]
    cases h.versions[v]? with
    | none => rfl
    | some properties => simp [Ne.symm hv]

variable (h₀ : Helper T) (first second : Option (PromotionInfo T))

/-- A model of a key is common to the models of two properties. -/
def FromBoth (newFlowModel : FlowModel T) (key : ℕ) (c1 c2 : PropertyValueVersion) : Prop :=
  ∀ model, newFlowModel.models key = some model → ∃ m1 m2,
    models first c1.promotionKey = some m1 ∧
    models second c2.promotionKey = some m2 ∧
    Common m1.promotedTypes.types m2.promotedTypes.types model.promotedTypes.types

/-- **A state of a join** that started with `h₀`.  Versions that existed are as they were; each new
one is the join of two of these (`origin`), and has only properties that both have. -/
structure Joining (origin : ℕ → ℕ × ℕ) (h : Helper T) (newFlowModel : FlowModel T) : Prop where
  wellFormed : h.WellFormed
  valid : h.Valid newFlowModel
  keys : h₀.keys ≤ h.keys
  length : h₀.versions.length ≤ h.versions.length
  old : ∀ v < h₀.versions.length, h.properties v = h₀.properties v
  fresh : ∀ v, h₀.versions.length ≤ v → ∀ name c, (name, c) ∈ h.properties v →
    h₀.versions.length ≤ c.version ∧ h₀.keys ≤ c.promotionKey ∧ ∃ c1 c2,
      (h₀.properties (origin v).1).get name = some c1 ∧
      (h₀.properties (origin v).2).get name = some c2 ∧
      origin c.version = (c1.version, c2.version) ∧
      FromBoth first second newFlowModel c.promotionKey c1 c2

/-- A later state of a join: what the versions come from is kept, and the models of keys that
existed. -/
structure Later (origin : ℕ → ℕ × ℕ) (h : Helper T) (newFlowModel : FlowModel T)
    (origin' : ℕ → ℕ × ℕ) (h' : Helper T) (newFlowModel' : FlowModel T) : Prop where
  origin : ∀ v < h.versions.length, origin' v = origin v
  length : h.versions.length ≤ h'.versions.length
  models : ∀ key < h₀.keys, newFlowModel'.models key = newFlowModel.models key
  reachable : newFlowModel'.reachable = newFlowModel.reachable

variable {h₀ first second} {origin origin' origin'' : ℕ → ℕ × ℕ} {h h' h'' : Helper T}
  {newFlowModel newFlowModel' newFlowModel'' : FlowModel T}

theorem Later.refl : Later h₀ origin h newFlowModel origin h newFlowModel :=
  ⟨fun _ _ => rfl, le_rfl, fun _ _ => rfl, rfl⟩

theorem Later.trans (h1 : Later h₀ origin h newFlowModel origin' h' newFlowModel')
    (h2 : Later h₀ origin' h' newFlowModel' origin'' h'' newFlowModel'') :
    Later h₀ origin h newFlowModel origin'' h'' newFlowModel'' where
  origin v hv := (h2.origin v (hv.trans_le h1.length)).trans (h1.origin v hv)
  length := h1.length.trans h2.length
  models key hkey := (h2.models key hkey).trans (h1.models key hkey)
  reachable := h2.reachable.trans h1.reachable

theorem Later.same (hsame : h.SameState h') :
    Later h₀ origin h newFlowModel origin h' newFlowModel :=
  ⟨fun _ _ => rfl, hsame.versions ▸ le_rfl, fun _ _ => rfl, rfl⟩

namespace Joining

variable (hj : Joining h₀ first second origin h newFlowModel)

include hj

theorem same (hsame : h.SameState h') : Joining h₀ first second origin h' newFlowModel := by
  obtain ⟨reader', keys', objects', versions'⟩ := h'
  obtain ⟨hreader, rfl, rfl⟩ := hsame
  exact ⟨⟨hreader, hj.wellFormed.names, hj.wellFormed.property⟩, hj.valid, hj.keys, hj.length,
    hj.old, hj.fresh⟩

theorem makeTemporaryKey :
    Joining h₀ first second origin { h with keys := h.keys + 1 } newFlowModel where
  wellFormed := ⟨hj.wellFormed.reader, hj.wellFormed.names, fun v name c hc =>
    have hproperty := hj.wellFormed.property v name c hc
    ⟨hproperty.1, hproperty.2.1, Nat.lt_succ_of_lt hproperty.2.2⟩⟩
  valid link hlink := ⟨Nat.lt_succ_of_lt (hj.valid link hlink).1, (hj.valid link hlink).2⟩
  keys := Nat.le_succ_of_le hj.keys
  length := hj.length
  old := hj.old
  fresh := hj.fresh

/-- A new version, as the join of `v1` and `v2`. -/
theorem newVersion (v1 v2 : ℕ) :
    Joining h₀ first second (Function.update origin h.versions.length (v1, v2))
      { h with versions := h.versions ++ [[]] } newFlowModel where
  wellFormed := by
    refine ⟨hj.wellFormed.reader, fun v => ?_, fun v name c hc => ?_⟩
    · rw [Helper.properties_newVersion]
      exact hj.wellFormed.names v
    · rw [Helper.properties_newVersion] at hc
      have hproperty := hj.wellFormed.property v name c hc
      exact ⟨hproperty.1, by simp; omega, hproperty.2.2⟩
  valid link hlink := by
    have hvalid := hj.valid link hlink
    exact ⟨hvalid.1, fun v hv => by have := hvalid.2 v hv; simp; omega⟩
  keys := hj.keys
  length := by have := hj.length; simp; omega
  old v hv := (Helper.properties_newVersion h v).trans (hj.old v hv)
  fresh v hv name c hc := by
    rw [Helper.properties_newVersion] at hc
    have hproperty := hj.wellFormed.property v name c hc
    rw [update_of_ne (by omega), update_of_ne (by omega)]
    exact hj.fresh v hv name c hc

/-- A new property of a new version.  Its key has no model yet. -/
theorem setProperty {version : ℕ} {name : String}
    {c c1 c2 : PropertyValueVersion} (hversion : h₀.versions.length ≤ version)
    (hlt : version < c.version) (hlength : c.version < h.versions.length)
    (hkey : h₀.keys ≤ c.promotionKey) (hkeys : c.promotionKey < h.keys)
    (h1 : (h₀.properties (origin version).1).get name = some c1)
    (h2 : (h₀.properties (origin version).2).get name = some c2)
    (horigin : origin c.version = (c1.version, c2.version))
    (hmodel : newFlowModel.models c.promotionKey = none) : Joining h₀ first second origin
      { h with versions := h.versions.modify version (·.set name c) } newFlowModel := by
  have hproperties := Helper.properties_setProperty h (hlt.trans hlength) name c
  have hmem {v : ℕ} {name' : String} {c' : PropertyValueVersion}
      (hc : (name', c') ∈ { h with versions := h.versions.modify version (·.set name c) }.properties
        v) :
      (v = version ∧ name' = name ∧ c' = c) ∨ (name', c') ∈ h.properties v := by
    rw [hproperties] at hc
    split at hc
    · next hv =>
      rcases Properties.mem_set hc with ⟨hname, hc⟩ | hc
      · exact .inl ⟨hv, hname, hc⟩
      · exact .inr hc
    · exact .inr hc
  refine ⟨⟨hj.wellFormed.reader, fun v => ?_, fun v name' c' hc => ?_⟩, ?_, hj.keys, ?_, ?_, ?_⟩
  · rw [hproperties]
    split
    · exact Properties.nodup_set (hj.wellFormed.names v)
    · exact hj.wellFormed.names v
  · rw [length_modify]
    rcases hmem hc with ⟨rfl, rfl, rfl⟩ | hc
    · exact ⟨hlt, hlength, hkeys⟩
    · exact hj.wellFormed.property v name' c' hc
  · intro link hlink
    rw [length_modify]
    exact hj.valid link hlink
  · rw [length_modify]
    exact hj.length
  · intro v hv
    rw [hproperties, if_neg (by omega)]
    exact hj.old v hv
  · intro v hv name' c' hc
    rcases hmem hc with ⟨rfl, rfl, rfl⟩ | hc
    · refine ⟨by omega, hkey, c1, c2, h1, h2, horigin, fun model hsome => ?_⟩
      rw [hmodel] at hsome
      cases hsome
    · exact hj.fresh v hv name' c' hc

/-- A new model of a key.  If the key is that of a new property, the model is common to those of the
two properties it comes from. -/
theorem update {object key : ℕ}
    {model : PromotionModel T} (hlinks : links newFlowModel'.promotionInfo =
      ⟨object, key, model⟩ :: links newFlowModel.promotionInfo)
    (hkey : key < h.keys) (hversion : ∀ v, model.version = some v → v < h.versions.length)
    (hfresh : ∀ v name c c1 c2, h₀.versions.length ≤ v → (name, c) ∈ h.properties v →
      c.promotionKey = key → (h₀.properties (origin v).1).get name = some c1 →
      (h₀.properties (origin v).2).get name = some c2 → ∃ m1 m2,
        models first c1.promotionKey = some m1 ∧ models second c2.promotionKey = some m2 ∧
        Common m1.promotedTypes.types m2.promotedTypes.types model.promotedTypes.types) :
    Joining h₀ first second origin h newFlowModel' where
  wellFormed := hj.wellFormed
  valid link hlink := by
    rw [hlinks] at hlink
    rcases mem_cons.mp hlink with rfl | hlink
    · exact ⟨hkey, hversion⟩
    · exact hj.valid link hlink
  keys := hj.keys
  length := hj.length
  old := hj.old
  fresh v hv name c hc := by
    obtain ⟨hlength, hkeys, c1, c2, h1, h2, horigin, hboth⟩ := hj.fresh v hv name c hc
    refine ⟨hlength, hkeys, c1, c2, h1, h2, horigin, fun m hm => ?_⟩
    rw [FlowModel.models, PromotionInfo.models_of_links hlinks] at hm
    by_cases hk : c.promotionKey = key
    · rw [hk, update_self, Option.some.injEq] at hm
      exact hm ▸ hfresh v name c c1 c2 hv hc hk h1 h2
    · rw [update_of_ne hk] at hm
      exact hboth m hm

end Joining

end FlowAnalysis
