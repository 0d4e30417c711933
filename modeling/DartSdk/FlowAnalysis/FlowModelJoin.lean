import DartSdk.FlowAnalysis.JoinState

/-!
# FlowAnalysis/FlowModelJoin — the loops of a join

`_joinProperties` walks two versions and makes a new one; `joinPromotionInfo` goes through the
entries of a difference.  Each part of a join leads from a state of the join to a later one
(`After`): properties only touch keys that are new, and an entry **settles** its key (`Settled`).
When all entries are done, every key that existed is settled (`wp_joinPromotionInfo`).
-/

namespace FlowAnalysis

open Function List Option PromotionInfo Helper Prog

variable {T : Type} (operations : TypeOperations T)

/-! ## Properties

The loop over the properties of two versions makes a property of the new version for each common
name. -/

variable (h₀ : Helper T) (first second : Option (PromotionInfo T)) {version key v1 v2 : ℕ}
  {name : String} {c1 : PropertyValueVersion} {flow1 flow2 : FlowModel T}

/-- What is left of a join after a part of it. -/
def After (origin : ℕ → ℕ × ℕ) (h : Helper T) (newFlowModel newFlowModel' : FlowModel T)
    (h' : Helper T) : Prop :=
  ∃ origin', Joining h₀ first second origin' h' newFlowModel' ∧
    Later h₀ origin h newFlowModel origin' h' newFlowModel'

variable {h₀ first second} {origin : ℕ → ℕ × ℕ} {h : Helper T} {newFlowModel : FlowModel T}

theorem wp_joinModels [DecidableEq T] (hj : Joining h₀ first second origin h newFlowModel)
    {c c2 : PropertyValueVersion} (hlength : c.version < h.versions.length)
    (hkey : h₀.keys ≤ c.promotionKey) (hkeys : c.promotionKey < h.keys)
    (h1 : (h₀.properties (origin version).1).get name = some c1)
    (h2 : (h₀.properties (origin version).2).get name = some c2)
    (honly : ∀ v name' c', (name', c') ∈ h.properties v → c'.promotionKey = c.promotionKey →
      v = version ∧ name' = name) : wp (joinProperty.joinModels operations second newFlowModel
        (models first c1.promotionKey) c2 c.version c.promotionKey)
      (fun newFlowModel' h' => Joining h₀ first second origin h' newFlowModel' ∧
        Later h₀ origin h newFlowModel origin h' newFlowModel') h := by
  cases hm1 : models first c1.promotionKey with
  | none => exact wp_pure ⟨hj, .refl⟩
  | some m1 =>
    rw [joinProperty.joinModels]
    refine wp_bind (wp_mono (wp_get hj.wellFormed.reader second c2.promotionKey) ?_)
    rintro found h₁ ⟨rfl, hsame1⟩
    cases hm2 : models second c2.promotionKey with
    | none => exact wp_pure ⟨hj.same hsame1, .same hsame1⟩
    | some m2 =>
      have hj1 := hj.same hsame1
      refine wp_bind (wp_mono (PromotionModel.wp_join operations hj1.wellFormed.reader
        (Q := fun v new h' => v = c.version ∧ new = newFlowModel ∧ h₁.SameState h')
        fun v1 v2 h' _ _ hsame => wp_pure ⟨rfl, rfl, hsame⟩) ?_)
      rintro ⟨model, newFlowModel2⟩ h₂ ⟨hjoin, hcases⟩
      obtain ⟨rfl, hsame2, hversion⟩ : newFlowModel2 = newFlowModel ∧ h₁.SameState h₂ ∧
          ∀ v, model.version = some v → v = c.version := by
        rcases hcases with ⟨hnone, hnew, hsame⟩ | ⟨v, hv, hcv, hnew, hsame⟩
        · exact ⟨hnew, hsame, fun v hv => absurd (hnone.symm.trans hv) (some_ne_none v).symm⟩
        · exact ⟨hnew, hsame, fun v' hv' => by rw [← hcv]; exact some.inj (hv'.symm.trans hv)⟩
      have hsame := hsame1.trans hsame2
      refine wp_mono (FlowModel.wp_updatePromotionInfo hsame.reader newFlowModel2 c.promotionKey
        model) ?_
      rintro newFlowModel' h3 ⟨hreachable, ⟨object, hlinks⟩, hsame3⟩
      have hall := hsame.trans hsame3
      refine ⟨((hj.same hall).update hlinks ?_ ?_ ?_), fun _ _ => rfl, hall.versions ▸ le_rfl, ?_,
        hreachable⟩
      · rw [hall.keys]
        exact hkeys
      · intro v hv
        rw [hversion v hv, hall.versions]
        exact hlength
      · intro v name' c' d1 d2 _ hc' hk hd1 hd2
        rw [show h3.properties v = h.properties v by rw [properties, hall.versions]; rfl] at hc'
        obtain ⟨rfl, rfl⟩ := honly v name' c' hc' hk
        obtain rfl : c1 = d1 := some.inj (h1.symm.trans hd1)
        obtain rfl : c2 = d2 := some.inj (h2.symm.trans hd2)
        exact ⟨m1, m2, hm1, hm2, hjoin.promoted⟩
      · intro key hlt
        rw [FlowModel.models, models_of_links hlinks, update_of_ne (by
          rintro rfl; exact absurd hlt (not_lt.mpr hkey))]
        rfl

/-- The state after `_joinProperties` has made a version for a property with a new key. -/
def Helper.withProperty (h : Helper T) (version : ℕ) (name : String) (key : ℕ) : Helper T :=
  let property := ⟨h.versions.length, key⟩
  { h with versions := (h.versions ++ [[]]).modify version (·.set name property) }

theorem Helper.mem_withProperty (hlength : version < h.versions.length)
    {v : ℕ} {name' : String} {c : PropertyValueVersion}
    (hc : (name', c) ∈ (h.withProperty version name key).properties v) :
    (v = version ∧ name' = name) ∨ (name', c) ∈ h.properties v := by
  rw [withProperty, properties_setProperty { h with versions := h.versions ++ [[]] }
    (by simp; omega), properties_newVersion] at hc
  split at hc
  · next hv => exact (Properties.mem_set hc).imp_left fun hname => ⟨hv, hname.1⟩
  · exact .inr hc

theorem Joining.withProperty (hj : Joining h₀ first second origin h newFlowModel)
    {c2 : PropertyValueVersion}
    (hversion : h₀.versions.length ≤ version) (hlength : version < h.versions.length)
    (hkey : h₀.keys ≤ key) (hkeys : key < h.keys)
    (horigin : Function.update origin h.versions.length (c1.version, c2.version) version = (v1, v2))
    (h1 : (h₀.properties v1).get name = some c1) (h2 : (h₀.properties v2).get name = some c2)
    (hmodel : newFlowModel.models key = none) :
    Joining h₀ first second (Function.update origin h.versions.length (c1.version, c2.version))
      (h.withProperty version name key) newFlowModel := by
  refine (hj.newVersion c1.version c2.version).setProperty hversion hlength
    (by simp) hkey hkeys ?_ ?_
    (update_self ..) hmodel
  · rwa [horigin]
  · rwa [horigin]

section

variable [DecidableEq T] (hwf : h₀.WellFormed) (hj : Joining h₀ first second origin h newFlowModel)
  (hversion : h₀.versions.length ≤ version) (hlength : version < h.versions.length)
  (horigin : origin version = (v1, v2))

include hwf hj hversion hlength horigin

/-- **A step of `_joinProperties`**: the property of the first version, if the second one has it
too. -/
theorem wp_joinProperty
    {nested : ℕ → Properties → Properties → FlowModel T → Prog (Helper T) (FlowModel T)}
    (hc1 : (name, c1) ∈ h₀.properties v1)
    (hnested : ∀ {pv : ℕ} {c2 : PropertyValueVersion} {origin : ℕ → ℕ × ℕ} {h : Helper T}
      {newFlowModel : FlowModel T}, (name, c2) ∈ h₀.properties v2 →
      Joining h₀ first second origin h newFlowModel → h₀.versions.length ≤ pv →
      pv < h.versions.length → origin pv = (c1.version, c2.version) →
      wp (nested pv (h₀.properties c1.version) (h₀.properties c2.version) newFlowModel)
        (After h₀ first second origin h newFlowModel) h) :
    wp (joinProperty operations first second nested version name c1 (h₀.properties v2) newFlowModel)
      (After h₀ first second origin h newFlowModel) h := by
  rw [joinProperty]
  cases hc2 : (h₀.properties v2).get name with
  | none => exact wp_pure ⟨origin, hj, .refl⟩
  | some c2 =>
    have hmem2 := Properties.mem_of_get hc2
    have hget1 := Properties.get_of_mem (hwf.names v1) hc1
    refine wp_bind ⟨_, _, rfl, ?_⟩
    have hj1 := hj.makeTemporaryKey
    refine wp_bind (wp_mono (wp_get hj1.wellFormed.reader first c1.promotionKey) ?_)
    rintro found h2 ⟨rfl, hsame⟩
    have hj2 := hj1.same hsame
    have hkeys2 : h2.keys = h.keys + 1 := hsame.keys
    have hversions2 : h2.versions = h.versions := hsame.versions
    have hlength2 : version < h2.versions.length := hversions2 ▸ hlength
    refine wp_bind ⟨_, _, rfl, wp_bind ⟨_, h2.withProperty version name h.keys, rfl, ?_⟩⟩
    -- no model and no property had the new key
    have hnone : newFlowModel.models h.keys = none := by
      by_contra hsome
      obtain ⟨model, hmodel⟩ := ne_none_iff_exists'.mp hsome
      exact absurd (hj.valid.models hmodel).1 (lt_irrefl _)
    have hupdate : Function.update origin h2.versions.length (c1.version, c2.version) version =
        (v1, v2) := (update_of_ne hlength2.ne ..).trans horigin
    have hj4 := hj2.withProperty hversion hlength2 hj.keys (by omega) hupdate hget1 hc2 hnone
    have honly : ∀ v name' c', (name', c') ∈ (h2.withProperty version name h.keys).properties v →
        c'.promotionKey = h.keys → v = version ∧ name' = name := by
      intro v name' c' hc' hkey
      refine (mem_withProperty hlength2 hc').resolve_right fun hc => ?_
      rw [properties, hversions2] at hc
      exact absurd (hj.wellFormed.property v name' c' hc).2.2 (by omega)
    have hlength4 : (h2.withProperty version name h.keys).versions.length =
        h.versions.length + 1 := by
      rw [withProperty, length_modify, length_append, hversions2]
      rfl
    refine wp_bind (wp_mono (wp_joinModels operations hj4 (c := ⟨h2.versions.length, h.keys⟩)
      (by rw [hlength4, hversions2]; exact Nat.lt_succ_self _) hj.keys
      (show h.keys < h2.keys by omega) (by rw [hupdate]; exact hget1) (by rw [hupdate]; exact hc2)
      honly) ?_)
    rintro newFlowModel5 h5 ⟨hj5, hlater5⟩
    have hlength5 := hlater5.length
    -- the nested properties are those of versions that existed
    refine wp_bind (wp_get ?_)
    rw [hj5.old _ (hwf.property _ _ _ hc1).2.1, hj5.old _ (hwf.property _ _ _ hmem2).2.1]
    refine wp_mono (hnested hmem2 hj5 (hversions2 ▸ hj.length) (by rw [hversions2]; omega)
      (update_self ..)) ?_
    rintro newFlowModel6 h6 ⟨origin6, hj6, hlater6⟩
    refine ⟨origin6, hj6, Later.trans ⟨fun v hv => ?_, by omega, hlater5.models, hlater5.reachable⟩
      hlater6⟩
    exact update_of_ne (by rw [hversions2]; omega) ..

/-- **`_joinProperties`.**  The properties of a version were made after it, so there is enough
fuel. -/
theorem wp_joinProperties {fuel : ℕ} (hlt : v1 < h₀.versions.length)
    (hfuel : h₀.versions.length ≤ fuel + v1) :
    wp (joinProperties operations first second fuel version (h₀.properties v1) (h₀.properties v2)
      newFlowModel) (After h₀ first second origin h newFlowModel) h := by
  induction fuel generalizing origin h newFlowModel version v1 v2 with
  | zero => omega
  | succ fuel ih =>
    rw [joinProperties]
    have hloop := wp_foldlM (f := fun newFlowModel (entry : String × PropertyValueVersion) =>
        joinProperty operations first second (joinProperties operations first second fuel) version
          entry.1 entry.2 (h₀.properties v2) newFlowModel)
      (fun rest new h' => rest ⊆ h₀.properties v1 ∧
        After h₀ first second origin h newFlowModel new h')
      ?_ (h₀.properties v1) (b := newFlowModel) (s := h)
      ⟨List.Subset.refl _, origin, hj, .refl⟩
    · exact wp_mono hloop fun _ _ hafter => hafter.2
    rintro ⟨name, c1⟩ rest new h1 ⟨hrest, origin1, hj1, hlater1⟩
    have hc1 : (name, c1) ∈ h₀.properties v1 := hrest mem_cons_self
    have hproperty := hwf.property _ _ _ hc1
    have hfuel1 : h₀.versions.length ≤ fuel + c1.version := by omega
    have hlength1 : version < h1.versions.length := hlength.trans_le hlater1.length
    have horigin1 : origin1 version = (v1, v2) := (hlater1.origin version hlength).trans horigin
    refine wp_mono (wp_joinProperty operations hwf hj1 hversion hlength1 horigin1 hc1 ?_) ?_
    · intro pv c2 origin' h' new' hc2 hj' hpv hlength' horigin'
      exact ih hj' hpv hlength' horigin' hproperty.2.1 hfuel1
    · rintro new2 h2 ⟨origin2, hj2, hlater2⟩
      exact ⟨fun _ hmem => hrest (mem_cons_of_mem _ hmem), origin2, hj2, hlater1.trans hlater2⟩

end

variable (h₀) in
/-- The join of two versions: equal ones, or a new one made from them. -/
def JoinedVersion (origin : ℕ → ℕ × ℕ) (v1 v2 v : ℕ) : Prop :=
  (v = v1 ∧ v = v2) ∨ (h₀.versions.length ≤ v ∧ origin v = (v1, v2))

theorem wp_joinVersion [DecidableEq T] (hwf : h₀.WellFormed)
    (hj : Joining h₀ first second origin h newFlowModel) (h1 : v1 < h₀.versions.length)
    (h2 : v2 < h₀.versions.length) :
    wp (ValueVersion.join operations first second v1 v2 newFlowModel) (fun r h' => ∃ origin',
      Joining h₀ first second origin' h' r.2 ∧ Later h₀ origin h newFlowModel origin' h' r.2 ∧
      r.1 < h'.versions.length ∧ JoinedVersion h₀ origin' v1 v2 r.1) h := by
  rw [ValueVersion.join]
  have hlength := hj.length
  refine wp_ite (fun heq => ?_) (fun hne => ?_)
  · exact wp_pure ⟨origin, hj, .refl, by omega, .inl ⟨rfl, heq⟩⟩
  refine wp_bind ⟨_, _, rfl, wp_bind (wp_get ?_)⟩
  have hj1 := hj.newVersion v1 v2
  rw [properties_newVersion, properties_newVersion, hj.old v1 h1, hj.old v2 h2]
  have hlength1 : (h.versions ++ [[]]).length = h.versions.length + 1 := length_append
  refine wp_bind (wp_mono (wp_joinProperties operations hwf hj1 hlength (by simp)
    (update_self ..) h1 (by rw [hlength1]; omega)) ?_)
  rintro new2 h₂ ⟨origin2, hj2, hlater2⟩
  have hlength2 := hlater2.length
  rw [hlength1] at hlength2
  refine wp_pure ⟨origin2, hj2, Later.trans ⟨fun v hv => ?_, ?_, fun _ _ => rfl, rfl⟩ hlater2, ?_,
    .inr ⟨hlength, ?_⟩⟩
  · exact update_of_ne hv.ne ..
  · simp
  · exact hlength2
  · exact (hlater2.origin _ (by simp)).trans (update_self ..)

variable (h₀ first second) in
/-- **A key is settled**: it has the join of its two models, and no model if one of these is
missing. -/
structure Settled (origin : ℕ → ℕ × ℕ) (newFlowModel : FlowModel T) (key : ℕ) : Prop where
  tracked : ∀ model, newFlowModel.models key = some model → ∃ m1 m2,
    models first key = some m1 ∧ models second key = some m2 ∧
    m1.IsJoin m2 model ∧ ∀ v, model.version = some v → ∃ v1 v2,
      m1.version = some v1 ∧ m2.version = some v2 ∧ JoinedVersion h₀ origin v1 v2 v
  untracked : newFlowModel.models key = none →
    models first key = none ∨ models second key = none

theorem Settled.later {origin' : ℕ → ℕ × ℕ} {h' : Helper T} {newFlowModel' : FlowModel T}
    (hsettled : Settled h₀ first second origin newFlowModel key) (hvalid : h.Valid newFlowModel)
    (hlater : Later h₀ origin h newFlowModel origin' h' newFlowModel') (hkey : key < h₀.keys) :
    Settled h₀ first second origin' newFlowModel' key where
  tracked model hmodel := by
    rw [hlater.models key hkey] at hmodel
    obtain ⟨m1, m2, h1, h2, hjoin, hversion⟩ := hsettled.tracked model hmodel
    refine ⟨m1, m2, h1, h2, hjoin, fun v hv => ?_⟩
    obtain ⟨v1, v2, hv1, hv2, hjoined⟩ := hversion v hv
    refine ⟨v1, v2, hv1, hv2, hjoined.imp_right fun hnew => ⟨hnew.1, ?_⟩⟩
    rw [hlater.origin v ((hvalid.models hmodel).2 v hv)]
    exact hnew.2
  untracked hnone := hsettled.untracked ((hlater.models key hkey).symm.trans hnone)

/-- A key that both maps share. -/
theorem Settled.of_eq (h1 : newFlowModel.models key = models first key)
    (h2 : newFlowModel.models key = models second key) :
    Settled h₀ first second origin newFlowModel key where
  tracked model hmodel :=
    ⟨model, model, h1.symm.trans hmodel, h2.symm.trans hmodel, model.isJoin_self,
    fun v hv => ⟨v, v, hv, hv, .inl ⟨rfl, rfl⟩⟩⟩
  untracked hnone := .inl (h1.symm.trans hnone)

/-- **A step of `joinPromotionInfo`** settles the key of an entry. -/
theorem wp_joinEntry [DecidableEq T] (hwf : h₀.WellFormed) {r1 r2 : Reachability}
    (hvalid1 : h₀.Valid ⟨r1, first⟩) (hvalid2 : h₀.Valid ⟨r2, second⟩)
    {entry : DiffEntry (PromotionInfo T)} (hj : Joining h₀ first second origin h newFlowModel)
    (hleft : entry.left.map (·.link.model) = models first entry.key)
    (hright : entry.right.map (·.link.model) = models second entry.key)
    (hancestor : newFlowModel.models entry.key = entry.ancestor.map (·.link.model)) :
    wp (joinEntry operations first second newFlowModel entry)
      (fun newFlowModel' h' => ∃ origin',
        Joining h₀ first second origin' h' newFlowModel' ∧
        newFlowModel'.reachable = newFlowModel.reachable ∧
        Settled h₀ first second origin' newFlowModel' entry.key ∧
        ∀ key < h₀.keys, key ≠ entry.key → newFlowModel'.models key = newFlowModel.models key ∧
          (Settled h₀ first second origin newFlowModel key →
            Settled h₀ first second origin' newFlowModel' key)) h := by
  rw [joinEntry]
  split
  · next firstModel secondModel hm1 hm2 =>
    rw [hleft] at hm1
    rw [hright] at hm2
    have hkey : entry.key < h₀.keys := (hvalid1.models hm1).1
    refine wp_bind (wp_mono (PromotionModel.wp_join operations hj.wellFormed.reader
      (Q := fun v new h' => ∃ origin' v1 v2, firstModel.version = some v1 ∧
        secondModel.version = some v2 ∧
        Joining h₀ first second origin' h' new ∧
        Later h₀ origin h newFlowModel origin' h' new ∧ v < h'.versions.length ∧
        JoinedVersion h₀ origin' v1 v2 v) fun v1 v2 h1 hv1 hv2 hsame => ?_) ?_)
    · refine wp_bind (wp_lift hv1 (wp_bind (wp_lift hv2 ?_)))
      refine wp_mono (wp_joinVersion operations hwf (hj.same hsame) ((hvalid1.models hm1).2 v1 hv1)
        ((hvalid2.models hm2).2 v2 hv2)) ?_
      rintro ⟨v, new⟩ h2 ⟨origin2, hj2, hlater2, hlength, hjoined⟩
      exact ⟨origin2, v1, v2, hv1, hv2, hj2, (Later.same hsame).trans hlater2, hlength, hjoined⟩
    rintro ⟨joined, new2⟩ h2 ⟨hjoin, hcases⟩
    obtain ⟨origin2, hj2, hlater2, hversion⟩ : ∃ origin2,
        Joining h₀ first second origin2 h2 new2 ∧
        Later h₀ origin h newFlowModel origin2 h2 new2 ∧ ∀ v, joined.version = some v →
          v < h2.versions.length ∧ ∃ v1 v2, firstModel.version = some v1 ∧
            secondModel.version = some v2 ∧ JoinedVersion h₀ origin2 v1 v2 v := by
      rcases hcases with ⟨hnone, rfl, hsame⟩ |
        ⟨v, hv, origin2, v1, v2, hv1, hv2, hj2, hlater, hlt, hjoined⟩
      · exact ⟨origin, hj.same hsame, .same hsame, fun v hv =>
          absurd (hnone.symm.trans hv) (some_ne_none v).symm⟩
      · refine ⟨origin2, hj2, hlater, fun v' hv' => ?_⟩
        obtain rfl : v = v' := some.inj (hv.symm.trans hv')
        exact ⟨hlt, v1, v2, hv1, hv2, hjoined⟩
    refine wp_mono (FlowModel.wp_updatePromotionInfo hj2.wellFormed.reader new2 entry.key joined) ?_
    rintro new3 h3 ⟨hreachable, ⟨object, hlinks⟩, hsame3⟩
    have hj3 := hj2.same hsame3
    have hmodels : new3.models = update new2.models entry.key (some joined) :=
      models_of_links hlinks
    refine ⟨origin2, hj3.update hlinks ?_ ?_ ?_, hreachable.trans hlater2.reachable, ⟨?_, ?_⟩, ?_⟩
    · exact hkey.trans_le hj3.keys
    · exact fun v hv => hsame3.versions ▸ (hversion v hv).1
    · intro v name c c1 c2 hv hc hk
      have := (hj3.fresh v hv name c hc).2.1
      omega
    · intro model hmodel
      rw [hmodels, update_self, some.injEq] at hmodel
      subst hmodel
      exact ⟨firstModel, secondModel, hm1, hm2, hjoin, fun v hv => (hversion v hv).2⟩
    · intro hnone
      rw [hmodels, update_self] at hnone
      cases hnone
    · intro key hlt hne
      have hlater3 : new3.models key = new2.models key := by rw [hmodels, update_of_ne hne]
      refine ⟨hlater3.trans (hlater2.models key hlt), fun hsettled => ?_⟩
      have hsettled2 := hsettled.later hj.valid hlater2 hlt
      exact ⟨fun model hmodel => hsettled2.tracked model (hlater3.symm.trans hmodel), fun hnone =>
        hsettled2.untracked (hlater3.symm.trans hnone)⟩
  · next hnot =>
    refine wp_pure ⟨origin, hj, rfl, ⟨fun model hmodel => ?_, fun _ => ?_⟩, fun _ _ _ => ⟨rfl, id⟩⟩
    · -- a model at the ancestor is a model on both sides
      rw [hancestor] at hmodel
      obtain ⟨link, hlink, -⟩ := map_eq_some_iff.mp hmodel
      have hsome (first : Option (PromotionInfo T)) :
          ∃ model, ((first.or entry.previousForKey).map (·.link.model)) = some model := by
        rw [show entry.previousForKey = some link from hlink]
        cases first <;> exact ⟨_, rfl⟩
      obtain ⟨m1, hm1⟩ := hsome entry.firstLeft
      obtain ⟨m2, hm2⟩ := hsome entry.firstRight
      exact (hnot m1 m2 hm1 hm2).elim
    · by_contra hboth
      rw [not_or] at hboth
      obtain ⟨m1, hm1⟩ := ne_none_iff_exists'.mp hboth.1
      obtain ⟨m2, hm2⟩ := ne_none_iff_exists'.mp hboth.2
      exact hnot m1 m2 (hleft.trans hm1) (hright.trans hm2)

/-- A join starts without new versions. -/
theorem Joining.start (hwf : h₀.WellFormed) (hvalid : h₀.Valid newFlowModel) :
    Joining h₀ first second origin h₀ newFlowModel where
  wellFormed := hwf
  valid := hvalid
  keys := le_rfl
  length := le_rfl
  old _ _ := rfl
  fresh v hv name c hc := by
    rw [properties_of_length_le hv] at hc
    exact absurd hc not_mem_nil

theorem Helper.Valid.suffix (hvalid : h.Valid flow1)
    (hsuffix : (tree T).chain flow2.promotionInfo <:+
      (tree T).chain flow1.promotionInfo) : h.Valid flow2 := by
  intro link hlink
  rw [← PromotionInfo.map_chain] at hlink
  have hmem := (hsuffix.map PromotionInfo.link).subset hlink
  rw [PromotionInfo.map_chain] at hmem
  exact hvalid link hmem

/-- The keys of a difference exist. -/
theorem FlowLinks.IsDifference.key_lt {a : Option (PromotionInfo T)}
    {entries : List (DiffEntry (PromotionInfo T))}
    (hdifference : (tree T).IsDifference flow1.promotionInfo flow2.promotionInfo a entries)
    (hvalid1 : h.Valid flow1) (hvalid2 : h.Valid flow2)
    (hkey : key ∈ entries.map DiffEntry.key) : key < h.keys := by
  obtain ⟨info, hinfo, rfl⟩ := (hdifference.keys key).mp hkey
  have hlt {flow : FlowModel T} (hvalid : h.Valid flow)
      (hmem : info ∈ (tree T).linksTo flow.promotionInfo a) : info.link.key < h.keys := by
    have hlink := mem_map_of_mem (f := link) (mem_of_mem_take hmem)
    rw [map_chain] at hlink
    exact (hvalid info.link hlink).1
  exact (mem_append.mp hinfo).elim (hlt hvalid1) (hlt hvalid2)

theorem models_of_none (hnone : flow1.promotionInfo = none) :
    flow1.models = fun _ => none := by
  funext key
  rw [FlowModel.models, hnone, models, FlowLinks.nearest, Chains.chain_none]
  rfl

/-- **The join of two maps** settles every key that existed. -/
theorem wp_joinPromotionInfo [DecidableEq T] (hwf : h₀.WellFormed)
    (hvalid1 : h₀.Valid flow1) (hvalid2 : h₀.Valid flow2)
    (hreachable : flow1.reachable = flow2.reachable) :
    wp (FlowModel.joinPromotionInfo operations flow1 flow2) (fun joined h' =>
      joined.reachable = flow1.reachable ∧ ∃ origin,
        Joining h₀ flow1.promotionInfo flow2.promotionInfo origin h' joined ∧
        ∀ key < h₀.keys, Settled h₀ flow1.promotionInfo flow2.promotionInfo origin joined key)
          h₀ := by
  rw [FlowModel.joinPromotionInfo]
  refine wp_ite (fun heq => ?_) fun _ => wp_ite (fun hnone => ?_) fun _ => wp_ite
    (fun hnone => ?_) fun _ => ?_
  · exact wp_pure ⟨rfl, fun _ => (0, 0), .start hwf hvalid1, fun key _ =>
      .of_eq rfl (heq ▸ rfl)⟩
  · have hempty := models_of_none hnone
    exact wp_pure ⟨rfl, fun _ => (0, 0), .start hwf hvalid1, fun key _ =>
      ⟨fun model hmodel => by simp [hempty] at hmodel, fun hkey => .inl hkey⟩⟩
  · have hempty := models_of_none hnone
    exact wp_pure ⟨hreachable.symm, fun _ => (0, 0), .start hwf hvalid2, fun key _ =>
      ⟨fun model hmodel => by simp [hempty] at hmodel, fun hkey => .inr hkey⟩⟩
  refine wp_bind (wp_mono (wp_diff hwf.reader flow1.promotionInfo flow2.promotionInfo) ?_)
  rintro ⟨ancestor, entries⟩ h1 ⟨hdifference, hsame⟩
  let start : FlowModel T := ⟨flow1.reachable, ancestor⟩
  have hloop := wp_foldlM (f := joinEntry operations flow1.promotionInfo flow2.promotionInfo)
    (fun rest new h' => rest ⊆ entries ∧ (rest.map DiffEntry.key).Nodup ∧
      new.reachable = flow1.reachable ∧ ∃ origin,
        Joining h₀ flow1.promotionInfo flow2.promotionInfo origin h' new ∧ ∀ key < h₀.keys,
          (key ∉ rest.map DiffEntry.key →
            Settled h₀ flow1.promotionInfo flow2.promotionInfo origin new key) ∧
          (key ∈ rest.map DiffEntry.key → new.models key = start.models key)) ?_ entries
            (b := start)
      (s := h1) ⟨List.Subset.refl _, hdifference.nodup, rfl, fun _ => (0, 0), ?_, fun key _ =>
        ⟨fun hkey => ?_, fun _ => rfl⟩⟩
  · refine wp_mono hloop ?_
    rintro joined h' ⟨-, -, hreach, origin, hj, hkeys⟩
    exact ⟨hreach, origin, hj, fun key hkey => (hkeys key hkey).1 not_mem_nil⟩
  · rintro entry rest new h2 ⟨hrest, hnodup, hreach, origin, hj, hkeys⟩
    rw [map_cons, nodup_cons] at hnodup
    have hvalues := hdifference.values entry (hrest mem_cons_self)
    have hleft : entry.left.map (·.link.model) = flow1.models entry.key := by rw [hvalues.1]; rfl
    have hright : entry.right.map (·.link.model) = flow2.models entry.key := by
      rw [hvalues.2.1]; rfl
    have hkey : entry.key < h₀.keys :=
      hdifference.key_lt hvalid1 hvalid2 (mem_map_of_mem (hrest mem_cons_self))
    have hancestor : new.models entry.key = entry.ancestor.map (·.link.model) := by
      rw [(hkeys entry.key hkey).2 mem_cons_self, hvalues.2.2]
      rfl
    refine wp_mono (wp_joinEntry operations hwf hvalid1 hvalid2 hj hleft hright hancestor) ?_
    rintro new' h' ⟨origin', hj', hreach', hsettled, hothers⟩
    refine ⟨fun _ hmem => hrest (mem_cons_of_mem _ hmem), hnodup.2, hreach'.trans hreach, origin',
      hj', fun key hlt => ⟨fun hnot => ?_, fun hmem => ?_⟩⟩
    · by_cases heq : key = entry.key
      · exact heq ▸ hsettled
      · exact (hothers key hlt heq).2 ((hkeys key hlt).1 (not_mem_cons_of_ne_of_not_mem heq hnot))
    · have hne : key ≠ entry.key := fun heq => hnodup.1 (heq ▸ hmem)
      exact (hothers key hlt hne).1.trans ((hkeys key hlt).2 (mem_cons_of_mem _ hmem))
  · exact (Joining.start hwf (hvalid1.suffix hdifference.ancestor.1.1)).same hsame
  · refine .of_eq ?_ ?_
    · exact congrArg (Option.map (·.link.model)) (hdifference.nearest_left hkey).symm
    · exact congrArg (Option.map (·.link.model)) (hdifference.nearest_right hkey).symm

end FlowAnalysis
