import DartSdk.FlowAnalysis.FlowModelJoin

/-!
# FlowAnalysis/JoinSound — a join is a sound upper bound

What a flow model says of a key: whether the variable is tracked, assigned, unassigned,
write-captured, and to which types each property path from it is promoted
(`FlowModel.promotedTypes`; the empty path is the variable itself).

**A join says what all live inputs say** (`IsUpperBound`), in any order of joins: the live inputs
are those that are locally reachable, or all if none is (`JoinOrder.live`).
-/

namespace FlowAnalysis

open List Option Helper JoinOrder PromotionInfo Prog

variable {T : Type}

/-! ## What a flow model says

The facts that a join must not invent: assignment, promoted types, write captures, reachability. -/

/-- The key of a property path, from a version and its key. -/
def Helper.reach (h : Helper T) : ℕ → ℕ → List String → Option ℕ
  | _, key, [] => some key
  | version, _, name :: path => ((h.properties version).get name).bind fun property =>
    h.reach property.version property.promotionKey path

namespace FlowModel

variable (flowModel : FlowModel T)

/-- The model knows the key. -/
def tracked (key : ℕ) : Bool := (flowModel.models key).isSome

/-- The variable is definitely assigned. -/
def assigned (key : ℕ) : Bool := (flowModel.models key).any (·.assigned)

/-- The variable is definitely unassigned. -/
def unassigned (key : ℕ) : Bool := (flowModel.models key).any (·.unassigned)

/-- The variable is written in a closure. -/
def writeCaptured (key : ℕ) : Bool := (flowModel.models key).any (·.writeCaptured)

/-- The types to which a property path from a key is promoted. -/
def promotedTypes (h : Helper T) (key : ℕ) (path : List String) : List T :=
  ((flowModel.models key).bind fun model => model.version.bind fun version =>
    (h.reach version key path).bind flowModel.models).elim [] (·.promotedTypes.types)

variable {flowModel}

theorem mem_promotedTypes {h : Helper T} {key : ℕ} {path : List String} {t : T} :
    t ∈ flowModel.promotedTypes h key path ↔ ∃ model version reached reachedModel,
      flowModel.models key = some model ∧ model.version = some version ∧
      h.reach version key path = some reached ∧ flowModel.models reached = some reachedModel ∧
      t ∈ reachedModel.promotedTypes.types := by
  have hfound {found : Option (PromotionModel T)} : t ∈ found.elim [] (·.promotedTypes.types) ↔
      ∃ model, found = some model ∧ t ∈ model.promotedTypes.types := by
    cases found <;> simp
  simp only [promotedTypes, hfound, bind_eq_some_iff]
  -- the same facts in another order
  grind

end FlowModel

/-- A helper with more keys and versions. -/
structure Helper.Extends (h h' : Helper T) : Prop where
  keys : h.keys ≤ h'.keys
  length : h.versions.length ≤ h'.versions.length
  old : ∀ v < h.versions.length, h'.properties v = h.properties v

theorem Helper.Extends.refl (h : Helper T) : h.Extends h := ⟨le_rfl, le_rfl, fun _ _ => rfl⟩

variable {h h' : Helper T}

theorem Helper.Extends.trans {h'' : Helper T} (h1 : h.Extends h') (h2 : h'.Extends h'') :
    h.Extends h'' where
  keys := h1.keys.trans h2.keys
  length := h1.length.trans h2.length
  old v hv := (h2.old v (hv.trans_le h1.length)).trans (h1.old v hv)

theorem Helper.Valid.mono {flowModel : FlowModel T} (hvalid : h.Valid flowModel)
    (hextends : h.Extends h') : h'.Valid flowModel := fun link hlink =>
  ⟨(hvalid link hlink).1.trans_le hextends.keys, fun v hv =>
    ((hvalid link hlink).2 v hv).trans_le hextends.length⟩

theorem Helper.Extends.reach_eq (hextends : h.Extends h') (hwf : h.WellFormed)
    {version : ℕ} (hversion : version < h.versions.length) (key : ℕ) (path : List String) :
    h'.reach version key path = h.reach version key path := by
  induction path generalizing version key with
  | nil => rfl
  | cons name path ih =>
    rw [reach, reach, hextends.old version hversion]
    cases hget : (h.properties version).get name with
    | none => rfl
    | some property =>
      exact ih (hwf.property _ _ _ (Properties.mem_of_get hget)).2.1 property.promotionKey

theorem Helper.WellFormed.reach_lt (hwf : h.WellFormed) {version key reached : ℕ}
    {path : List String} (hkey : key < h.keys) (hreach : h.reach version key path = some reached) :
    reached < h.keys := by
  induction path generalizing version key with
  | nil => exact Option.some.inj hreach ▸ hkey
  | cons name path ih =>
    obtain ⟨property, hget, hreach⟩ := bind_eq_some_iff.mp hreach
    exact ih (hwf.property _ _ _ (Properties.mem_of_get hget)).2.2 hreach

theorem FlowModel.promotedTypes_extends (hextends : h.Extends h') (hwf : h.WellFormed)
    {flowModel : FlowModel T} (hvalid : h.Valid flowModel) (key : ℕ) (path : List String) :
    flowModel.promotedTypes h' key path = flowModel.promotedTypes h key path := by
  rw [promotedTypes, promotedTypes]
  cases hmodel : flowModel.models key with
  | none => rfl
  | some model =>
    rw [bind_some, bind_some]
    cases hversion : model.version with
    | none => rfl
    | some version =>
      rw [bind_some, bind_some, hextends.reach_eq hwf ((hvalid.models hmodel).2 version hversion)]

section

variable {h₀ h : Helper T} {flow1 flow2 joined : FlowModel T} {origin : ℕ → ℕ × ℕ}

theorem Joining.extends {first second : Option (PromotionInfo T)}
    (hj : Joining h₀ first second origin h joined) : h₀.Extends h := ⟨hj.keys, hj.length, hj.old⟩

/-- A path of properties from a new version is one from both versions it comes from. -/
theorem Joining.reach {first second : Option (PromotionInfo T)}
    (hj : Joining h₀ first second origin h joined) {v : ℕ} (hv : h₀.versions.length ≤ v)
    {key reached : ℕ} (key1 key2 : ℕ) {name : String} {path : List String}
    {model : PromotionModel T} (hreach : h.reach v key (name :: path) = some reached)
    (hmodel : joined.models reached = some model) :
    ∃ reached1 reached2 m1 m2, h₀.reach (origin v).1 key1 (name :: path) = some reached1 ∧
      h₀.reach (origin v).2 key2 (name :: path) = some reached2 ∧
      models first reached1 = some m1 ∧ models second reached2 = some m2 ∧
      Common m1.promotedTypes.types m2.promotedTypes.types model.promotedTypes.types := by
  induction path generalizing v key key1 key2 name with
  | nil =>
    obtain ⟨property, hget, hreach⟩ := bind_eq_some_iff.mp hreach
    obtain ⟨-, -, c1, c2, h1, h2, -, hboth⟩ :=
      hj.fresh v hv name property (Properties.mem_of_get hget)
    obtain rfl : property.promotionKey = reached := Option.some.inj hreach
    obtain ⟨m1, m2, hm1, hm2, hcommon⟩ := hboth model hmodel
    refine ⟨c1.promotionKey, c2.promotionKey, m1, m2, ?_, ?_, hm1, hm2, hcommon⟩
    · rw [Helper.reach, h1]
      rfl
    · rw [Helper.reach, h2]
      rfl
  | cons name' path ih =>
    obtain ⟨property, hget, hreach⟩ := bind_eq_some_iff.mp hreach
    obtain ⟨hv', -, c1, c2, h1, h2, horigin, -⟩ :=
      hj.fresh v hv name property (Properties.mem_of_get hget)
    obtain ⟨reached1, reached2, m1, m2, hr1, hr2, hrest⟩ :=
      ih hv' c1.promotionKey c2.promotionKey hreach
    rw [horigin] at hr1 hr2
    refine ⟨reached1, reached2, m1, m2, ?_, ?_, hrest⟩
    · rw [Helper.reach, h1]
      exact hr1
    · rw [Helper.reach, h2]
      exact hr2

/-- **A path is promoted after a join only if it is promoted on both sides.** -/
theorem Joining.promotedTypes_common (hwf : h₀.WellFormed) (hvalid1 : h₀.Valid flow1)
    (hj : Joining h₀ flow1.promotionInfo flow2.promotionInfo origin h joined)
    (hsettled : ∀ key < h₀.keys,
      Settled h₀ flow1.promotionInfo flow2.promotionInfo origin joined key)
    {key : ℕ} (hkey : key < h₀.keys) (path : List String) :
    Common (flow1.promotedTypes h₀ key path) (flow2.promotedTypes h₀ key path)
      (joined.promotedTypes h key path) := by
  intro t ht
  obtain ⟨model, v, reached, reachedModel, hmodel, hv, hreach, hreached, ht⟩ :=
    FlowModel.mem_promotedTypes.mp ht
  obtain ⟨m1, m2, hm1, hm2, -, hversion⟩ := (hsettled key hkey).tracked model hmodel
  obtain ⟨v1, v2, hv1, hv2, hjoined⟩ := hversion v hv
  -- it is enough to find the property on both sides
  suffices hboth : ∃ reached1 reached2 r1 r2, h₀.reach v1 key path = some reached1 ∧
      h₀.reach v2 key path = some reached2 ∧ flow1.models reached1 = some r1 ∧
      flow2.models reached2 = some r2 ∧
      Common r1.promotedTypes.types r2.promotedTypes.types reachedModel.promotedTypes.types by
    obtain ⟨reached1, reached2, r1, r2, hr1, hr2, hf1, hf2, hcommon⟩ := hboth
    exact ⟨FlowModel.mem_promotedTypes.mpr
      ⟨m1, v1, reached1, r1, hm1, hv1, hr1, hf1, (hcommon t ht).1⟩,
      FlowModel.mem_promotedTypes.mpr ⟨m2, v2, reached2, r2, hm2, hv2, hr2, hf2, (hcommon t ht).2⟩⟩
  rcases hjoined with ⟨rfl, rfl⟩ | ⟨hnew, horigin⟩
  · -- one version: the key of the path existed, and is settled
    rw [hj.extends.reach_eq hwf ((hvalid1.models hm1).2 v hv1)] at hreach
    obtain ⟨r1, r2, hr1, hr2, hjoin, -⟩ :=
      (hsettled reached (hwf.reach_lt hkey hreach)).tracked reachedModel hreached
    exact ⟨reached, reached, r1, r2, hreach, hreach, hr1, hr2, hjoin.promoted⟩
  cases path with
  | nil =>
    obtain rfl : key = reached := Option.some.inj hreach
    obtain ⟨r1, r2, hr1, hr2, hjoin, -⟩ := (hsettled key hkey).tracked reachedModel hreached
    exact ⟨key, key, r1, r2, rfl, rfl, hr1, hr2, hjoin.promoted⟩
  | cons name path =>
    obtain ⟨reached1, reached2, r1, r2, hr1, hr2, hrest⟩ := hj.reach hnew key key hreach hreached
    rw [horigin] at hr1 hr2
    exact ⟨reached1, reached2, r1, r2, hr1, hr2, hrest⟩

end

/-- **An upper bound of flow models**, for a key: what it says of the key, all inputs say. -/
structure IsUpperBound (h h' : Helper T) (inputs : List (FlowModel T)) (joined : FlowModel T)
    (key : ℕ) : Prop where
  tracked : joined.tracked key ↔ ∀ input ∈ inputs, input.tracked key
  assigned : joined.assigned key ↔ ∀ input ∈ inputs, input.assigned key
  unassigned : joined.unassigned key ↔ ∀ input ∈ inputs, input.unassigned key
  writeCaptured : joined.tracked key →
    (joined.writeCaptured key ↔ ∃ input ∈ inputs, input.writeCaptured key)
  promotedTypes : ∀ path, ∀ input ∈ inputs,
    joined.promotedTypes h' key path ⊆ input.promotedTypes h key path

theorem Settled.isUpperBound {h₀ : Helper T} {flow1 flow2 joined : FlowModel T} {origin : ℕ → ℕ × ℕ}
    {key : ℕ} (hsettled : Settled h₀ flow1.promotionInfo flow2.promotionInfo origin joined key)
    (hpromoted : ∀ path, Common (flow1.promotedTypes h₀ key path) (flow2.promotedTypes h₀ key path)
      (joined.promotedTypes h key path)) : IsUpperBound h₀ h [flow1, flow2] joined key := by
  have hpaths : ∀ path, ∀ input ∈ [flow1, flow2],
      joined.promotedTypes h key path ⊆ input.promotedTypes h₀ key path := by
    intro path input hinput t ht
    rcases mem_pair.mp hinput with rfl | rfl
    · exact (hpromoted path t ht).1
    · exact (hpromoted path t ht).2
  cases hmodel : joined.models key with
  | none =>
    have hnone : flow1.models key = none ∨ flow2.models key = none := hsettled.untracked hmodel
    refine ⟨?_, ?_, ?_, ?_, hpaths⟩ <;>
      rcases hnone with hnone | hnone <;>
      simp [FlowModel.tracked, FlowModel.assigned, FlowModel.unassigned, hmodel, hnone]
  | some model =>
    obtain ⟨m1, m2, hm1, hm2, hjoin, -⟩ := hsettled.tracked model hmodel
    have hm1 : flow1.models key = some m1 := hm1
    have hm2 : flow2.models key = some m2 := hm2
    refine ⟨?_, ?_, ?_, fun _ => ?_, hpaths⟩
    · simp [FlowModel.tracked, hmodel, hm1, hm2]
    · simp [FlowModel.assigned, hmodel, hm1, hm2, hjoin.assigned]
    · simp [FlowModel.unassigned, hmodel, hm1, hm2, hjoin.unassigned]
    · simp [FlowModel.writeCaptured, hmodel, hm1, hm2, hjoin.captured]

namespace IsUpperBound

variable {h h' h'' : Helper T} {inputs inputs1 inputs2 : List (FlowModel T)}
  {joined joined1 joined2 : FlowModel T} {key : ℕ}

theorem later (hbound : IsUpperBound h h' inputs joined key) (hextends : h'.Extends h'')
    (hwf : h'.WellFormed) (hvalid : h'.Valid joined) : IsUpperBound h h'' inputs joined key :=
  { hbound with
    promotedTypes := fun path input hinput => by
      rw [FlowModel.promotedTypes_extends hextends hwf hvalid]
      exact hbound.promotedTypes path input hinput }

theorem earlier (hbound : IsUpperBound h' h'' inputs joined key) (hextends : h.Extends h')
    (hwf : h.WellFormed) (hvalid : ∀ input ∈ inputs, h.Valid input) :
    IsUpperBound h h'' inputs joined key :=
  { hbound with
    promotedTypes := fun path input hinput => by
      rw [← FlowModel.promotedTypes_extends hextends hwf (hvalid input hinput)]
      exact hbound.promotedTypes path input hinput }

/-- Upper bounds of two lists, joined. -/
theorem append (h1 : IsUpperBound h h' inputs1 joined1 key)
    (h2 : IsUpperBound h h' inputs2 joined2 key)
    (hboth : IsUpperBound h' h'' [joined1, joined2] joined key) :
    IsUpperBound h h'' (inputs1 ++ inputs2) joined key where
  tracked := by simp [hboth.tracked, h1.tracked, h2.tracked, or_imp, forall_and]
  assigned := by simp [hboth.assigned, h1.assigned, h2.assigned, or_imp, forall_and]
  unassigned := by simp [hboth.unassigned, h1.unassigned, h2.unassigned, or_imp, forall_and]
  writeCaptured htracked := by
    have hall := hboth.tracked.mp htracked
    have ht1 : joined1.tracked key := hall joined1 (by simp)
    have ht2 : joined2.tracked key := hall joined2 (by simp)
    simp [hboth.writeCaptured htracked, h1.writeCaptured ht1, h2.writeCaptured ht2, or_and_right,
      exists_or]
  promotedTypes path input hinput := by
    rcases mem_append.mp hinput with hinput | hinput
    · exact List.Subset.trans (hboth.promotedTypes path joined1 (by simp))
        (h1.promotedTypes path input hinput)
    · exact List.Subset.trans (hboth.promotedTypes path joined2 (by simp))
        (h2.promotedTypes path input hinput)

theorem singleton (h : Helper T) (flowModel : FlowModel T) (key : ℕ) :
    IsUpperBound h h [flowModel] flowModel key where
  tracked := by simp
  assigned := by simp
  unassigned := by simp
  writeCaptured _ := by simp
  promotedTypes path input hinput := by
    rw [mem_singleton.mp hinput]
    exact List.Subset.refl _

end IsUpperBound

/-! ## Orders of joins

Several models are joined in some order; the result is below each reachable input. -/

namespace JoinOrder

/-- The models that are joined. -/
def inputs : JoinOrder T → List (FlowModel T)
  | input model => [model]
  | join first second => first.inputs ++ second.inputs

/-- One of the inputs is reachable. -/
def locallyReachable (order : JoinOrder T) : Bool := order.inputs.any (·.reachable.locallyReachable)

/-- The inputs that count: those that are locally reachable, or all if none is. -/
def live (order : JoinOrder T) : List (FlowModel T) :=
  if order.locallyReachable then order.inputs.filter (·.reachable.locallyReachable)
    else order.inputs

variable {first second : JoinOrder T}

theorem locallyReachable_join :
    (join first second).locallyReachable = (first.locallyReachable || second.locallyReachable) :=
  any_append

theorem filter_of_not_reachable {order : JoinOrder T} (h : order.locallyReachable = false) :
    order.inputs.filter (·.reachable.locallyReachable) = [] := by
  rw [filter_eq_nil_iff]
  exact any_eq_false.mp h

theorem live_join_of_eq (h : first.locallyReachable = second.locallyReachable) :
    (join first second).live = first.live ++ second.live := by
  rw [live, live, live, locallyReachable_join, ← h, Bool.or_self]
  split
  · exact filter_append ..
  · rfl

theorem live_join_left (h1 : first.locallyReachable = true) (h2 : second.locallyReachable = false) :
    (join first second).live = first.live := by
  rw [live, live, locallyReachable_join, h1, Bool.true_or, if_pos rfl, if_pos rfl, inputs,
    filter_append, filter_of_not_reachable h2, append_nil]

theorem live_join_right (h1 : first.locallyReachable = false)
    (h2 : second.locallyReachable = true) :
    (join first second).live = second.live := by
  rw [live, live, locallyReachable_join, h1, h2, Bool.false_or, if_pos rfl, if_pos rfl, inputs,
    filter_append, filter_of_not_reachable h1, nil_append]

theorem live_subset (order : JoinOrder T) : order.live ⊆ order.inputs := by
  rw [live]
  split
  · exact filter_subset_self ..
  · exact List.Subset.refl _

end JoinOrder

variable [DecidableEq T] (operations : TypeOperations T)

/-- What a join leads to, from `h` on. -/
structure Joined (h h' : Helper T) (inputs : List (FlowModel T)) (joined : FlowModel T) : Prop where
  wellFormed : h'.WellFormed
  helper : h.Extends h'
  valid : h'.Valid joined
  upperBound : ∀ key < h.keys, IsUpperBound h h' inputs joined key

/-- The join of two flow models that are both reachable, or both not. -/
theorem wp_join_both {h : Helper T} (hwf : h.WellFormed) {flow1 flow2 : FlowModel T}
    (hvalid1 : h.Valid flow1) (hvalid2 : h.Valid flow2)
    (hreachable : flow1.reachable = flow2.reachable) :
    wp (FlowModel.join operations (some flow1) (some flow2)) (fun joined h' =>
      joined.reachable = flow1.reachable ∧ Joined h h' [flow1, flow2] joined) h := by
  rw [FlowModel.join, if_neg (by rw [hreachable]; exact fun hne => hne rfl),
    if_neg (by rw [hreachable]; exact fun hne => hne.2 hne.1),
    if_neg (by rw [hreachable]; exact fun hne => hne.1 hne.2)]
  refine wp_mono (wp_joinPromotionInfo operations hwf hvalid1 hvalid2 hreachable) ?_
  rintro joined h' ⟨hreach, origin, hj, hsettled⟩
  refine ⟨hreach, hj.wellFormed, hj.extends, hj.valid, fun key hkey => ?_⟩
  exact (hsettled key hkey).isUpperBound (hj.promotedTypes_common hwf hvalid1 hsettled hkey)

/-- **In every order of joins, the result is an upper bound of the live inputs.** -/
theorem joins_sound {h : Helper T} (hwf : h.WellFormed) (order : JoinOrder T)
    (hvalid : ∀ input ∈ order.inputs, h.Valid input) {parent : Option ℕ}
    (hparent : ∀ input ∈ order.inputs, input.reachable.parent = parent) :
    ∃ joined h', order.run operations h = some (joined, h') ∧
      joined.reachable = ⟨parent, order.locallyReachable⟩ ∧ Joined h h' order.live joined := by
  induction order generalizing h with
  | input model =>
    have hreach : model.reachable = ⟨parent, (input model).locallyReachable⟩ := by
      cases hmodel : model.reachable
      simp_all [locallyReachable, inputs]
    have hlive : (input model).live = [model] := by
      rw [live, inputs]
      split
      · next hreachable =>
        rw [locallyReachable, inputs, any_cons, any_nil, Bool.or_false] at hreachable
        rw [filter_singleton, hreachable]
        rfl
      · rfl
    refine ⟨model, h, rfl, hreach, hwf, .refl h, hvalid model (mem_singleton_self _),
      fun key _ => ?_⟩
    rw [hlive]
    exact .singleton h model key
  | join first second ih1 ih2 =>
    rw [inputs, forall_mem_append] at hvalid hparent
    obtain ⟨joined1, h₁, hrun1, hreach1, hjoined1⟩ := ih1 hwf hvalid.1 hparent.1
    obtain ⟨joined2, h₂, hrun2, hreach2, hjoined2⟩ := ih2 hjoined1.wellFormed
      (fun input hinput => (hvalid.2 input hinput).mono hjoined1.helper) hparent.2
    have hrun : (join first second).run operations h =
        FlowModel.join operations (some joined1) (some joined2) h₂ := by
      change ((first.run operations h).bind _) = _
      rw [hrun1]
      change ((second.run operations h₁).bind _) = _
      rw [hrun2]
      rfl
    have hvalid1 : h₂.Valid joined1 := hjoined1.valid.mono hjoined2.helper
    have hextends := hjoined1.helper.trans hjoined2.helper
    have hbound1 (key : ℕ) (hkey : key < h.keys) : IsUpperBound h h₂ first.live joined1 key :=
      (hjoined1.upperBound key hkey).later hjoined2.helper hjoined1.wellFormed hjoined1.valid
    have hbound2 (key : ℕ) (hkey : key < h.keys) : IsUpperBound h h₂ second.live joined2 key :=
      (hjoined2.upperBound key (hkey.trans_le hjoined1.helper.keys)).earlier hjoined1.helper hwf
        fun input hinput => hvalid.2 input (second.live_subset hinput)
    rw [hrun]
    by_cases heq : first.locallyReachable = second.locallyReachable
    · obtain ⟨joined, h₃, hjoin, hreach, hjoined⟩ :=
        wp_join_both operations hjoined2.wellFormed hvalid1
        hjoined2.valid (by rw [hreach1, hreach2, heq])
      refine ⟨joined, h₃, hjoin, ?_, hjoined.wellFormed, hextends.trans hjoined.helper,
        hjoined.valid, fun key hkey => ?_⟩
      · rw [hreach, hreach1, locallyReachable_join, ← heq, Bool.or_self]
      · rw [live_join_of_eq heq]
        exact (hbound1 key hkey).append (hbound2 key hkey)
          (hjoined.upperBound key (hkey.trans_le hextends.keys))
    rw [FlowModel.join, hreach1, hreach2, if_neg fun hne => hne rfl]
    cases hr1 : first.locallyReachable with
    | true =>
      have hr2 : second.locallyReachable = false := by simpa [hr1] using Ne.symm heq
      refine ⟨joined1, h₂, by simp [hr2]; rfl, ?_, hjoined2.wellFormed, hextends, hvalid1,
        fun key hkey => ?_⟩
      · rw [hreach1, locallyReachable_join, hr1, Bool.true_or]
      · rw [live_join_left hr1 hr2]
        exact hbound1 key hkey
    | false =>
      have hr2 : second.locallyReachable = true := by simpa [hr1] using Ne.symm heq
      refine ⟨joined2, h₂, by simp [hr2]; rfl, ?_, hjoined2.wellFormed, hextends, hjoined2.valid,
        fun key hkey => ?_⟩
      · rw [hreach2, locallyReachable_join, hr1, hr2, Bool.false_or]
      · rw [live_join_right hr1 hr2]
        exact hbound2 key hkey

/-- A model of a variable or property with a version, promoted to some types. -/
def PromotionModel.promoted (types : List ℕ) (version : ℕ) : PromotionModel ℕ where
  promotedTypes := ⟨1, types⟩
  tested := .const ℕ
  assigned := true
  unassigned := false
  version := some version
  nonPromotionHistory := none
  not_both := by decide
  promotedTypes_captured := (nomatch ·)
  unassigned_captured := (nomatch ·)

/-- A model of a variable that has been write-captured. -/
def PromotionModel.captured : PromotionModel ℕ where
  promotedTypes := .const ℕ
  tested := .const ℕ
  assigned := true
  unassigned := false
  version := none
  nonPromotionHistory := none
  not_both := by decide
  promotedTypes_captured _ := rfl
  unassigned_captured _ := rfl

/-- Two versions of a variable, each with a property. -/
def Helper.branches : Helper ℕ where
  reader := .new
  keys := 3
  objects := 2
  versions := [[("f", ⟨2, 1⟩)], [("f", ⟨3, 2⟩)], [], []]

/-- A branch in which the variable has a version, and its property is promoted to `7`. -/
def FlowModel.branch (version property key : ℕ) : FlowModel ℕ where
  reachable := ⟨none, true⟩
  promotionInfo := some ⟨⟨0, key, .promoted [7] property⟩, [⟨0, 0, .promoted [] version⟩]⟩

theorem Helper.branches_wellFormed : branches.WellFormed where
  reader := Reader.exact_new
  names v := by rcases v with _ | _ | _ | _ | v <;> simp [properties, branches]
  property v name c hc := by
    rcases v with _ | _ | _ | _ | v <;> simp [properties, branches] at hc
    all_goals simp [hc, branches]

theorem FlowModel.branch_valid {version property key : ℕ} (hversion : version < 4)
    (hproperty : property < 4) (hkey : key < 3) :
      branches.Valid (.branch version property key) := by
  intro link hlink
  rcases mem_pair.mp hlink with rfl | rfl
  · exact ⟨hkey, fun v hv => Option.some.inj hv ▸ hproperty⟩
  · exact ⟨Nat.zero_lt_succ 2, fun v hv => Option.some.inj hv ▸ hversion⟩

/-- The join of two branches with different versions of a variable. -/
theorem joins_sound_branches : ∃ joined h',
    (join (.input (.branch 0 2 1)) (.input (.branch 1 3 2))).run
      ⟨fun _ _ => false, true⟩ branches = some (joined, h') ∧ joined.reachable = ⟨none, true⟩ ∧
    Joined branches h' [.branch 0 2 1, .branch 1 3 2] joined :=
  joins_sound ⟨fun _ _ => false, true⟩ branches_wellFormed
    (.join (.input (.branch 0 2 1)) (.input (.branch 1 3 2)))
    (by
      rw [inputs, forall_mem_append]
      simp only [inputs, forall_mem_singleton]
      exact ⟨FlowModel.branch_valid (by decide) (by decide) (by decide),
        FlowModel.branch_valid (by decide) (by decide) (by decide)⟩)
    (by simp [inputs, FlowModel.branch])

/-- **A variable that one branch does not track is not write-captured after the join**, though it is
in the other branch. -/
theorem join_untracked : ∃ first second joined : FlowModel ℕ, ∃ h',
    first.reachable = second.reachable ∧ second.reachable.locallyReachable = true ∧
    branches.Valid first ∧ branches.Valid second ∧
    FlowModel.join ⟨fun _ _ => false, true⟩ (some first) (some second) branches =
      some (joined, h') ∧ second.writeCaptured 0 = true ∧ joined.writeCaptured 0 = false := by
  refine ⟨⟨⟨none, true⟩, none⟩, ⟨⟨none, true⟩, some ⟨⟨0, 0, .captured⟩, []⟩⟩, ⟨⟨none, true⟩, none⟩,
    branches, rfl, rfl, ?_, ?_, rfl, ?_, ?_⟩
  · exact fun link hlink => absurd hlink not_mem_nil
  · intro link hlink
    rw [mem_singleton.mp hlink]
    exact ⟨by decide, fun v hv => nomatch hv⟩
  · have hlinks : links (some ⟨⟨0, 0, .captured⟩, []⟩) =
        ⟨0, 0, .captured⟩ :: links none := rfl
    rw [FlowModel.writeCaptured, FlowModel.models, models_of_links hlinks, Function.update_self]
    rfl
  · rw [FlowModel.writeCaptured, FlowModel.models, models, FlowLinks.nearest, Chains.chain_none]
    rfl

end FlowAnalysis
