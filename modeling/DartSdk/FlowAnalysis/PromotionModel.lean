import Mathlib.Tactic

/-!
# FlowAnalysis/PromotionModel — what is known about one variable or property

A `PromotionModel` holds the promotion chain, the types of interest, the two assignment flags and
the value version.  The assertions of its constructor are fields.

The joins of two chains return one of the lists they were given where they can: lists have an
identity (`TypeList.object`), and `identicalOrNew` reuses a model only if its lists are *identical*
to the new ones.  **Whatever is returned, its types are in both chains**
(`joinPromotedTypes_common`), with and without intersection of the chains, and for every subtype
relation.
-/

namespace FlowAnalysis

open List

/-- A list of types, with its identity. -/
structure TypeList (T : Type) where
  object : ℕ
  types : List T
  deriving DecidableEq

/-- `const []`. -/
def TypeList.const (T : Type) : TypeList T := ⟨0, []⟩

/-- A list that is returned: an object that exists, or the contents of a new one. -/
inductive Returned (T : Type) where
  | same (list : TypeList T)
  | fresh (types : List T)

/-- The types of the list, old or new. -/
def Returned.types {T : Type} : Returned T → List T
  | same list => list.types
  | fresh types => types

section

variable {T : Type} [DecidableEq T] (isSubtypeOf : T → T → Bool) {chain1 chain2 : List T}

/-! ## Promotion chains

A list of promoted types descends in the subtype order. -/

/-- The loop of `joinPromotedTypes`, at `t1 = chain1[i1]` and `t2 = chain2[i2]`; the rests are what
follows these in the chains.  `result` is allocated once the result is not equal to `chain1`. -/
def joinPromotedTypesLoop (chain1 : TypeList T) (i1 : ℕ) (t1 : T) (rest1 : List T) (t2 : T)
    (rest2 : List T) (result : Option (List T)) : Returned T :=
  if t1 = t2 then
    let result := result.map (· ++ [t1])
    match rest1 with
    | [] => (result.map .fresh).getD (.same chain1)
    | t1 :: rest1 =>
      match rest2 with
      | [] => .fresh (result.getD (chain1.types.take (i1 + 1)))
      | t2 :: rest2 => joinPromotedTypesLoop chain1 (i1 + 1) t1 rest1 t2 rest2 result
  else if isSubtypeOf t1 t2 then
    -- only `i2` advances
    match rest2 with
    | [] => .fresh (result.getD (chain1.types.take i1))
    | t2 :: rest2 => joinPromotedTypesLoop chain1 i1 t1 rest1 t2 rest2 result
  else
    -- only `i1` advances
    let result := result.getD (chain1.types.take i1)
    match rest1 with
    | [] => .fresh result
    | t1 :: rest1 => joinPromotedTypesLoop chain1 (i1 + 1) t1 rest1 t2 rest2 (some result)
termination_by rest1.length + rest2.length

/-- The loop of `_legacyJoinPromotedTypes`, at the rests of the two chains.  It returns the rests,
the two flags and the result. -/
def legacyLoop (rest1 rest2 : List T) (skipped1 skipped2 : Bool) (result : Option (List T)) :
    List T × List T × Bool × Bool × Option (List T) :=
  match rest1, rest2 with
  | type1 :: tail1, type2 :: tail2 =>
    if type1 = type2 then
      legacyLoop tail1 tail2 skipped1 skipped2 (some (result.getD [] ++ [type1]))
    else if isSubtypeOf type2 type1 then legacyLoop tail1 (type2 :: tail2) true skipped2 result
    else if isSubtypeOf type1 type2 then legacyLoop (type1 :: tail1) tail2 skipped1 true result
    else (type1 :: tail1, type2 :: tail2, true, true, result)
  | rest1, rest2 => (rest1, rest2, skipped1, skipped2, result)
termination_by rest1.length + rest2.length

/-- `_legacyJoinPromotedTypes`. -/
def legacyJoinPromotedTypes (chain1 chain2 : TypeList T) : Returned T :=
  if chain1.types = [] then .same chain1
  else if chain2.types = [] then .same chain2
  else
    let (rest1, rest2, skipped1, skipped2, result) :=
      legacyLoop isSubtypeOf chain1.types chain2.types false false none
    if rest1 = [] ∧ skipped1 = false then .same chain1
    else if rest2 = [] ∧ skipped2 = false then .same chain2
    else (result.map .fresh).getD (.same (.const T))

/-- `joinPromotedTypes`.  With intersection of chains, the loop runs with the shorter one first. -/
def joinPromotedTypes (promotionChainIntersectionJoinEnabled : Bool) (chain1 chain2 : TypeList T) :
    Returned T :=
  if promotionChainIntersectionJoinEnabled = false then
    legacyJoinPromotedTypes isSubtypeOf chain1 chain2
  else if chain1.types = [] then .same chain1
  else if chain2.types = [] then .same chain2
  else if chain1.types.length > chain2.types.length then start chain2 chain1
  else start chain1 chain2
where
  start (chain1 chain2 : TypeList T) : Returned T :=
    match chain1.types, chain2.types with
    | t1 :: rest1, t2 :: rest2 =>
      joinPromotedTypesLoop isSubtypeOf chain1 0 t1 rest1 t2 rest2 none
    | _, _ => .same (.const T)

/-- The types of `l` are in both chains. -/
def Common (chain1 chain2 l : List T) : Prop := ∀ t ∈ l, t ∈ chain1 ∧ t ∈ chain2

/-- A promotion: to a subtype that is not a supertype. -/
def Above (t u : T) : Prop := isSubtypeOf u t = true ∧ isSubtypeOf t u = false

/-- A common subsequence of two chains; of two descending ones, it has all that they have in
common. -/
structure CommonPart (chain1 chain2 l : List T) : Prop where
  left : l <+ chain1
  right : l <+ chain2
  all : chain1.Pairwise (Above isSubtypeOf) → chain2.Pairwise (Above isSubtypeOf) →
    ∀ t ∈ chain1, t ∈ chain2 → t ∈ l

variable {isSubtypeOf} {t t1 t2 : T} {l : List T}

section

omit [DecidableEq T]

theorem CommonPart.symm (h : CommonPart isSubtypeOf chain1 chain2 l) :
    CommonPart isSubtypeOf chain2 chain1 l :=
  ⟨h.right, h.left, fun h2 h1 t ht2 ht1 => h.all h1 h2 t ht1 ht2⟩

theorem CommonPart.nil : CommonPart isSubtypeOf [] chain2 [] :=
  ⟨.slnil, nil_sublist _, fun _ _ _ ht _ => ht⟩

theorem CommonPart.cons (h : CommonPart isSubtypeOf chain1 chain2 l) :
    CommonPart isSubtypeOf (t :: chain1) (t :: chain2) (t :: l) := by
  refine ⟨h.left.cons_cons t, h.right.cons_cons t, fun h1 h2 u hu1 hu2 => ?_⟩
  rcases mem_cons.mp hu1 with rfl | hu1
  · exact mem_cons_self
  rcases mem_cons.mp hu2 with rfl | hu2
  · exact mem_cons_self
  · exact mem_cons_of_mem t (h.all h1.of_cons h2.of_cons u hu1 hu2)

theorem CommonPart.skip1 (h : CommonPart isSubtypeOf chain1 (t2 :: chain2) l) (hne : t1 ≠ t2)
    (hsub : ¬ isSubtypeOf t1 t2 = true) :
    CommonPart isSubtypeOf (t1 :: chain1) (t2 :: chain2) l := by
  refine ⟨h.left.cons t1, h.right, fun h1 h2 u hu1 hu2 => ?_⟩
  rcases mem_cons.mp hu1 with rfl | hu1
  · have hmem := (mem_cons.mp hu2).resolve_left hne
    exact absurd ((pairwise_cons.mp h2).1 u hmem).1 hsub
  · exact h.all h1.of_cons h2 u hu1 hu2

theorem CommonPart.skip2 (h : CommonPart isSubtypeOf (t1 :: chain1) chain2 l) (hne : t1 ≠ t2)
    (hsub : isSubtypeOf t1 t2 = true) :
    CommonPart isSubtypeOf (t1 :: chain1) (t2 :: chain2) l := by
  refine ⟨h.left, h.right.cons t2, fun h1 h2 u hu1 hu2 => ?_⟩
  rcases mem_cons.mp hu2 with rfl | hu2
  · have hmem := (mem_cons.mp hu1).resolve_left hne.symm
    exact absurd hsub (Bool.eq_false_iff.mp ((pairwise_cons.mp h1).1 u hmem).2)
  · exact h.all h1 h2.of_cons u hu1 hu2

theorem drop_succ_of_cons {i : ℕ} {rest : List T} (h : l.drop i = t :: rest) :
    l.drop (i + 1) = rest := by
  rw [← drop_drop, h]
  rfl

theorem getD_take_succ {i : ℕ} {rest : List T} (h : l.drop i = t :: rest)
    (result : Option (List T)) :
    (result.map (· ++ [t])).getD (l.take (i + 1)) = result.getD (l.take i) ++ [t] := by
  have hget : l[i]? = some t := by
    rw [← head?_drop, h]
    rfl
  rw [take_add_one, hget]
  cases result <;> rfl

end

/-- The loop adds a common part of the rests to the result so far; before that is allocated, it is
the part of `chain1` up to `i1`. -/
theorem joinPromotedTypesLoop_spec {chain1 : TypeList T} {i1 : ℕ} {rest1 rest2 : List T}
    {result : Option (List T)} (h1 : chain1.types.drop i1 = t1 :: rest1) :
    ∃ common, CommonPart isSubtypeOf (t1 :: rest1) (t2 :: rest2) common ∧
      (joinPromotedTypesLoop isSubtypeOf chain1 i1 t1 rest1 t2 rest2 result).types =
        result.getD (chain1.types.take i1) ++ common := by
  fun_induction joinPromotedTypesLoop isSubtypeOf chain1 i1 t1 rest1 t2 rest2 result with
  | case1 i1 t rest2 result =>
    refine ⟨[t], CommonPart.nil.cons, ?_⟩
    cases result with
    | none => exact (h1 ▸ take_append_drop i1 chain1.types).symm
    | some l => rfl
  | case2 i1 t result => exact ⟨[t], CommonPart.nil.symm.cons, getD_take_succ h1 result⟩
  | case3 i1 t result t1 rest1 t2 rest2 _ ih =>
    obtain ⟨common, hpart, heq⟩ := ih (drop_succ_of_cons h1)
    refine ⟨t :: common, hpart.cons, ?_⟩
    rw [heq, getD_take_succ h1, append_assoc]
    rfl
  | case4 i1 t1 rest1 t2 result hne hsub =>
    exact ⟨[], CommonPart.nil.symm.skip2 hne hsub, (append_nil _).symm⟩
  | case5 i1 t1 rest1 t2 result hne hsub t2' rest2 ih =>
    obtain ⟨common, hpart, heq⟩ := ih h1
    exact ⟨common, hpart.skip2 hne hsub, heq⟩
  | case6 i1 t1 t2 rest2 result hne hsub =>
    exact ⟨[], CommonPart.nil.skip1 hne hsub, (append_nil _).symm⟩
  | case7 i1 t1 t2 rest2 result hne hsub _ t1' rest1 ih =>
    obtain ⟨common, hpart, heq⟩ := ih (drop_succ_of_cons h1)
    exact ⟨common, hpart.skip1 hne hsub, heq⟩

/-- What holds in the legacy loop: the result and the rest are a subsequence of each chain, and all
of a chain of which nothing was skipped. -/
structure LegacyState (chain1 chain2 rest1 rest2 : List T) (skipped1 skipped2 : Bool)
    (result : Option (List T)) : Prop where
  left : result.getD [] ++ rest1 <+ chain1
  right : result.getD [] ++ rest2 <+ chain2
  kept1 : skipped1 = false → chain1 = result.getD [] ++ rest1
  kept2 : skipped2 = false → chain2 = result.getD [] ++ rest2

theorem LegacyState.loop {rest1 rest2 : List T} {skipped1 skipped2 : Bool}
    {result : Option (List T)} (h : LegacyState chain1 chain2 rest1 rest2 skipped1 skipped2 result)
    (isSubtypeOf : T → T → Bool) :
    let after := legacyLoop isSubtypeOf rest1 rest2 skipped1 skipped2 result
    LegacyState chain1 chain2 after.1 after.2.1 after.2.2.1 after.2.2.2.1 after.2.2.2.2 := by
  fun_induction legacyLoop isSubtypeOf rest1 rest2 skipped1 skipped2 result with
  | case1 skipped1 skipped2 result tail1 type tail2 ih =>
    refine ih ⟨?_, ?_, fun hs => ?_, fun hs => ?_⟩
    · simpa using h.left
    · simpa using h.right
    · simpa using h.kept1 hs
    · simpa using h.kept2 hs
  | case2 skipped1 skipped2 result type1 tail1 type2 tail2 hne hsub ih =>
    exact ih ⟨((sublist_cons_self ..).append_left _).trans h.left, h.right, (nomatch ·), h.kept2⟩
  | case3 skipped1 skipped2 result type1 tail1 type2 tail2 hne hnot hsub ih =>
    exact ih ⟨h.left, ((sublist_cons_self ..).append_left _).trans h.right, h.kept1, (nomatch ·)⟩
  | case4 skipped1 skipped2 result type1 tail1 type2 tail2 hne hnot1 hnot2 =>
    exact ⟨h.left, h.right, (nomatch ·), (nomatch ·)⟩
  | case5 => exact h

theorem legacyJoinPromotedTypes_sublist (chain1 chain2 : TypeList T) :
    (legacyJoinPromotedTypes isSubtypeOf chain1 chain2).types <+ chain1.types ∧
      (legacyJoinPromotedTypes isSubtypeOf chain1 chain2).types <+ chain2.types := by
  rw [legacyJoinPromotedTypes]
  split
  · next hnil =>
    rw [Returned.types, hnil]
    exact ⟨.refl _, nil_sublist _⟩
  split
  · next hnil =>
    rw [Returned.types, hnil]
    exact ⟨nil_sublist _, .refl _⟩
  have hstart : LegacyState chain1.types chain2.types chain1.types chain2.types false false none :=
    ⟨.refl _, .refl _, fun _ => rfl, fun _ => rfl⟩
  have hloop := hstart.loop isSubtypeOf
  generalize legacyLoop isSubtypeOf chain1.types chain2.types false false none = after at hloop ⊢
  obtain ⟨rest1, rest2, skipped1, skipped2, result⟩ := after
  dsimp only at hloop ⊢
  have hleft := (sublist_append_left ..).trans hloop.left
  have hright := (sublist_append_left ..).trans hloop.right
  split
  · next hend =>
    have hall := hloop.kept1 hend.2
    rw [hend.1, append_nil] at hall
    rw [← hall] at hright
    exact ⟨.refl _, hright⟩
  split
  · next hend =>
    have hall := hloop.kept2 hend.2
    rw [hend.1, append_nil] at hall
    rw [← hall] at hleft
    exact ⟨hleft, .refl _⟩
  · cases result <;> exact ⟨hleft, hright⟩

theorem joinPromotedTypes_commonPart (chain1 chain2 : TypeList T) :
    CommonPart isSubtypeOf chain1.types chain2.types
      (joinPromotedTypes isSubtypeOf true chain1 chain2).types := by
  have hstart (c1 c2 : TypeList T) (h1 : c1.types ≠ []) (h2 : c2.types ≠ []) :
      CommonPart isSubtypeOf c1.types c2.types
        (joinPromotedTypes.start isSubtypeOf c1 c2).types := by
    obtain ⟨t1, rest1, hcons1⟩ := exists_cons_of_ne_nil h1
    obtain ⟨t2, rest2, hcons2⟩ := exists_cons_of_ne_nil h2
    simp only [joinPromotedTypes.start, hcons1, hcons2]
    have h0 : c1.types.drop 0 = t1 :: rest1 := hcons1
    obtain ⟨common, hpart, heq⟩ := joinPromotedTypesLoop_spec h0
    rw [heq]
    exact hpart
  rw [joinPromotedTypes, if_neg (by decide)]
  split
  · next hnil =>
    rw [Returned.types, hnil]
    exact .nil
  next h1 =>
  split
  · next hnil =>
    rw [Returned.types, hnil]
    exact CommonPart.nil.symm
  next h2 =>
  split
  · exact (hstart chain2 chain1 h2 h1).symm
  · exact hstart chain1 chain2 h1 h2

/-- **The types of a joined chain are in both chains.** -/
theorem joinPromotedTypes_common (isSubtypeOf : T → T → Bool) (intersection : Bool)
    (chain1 chain2 : TypeList T) : Common chain1.types chain2.types
      (joinPromotedTypes isSubtypeOf intersection chain1 chain2).types := by
  intro t ht
  cases intersection with
  | false =>
    obtain ⟨hleft, hright⟩ := legacyJoinPromotedTypes_sublist chain1 chain2
    exact ⟨hleft.subset ht, hright.subset ht⟩
  | true =>
    obtain ⟨hleft, hright, -⟩ := joinPromotedTypes_commonPart chain1 chain2
    exact ⟨hleft.subset ht, hright.subset ht⟩

/-- Each next type is a subtype of the previous and not a supertype of it. -/
def Descending (isSubtypeOf : T → T → Bool) (chain : List T) : Prop :=
  chain.IsChain (Above isSubtypeOf)

/-- `FlowModelHelper.isValidPromotionStep`; the caller ensures that `newType <: previousType`. -/
def isValidPromotionStep (isSubtypeOf : T → T → Bool) (soundFlowAnalysisEnabled : Bool)
    (previousType newType : T) : Bool :=
  if soundFlowAnalysisEnabled then !isSubtypeOf previousType newType else newType ≠ previousType

/-- `rebasePromotedTypes`: from the first new promotion that is safe to attach to the base. -/
def rebasePromotedTypes (isSubtypeOf : T → T → Bool) (soundFlowAnalysisEnabled : Bool)
    (basePromotions newPromotions : TypeList T) : Returned T :=
  match basePromotions.types.getLast? with
  | none => .same newPromotions
  | some basePromotedType =>
    match newPromotions.types.dropWhile fun nextType =>
      !(isSubtypeOf nextType basePromotedType &&
        isValidPromotionStep isSubtypeOf soundFlowAnalysisEnabled basePromotedType nextType) with
    | [] => .same basePromotions
    | nextType :: rest => .fresh (basePromotions.types ++ nextType :: rest)

theorem CommonPart.eq_filter (h : CommonPart isSubtypeOf chain1 chain2 l)
    (h1 : chain1.Pairwise (Above isSubtypeOf)) (h2 : chain2.Pairwise (Above isSubtypeOf)) :
    l = chain1.filter (· ∈ chain2) := by
  have hself : l.filter (· ∈ chain2) = l :=
    filter_eq_self.mpr fun t ht => decide_eq_true (h.right.subset ht)
  have hsub := h.left.filter (· ∈ chain2)
  rw [hself] at hsub
  have hnodup : chain1.Nodup := h1.imp fun habove heq => by
    subst heq
    exact absurd (habove.1.symm.trans habove.2) (by decide)
  refine hsub.eq_of_length_le ((hnodup.filter _).subperm fun t ht => ?_).length_le
  obtain ⟨ht1, ht2⟩ := mem_filter.mp ht
  exact h.all h1 h2 t ht1 (of_decide_eq_true ht2)

omit [DecidableEq T] in
theorem Descending.pairwise (h : Descending isSubtypeOf chain1)
    (htrans : ∀ t u v, isSubtypeOf t u = true → isSubtypeOf u v = true → isSubtypeOf t v = true) :
    chain1.Pairwise (Above isSubtypeOf) := by
  have : Trans (Above isSubtypeOf) (Above isSubtypeOf) (Above isSubtypeOf) := by
    refine ⟨fun {t u v} htu huv => ⟨htrans v u t huv.1 htu.1, ?_⟩⟩
    by_contra hsub
    have hut := htrans t v u (Bool.not_eq_false _ ▸ hsub) huv.1
    exact absurd (hut.symm.trans htu.2) (by decide)
  exact isChain_iff_pairwise.mp h

theorem rebasePromotedTypes_attached {basePromotions newPromotions : TypeList T} {base : T}
    (hlast : basePromotions.types.getLast? = some base)
    (hbase : Descending isSubtypeOf basePromotions.types)
    (hnew : Descending isSubtypeOf newPromotions.types) :
    ∃ attached, Descending isSubtypeOf (basePromotions.types ++ attached) ∧
      (rebasePromotedTypes isSubtypeOf true basePromotions newPromotions).types =
        basePromotions.types ++ attached := by
  simp only [rebasePromotedTypes, hlast]
  split
  · exact ⟨[], (append_nil _).symm ▸ hbase, (append_nil _).symm⟩
  next nextType rest hdrop =>
  have hsafe := head?_dropWhile_not (fun nextType => !(isSubtypeOf nextType base &&
    isValidPromotionStep isSubtypeOf true base nextType)) newPromotions.types
  rw [hdrop] at hsafe
  simp [isValidPromotionStep] at hsafe
  have hrest := IsChain.suffix hnew (hdrop ▸ dropWhile_suffix _)
  refine ⟨nextType :: rest, isChain_append.mpr ⟨hbase, hrest, fun t ht u hu => ?_⟩, rfl⟩
  cases hlast.symm.trans ht
  cases hu
  exact hsafe

/-- **Promotion chains**: with intersection, a join of descending chains is all that they have in
common, in order, whichever is first; a legacy join is a common subsequence; and a rebased chain is
the base with promotions of its last type. -/
theorem promotionChains_algebra (isSubtypeOf : T → T → Bool) (hrefl : ∀ t, isSubtypeOf t t = true)
    (htrans : ∀ t u v, isSubtypeOf t u = true → isSubtypeOf u v = true → isSubtypeOf t v = true)
    (chain1 chain2 : TypeList T) (h1 : Descending isSubtypeOf chain1.types)
    (h2 : Descending isSubtypeOf chain2.types) :
    let joined := (joinPromotedTypes isSubtypeOf true chain1 chain2).types
    let legacy := (joinPromotedTypes isSubtypeOf false chain1 chain2).types
    let rebased := rebasePromotedTypes isSubtypeOf true chain1 chain2
    joined = chain1.types.filter (· ∈ chain2.types) ∧
      (joinPromotedTypes isSubtypeOf true chain2 chain1).types = joined ∧
      (legacy <+ chain1.types ∧ legacy <+ chain2.types) ∧
      Descending isSubtypeOf rebased.types ∧ chain1.types <+: rebased.types ∧
      (chain1.types = [] → rebased = .same chain2) ∧
      ∀ base ∈ chain1.types.getLast?, ∃ last ∈ rebased.types.getLast?,
        isSubtypeOf last base = true := by
  intro joined legacy rebased
  have hjoined := (joinPromotedTypes_commonPart chain1 chain2).eq_filter
    (h1.pairwise htrans) (h2.pairwise htrans)
  have hswapped := (joinPromotedTypes_commonPart chain2 chain1).symm.eq_filter
    (h1.pairwise htrans) (h2.pairwise htrans)
  refine ⟨hjoined, hswapped.trans hjoined.symm, legacyJoinPromotedTypes_sublist chain1 chain2, ?_⟩
  cases hlast : chain1.types.getLast? with
  | none =>
    have hnil := getLast?_eq_none_iff.mp hlast
    have hsame : rebased = .same chain2 := by simp [rebased, rebasePromotedTypes, hlast]
    exact ⟨hsame ▸ h2, hnil ▸ nil_prefix, fun _ => hsame, fun _ hbase => nomatch hbase⟩
  | some base =>
    obtain ⟨attached, hdesc, hrebased⟩ := rebasePromotedTypes_attached hlast h1 h2
    have hmem : base ∈ chain1.types := mem_of_getLast? hlast
    refine ⟨hrebased ▸ hdesc, hrebased ▸ prefix_append _ _, fun hnil => ?_, fun t ht => ?_⟩
    · exact absurd (hnil ▸ hmem) not_mem_nil
    cases ht
    rw [hrebased, getLast?_append, hlast]
    cases hend : attached.getLast? with
    | none => exact ⟨base, rfl, hrefl base⟩
    | some last =>
      have habove := (pairwise_append.mp (hdesc.pairwise htrans)).2.2
      exact ⟨last, rfl, (habove base hmem last (mem_of_getLast? hend)).1⟩

/-- 2 is all that 3 > 2 > 1 and 4 > 2 have in common. -/
theorem promotionChains_algebra_ble :
    (joinPromotedTypes Nat.ble true ⟨1, [3, 2, 1]⟩ ⟨2, [4, 2]⟩).types = [2] :=
  (promotionChains_algebra Nat.ble (by simp) (fun _ _ _ => by simpa using Nat.le_trans)
    ⟨1, [3, 2, 1]⟩ ⟨2, [4, 2]⟩ (by simp [Descending, Above, Nat.ble])
    (by simp [Descending, Above, Nat.ble])).1

/-- The length of the common prefix of two lists. -/
def sharedPrefix : List T → List T → ℕ
  | t1 :: types1, t2 :: types2 => if t1 = t2 then sharedPrefix types1 types2 + 1 else 0
  | _, _ => 0

/-- `joinTested`: the longer list, and the types of the shorter one that are not in it. -/
def joinTested (types1 types2 : TypeList T) : Returned T :=
  if types1.types.length > types2.types.length then start types2 types1 else start types1 types2
where
  start (types1 types2 : TypeList T) : Returned T :=
    let shared := sharedPrefix types1.types types2.types
    match (types1.types.drop shared).dropWhile (· ∈ types2.types) with
    | [] => .same types2
    | typeToAdd :: rest => .fresh (types2.types ++ typeToAdd :: rest.filter (· ∉ types2.types))

end

/-- **What is known about a variable or property.**  The version is an object; `none` is a variable
that has been write-captured. -/
structure PromotionModel (T : Type) where
  promotedTypes : TypeList T
  tested : TypeList T
  assigned : Bool
  unassigned : Bool
  version : Option ℕ
  nonPromotionHistory : Option ℕ
  not_both : ¬(assigned = true ∧ unassigned = true)
  promotedTypes_captured : version = none → promotedTypes.types = []
  unassigned_captured : version = none → unassigned = false
  deriving DecidableEq

namespace PromotionModel

variable {T : Type}

/-- `writeCaptured`: a captured variable has no version. -/
def writeCaptured (model : PromotionModel T) : Bool := model.version.isNone

@[simp] theorem writeCaptured_iff {model : PromotionModel T} :
    model.writeCaptured = true ↔ model.version = none := Option.isNone_iff_eq_none

/-- The constructor; `none` if an assertion fails. -/
def new (promotedTypes tested : TypeList T) (assigned unassigned : Bool) (version : Option ℕ) :
    Option (PromotionModel T) :=
  if h : ¬(assigned = true ∧ unassigned = true) ∧ (version = none → promotedTypes.types = []) ∧
      (version = none → unassigned = false) then
    some { promotedTypes, tested, assigned, unassigned, version, nonPromotionHistory := none,
           not_both := h.1, promotedTypes_captured := h.2.1, unassigned_captured := h.2.2 }
  else none

variable [DecidableEq T]

/-- `_identicalOrNew`: one of the two models if it has the new fields, and otherwise a new model. -/
def identicalOrNew (first second : PromotionModel T) (newPromotedTypes newTested : TypeList T)
    (newAssigned newUnassigned : Bool) (newVersion : Option ℕ) : Option (PromotionModel T) :=
  if first.promotedTypes = newPromotedTypes ∧ first.tested = newTested ∧
      first.assigned = newAssigned ∧ first.unassigned = newUnassigned ∧
        first.version = newVersion then
    some first
  else if second.promotedTypes = newPromotedTypes ∧ second.tested = newTested ∧
      second.assigned = newAssigned ∧ second.unassigned = newUnassigned ∧
      second.version = newVersion then
    some second
  else new newPromotedTypes newTested newAssigned newUnassigned newVersion

/-- Whichever model it returns, it has the new fields. -/
theorem identicalOrNew_spec (first second : PromotionModel T) {newPromotedTypes : TypeList T}
    (newTested : TypeList T) {newAssigned newUnassigned : Bool} (newVersion : Option ℕ)
    (h : ¬(newAssigned = true ∧ newUnassigned = true))
    (hpromoted : newVersion = none → newPromotedTypes.types = [])
    (hunassigned : newVersion = none → newUnassigned = false) :
    ∃ model, identicalOrNew first second newPromotedTypes newTested newAssigned newUnassigned
        newVersion = some model ∧ model.promotedTypes = newPromotedTypes ∧
      model.assigned = newAssigned ∧ model.unassigned = newUnassigned ∧
      model.version = newVersion := by
  rw [identicalOrNew]
  split
  · next heq => exact ⟨first, rfl, heq.1, heq.2.2.1, heq.2.2.2.1, heq.2.2.2.2⟩
  split
  · next heq => exact ⟨second, rfl, heq.1, heq.2.2.1, heq.2.2.2.1, heq.2.2.2.2⟩
  · exact ⟨_, dif_pos ⟨h, hpromoted, hunassigned⟩, rfl, rfl, rfl, rfl⟩

end PromotionModel

end FlowAnalysis
