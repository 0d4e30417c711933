import DartSdk.Util.DependencyWalkerInvariant

/-!
# Util/DependencyWalkerCorrect — walks evaluate the graph in a safe order

`strongConnect_spec` is the recursion: a call on a new node returns, and keeps the invariant.  At
the end of a walk no node is open, so the stack is empty and all that was seen is evaluated.

After earlier walks all dependencies of evaluated nodes are evaluated (`Settled`).  So no way that
ends in a node that is not evaluated leads through evaluated ones, and the components that a walk
finds are those of the whole graph (`walks_safe`).
-/

namespace DependencyWalker

open List Relation

variable {V : Type} [DecidableEq V] {dependencies : V → List V} {old : V → Bool} {root : V}
  {opened : Set V} {s s₀ s' : State V} {x d : V} {done : List V} {hasTrivialCycle : Bool}

section

variable (h : Scanning dependencies old root opened x s₀ s done hasTrivialCycle)
  (hd : d ∈ dependencies x) (hne : x ≠ d)

include h hd hne

/-- A node that was seen and is not evaluated. -/
theorem Scanning.lower_seen (hmem : d ∈ s.stack) :
    Scanning dependencies old root opened x s₀ (s.lower x (s.index d)) (done ++ [d])
      hasTrivialCycle := by
  obtain ⟨hindex, hevaluated⟩ := (h.inv.mem_stack d).mp hmem
  refine h.toVisiting.scanning (h.bounded.mono (min_le_left _ _)) (fun d' hd' => ?_)
    (fun d' hd' hmem' => ?_) h.lowLink_le ?_ ?_
  · rcases mem_append.mp hd' with hd' | hd'
    · exact h.seen d' hd'
    · exact .inr (mem_singleton.mp hd' ▸ hindex)
  · rcases mem_append.mp hd' with hd' | hd'
    · exact (min_le_left _ _).trans (h.low d' hd' hmem')
    · rw [mem_singleton.mp hd']
      exact min_le_right _ _
  · rcases le_total (s.lowLink x) (s.index d) with hle | hle
    · rw [min_eq_left hle]
      exact h.witness
    · rw [min_eq_right hle]
      exact ⟨d, hmem, rfl, .single ⟨hd, h.inv.old_eq_false hevaluated⟩⟩
  · rw [h.cycle, mem_append, mem_singleton, or_iff_left hne]

/-- The call of a new dependency has returned. -/
theorem Scanning.lower_returned (hindex : s.index d = 0) (hevaluated : s.isEvaluated d = false)
    (h' : Returned dependencies old root (insert x opened) d s s') :
    Scanning dependencies old root opened x s₀ (s'.lower x (s'.lowLink d)) (done ++ [d])
      hasTrivialCycle := by
  have hx : s.index x ≠ 0 := ((h.inv.mem_stack x).mp h.mem_stack_self).1
  have hstackIndex {v : V} (hv : v ∈ s.stack) : s'.index v = s.index v :=
    h'.keeps.index v ((h.inv.mem_stack v).mp hv).1
  have hlowx : s'.lowLink x = s.lowLink x := h'.keeps.lowLink x hx
  have hindexx : s'.index x = s.index x := h'.keeps.index x hx
  obtain ⟨above', hstack', habove'⟩ := h'.stack
  have hkeep {v : V} (hv : v ∈ s.stack) : v ∈ s'.stack := hstack' ▸ mem_append_right _ hv
  have hold {v : V} (hle : s.lowLink x ≤ s.index v) (hv : v ∈ s.stack) :
      min (s'.lowLink x) (s'.lowLink d) ≤ s'.index v := by
    rw [hlowx, hstackIndex hv]
    exact (min_le_left _ _).trans hle
  have hvisiting : Visiting dependencies old root opened x s₀ s' :=
    { inv := h'.inv
      keeps := h.keeps.trans h'.keeps
      fresh := h.fresh
      index := hindexx.trans h.index
      unseen := fun v hv => h.unseen v (h'.unseen v hv) }
  refine hvisiting.scanning ?_ (fun d' hd' => ?_) (fun d' hd' hmem' => ?_) ?_ ?_ ?_
  · obtain ⟨above, hstack, habove⟩ := h.bounded
    refine ⟨above' ++ above, by rw [hstack', hstack, append_assoc], fun v hv d' hd' hmem' => ?_⟩
    rcases mem_append.mp hv with hv | hv
    · exact (min_le_right _ _).trans (habove' v hv d' hd' (h.mem_stack_of_mem hmem'))
    · exact hold (habove v hv d' hd' hmem') (h.mem_stack_of_mem hmem')
  · rcases mem_append.mp hd' with hd' | hd'
    · exact (h.seen d' hd').imp (h'.keeps.isEvaluated d') fun hne' => by
        rwa [h'.keeps.index d' hne']
    rw [mem_singleton.mp hd']
    have := h'.index
    have := h.inv.positive
    exact .inr (by omega)
  · rcases mem_append.mp hd' with hd' | hd'
    · exact hold (h.low d' hd' hmem') (h.mem_stack_of_mem hmem')
    · rw [mem_singleton.mp hd'] at hmem'
      exact absurd hindex ((h.inv.mem_stack d).mp (h.mem_stack_of_mem hmem')).1
  · rw [hlowx, hindexx]
    exact h.lowLink_le
  · rcases le_or_gt (s'.lowLink x) (s'.lowLink d) with hle | hlt
    · obtain ⟨y, hy, hlow, hreach⟩ := h.witness
      exact ⟨y, hkeep hy, by rw [min_eq_left hle, hlowx, hlow, hstackIndex hy], hreach⟩
    rw [min_eq_right hlt.le]
    rcases h'.low with hroot | ⟨y, hy, hlow, hreach⟩
    · -- A component that was evaluated has larger indices than `x`.
      have := h'.index
      have := h.inv.below x h.mem_stack_self
      have := h.lowLink_le
      omega
    · exact ⟨y, hkeep hy, hlow, .head ⟨hd, h.inv.old_eq_false hevaluated⟩ hreach⟩
  · rw [h.cycle, mem_append, mem_singleton, or_iff_left hne]

end

/-! ## The recursion

The invariant of a call holds again when the call returns, with the node closed or still on the
stack. -/

variable [Fintype V]

/-- The number of nodes that were not seen. -/
def unseenCount (s : State V) : ℕ := (Finset.univ.filter fun v => s.index v = 0).card

omit [DecidableEq V] in
theorem unseenCount_lt (h : Visiting dependencies old root opened x s₀ s) :
    unseenCount s < unseenCount s₀ := by
  refine Finset.card_lt_card (Finset.ssubset_iff_subset_ne.mpr ⟨fun v hv => ?_, fun heq => ?_⟩)
  · simp only [Finset.mem_filter, Finset.mem_univ, true_and] at hv ⊢
    exact (h.unseen v hv).1
  · have hx : x ∈ Finset.univ.filter fun v => s₀.index v = 0 := by simp [h.fresh]
    rw [← heq] at hx
    simp only [Finset.mem_filter, Finset.mem_univ, true_and] at hx
    exact (h.unseen x hx).2 rfl

/-- **What a call does**: on a new node that is reached from the open nodes, it returns. -/
def Connects (dependencies : V → List V) (old : V → Bool) (root : V) (fuel : ℕ)
    (connect : V → State V → Option (State V)) : Prop :=
  ∀ opened x s₀, Inv dependencies old root opened s₀ → s₀.index x = 0 → s₀.isEvaluated x = false →
    (∀ g ∈ opened, ReflTransGen (Dep dependencies old) g x) →
    ReflTransGen (Dep dependencies old) root x → unseenCount s₀ ≤ fuel →
    ∃ s, connect x s₀ = some s ∧ Returned dependencies old root opened x s₀ s

variable {fuel : ℕ} {connect : V → State V → Option (State V)}
  (hconnect : Connects dependencies old root fuel connect)
  (h₀ : Inv dependencies old root opened s₀)
  (h : Scanning dependencies old root opened x s₀ s done hasTrivialCycle)

include hconnect h₀ h

theorem considerDependency_spec (hd : d ∈ dependencies x) (hfuel : unseenCount s ≤ fuel) :
    ∃ hasTrivialCycle' s', considerDependency connect x hasTrivialCycle s d =
        some (hasTrivialCycle', s') ∧
      Scanning dependencies old root opened x s₀ s' (done ++ [d]) hasTrivialCycle' := by
  rw [considerDependency]
  by_cases hevaluated : s.isEvaluated d = true
  · rw [if_pos hevaluated]
    have hne : x ≠ d := fun heq =>
      absurd (h.not_evaluated.symm.trans (heq ▸ hevaluated)) (by decide)
    refine ⟨hasTrivialCycle, s, rfl, h.skip (.inl hevaluated) (fun hmem => ?_) (by simp [hne])⟩
    have hfalse := ((h.inv.mem_stack d).mp (h.mem_stack_of_mem hmem)).2
    exact absurd (hfalse.symm.trans hevaluated) (by decide)
  rw [if_neg hevaluated]
  have hfalse := Bool.eq_false_iff.mpr hevaluated
  by_cases hne : x = d
  · subst hne
    rw [if_pos rfl]
    refine ⟨true, s, rfl, h.skip (.inr ?_) (fun hmem => h.ne_of_mem hmem rfl) (by simp)⟩
    exact ((h.inv.mem_stack x).mp h.mem_stack_self).1
  rw [if_neg hne]
  by_cases hindex : s.index d = 0
  · rw [if_pos hindex]
    have hdep : Dep dependencies old x d := ⟨hd, h.inv.old_eq_false hfalse⟩
    have hreach {g : V} (hg : g ∈ insert x opened) :
        ReflTransGen (Dep dependencies old) g x := by
      rcases hg with rfl | hg
      · exact .refl
      · exact h.inv.down g (.inr hg) x h.mem_stack_self (h.index_lt (h₀.opened_mem g hg)).le
    obtain ⟨s', hs', hreturned⟩ := hconnect _ d s h.inv hindex hfalse
      (fun g hg => (hreach hg).tail hdep)
      ((h.inv.reached x (.inl h.mem_stack_self)).tail hdep) hfuel
    rw [hs']
    exact ⟨hasTrivialCycle, _, rfl, h.lower_returned hd hne hindex hfalse hreturned⟩
  · rw [if_neg hindex]
    exact ⟨hasTrivialCycle, _, rfl,
      h.lower_seen hd hne ((h.inv.mem_stack d).mpr ⟨hindex, hfalse⟩)⟩

theorem considerDependencies_spec {rest : List V} (hrest : done ++ rest = dependencies x)
    (hfuel : unseenCount s₀ ≤ fuel + 1) :
    ∃ hasTrivialCycle' s', considerDependencies connect x rest hasTrivialCycle s =
        some (hasTrivialCycle', s') ∧
      Scanning dependencies old root opened x s₀ s' (dependencies x) hasTrivialCycle' := by
  induction rest generalizing s done hasTrivialCycle with
  | nil =>
    rw [append_nil] at hrest
    exact ⟨hasTrivialCycle, s, rfl, hrest ▸ h⟩
  | cons d rest ih =>
    have hd : d ∈ dependencies x := hrest ▸ mem_append_right _ mem_cons_self
    have hlt := unseenCount_lt h.toVisiting
    obtain ⟨hasTrivialCycle', s', hconsider, h'⟩ :=
      considerDependency_spec hconnect h₀ h hd (by omega)
    rw [considerDependencies, hconsider]
    exact ih h' (by rw [← hrest, append_assoc, singleton_append])

omit hconnect h₀ h

/-- **The recursion**: with fuel for the nodes that were not seen, a call returns. -/
theorem strongConnect_spec (fuel : ℕ) :
    Connects dependencies old root fuel (strongConnect dependencies fuel) := by
  induction fuel with
  | zero =>
    intro opened x s₀ _ hindex _ _ _ hfuel
    have hempty := Finset.card_eq_zero.mp (Nat.le_zero.mp hfuel)
    have hx : x ∈ Finset.univ.filter fun v => s₀.index v = 0 := by simp [hindex]
    rw [hempty] at hx
    exact absurd hx (Finset.notMem_empty x)
  | succ fuel ih =>
    intro opened x s₀ h₀ hindex hevaluated hopened hroot hfuel
    obtain ⟨hasTrivialCycle, s, hconsider, h⟩ := considerDependencies_spec ih h₀
      (Scanning.start h₀ hindex hevaluated hopened hroot) (nil_append _) hfuel
    rw [strongConnect, hconsider]
    exact h.finish_spec h₀

/-- Nodes that are not evaluated were not seen. -/
def Quiet (s : State V) : Prop := ∀ v, s.isEvaluated v = false → s.index v = 0

omit [DecidableEq V] [Fintype V] in
/-- The state of a walk before its first call: no node is open. -/
theorem Quiet.inv (h : Quiet s) (root : V) : Inv dependencies s.isEvaluated root ∅
      { s with nextIndex := 1, stack := [], evaluations := [] } where
  evaluated v := by simp [evaluatedNodes]
  safe before e after heq := by simp at heq
  closed v hv := absurd hv not_mem_nil
  mem_stack v := by
    refine ⟨fun hv => absurd hv not_mem_nil, ?_⟩
    rintro ⟨hindex, hfalse⟩
    exact absurd (h v hfalse) hindex
  sorted := .nil
  below v hv := absurd hv not_mem_nil
  positive := Nat.one_pos
  opened_mem g hg := absurd hg (Set.notMem_empty g)
  finished v hv := absurd hv not_mem_nil
  up v hv := absurd hv not_mem_nil
  down g hg := absurd hg (Set.notMem_empty g)
  reached v hv := absurd hv (by simp [evaluatedNodes])

variable (dependencies) in
/-- **A walk returns**; what it evaluates are the nodes that the starting point reaches through
nodes that are not evaluated, and each evaluation is safe. -/
theorem walk_spec (h : Quiet s) (start : V) : ∃ s', walk dependencies start s = some s' ∧ Quiet s' ∧
      (∀ v, s'.isEvaluated v = true ↔ s.isEvaluated v = true ∨ v ∈ evaluatedNodes s'.evaluations) ∧
      SafeEvaluations dependencies s.isEvaluated s'.evaluations ∧
      (∀ v ∈ evaluatedNodes s'.evaluations, ∀ d ∈ dependencies v, s'.isEvaluated d = true) ∧
      ∀ v, v ∈ evaluatedNodes s'.evaluations ↔ s.isEvaluated start = false ∧
        ReflTransGen (Dep dependencies s.isEvaluated) start v := by
  have h₀ : Inv dependencies s.isEvaluated start ∅ _ := h.inv start
  by_cases hstart : s.isEvaluated start = true
  · refine ⟨_, if_pos hstart, h, h₀.evaluated, h₀.safe, h₀.closed, fun v => ?_⟩
    simp [evaluatedNodes, hstart]
  have hfalse := Bool.eq_false_iff.mpr hstart
  obtain ⟨s', hs', hreturned⟩ := strongConnect_spec (Fintype.card V) ∅ start _ h₀ (h start hfalse)
    hfalse (fun g hg => absurd hg (Set.notMem_empty g)) .refl (Finset.card_le_univ _)
  have hinv := hreturned.inv
  -- No node is open, so there is none on the stack.
  have hnot (v : V) : v ∉ s'.stack := fun hv => by
    obtain ⟨g, hg, -⟩ := hinv.up v hv
    exact Set.notMem_empty g hg
  have hquiet : Quiet s' := fun v hv => by
    by_contra hindex
    exact hnot v ((hinv.mem_stack v).mpr ⟨hindex, hv⟩)
  have hdone : start ∈ evaluatedNodes s'.evaluations := by
    have hindex : s'.index start ≠ 0 := (Nat.lt_of_lt_of_le Nat.one_pos hreturned.index).ne'
    have htrue : s'.isEvaluated start = true := by
      by_contra hne
      exact hindex (hquiet start (Bool.eq_false_iff.mpr hne))
    exact ((hinv.evaluated start).mp htrue).resolve_left hstart
  refine ⟨s', (if_neg hstart).trans hs', hquiet, hinv.evaluated, hinv.safe, hinv.closed,
    fun v => ⟨fun hv => ⟨hfalse, hinv.reached v (.inr hv)⟩, fun hv => ?_⟩⟩
  exact hinv.evaluated_of_reach hdone hv.2

/-! ## Several walks

What an earlier walk has evaluated is left alone by a later one. -/

/-- `v` is a dependency of `u`. -/
def Depends (dependencies : V → List V) (u v : V) : Prop := v ∈ dependencies u

/-- The dependencies of evaluated nodes are evaluated. -/
def Settled (dependencies : V → List V) (old : V → Bool) : Prop :=
  ∀ v, old v = true → ∀ d ∈ dependencies v, old d = true

section

variable {v : V}

omit [DecidableEq V] [Fintype V]

theorem Settled.reach (h : Settled dependencies old) {u : V} (hu : old u = true)
    (hreach : ReflTransGen (Depends dependencies) u v) : old v = true := by
  induction hreach with
  | refl => exact hu
  | tail _ hdep ih => exact h _ ih _ hdep

theorem Settled.reach_iff (h : Settled dependencies old) {u : V} (hv : old v = false) :
    ReflTransGen (Depends dependencies) u v ↔ ReflTransGen (Dep dependencies old) u v := by
  have hle : Dep dependencies old ≤ Depends dependencies := fun _ _ hdep => hdep.1
  refine ⟨fun hreach => ?_, ReflTransGen.mono hle u v⟩
  induction hreach using ReflTransGen.head_induction_on with
  | refl => exact .refl
  | head hdep hreach ih =>
    refine .head ⟨hdep, Bool.eq_false_iff.mpr fun hold => ?_⟩ ih
    exact absurd (hv.symm.trans (h.reach hold hreach)) (by decide)

theorem Settled.cycle (h : Settled dependencies old) (hv : old v = false)
    (hcycle : TransGen (Depends dependencies) v v) : TransGen (Dep dependencies old) v v := by
  obtain ⟨d, hdep, hreach⟩ := TransGen.head'_iff.mp hcycle
  refine TransGen.head'_iff.mpr
    ⟨d, ⟨hdep, Bool.eq_false_iff.mpr fun hold => ?_⟩, (h.reach_iff hv).mp hreach⟩
  exact absurd (hv.symm.trans (h.reach hold hreach)) (by decide)

theorem SafeEvaluations.nodup {evaluations : List (Evaluation V)}
    (h : SafeEvaluations dependencies old evaluations) : (evaluatedNodes evaluations).Nodup := by
  induction evaluations using List.reverseRecOn with
  | nil => exact nodup_nil
  | append_singleton evaluations e ih =>
    have hbefore : SafeEvaluations dependencies old evaluations := fun before e' after heq =>
      h before e' (after ++ [e]) (by rw [heq, append_assoc, cons_append])
    have hlast := h evaluations e [] rfl
    rw [evaluatedNodes, flatMap_append, flatMap_singleton]
    exact nodup_append.mpr ⟨ih hbefore, hlast.nodup,
      fun u hu v hv heq => (hlast.fresh v hv).2 (heq ▸ hu)⟩

end

/-- **A safe walk**: it evaluates once each node that the starting point reaches through nodes that
are not evaluated.  A list is a strongly connected component and a single node is on no cycle; other
dependencies are evaluated before. -/
structure SafeWalk (dependencies : V → List V) (old : V → Bool) (start : V)
    (evaluations : List (Evaluation V)) : Prop where
  once : (evaluatedNodes evaluations).Nodup
  complete : ∀ v, v ∈ evaluatedNodes evaluations ↔
    old start = false ∧ ReflTransGen (Dep dependencies old) start v
  component : ∀ scc, .evaluateScc scc ∈ evaluations → scc ≠ [] ∧ ∀ v ∈ scc, ∀ w, w ∈ scc ↔
    ReflTransGen (Depends dependencies) v w ∧ ReflTransGen (Depends dependencies) w v
  acyclic : ∀ v, .evaluate v ∈ evaluations → ¬TransGen (Depends dependencies) v v
  order : ∀ before e after, evaluations = before ++ e :: after → ∀ v ∈ e.nodes,
    ∀ d ∈ dependencies v, d ∉ e.nodes → old d = true ∨ d ∈ evaluatedNodes before

/-- A walk after which the graph is settled again. -/
theorem walk_safe (hquiet : Quiet s) (hsettled : Settled dependencies s.isEvaluated) (start : V) :
    ∃ s', walk dependencies start s = some s' ∧ Quiet s' ∧ Settled dependencies s'.isEvaluated ∧
      SafeWalk dependencies s.isEvaluated start s'.evaluations ∧
      ∀ v, s'.isEvaluated v = true ↔
        s.isEvaluated v = true ∨ v ∈ evaluatedNodes s'.evaluations := by
  obtain ⟨s', hwalk, hquiet', hevaluated, hsafe, hclosed, hcomplete⟩ :=
    walk_spec dependencies hquiet start
  refine ⟨s', hwalk, hquiet', fun v hv d hd => ?_,
    { once := hsafe.nodup
      complete := hcomplete
      component := fun scc hscc => ?_
      acyclic := fun v hv hcycle => ?_
      order := fun before e after heq v hv d hd hnot => ?_ }, hevaluated⟩
  · rcases (hevaluated v).mp hv with hv | hv
    · exact (hevaluated d).mpr (.inl (hsettled v hv d hd))
    · exact hclosed v hv d hd
  · obtain ⟨before, after, heq⟩ := append_of_mem hscc
    have he := hsafe before _ after heq
    obtain ⟨hne, hcomponent⟩ := he.component scc rfl
    refine ⟨hne, fun v hv w => ?_⟩
    have hold : s.isEvaluated v = false := (he.fresh v hv).1
    rw [hcomponent v hv w, hsettled.reach_iff hold]
    refine and_congr_left fun hreach => ?_
    by_cases hw : s.isEvaluated w = true
    · -- An evaluated node does not reach `v`.
      have hback := hsettled.reach hw ((hsettled.reach_iff hold).mpr hreach)
      exact absurd (hold.symm.trans hback) (by decide)
    · rw [hsettled.reach_iff (Bool.eq_false_iff.mpr hw)]
  · obtain ⟨before, after, heq⟩ := append_of_mem hv
    have he := hsafe before _ after heq
    exact he.acyclic v rfl (hsettled.cycle (he.fresh v (mem_singleton_self v)).1 hcycle)
  · exact ((hsafe before e after heq).order v hv d hd).resolve_left hnot

theorem walks_spec (hquiet : Quiet s) (hsettled : Settled dependencies s.isEvaluated)
    (starts : List V) : ∃ s', walks dependencies starts s = some s' ∧ Quiet s' ∧
      Settled dependencies s'.isEvaluated := by
  induction starts generalizing s with
  | nil => exact ⟨s, rfl, hquiet, hsettled⟩
  | cons start starts ih =>
    obtain ⟨s1, hwalk, hquiet1, hsettled1, -⟩ := walk_safe hquiet hsettled start
    obtain ⟨s', hwalks, h⟩ := ih hquiet1 hsettled1
    exact ⟨s', by rw [walks, hwalk, Option.bind_some, hwalks], h⟩

/-- **Walks are safe**: after any earlier walks on the graph, a walk returns, evaluates what it
should in a safe order, and nothing else. -/
theorem walks_safe (dependencies : V → List V) (earlier : List V) (start : V) :
    ∃ s s', walks dependencies earlier State.new = some s ∧ walk dependencies start s = some s' ∧
      SafeWalk dependencies s.isEvaluated start s'.evaluations ∧
      ∀ v, s'.isEvaluated v = true ↔
        s.isEvaluated v = true ∨ v ∈ evaluatedNodes s'.evaluations := by
  have hquiet : Quiet (State.new : State V) := fun _ _ => rfl
  have hsettled : Settled dependencies (State.new : State V).isEvaluated :=
    fun v hv => absurd hv (by simp [State.new])
  obtain ⟨s, hwalks, hquiet, hsettled⟩ := walks_spec hquiet hsettled earlier
  obtain ⟨s', hwalk, -, -, hsafe, hevaluated⟩ := walk_safe hquiet hsettled start
  exact ⟨s, s', hwalks, hwalk, hsafe, hevaluated⟩

end DependencyWalker
