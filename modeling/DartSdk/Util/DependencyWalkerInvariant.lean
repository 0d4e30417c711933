import DartSdk.Util.DependencyWalker

/-!
# Util/DependencyWalkerInvariant — what holds while a walk is under way

The nodes whose call of `strongConnect` has not returned are *open*.  A node on the stack that is
not open is finished.

* The open nodes reach all nodes above them on the stack, and each node on the stack reaches an open
  node below it (`down`, `up`).  So the nodes above an open node and the node itself reach each
  other.
* The dependencies of a finished node have been seen, those of an evaluated node are evaluated.
* The low link of a node is not above any node further down that a node above it depends on.  If the
  low link is the index of the node, there is no such dependency, and the nodes down to it on the
  stack are a component.

Nodes that were evaluated before the walk are taken out of the graph (`Dep`): the walk does not look
at them.
-/

namespace DependencyWalker

open Function List State Relation

variable {V : Type} {x : V}

/-- `v` is a dependency of `u` that was not evaluated before the walk. -/
def Dep (dependencies : V → List V) (old : V → Bool) (u v : V) : Prop :=
  v ∈ dependencies u ∧ old v = false

/-- The nodes that were evaluated by a list of calls. -/
def evaluatedNodes (evaluations : List (Evaluation V)) : List V :=
  evaluations.flatMap Evaluation.nodes

/-- **A safe evaluation**, after some others: each of its nodes is new, and the other dependencies
of the nodes are evaluated.  A single node is on no cycle, and a list is a component. -/
structure SafeEvaluation (dependencies : V → List V) (old : V → Bool)
    (before : List (Evaluation V)) (e : Evaluation V) : Prop where
  nodup : e.nodes.Nodup
  fresh : ∀ v ∈ e.nodes, old v = false ∧ v ∉ evaluatedNodes before
  order : ∀ v ∈ e.nodes, ∀ d ∈ dependencies v,
    d ∈ e.nodes ∨ old d = true ∨ d ∈ evaluatedNodes before
  acyclic : ∀ v, e = .evaluate v → ¬TransGen (Dep dependencies old) v v
  component : ∀ scc, e = .evaluateScc scc → scc ≠ [] ∧ ∀ v ∈ scc, ∀ w,
    w ∈ scc ↔ ReflTransGen (Dep dependencies old) v w ∧ ReflTransGen (Dep dependencies old) w v

/-- All evaluations were safe. -/
def SafeEvaluations (dependencies : V → List V) (old : V → Bool)
    (evaluations : List (Evaluation V)) : Prop :=
  ∀ before e after, evaluations = before ++ e :: after → SafeEvaluation dependencies old before e

theorem SafeEvaluations.snoc {evaluations : List (Evaluation V)} {e : Evaluation V}
    (h : SafeEvaluations dependencies old evaluations)
    (he : SafeEvaluation dependencies old evaluations e) :
    SafeEvaluations dependencies old (evaluations ++ [e]) := by
  intro before e' after heq
  rcases eq_nil_or_concat after with rfl | ⟨after, last, rfl⟩
  · obtain ⟨rfl, hlast⟩ := append_inj' heq rfl
    obtain rfl := singleton_inj.mp hlast
    exact he
  · rw [concat_eq_append, ← cons_append, ← append_assoc] at heq
    exact h before e' after (append_inj' heq rfl).1

/-- **The state of a walk** from `root`, with the open nodes. -/
structure Inv (dependencies : V → List V) (old : V → Bool) (root : V) (opened : Set V)
    (s : State V) : Prop where
  evaluated : ∀ v, s.isEvaluated v = true ↔ old v = true ∨ v ∈ evaluatedNodes s.evaluations
  safe : SafeEvaluations dependencies old s.evaluations
  closed : ∀ v ∈ evaluatedNodes s.evaluations, ∀ d ∈ dependencies v, s.isEvaluated d = true
  mem_stack : ∀ v, v ∈ s.stack ↔ s.index v ≠ 0 ∧ s.isEvaluated v = false
  sorted : s.stack.Pairwise fun u v => s.index v < s.index u
  below : ∀ v ∈ s.stack, s.index v < s.nextIndex
  positive : 0 < s.nextIndex
  opened_mem : ∀ g ∈ opened, g ∈ s.stack
  finished : ∀ v ∈ s.stack, v ∉ opened → ∀ d ∈ dependencies v,
    s.isEvaluated d = true ∨ s.index d ≠ 0
  up : ∀ v ∈ s.stack, ∃ g ∈ opened, s.index g ≤ s.index v ∧ ReflTransGen (Dep dependencies old) v g
  down : ∀ g ∈ opened, ∀ v ∈ s.stack, s.index g ≤ s.index v →
    ReflTransGen (Dep dependencies old) g v
  reached : ∀ v, v ∈ s.stack ∨ v ∈ evaluatedNodes s.evaluations →
    ReflTransGen (Dep dependencies old) root v

variable {dependencies : V → List V} {old : V → Bool} {root : V} {opened : Set V}
  {s s' : State V}

namespace Inv

variable (h : Inv dependencies old root opened s)

include h

theorem nodup : s.stack.Nodup :=
  h.sorted.imp fun hlt heq => absurd (heq ▸ hlt) (Nat.lt_irrefl _)

theorem old_eq_false {v : V} (hv : s.isEvaluated v = false) : old v = false := by
  by_contra hold
  rw [(h.evaluated v).mpr (.inl (by simpa using hold))] at hv
  exact absurd hv (by decide)

variable [DecidableEq V]

/-- Low links are not part of the invariant. -/
theorem lower (node : V) (l : ℕ) : Inv dependencies old root opened (s.lower node l) := by
  rw [State.lower]
  split
  · exact { h with }
  · exact h

/-- A new node is opened. -/
theorem visit {x : V} (hindex : s.index x = 0) (hx : s.isEvaluated x = false)
    (hopened : ∀ g ∈ opened, ReflTransGen (Dep dependencies old) g x)
    (hroot : ReflTransGen (Dep dependencies old) root x) :
    Inv dependencies old root (insert x opened) (s.visit x) := by
  have hnot : x ∉ s.stack := fun hmem => ((h.mem_stack x).mp hmem).1 hindex
  have hne {v : V} (hv : v ∈ s.stack) : v ≠ x := fun heq => hnot (heq ▸ hv)
  have hold {v : V} (hv : v ∈ s.stack) : (s.visit x).index v = s.index v :=
    update_of_ne (hne hv) _ _
  have hnew : (s.visit x).index x = s.nextIndex := update_self _ _ _
  refine
    { evaluated := h.evaluated
      safe := h.safe
      closed := h.closed
      mem_stack := fun v => ?_
      sorted := pairwise_cons.mpr ⟨fun v hv => ?_, h.sorted.imp_of_mem fun hu hv hlt => ?_⟩
      below := fun v hv => ?_
      positive := Nat.succ_pos _
      opened_mem := fun g hg => ?_
      finished := fun v hv hopen d hd => ?_
      up := fun v hv => ?_
      down := fun g hg v hv hle => ?_
      reached := fun v hv => ?_ }
  · change v ∈ x :: s.stack ↔ Function.update s.index x s.nextIndex v ≠ 0 ∧ s.isEvaluated v = false
    by_cases heq : v = x
    · subst heq
      rw [update_self]
      exact ⟨fun _ => ⟨h.positive.ne', hx⟩, fun _ => mem_cons_self⟩
    · rw [update_of_ne heq, ← h.mem_stack]
      exact ⟨fun hmem => (mem_cons.mp hmem).resolve_left heq, mem_cons_of_mem _⟩
  · rw [hold hv, hnew]
    exact h.below v hv
  · rwa [hold hu, hold hv]
  · rcases mem_cons.mp hv with rfl | hv
    · rw [hnew]
      exact Nat.lt_succ_self _
    · rw [hold hv]
      exact Nat.lt_succ_of_lt (h.below v hv)
  · rcases hg with rfl | hg
    · exact mem_cons_self
    · exact mem_cons_of_mem _ (h.opened_mem g hg)
  · have hvx : v ≠ x := fun heq => hopen (.inl heq)
    have hv := (mem_cons.mp hv).resolve_left hvx
    refine (h.finished v hv (fun hg => hopen (.inr hg)) d hd).imp_right fun hd => ?_
    change Function.update s.index x s.nextIndex d ≠ 0
    by_cases heq : d = x
    · subst heq
      rw [update_self]
      exact h.positive.ne'
    · rwa [update_of_ne heq]
  · rcases mem_cons.mp hv with rfl | hv
    · exact ⟨v, .inl rfl, Nat.le_refl _, .refl⟩
    · obtain ⟨g, hg, hle, hreach⟩ := h.up v hv
      refine ⟨g, .inr hg, ?_, hreach⟩
      rwa [hold hv, hold (h.opened_mem g hg)]
  · rcases hg with rfl | hg
    · rcases mem_cons.mp hv with rfl | hv
      · exact .refl
      · rw [hnew, hold hv] at hle
        exact absurd (h.below v hv) (Nat.not_lt.mpr hle)
    · rcases mem_cons.mp hv with rfl | hv
      · exact hopened g hg
      · rw [hold hv, hold (h.opened_mem g hg)] at hle
        exact h.down g hg v hv hle
  · rcases hv with hv | hv
    · rcases mem_cons.mp hv with rfl | hv
      · exact hroot
      · exact h.reached v (.inl hv)
    · exact h.reached v (.inr hv)

end Inv

/-! ## Scanning the dependencies of a node

While dependencies are scanned, the low link is the least index that is reached from what has been
scanned. -/

section

variable [DecidableEq V] (s : State V) (x : V) (l : ℕ)

@[simp] theorem index_lower : (s.lower x l).index = s.index := by
  rw [lower]; split <;> rfl

@[simp] theorem isEvaluated_lower : (s.lower x l).isEvaluated = s.isEvaluated := by
  rw [lower]; split <;> rfl

@[simp] theorem stack_lower : (s.lower x l).stack = s.stack := by
  rw [lower]; split <;> rfl

theorem lowLink_lower : (s.lower x l).lowLink x = min (s.lowLink x) l := by
  rw [lower]
  split
  · next h => exact (update_self _ _ _).trans (min_eq_right h.le).symm
  · next h => exact (min_eq_left (not_lt.mp h)).symm

theorem lowLink_lower_of_ne {v : V} (h : v ≠ x) : (s.lower x l).lowLink v = s.lowLink v := by
  rw [lower]
  split
  · exact update_of_ne h _ _
  · rfl

end

/-- A call that has started in `s₀` leaves what was seen before alone. -/
structure Keeps (s₀ s : State V) : Prop where
  index : ∀ v, s₀.index v ≠ 0 → s.index v = s₀.index v
  lowLink : ∀ v, s₀.index v ≠ 0 → s.lowLink v = s₀.lowLink v
  isEvaluated : ∀ v, s₀.isEvaluated v = true → s.isEvaluated v = true

theorem Keeps.trans {s₀ s s' : State V} (h : Keeps s₀ s) (h' : Keeps s s') : Keeps s₀ s' where
  index v hv := (h'.index v (h.index v hv ▸ hv)).trans (h.index v hv)
  lowLink v hv := (h'.lowLink v (h.index v hv ▸ hv)).trans (h.lowLink v hv)
  isEvaluated v hv := h'.isEvaluated v (h.isEvaluated v hv)

/-- The call of `x`, which has started in `s₀`, is under way. -/
structure Visiting (dependencies : V → List V) (old : V → Bool) (root : V) (opened : Set V) (x : V)
    (s₀ s : State V) : Prop where
  inv : Inv dependencies old root (insert x opened) s
  keeps : Keeps s₀ s
  fresh : s₀.index x = 0
  index : s.index x = s₀.nextIndex
  unseen : ∀ v, s.index v = 0 → s₀.index v = 0 ∧ v ≠ x

/-- The nodes above `x` on the stack depend on nothing further down than `low`. -/
def Bounded (dependencies : V → List V) (x : V) (s₀ s : State V) (low : ℕ) : Prop :=
  ∃ above, s.stack = above ++ x :: s₀.stack ∧
    ∀ v ∈ above, ∀ d ∈ dependencies v, d ∈ s₀.stack → low ≤ s.index d

/-- **Some dependencies of `x` are done**: the low link is not above those of them on the stack, and
it is the index of a node that `x` reaches. -/
structure Scanning (dependencies : V → List V) (old : V → Bool) (root : V) (opened : Set V) (x : V)
    (s₀ s : State V) (done : List V) (hasTrivialCycle : Bool) : Prop extends
    Visiting dependencies old root opened x s₀ s where
  bounded : Bounded dependencies x s₀ s (s.lowLink x)
  seen : ∀ d ∈ done, s.isEvaluated d = true ∨ s.index d ≠ 0
  low : ∀ d ∈ done, d ∈ s₀.stack → s.lowLink x ≤ s.index d
  lowLink_le : s.lowLink x ≤ s.index x
  witness : ∃ y ∈ s.stack, s.lowLink x = s.index y ∧ ReflTransGen (Dep dependencies old) x y
  cycle : hasTrivialCycle = true ↔ x ∈ done

/-- **The call of `x` has returned**; it has started in `s₀`. -/
structure Returned (dependencies : V → List V) (old : V → Bool) (root : V) (opened : Set V) (x : V)
    (s₀ s : State V) : Prop where
  inv : Inv dependencies old root opened s
  keeps : Keeps s₀ s
  index : s₀.nextIndex ≤ s.index x
  unseen : ∀ v, s.index v = 0 → s₀.index v = 0
  stack : ∃ above, s.stack = above ++ s₀.stack ∧
    ∀ v ∈ above, ∀ d ∈ dependencies v, d ∈ s₀.stack → s.lowLink x ≤ s.index d
  low : s.lowLink x = s.index x ∨
    ∃ y ∈ s₀.stack, s.lowLink x = s.index y ∧ ReflTransGen (Dep dependencies old) x y

theorem Bounded.mono {s₀ : State V} {low low' : ℕ} (h : Bounded dependencies x s₀ s low)
    (hle : low' ≤ low) : Bounded dependencies x s₀ s low' := by
  obtain ⟨above, hstack, habove⟩ := h
  exact ⟨above, hstack, fun v hv d hd hmem => hle.trans (habove v hv d hd hmem)⟩

namespace Visiting

variable {x : V} {s₀ : State V} (h : Visiting dependencies old root opened x s₀ s)

include h

theorem mem_stack_self : x ∈ s.stack :=
  h.inv.opened_mem x (.inl rfl)

theorem not_evaluated : s.isEvaluated x = false :=
  ((h.inv.mem_stack x).mp h.mem_stack_self).2

/-- The low link of `x` is lowered. -/
theorem lower [DecidableEq V] (l : ℕ) :
    Visiting dependencies old root opened x s₀ (s.lower x l) where
  inv := h.inv.lower x l
  keeps :=
    { index := fun v hv => by rw [index_lower, h.keeps.index v hv]
      lowLink := fun v hv => by
        rw [lowLink_lower_of_ne, h.keeps.lowLink v hv]
        rintro rfl
        exact hv h.fresh
      isEvaluated := fun v hv => by rw [isEvaluated_lower, h.keeps.isEvaluated v hv] }
  fresh := h.fresh
  index := by rw [index_lower, h.index]
  unseen v hv := h.unseen v (by rwa [index_lower] at hv)

/-- A dependency has been considered, and the low link lowered. -/
theorem scanning [DecidableEq V] {l : ℕ} {done : List V} {hasTrivialCycle : Bool}
    (hbounded : Bounded dependencies x s₀ s (min (s.lowLink x) l))
    (hseen : ∀ d ∈ done, s.isEvaluated d = true ∨ s.index d ≠ 0)
    (hlow : ∀ d ∈ done, d ∈ s₀.stack → min (s.lowLink x) l ≤ s.index d)
    (hle : s.lowLink x ≤ s.index x) (hwitness : ∃ y ∈ s.stack, min (s.lowLink x) l = s.index y ∧
      ReflTransGen (Dep dependencies old) x y) (hcycle : hasTrivialCycle = true ↔ x ∈ done) :
    Scanning dependencies old root opened x s₀ (s.lower x l) done hasTrivialCycle := by
  have hlowered := lowLink_lower s x l
  refine { h.lower l with
    bounded := ?_
    seen := ?_
    low := ?_
    lowLink_le := ?_
    witness := ?_
    cycle := hcycle }
  · obtain ⟨above, hstack, habove⟩ := hbounded
    refine ⟨above, by rw [stack_lower, hstack], ?_⟩
    rwa [hlowered, index_lower]
  · rwa [isEvaluated_lower, index_lower]
  · rwa [hlowered, index_lower]
  · rw [hlowered, index_lower]
    exact (min_le_left _ _).trans hle
  · rwa [hlowered, stack_lower, index_lower]

end Visiting

namespace Scanning

variable {x : V} {s₀ : State V} {done : List V} {hasTrivialCycle : Bool} {v : V}

/-- The call has visited the node. -/
theorem start [DecidableEq V] (h₀ : Inv dependencies old root opened s₀)
    (hindex : s₀.index x = 0) (hx : s₀.isEvaluated x = false)
    (hopened : ∀ g ∈ opened, ReflTransGen (Dep dependencies old) g x)
    (hroot : ReflTransGen (Dep dependencies old) root x) :
    Scanning dependencies old root opened x s₀ (s₀.visit x) [] false := by
  have hne {v : V} (hv : s₀.index v ≠ 0) : v ≠ x := fun heq => hv (heq ▸ hindex)
  have hnew : (s₀.visit x).index x = s₀.nextIndex := update_self _ _ _
  have hlow : (s₀.visit x).lowLink x = s₀.nextIndex := update_self _ _ _
  refine
    { inv := h₀.visit hindex hx hopened hroot
      keeps := ⟨fun v hv => update_of_ne (hne hv) _ _,
        fun v hv => update_of_ne (hne hv) _ _, fun v hv => hv⟩
      fresh := hindex
      index := hnew
      unseen := fun v hv => ?_
      bounded := ⟨[], rfl, fun v hv => absurd hv not_mem_nil⟩
      seen := fun d hd => absurd hd not_mem_nil
      low := fun d hd => absurd hd not_mem_nil
      lowLink_le := by rw [hnew, hlow]
      witness := ⟨x, mem_cons_self, by rw [hnew, hlow], .refl⟩
      cycle := by simp }
  have hvx : v ≠ x := by
    rintro rfl
    rw [hnew] at hv
    exact h₀.positive.ne' hv
  exact ⟨(update_of_ne hvx _ _).symm.trans hv, hvx⟩

variable (h : Scanning dependencies old root opened x s₀ s done hasTrivialCycle)

include h

theorem mem_stack_of_mem (hv : v ∈ s₀.stack) : v ∈ s.stack := by
  obtain ⟨above, hstack, -⟩ := h.bounded
  rw [hstack]
  exact mem_append_right _ (mem_cons_of_mem _ hv)

/-- The nodes that were on the stack before have smaller indices. -/
theorem index_lt (hv : v ∈ s₀.stack) : s.index v < s.index x := by
  obtain ⟨above, hstack, -⟩ := h.bounded
  have hsorted := h.inv.sorted
  rw [hstack, pairwise_append] at hsorted
  exact (pairwise_cons.mp hsorted.2.1).1 v hv

theorem ne_of_mem (hv : v ∈ s₀.stack) : v ≠ x :=
  fun heq => Nat.lt_irrefl _ (heq ▸ h.index_lt hv)

/-- A dependency that needs no change. -/
theorem skip {d : V} {hasTrivialCycle' : Bool}
    (hseen : s.isEvaluated d = true ∨ s.index d ≠ 0) (hd : d ∉ s₀.stack)
    (hcycle : hasTrivialCycle' = true ↔ hasTrivialCycle = true ∨ x = d) :
    Scanning dependencies old root opened x s₀ s (done ++ [d]) hasTrivialCycle' := by
  refine { h with
    seen := fun d' hd' => ?_
    low := fun d' hd' hmem => ?_
    cycle := by rw [hcycle, h.cycle, mem_append, mem_singleton] }
  · rcases mem_append.mp hd' with hd' | hd'
    · exact h.seen d' hd'
    · rwa [mem_singleton.mp hd']
  · rcases mem_append.mp hd' with hd' | hd'
    · exact h.low d' hd' hmem
    · exact absurd (mem_singleton.mp hd' ▸ hmem) hd

end Scanning

/-! ## Closing a node

If the low link is the index of the node, what is above it on the stack is its component. -/

/-- The node stays on the stack: it reaches a node further down, and so an open one. -/
theorem Inv.close (h : Inv dependencies old root (insert x opened) s)
    (hseen : ∀ d ∈ dependencies x, s.isEvaluated d = true ∨ s.index d ≠ 0)
    (hlow : ∃ y ∈ s.stack, s.index y < s.index x ∧ ReflTransGen (Dep dependencies old) x y) :
    Inv dependencies old root opened s := by
  refine { h with
    opened_mem := fun g hg => h.opened_mem g (.inr hg)
    finished := fun v hv hopen => ?_
    up := fun v hv => ?_
    down := fun g hg => h.down g (.inr hg) }
  · by_cases hvx : v = x
    · exact hvx ▸ hseen
    · exact h.finished v hv fun hmem => hmem.elim hvx hopen
  obtain ⟨g, hg, hle, hreach⟩ := h.up v hv
  rcases hg with rfl | hg
  · obtain ⟨y, hy, hlt, hreach'⟩ := hlow
    obtain ⟨g', hg', hle', hreach''⟩ := h.up y hy
    have hne : g' ≠ g := fun heq => by
      rw [heq] at hle'
      omega
    exact ⟨g', hg'.resolve_left hne, by omega, (hreach.trans hreach').trans hreach''⟩
  · exact ⟨g, hg, hle, hreach⟩

section

variable {x : V} {above rest : List V} {v : V}

/-- Dependencies of evaluated nodes are evaluated. -/
theorem Inv.evaluated_of_reach (h : Inv dependencies old root opened s) {u : V}
    (hu : u ∈ evaluatedNodes s.evaluations) (hreach : ReflTransGen (Dep dependencies old) u v) :
    v ∈ evaluatedNodes s.evaluations := by
  induction hreach with
  | refl => exact hu
  | tail _ hdep ih =>
    refine ((h.evaluated _).mp (h.closed _ ih _ hdep.1)).resolve_left fun hold => ?_
    rw [hdep.2] at hold
    exact absurd hold (by decide)

theorem Inv.not_evaluated_of_mem_stack (h : Inv dependencies old root opened s)
    (hv : v ∈ s.stack) : v ∉ evaluatedNodes s.evaluations := by
  intro hmem
  have hfalse := ((h.mem_stack v).mp hv).2
  rw [(h.evaluated v).mpr (.inr hmem)] at hfalse
  exact absurd hfalse (by decide)

variable (h : Inv dependencies old root (insert x opened) s)
  (hstack : s.stack = above ++ x :: rest) (hopened : ∀ g ∈ opened, g ∈ rest)

include h hstack hopened

/-- **The nodes down to an open node** reach it and are reached from it. -/
theorem Inv.mutual (hv : v ∈ above ++ [x]) :
    ReflTransGen (Dep dependencies old) x v ∧ ReflTransGen (Dep dependencies old) v x := by
  have hsorted := h.sorted
  rw [hstack, pairwise_append] at hsorted
  obtain ⟨-, hrest, habove⟩ := hsorted
  have hx : x ∈ s.stack := h.opened_mem x (.inl rfl)
  have hmem : v ∈ s.stack := by
    rw [hstack]
    rcases mem_append.mp hv with hv | hv
    · exact mem_append_left _ hv
    · exact mem_append_right _ (mem_singleton.mp hv ▸ mem_cons_self)
  have hle : s.index x ≤ s.index v := by
    rcases mem_append.mp hv with hv | hv
    · exact (habove v hv x mem_cons_self).le
    · rw [mem_singleton.mp hv]
  refine ⟨h.down x (.inl rfl) v hmem hle, ?_⟩
  obtain ⟨g, hg, -, hreach⟩ := h.up v hmem
  rcases hg with rfl | hg
  · exact hreach
  · refine hreach.trans (h.down g (.inr hg) x hx ?_)
    exact ((pairwise_cons.mp hrest).1 g (hopened g hg)).le

variable
  (hclosed : ∀ v ∈ above ++ [x], ∀ d ∈ dependencies v, s.isEvaluated d = true ∨ d ∈ above ++ [x])

include hclosed

/-- **A component**: the nodes down to `x`, if their other dependencies are evaluated. -/
theorem Inv.component (hv : v ∈ above ++ [x]) (w : V) : w ∈ above ++ [x] ↔
      ReflTransGen (Dep dependencies old) v w ∧ ReflTransGen (Dep dependencies old) w v := by
  constructor
  · intro hw
    have hreachv := h.mutual hstack hopened hv
    have hreachw := h.mutual hstack hopened hw
    exact ⟨hreachv.2.trans hreachw.1, hreachw.2.trans hreachv.1⟩
  · rintro ⟨hvw, hwv⟩
    -- What the component reaches is in it, or was evaluated before.
    have hreach : w ∈ above ++ [x] ∨ w ∈ evaluatedNodes s.evaluations := by
      clear hwv
      induction hvw with
      | refl => exact .inl hv
      | @tail b c _ hdep ih =>
        rcases ih with hb | hb
        · refine (hclosed b hb c hdep.1).symm.imp_right fun hevaluated => ?_
          refine ((h.evaluated c).mp hevaluated).resolve_left fun hold => ?_
          rw [hdep.2] at hold
          exact absurd hold (by decide)
        · exact .inr (h.evaluated_of_reach hb (.single hdep))
    refine hreach.resolve_right fun hevaluated => ?_
    refine h.not_evaluated_of_mem_stack ?_ (h.evaluated_of_reach hevaluated hwv)
    rw [hstack, append_cons]
    exact mem_append_left _ hv

/-- The component is popped and evaluated. -/
theorem Inv.pop [DecidableEq V] {e : Evaluation V} (hnodes : e.nodes = above ++ [x])
    (hacyclic : ∀ v, e = .evaluate v → ¬TransGen (Dep dependencies old) v v) :
    Inv dependencies old root opened (call { s with stack := rest } e) := by
  have hstack' : s.stack = (above ++ [x]) ++ rest := by rw [hstack, append_cons]
  have hmem {v : V} (hv : v ∈ above ++ [x]) : v ∈ s.stack := hstack' ▸ mem_append_left _ hv
  have hmem' {v : V} (hv : v ∈ rest) : v ∈ s.stack := hstack' ▸ mem_append_right _ hv
  obtain ⟨hnodup, -, hdisjoint⟩ := nodup_append.mp (hstack' ▸ h.nodup)
  have hevaluated (v : V) : (call { s with stack := rest } e).isEvaluated v = true ↔
      s.isEvaluated v = true ∨ v ∈ above ++ [x] := by
    rw [← hnodes]
    simp [call]
  have hall : evaluatedNodes (s.evaluations ++ [e]) =
      evaluatedNodes s.evaluations ++ (above ++ [x]) := by
    rw [evaluatedNodes, flatMap_append, flatMap_singleton, hnodes]
    rfl
  refine
    { evaluated := fun v => ?_
      safe := h.safe.snoc
        { nodup := hnodes ▸ hnodup
          fresh := fun v hv => ?_
          order := fun v hv d hd => ?_
          acyclic := hacyclic
          component := ?_ }
      closed := fun v hv d hd => ?_
      mem_stack := fun v => ?_
      sorted := (pairwise_append.mp (hstack' ▸ h.sorted)).2.1
      below := fun v hv => h.below v (hmem' hv)
      positive := h.positive
      opened_mem := hopened
      finished := fun v hv hopen d hd => ?_
      up := fun v hv => ?_
      down := fun g hg v hv => h.down g (.inr hg) v (hmem' hv)
      reached := fun v hv => ?_ }
  · rw [hevaluated, h.evaluated]
    change _ ↔ old v = true ∨ v ∈ evaluatedNodes (s.evaluations ++ [e])
    simp [hall, mem_append, or_assoc]
  · rw [hnodes] at hv
    exact ⟨h.old_eq_false ((h.mem_stack v).mp (hmem hv)).2, h.not_evaluated_of_mem_stack (hmem hv)⟩
  · rw [hnodes] at hv ⊢
    rw [← h.evaluated]
    exact (hclosed v hv d hd).symm
  · rintro scc rfl
    obtain rfl : scc = above ++ [x] := hnodes
    exact ⟨by simp, fun v hv => h.component hstack hopened hclosed hv⟩
  · rw [hevaluated]
    change v ∈ evaluatedNodes (s.evaluations ++ [e]) at hv
    rw [hall] at hv
    rcases mem_append.mp hv with hv | hv
    · exact .inl (h.closed v hv d hd)
    · exact hclosed v hv d hd
  · constructor
    · intro hv
      obtain ⟨hindex, hfalse⟩ := (h.mem_stack v).mp (hmem' hv)
      refine ⟨hindex, Bool.eq_false_iff.mpr fun htrue => ?_⟩
      rcases (hevaluated v).mp htrue with htrue | hpopped
      · exact absurd (hfalse.symm.trans htrue) (by decide)
      · exact hdisjoint v hpopped v hv rfl
    · rintro ⟨hindex, hfalse⟩
      have hnot := mt (hevaluated v).mpr (Bool.eq_false_iff.mp hfalse)
      rw [not_or, Bool.not_eq_true] at hnot
      have hv := (h.mem_stack v).mpr ⟨hindex, hnot.1⟩
      rw [hstack'] at hv
      exact (mem_append.mp hv).resolve_left hnot.2
  · have hvx : v ≠ x := fun heq => hdisjoint x (by simp) v hv heq.symm
    rw [hevaluated]
    exact (h.finished v (hmem' hv) (fun hmem => hmem.elim hvx hopen) d hd).imp_left .inl
  · obtain ⟨g, hg, hle, hreach⟩ := h.up v (hmem' hv)
    refine ⟨g, hg.resolve_left ?_, hle, hreach⟩
    rintro rfl
    have hsorted := (pairwise_append.mp (hstack ▸ h.sorted)).2.1
    exact absurd ((pairwise_cons.mp hsorted).1 v hv) (Nat.not_lt.mpr hle)
  · change v ∈ rest ∨ v ∈ evaluatedNodes (s.evaluations ++ [e]) at hv
    rw [hall] at hv
    rcases hv with hv | hv
    · exact h.reached v (.inl (hmem' hv))
    · rcases mem_append.mp hv with hv | hv
      · exact h.reached v (.inr hv)
      · exact h.reached v (.inl (hmem hv))

end

theorem popScc_append [DecidableEq V] {above rest : List V} (h : x ∉ above) :
    popScc x (above ++ x :: rest) = some (above ++ [x], rest) := by
  induction above with
  | nil => rw [nil_append, popScc, if_pos rfl, nil_append]
  | cons v above ih =>
    obtain ⟨hne, hnot⟩ := not_or.mp (mt mem_cons.mpr h)
    rw [cons_append, popScc, if_neg (Ne.symm hne), ih hnot]
    rfl

namespace Scanning

variable {x : V} {s₀ : State V} {hasTrivialCycle : Bool} (h₀ : Inv dependencies old root opened s₀)

include h₀

/-- A component of one node that does not depend on itself is on no cycle. -/
theorem acyclic (h : Scanning dependencies old root opened x s₀ s (dependencies x) false)
    (hstack : s.stack = x :: s₀.stack)
    (hclosed : ∀ v ∈ [x], ∀ d ∈ dependencies v, s.isEvaluated d = true ∨ d ∈ [x]) :
    ¬TransGen (Dep dependencies old) x x := by
  intro hcycle
  obtain ⟨d, hdep, hreach⟩ := TransGen.head'_iff.mp hcycle
  have hstack' : s.stack = [] ++ x :: s₀.stack := hstack
  have hd : d ∈ [x] := (h.inv.component hstack' h₀.opened_mem hclosed
    (mem_singleton_self x) d).mpr ⟨.single hdep, hreach⟩
  rw [mem_singleton.mp hd] at hdep
  exact absurd (h.cycle.mpr hdep.1) (by decide)

variable {above : List V}
  (h : Scanning dependencies old root opened x s₀ s (dependencies x) hasTrivialCycle)

include h

variable (hroot : s.lowLink x = s.index x) (hstack : s.stack = above ++ x :: s₀.stack)

include hroot hstack

/-- If the low link is the index, the nodes down to `x` depend on no other node of the stack. -/
theorem closed
    (habove : ∀ v ∈ above, ∀ d ∈ dependencies v, d ∈ s₀.stack → s.lowLink x ≤ s.index d) :
    ∀ v ∈ above ++ [x], ∀ d ∈ dependencies v, s.isEvaluated d = true ∨ d ∈ above ++ [x] := by
  intro v hv d hd
  have hstack' : s.stack = (above ++ [x]) ++ s₀.stack := by rw [hstack, append_cons]
  obtain ⟨-, -, hdisjoint⟩ := nodup_append.mp (hstack' ▸ h.inv.nodup)
  have hseen : s.isEvaluated d = true ∨ s.index d ≠ 0 := by
    rcases mem_append.mp hv with hva | hvx
    · refine h.inv.finished v (hstack' ▸ mem_append_left _ hv) ?_ d hd
      rintro (heq | hopen)
      · have hnodup := hstack ▸ h.inv.nodup
        exact (nodup_append.mp hnodup).2.2 v hva x mem_cons_self heq
      · exact hdisjoint v hv v (h₀.opened_mem v hopen) rfl
    · exact h.seen d (mem_singleton.mp hvx ▸ hd)
  by_cases hevaluated : s.isEvaluated d = true
  · exact .inl hevaluated
  refine .inr ?_
  have hmem := (h.inv.mem_stack d).mpr
    ⟨hseen.resolve_left hevaluated, Bool.eq_false_iff.mpr hevaluated⟩
  rw [hstack'] at hmem
  refine (mem_append.mp hmem).resolve_right fun hd0 => ?_
  have hlow : s.lowLink x ≤ s.index d := by
    rcases mem_append.mp hv with hv | hv
    · exact habove v hv d hd hd0
    · exact h.low d (mem_singleton.mp hv ▸ hd) hd0
  have hlt := h.index_lt hd0
  omega

/-- The component of the node is evaluated. -/
theorem popped [DecidableEq V]
    (hclosed : ∀ v ∈ above ++ [x], ∀ d ∈ dependencies v, s.isEvaluated d = true ∨ d ∈ above ++ [x])
    {e : Evaluation V} (hnodes : e.nodes = above ++ [x])
    (hacyclic : ∀ v, e = .evaluate v → ¬TransGen (Dep dependencies old) v v) :
    Returned dependencies old root opened x s₀ (call { s with stack := s₀.stack } e) where
  inv := h.inv.pop hstack h₀.opened_mem hclosed hnodes hacyclic
  keeps := ⟨h.keeps.index, h.keeps.lowLink, fun v hv => by
    simp [call, h.keeps.isEvaluated v hv]⟩
  index := h.index.ge
  unseen v hv := (h.unseen v hv).1
  stack := ⟨[], rfl, fun v hv => absurd hv not_mem_nil⟩
  low := .inl hroot

omit hroot hstack

/-- **The end of the call**: the node stays on the stack, or its component is evaluated. -/
theorem finish_spec [DecidableEq V] : ∃ s', finish x hasTrivialCycle s = some s' ∧
      Returned dependencies old root opened x s₀ s' := by
  obtain ⟨above, hstack, habove⟩ := h.bounded
  have hnodup := hstack ▸ h.inv.nodup
  by_cases hroot : s.lowLink x = s.index x
  · have hclosed := h.closed h₀ hroot hstack habove
    have hpopped {e : Evaluation V} := h.popped h₀ hroot hstack hclosed (e := e)
    rw [finish, if_pos hroot]
    cases above with
    | nil =>
      rw [nil_append] at hstack
      simp only [hstack, if_true]
      refine ⟨_, rfl, hpopped ?_ fun v hv => ?_⟩
      · split <;> rfl
      split at hv
      · exact absurd hv (by simp)
      next hfalse =>
      obtain rfl := Evaluation.evaluate.inj hv
      obtain rfl : hasTrivialCycle = false := by simpa using hfalse
      exact h.acyclic h₀ hstack hclosed
    | cons last above =>
      have hne : last ≠ x := (nodup_append.mp hnodup).2.2 last mem_cons_self x
        mem_cons_self
      have hnot : x ∉ last :: above := fun hmem =>
        (nodup_append.mp hnodup).2.2 x hmem x mem_cons_self rfl
      have hpop : popScc x s.stack = some (last :: above ++ [x], s₀.stack) :=
        hstack ▸ popScc_append hnot
      refine ⟨_, ?_, hpopped (e := .evaluateScc (last :: above ++ [x])) rfl
        fun v hv => absurd hv (by simp)⟩
      rw [hpop]
      simp only [hstack, cons_append, if_neg hne]
      rfl
  · rw [finish, if_neg hroot]
    have hlt : s.lowLink x < s.index x := Nat.lt_of_le_of_ne h.lowLink_le hroot
    obtain ⟨y, hy, hlow, hreach⟩ := h.witness
    refine ⟨s, rfl,
      { inv := h.inv.close h.seen ⟨y, hy, hlow ▸ hlt, hreach⟩
        keeps := h.keeps
        index := h.index.ge
        unseen := fun v hv => (h.unseen v hv).1
        stack := ⟨above ++ [x], by rw [hstack, append_cons], fun v hv d hd hd0 => ?_⟩
        low := .inr ⟨y, ?_, hlow, hreach⟩ }⟩
    · rcases mem_append.mp hv with hv | hv
      · exact habove v hv d hd hd0
      · exact h.low d (mem_singleton.mp hv ▸ hd) hd0
    -- The nodes above have larger indices.
    have hsorted := hstack ▸ h.inv.sorted
    rw [pairwise_append] at hsorted
    rw [hstack] at hy
    rcases mem_append.mp hy with hy | hy
    · have := hsorted.2.2 y hy x mem_cons_self
      omega
    · refine (mem_cons.mp hy).resolve_left ?_
      rintro rfl
      omega

end Scanning

end DependencyWalker
