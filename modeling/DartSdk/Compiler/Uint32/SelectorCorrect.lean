import DartSdk.Compiler.Uint32.Narrow

/-!
# Compiler/Uint32/SelectorCorrect — what the selection leaves visible

Every selected definition is either **exact** — a mask whose range fits, or a box of an exact one,
so that it loses nothing — or all its uses, as inputs and in environments, are by selected
instructions (`Selectable`).  The new program runs in step with the old one, each selected
definition holding the low half of what it held (`Agree`).

That makes everything seen equal, with one exception: a selected `UnboxInt64` that checks the type
of its input stays able to deoptimize, and its environment counts as a narrowing use. `Narrows` says
of a program, without running the pass, which definitions these are (`mem_propagate_iff`), and
`select_seen_iff` — the two runs look the same **iff** no such unboxing is reached while such a
definition in its environment holds a value that does not fit.
-/

namespace Uint32

open List Op Value Dart

variable {p : Program} {σ : Values} {watched : Def → List Def} {control : Control}

/-! ## The selected definitions

The work list ends with a set in which every use of a member only needs its low half. -/

section

variable (p : Program) {sel : Selected} {d : Def}

/-- The definitions whose values always fit. -/
inductive Exact : Def → Prop
  | mask {d : Def} : isNarrowing p d = true → Exact d
  | constant {d : Def} {v : BitVec 64} : opOf p d = some (.constant v) → Fits v → Exact d
  | box {d x : Def} : opOf p d = some (.boxInt64 x) → Exact x → Exact d

/-- What is known of a selected definition. -/
structure Selectable (sel : Selected) (d : Def) : Prop where
  op : ∃ op, opOf p d = some op ∧ op.isPotential ∧ op.operandsFit p
  uses : Exact p d ∨ inputUsesNarrowing p sel d ∧ envUsesNarrowing p sel d
  box : ∀ x, opOf p d = some (.boxInt64 x) → Exact p x

variable {p}

/-- A check of every user, of those that there are. -/
theorem all_users_iff {α : Type*} {get : Def → Option α} {ok : Def → α → Bool}
    (hlt : ∀ user a, get user = some a → user < p.length) :
    ((range p.length).all fun user => (get user).all (ok user)) ↔
      ∀ user a, get user = some a → ok user a := by
  simp only [all_eq_true, mem_range, Option.all_eq_true]
  exact ⟨fun h user a ha => h user (hlt user a ha) a ha, fun h user _ => h user⟩

theorem inputUsesNarrowing_iff :
    inputUsesNarrowing p sel d ↔ ∀ user op, opOf p user = some op → d ∈ op.inputs →
      user ∈ sel ∧ op.narrowsInput d = true := by
  refine (all_users_iff fun user op h => ?_).trans (by simp [or_iff_not_imp_left])
  by_contra hge
  simp [opOf, getElem?_eq_none (Nat.le_of_not_lt hge)] at h

theorem envUsesNarrowing_iff :
    envUsesNarrowing p sel d ↔ ∀ user i, p[user]? = some i → d ∈ i.env → user ∈ sel :=
  (all_users_iff fun _ _ hi => (List.getElem?_eq_some_iff.mp hi).1).trans
    (by simp [or_iff_not_imp_left])

/-- Selecting more definitions keeps what is known of one. -/
theorem Selectable.mono {bigger : Selected} (h : Selectable p sel d)
    (hsub : sel ⊆ bigger) : Selectable p bigger d := by
  refine ⟨h.op, h.uses.imp_right fun ⟨hin, henv⟩ => ⟨?_, ?_⟩, h.box⟩
  · rw [inputUsesNarrowing_iff] at hin ⊢
    exact fun user op hop hd => (hin user op hop hd).imp_left fun hu => hsub hu
  · rw [envUsesNarrowing_iff] at henv ⊢
    exact fun user i hi hd => hsub (henv user i hi hd)

theorem selectable_initialSet (hd : d ∈ initialSet p) : Selectable p (initialSet p) d := by
  obtain ⟨hpot, hmask⟩ := mem_filter.mp hd
  have hexact : Exact p d := .mask hmask
  simp only [potential, mem_filter, Option.any_eq_true] at hpot
  obtain ⟨-, op, hop, hpot⟩ := hpot
  unfold isNarrowing at hmask
  rw [hop] at hmask
  split at hmask
  · rename_i hand
    cases hand
    exact ⟨⟨_, hop, hpot, rfl⟩, Or.inl hexact, fun x hx => by simp [hop] at hx⟩
  · cases hmask

/-- **A box is selected only on top of an exact input.**  An input with narrowing uses only would
have had the box itself selected before it. -/
theorem exact_of_box {x : Def} (hbox : opOf p d = some (.boxInt64 x))
    (hd : d ∉ sel) (hx : Selectable p sel x) : Exact p x := by
  refine hx.uses.resolve_right fun ⟨hin, _⟩ => hd ?_
  exact (inputUsesNarrowing_iff.mp hin d _ hbox (by simp [inputs])).1

/-- What `CanBecomeUint32` accepts may be selected. -/
theorem selectable_of_canBecome (hsel : ∀ x ∈ sel, Selectable p sel x)
    (hpot : d ∈ potential p) (hd : d ∉ sel) (hcan : canBecomeUint32 p sel d) :
    Selectable p sel d := by
  simp only [potential, mem_filter, Option.any_eq_true] at hpot
  obtain ⟨-, op, hop, hpot⟩ := hpot
  unfold canBecomeUint32 at hcan
  rw [hop] at hcan
  split at hcan
  · rename_i x hbox
    cases hbox
    have hx : Exact p x := exact_of_box hop hd (hsel x (by simpa using hcan))
    refine ⟨⟨_, hop, hpot, rfl⟩, Or.inl (.box hop hx), fun y hy => ?_⟩
    cases hop.symm.trans hy
    exact hx
  · rename_i op' hne hop'
    cases hop'
    simp only [Bool.and_eq_true] at hcan
    obtain ⟨⟨⟨hfit, -⟩, hin⟩, henv⟩ := hcan
    refine ⟨⟨op, hop, hpot, hfit⟩, Or.inr ⟨hin, henv⟩, fun x hx => ?_⟩
    exact absurd (Option.some.inj (hop.symm.trans hx)) (hne x)
  · cases hcan

/-- **Every selected definition is selectable.** -/
theorem selectable_of_propagate (h : propagate p = some sel) : ∀ d ∈ sel, Selectable p sel d := by
  refine saturate_induct (P := fun sel => ∀ d ∈ sel, Selectable p sel d)
    (fun sel x hpot hx hcan hsel d hd => ?_) (fun d => selectable_initialSet) h
  have hsub : sel ⊆ x :: sel := fun y hy => mem_cons_of_mem x hy
  rcases mem_cons.mp hd with rfl | hd
  · exact (selectable_of_canBecome hsel hpot hx hcan).mono hsub
  · exact (hsel d hd).mono hsub

/-- **What is selected**, as the least set with these rules: the masks whose ranges fit, the boxes
of selected definitions, and the potential definitions all of whose uses are by selected
instructions. -/
inductive Narrows (p : Program) : Def → Prop
  | mask {d : Def} : d ∈ initialSet p → Narrows p d
  | box {d x : Def} : d ∈ potential p → opOf p d = some (.boxInt64 x) → Narrows p x → Narrows p d
  | uses {d : Def} {op : Op} : d ∈ potential p → opOf p d = some op →
      (∀ x, op ≠ .boxInt64 x) → op.operandsFit p → hasUses p d →
      (∀ user op, opOf p user = some op → d ∈ op.inputs → Narrows p user) →
      (∀ user op, opOf p user = some op → d ∈ op.inputs → op.narrowsInput d = true) →
      (∀ user i, p[user]? = some i → d ∈ i.env → Narrows p user) → Narrows p d

theorem narrows_of_canBecome (hsel : ∀ x ∈ sel, Narrows p x)
    (hpot : d ∈ potential p) (hcan : canBecomeUint32 p sel d) : Narrows p d := by
  unfold canBecomeUint32 at hcan
  split at hcan
  · rename_i x hop
    exact .box hpot hop (hsel x (by simpa using hcan))
  · rename_i op hne hop
    simp only [Bool.and_eq_true] at hcan
    obtain ⟨⟨⟨hfit, huses⟩, hin⟩, henv⟩ := hcan
    rw [inputUsesNarrowing_iff] at hin
    rw [envUsesNarrowing_iff] at henv
    exact .uses hpot hop hne hfit huses (fun user op hop hd => hsel user (hin user op hop hd).1)
      (fun user op hop hd => (hin user op hop hd).2)
      (fun user i hi hd => hsel user (henv user i hi hd))
  · cases hcan

/-- **The pass selects exactly that set.** -/
theorem mem_propagate_iff (h : propagate p = some sel) : d ∈ sel ↔ Narrows p d := by
  constructor
  · exact saturate_induct (P := fun sel => ∀ d ∈ sel, Narrows p d)
      (fun sel x hpot _ hcan hsel d hd => (mem_cons.mp hd).elim
        (fun heq => heq ▸ narrows_of_canBecome hsel hpot hcan) (hsel d))
      (fun d => .mask) h d
  · intro hd
    have hclosed := saturate_closed h
    induction hd with
    | mask hd => exact subset_saturate h hd
    | @box d x hpot hop _ ih =>
      by_contra hnot
      have hrule := hclosed d hpot hnot
      simp [canBecomeUint32, hop, ih] at hrule
    | @uses d op hpot hop hne hfit huses _ hnarrow _ ihin ihenv =>
      by_contra hnot
      have hrule := hclosed d hpot hnot
      have hin : inputUsesNarrowing p sel d := inputUsesNarrowing_iff.mpr fun user op hop hd =>
        ⟨ihin user op hop hd, hnarrow user op hop hd⟩
      have henv : envUsesNarrowing p sel d := envUsesNarrowing_iff.mpr ihenv
      have hcan : canBecomeUint32 p sel d = true := by
        unfold canBecomeUint32
        rw [hop]
        split
        · rename_i x hbox
          exact absurd (Option.some.inj hbox) (hne x)
        · rename_i hop'
          cases hop'
          simp [hfit, huses, hin, henv]
        · rename_i hnone
          cases hnone
      rw [hcan] at hrule
      cases hrule

theorem exists_propagate : ∃ sel, propagate p = some sel :=
  exists_saturate (Nat.lt_succ_of_le countP_le_length)

end

/-! ## One instruction

In agreeing states, an instruction and its narrow version do the same, up to the upper halves of
selected definitions. -/

/-- The ranges hold of the values of the definitions. -/
def RangesHold (p : Program) (σ : Values) : Prop :=
  ∀ d r w, rangeOf p d = some r → σ d = .int w → r.min ≤ w.toInt ∧ w.toInt ≤ r.max

/-- The values of exact definitions fit. -/
def ExactFits (p : Program) (σ : Values) : Prop := ∀ d, Exact p d → (σ d).Fits

/-- Each selected definition holds the low half of its value in `σ`, any other one its value. -/
def Narrowed (sel : Selected) (σ τ : Values) : Prop :=
  ∀ d, τ d = if d ∈ sel then (σ d).narrow else σ d

theorem RangesHold.fits (h : RangesHold p σ) {d : Def}
    (hd : fitsUint32 (rangeOf p d)) : (σ d).Fits := by
  cases hr : rangeOf p d with
  | none => simp [hr, fitsUint32] at hd
  | some r =>
    simp only [hr, fitsUint32, Bool.and_eq_true, decide_eq_true_eq] at hd
    cases hv : σ d with
    | object id => exact fits_zero
    | int w =>
      obtain ⟨hmin, hmax⟩ := h d r w hr hv
      exact fits_of_toInt (hd.1.trans hmin) (hmax.trans hd.2)

namespace Narrowed

variable {sel : Selected} {σ τ : Values} (h : Narrowed sel σ τ)

include h

theorem low_toWord (d : Def) : low (τ d).toWord = low (σ d).toWord := by
  rw [h d]
  split
  · exact low_toWord_narrow _
  · rfl

theorem eq_iff {d : Def} : τ d = σ d ↔ (d ∈ sel → (σ d).Fits) := by
  rw [h d]
  split
  · rename_i hd
    simp [hd, narrow_eq_iff]
  · rename_i hd
    simp [hd]

theorem unbox (d : Def) :
    (τ d).unbox.map (fun w => wide (low w)) = (σ d).unbox.map fun w => wide (low w) := by
  rw [h d]
  split
  · cases σ d <;> simp [Value.narrow, Value.unbox]
  · rfl

theorem update (d : Def) (v : Value) : Narrowed sel (Function.update σ d v)
      (Function.update τ d (if d ∈ sel then v.narrow else v)) := by
  intro e
  by_cases he : e = d
  · subst he
    simp
  · simpa [he] using h e

end Narrowed

/-- An instruction reads nothing but its inputs. -/
theorem eval_congr {op : Op} {result : List Value → Option Value} {τ : Values}
    (h : ∀ x ∈ op.inputs, τ x = σ x) : op.eval result τ = op.eval result σ := by
  cases op with
  | other inputs _ => exact congrArg result (map_congr_left h)
  | constant v => rfl
  | _ => simp_all [eval, inputs]

theorem narrowable_of_operandsFit (hσ : RangesHold p σ)
    {op : BinaryOp} {l r : Def} (h : (binaryInt64 op l r).operandsFit p) :
    Narrowable op (σ l).toWord (σ r).toWord := by
  cases op with
  | shl => exact ⟨fun _ => hσ.fits h, by simp⟩
  | shr | ushr =>
    obtain ⟨hr, hl⟩ := Bool.and_eq_true_iff.mp h
    exact ⟨fun _ => hσ.fits hr, fun _ => hσ.fits hl⟩
  | _ => exact ⟨by simp [BinaryOp.isShift], by simp⟩

section

variable {p : Program} {sel : Selected} {σ τ : Values} {result : List Value → Option Value}
  {op : Op} {user x : Def}

/-- Every potential definition has a replacement. -/
theorem exists_constructReplacementFor (h : op.isPotential) :
    ∃ new, constructReplacementFor op = some new := by
  cases op with
  | binaryInt64 op l r =>
    obtain ⟨op32, hop⟩ := Option.isSome_iff_exists.mp h
    exact ⟨.binaryUint32 op32 l r, by simp [constructReplacementFor, hop]⟩
  | unaryInt64 op x =>
    obtain rfl : op = .bitNot := by simpa [isPotential] using h
    exact ⟨_, rfl⟩
  | boxInt64 x | unboxInt64 x mode => exact ⟨_, rfl⟩
  | _ => simp [isPotential] at h

/-- The replacements, kind by kind. -/
theorem constructReplacementFor_cases {new : Op} (h : constructReplacementFor op = some new) :
    (∃ k l r k32, op = .binaryInt64 k l r ∧ toUint32 k = some k32 ∧ new = .binaryUint32 k32 l r) ∨
      (∃ x, op = .unaryInt64 .bitNot x ∧ new = .bitNotUint32 x) ∨
      (∃ x, op = .boxInt64 x ∧ new = .boxUint32 x) ∨
      ∃ x mode, op = .unboxInt64 x mode ∧ new = .unboxUint32 x mode := by
  unfold constructReplacementFor at h
  split at h
  · rename_i k l r
    obtain ⟨k32, hk, rfl⟩ := Option.map_eq_some_iff.mp h
    exact Or.inl ⟨k, l, r, k32, rfl, hk, rfl⟩
  · cases h
    exact Or.inr (Or.inl ⟨_, rfl, rfl⟩)
  · cases h
    exact Or.inr (Or.inr (Or.inl ⟨_, rfl, rfl⟩))
  · cases h
    exact Or.inr (Or.inr (Or.inr ⟨_, _, rfl, rfl⟩))
  · cases h

/-- **A replacement computes the low half of what its instruction did.** -/
theorem eval_replacement (hσ : RangesHold p σ) (hτ : Narrowed sel σ τ) {new : Op}
    (hnew : constructReplacementFor op = some new) (hfit : op.operandsFit p) :
    new.eval result τ = (op.eval result σ).map narrow := by
  obtain ⟨k, l, r, k32, rfl, hk, rfl⟩ | ⟨x, rfl, rfl⟩ | ⟨x, rfl, rfl⟩ | ⟨x, mode, rfl, rfl⟩ :=
    constructReplacementFor_cases hnew
  · obtain ⟨w, hw, hlow⟩ := low_eval hk (narrowable_of_operandsFit hσ hfit)
    simp only [eval, hw, hτ.low_toWord, ← hlow]
    rfl
  · simp [eval, hτ.low_toWord, UnaryOp.eval, Option.map_some, narrow, low_not]
  · simp only [eval, hτ.low_toWord]
    rfl
  · have hunbox := congrArg (Option.map int) (hτ.unbox x)
    simp only [Option.map_map] at hunbox
    simp only [eval, Option.map_map]
    exact hunbox

variable (hsel : ∀ d ∈ sel, Selectable p sel d) (hexact : ExactFits p σ)

include hsel hexact in
/-- The inputs of an instruction that is not selected fit if they are selected. -/
theorem fits_of_input (huser : user ∉ sel) (hop : opOf p user = some op)
    (hx : x ∈ op.inputs) (hxs : x ∈ sel) : (σ x).Fits := by
  refine hexact x ((hsel x hxs).uses.resolve_right fun ⟨hin, _⟩ => huser ?_)
  exact (inputUsesNarrowing_iff.mp hin user op hop hx).1

include hsel hexact in
/-- …and so do the definitions in its environment. -/
theorem fits_of_env {i : Instr} (huser : user ∉ sel) (hi : p[user]? = some i)
    (hx : x ∈ i.env) (hxs : x ∈ sel) : (σ x).Fits := by
  refine hexact x ((hsel x hxs).uses.resolve_right fun ⟨_, henv⟩ => huser ?_)
  exact envUsesNarrowing_iff.mp henv user i hi hx

include hsel hexact in
theorem fits_of_isUint32Use (huser : user ∉ sel)
    (hop : opOf p user = some op) (hx : x ∈ op.inputs) (hu : isUint32Use p sel x) : (σ x).Fits := by
  by_cases hxs : x ∈ sel
  · exact fits_of_input hsel hexact huser hop hx hxs
  simp only [isUint32Use, hxs, decide_false, Bool.false_or] at hu
  split at hu
  · rename_i v hv
    simp only [Bool.and_eq_true, decide_eq_true_eq] at hu
    exact hexact x (.constant hv (fits_of_toInt hu.1 hu.2))
  · cases hu

include hsel hexact in
/-- **An instruction that is not selected computes what it did**, as a `Uint32` comparison too. -/
theorem eval_narrowUses (hτ : Narrowed sel σ τ) {d : Def} (hd : d ∉ sel)
    (hop : opOf p d = some op) : (narrowUint32Uses p sel op).eval result τ = op.eval result σ := by
  have hinputs : ∀ x ∈ op.inputs, τ x = σ x := fun x hx =>
    hτ.eq_iff.mpr (fits_of_input hsel hexact hd hop hx)
  rw [← eval_congr hinputs]
  cases op with
  | comparison rel l r rep =>
    rw [narrowUint32Uses]
    split
    · rename_i hnarrow
      simp only [Bool.and_eq_true] at hnarrow
      have hl : (σ l).Fits :=
        fits_of_isUint32Use hsel hexact hd hop (by simp [inputs]) hnarrow.1.2
      have hr : (σ r).Fits :=
        fits_of_isUint32Use hsel hexact hd hop (by simp [inputs]) hnarrow.2
      simp only [eval, hinputs l (by simp [inputs]), hinputs r (by simp [inputs])]
      rw [← Fits.read hl rep, ← Fits.read hr rep]
    · rfl
  | _ => rfl

end

/-! ## Whole runs -/

section

variable (p : Program) (sel : Selected) {s : State} {i : Instr} {d : Def} {σ τ : Values}

/-- The program with the selected definitions replaced. -/
abbrev replaced : Program := p.mapIdx (replaceInstr p sel)

/-- **A leak**, where the definitions in `S` are narrowed: control reaches one of them that unboxes
and checks its input, while another one, in its environment, holds a value that does not fit. -/
def Leaks (S : Def → Prop) (control : Control) (s : State) : Prop :=
  ∃ m i x e, reached p control s = some (m, i) ∧ S m.d ∧ i.op = .unboxInt64 x .checkType ∧
    e ∈ i.env ∧ S e ∧ ¬ (s.values e).Fits

/-- The states of the two runs at one time. -/
structure Agree (s t : State) : Prop where
  values : Narrowed sel s.values t.values
  seen : t.seen = s.seen
  running : t.running = s.running

variable {p sel}

theorem Agree.start : Agree sel .start .start :=
  ⟨fun d => by simp [State.start, narrow], rfl, rfl⟩

theorem reached_replaced {t : State} (h : Agree sel s t) : reached (replaced p sel) control t =
      (reached p control s).map fun mi => (mi.1, replaceInstr p sel mi.1.d mi.2) := by
  unfold reached
  rw [h.seen, h.running]
  split
  · cases control s.seen with
    | none => rfl
    | some m => simp [Function.comp_def]
  · rfl

theorem getElem?_of_reached {m : Move}
    (h : reached p control s = some (m, i)) : p[m.d]? = some i := by
  unfold reached at h
  split at h
  · obtain ⟨m', -, hi⟩ := Option.bind_eq_some_iff.mp h
    obtain ⟨i', hi', heq⟩ := Option.map_eq_some_iff.mp hi
    cases heq
    exact hi'
  · cases h

theorem opOf_eq (h : p[d]? = some i) : opOf p d = some i.op := by
  rw [opOf, h]
  rfl

variable (hsel : ∀ d ∈ sel, Selectable p sel d)

theorem canDeoptimize_replacement {op new : Op} (h : constructReplacementFor op = some new) :
    new.canDeoptimize ↔ ∃ x, op = .unboxInt64 x .checkType := by
  obtain ⟨k, l, r, k32, rfl, -, rfl⟩ | ⟨x, rfl, rfl⟩ | ⟨x, rfl, rfl⟩ | ⟨x, mode, rfl, rfl⟩ :=
    constructReplacementFor_cases h <;> simp [canDeoptimize]

theorem inputs_narrowUint32Uses (op : Op) : (narrowUint32Uses p sel op).inputs = op.inputs := by
  cases op with
  | comparison rel l r rep =>
    rw [narrowUint32Uses]
    split <;> rfl
  | _ => rfl

include hsel in
theorem exists_replacement (hd : d ∈ sel) (hi : p[d]? = some i) :
    i.op.isPotential ∧ i.op.operandsFit p ∧ ∃ new, constructReplacementFor i.op = some new ∧
      replaceInstr p sel d i = ⟨new, i.env, i.range.map replacementRange⟩ := by
  obtain ⟨op, hop, hpot, hfit⟩ := (hsel d hd).op
  cases (opOf_eq hi).symm.trans hop
  obtain ⟨new, hnew⟩ := exists_constructReplacementFor hpot
  exact ⟨hpot, hfit, new, hnew, by simp [replaceInstr, hd, hnew]⟩

include hsel in
/-- The values of watched definitions are the same, unless the environment of a selected unboxing
that checks its input has one that does not fit. -/
theorem watched_eq_iff (hσ : ExactFits p σ) (hτ : Narrowed sel σ τ) (hi : p[d]? = some i) :
    (watchedAt (replaced p sel) sel d).map τ = (watchedAt (replaced p sel) sel d).map σ ↔
      ∀ x e, d ∈ sel → i.op = .unboxInt64 x .checkType → e ∈ i.env → e ∈ sel → (σ e).Fits := by
  have hnew : (replaced p sel)[d]? = some (replaceInstr p sel d i) := by simp [hi]
  rw [map_inj_left, watchedAt, hnew]
  by_cases hd : d ∈ sel
  · obtain ⟨-, -, new, hop, hreplace⟩ := exists_replacement hsel hd hi
    simp only [hd, if_true, hreplace, hτ.eq_iff]
    by_cases hcan : new.canDeoptimize
    · obtain ⟨x, hx⟩ := (canDeoptimize_replacement hop).mp hcan
      simp only [hcan, if_true, hx]
      exact ⟨fun h _ e _ _ he hes => h e he hes, fun h e he hes => h x e trivial rfl he hes⟩
    · have hno : ∀ x, i.op ≠ .unboxInt64 x .checkType := fun x hx =>
        hcan ((canDeoptimize_replacement hop).mpr ⟨x, hx⟩)
      simp [hcan, hno]
  · simp only [hd, if_false, replaceInstr, inputs_narrowUint32Uses, hτ.eq_iff]
    refine ⟨fun _ _ _ h => absurd h (by simp), fun _ e he hes => ?_⟩
    rcases mem_append.mp he with he | he
    · exact fits_of_input hsel hσ hd (opOf_eq hi) he hes
    · exact fits_of_env hsel hσ hd hi he hes

include hsel in
/-- The instruction at a definition, replaced, computes the narrowed value. -/
theorem eval_replaceInstr {result : List Value → Option Value}
    (hr : RangesHold p σ) (hσ : ExactFits p σ) (hτ : Narrowed sel σ τ) (hi : p[d]? = some i) :
    (replaceInstr p sel d i).op.eval result τ =
      (i.op.eval result σ).map fun v => if d ∈ sel then v.narrow else v := by
  by_cases hd : d ∈ sel
  · obtain ⟨-, hfit, new, hnew, hreplace⟩ := exists_replacement hsel hd hi
    simpa [hreplace, hd] using eval_replacement hr hτ hnew hfit
  · simpa [replaceInstr, hd] using eval_narrowUses hsel hσ hτ hd (opOf_eq hi)

theorem showsResult_replacement {op new : Op} (h : constructReplacementFor op = some new) :
    new.showsResult = op.showsResult := by
  obtain ⟨k, l, r, k32, rfl, -, rfl⟩ | ⟨x, rfl, rfl⟩ | ⟨x, rfl, rfl⟩ | ⟨x, mode, rfl, rfl⟩ :=
    constructReplacementFor_cases h <;> rfl

theorem showsResult_narrowUint32Uses (op : Op) :
    (narrowUint32Uses p sel op).showsResult = op.showsResult := by
  cases op with
  | comparison rel l r rep =>
    rw [narrowUint32Uses]
    split <;> rfl
  | _ => rfl

include hsel in
/-- **Boxes and comparisons show the same results**: a selected box has an exact input. -/
theorem shown_eq {result : List Value → Option Value} (hr : RangesHold p σ)
    (hσ : ExactFits p σ) (hτ : Narrowed sel σ τ) (hi : p[d]? = some i) :
    (if (replaceInstr p sel d i).op.showsResult then
        (replaceInstr p sel d i).op.eval result τ else none) =
      if i.op.showsResult then i.op.eval result σ else none := by
  rw [eval_replaceInstr hsel hr hσ hτ hi]
  by_cases hd : d ∈ sel
  · obtain ⟨hpot, -, new, hnew, hreplace⟩ := exists_replacement hsel hd hi
    rw [hreplace, showsResult_replacement hnew]
    split
    · rename_i hshows
      have hbox : ∃ x, i.op = .boxInt64 x := by
        revert hpot hshows
        cases i.op <;> simp [isPotential, showsResult]
      obtain ⟨x, hop⟩ := hbox
      have hx : (σ x).Fits := hσ x ((hsel d hd).box x (hop ▸ opOf_eq hi))
      have hnarrow : (int (σ x).toWord).narrow = .int (σ x).toWord :=
        narrow_eq_iff.mpr hx
      simp [hop, eval, hnarrow]
    · rfl
  · simp [replaceInstr, hd, showsResult_narrowUint32Uses, Option.map_id']

include hsel in
/-- **One step of both runs.**  They stay in step, and what is seen of the step is the same iff it
is no leak. -/
theorem agree_step (control : Control) {t : State} (hr : RangesHold p s.values)
    (hσ : ExactFits p s.values) (h : Agree sel s t) : let watched := watchedAt (replaced p sel) sel
    let s1 := step p watched control s
    let t1 := step (replaced p sel) watched control t
    Narrowed sel s1.values t1.values ∧ t1.running = s1.running ∧
      (t1.seen = s1.seen ↔ ¬ Leaks p (· ∈ sel) control s) := by
  intro watched s1 t1
  cases hreach : reached p control s with
  | none =>
    have hs1 : s1 = { s with running := false } := by simp [s1, step, hreach]
    have ht1 : t1 = { t with running := false } := by
      simp [t1, step, reached_replaced h, hreach]
    rw [hs1, ht1]
    refine ⟨h.values, rfl, iff_of_true h.seen ?_⟩
    rintro ⟨m, i, x, e, hmi, -⟩
    cases hreach.symm.trans hmi
  | some mi =>
    obtain ⟨m, i⟩ := mi
    have hi := getElem?_of_reached hreach
    have hs1 : s1 = execute watched m i s := by simp [s1, step, hreach]
    have ht1 : t1 = execute watched m (replaceInstr p sel m.d i) t := by
      simp [t1, step, reached_replaced h, hreach]
    have heval : (replaceInstr p sel m.d i).op.eval m.result t.values = _ :=
      eval_replaceInstr hsel hr hσ h.values hi
    have hshown : (if _ then eval m.result t.values _ else none) = _ :=
      shown_eq hsel hr hσ h.values hi
    rw [hs1, ht1]
    refine ⟨?_, ?_, ?_⟩
    · simp only [execute, heval]
      cases i.op.eval m.result s.values with
      | none => exact h.values
      | some v => exact h.values.update m.d v
    · simp [execute, heval]
    · have hcompleted : ((replaceInstr p sel m.d i).op.eval m.result t.values).isSome =
          (i.op.eval m.result s.values).isSome := by rw [heval, Option.isSome_map]
      simp only [execute, hshown, hcompleted, h.seen, append_cancel_left_eq,
        List.cons.injEq, Observation.mk.injEq, and_true]
      rw [watched_eq_iff hsel hσ h.values hi]
      refine ⟨?_, fun hno x e hd hop he hes => ?_⟩
      · rintro hfits ⟨m', i', x, e, hmi, hd, hop, he, hes, hnot⟩
        cases hreach.symm.trans hmi
        exact hnot (hfits x e hd hop he hes)
      · by_contra hnot
        exact hno ⟨m, i, x, e, hreach, hd, hop, he, hes, hnot⟩

variable (p) in
/-- The ranges hold in every state of the run. -/
def SoundRanges (watched : Def → List Def) (control : Control) : Prop :=
  ∀ n, RangesHold p (run p watched control n).values

omit hsel in
/-- A step leaves a definition alone or computes it. -/
theorem step_value_cases (watched : Def → List Def) (control : Control) (s : State) (d : Def) :
    (step p watched control s).values d = s.values d ∨
      ∃ op result v, opOf p d = some op ∧ op.eval result s.values = some v ∧
        (step p watched control s).values d = v := by
  rw [step]
  cases hreach : reached p control s with
  | none => exact Or.inl rfl
  | some mi =>
    obtain ⟨m, i⟩ := mi
    simp only [execute]
    cases hv : i.op.eval m.result s.values with
    | none => exact Or.inl rfl
    | some v =>
      by_cases hd : d = m.d
      · subst hd
        exact Or.inr ⟨i.op, m.result, v, opOf_eq (getElem?_of_reached hreach), hv, by simp⟩
      · exact Or.inl (by simp [hd])

omit hsel in
/-- **Exact definitions fit in every state of the run.** -/
theorem exactFits_run {watched : Def → List Def} (h : SoundRanges p watched control) (n : ℕ) :
    ExactFits p (run p watched control n).values := by
  induction n with
  | zero => exact fun d _ => fits_zero
  | succ n ih =>
    intro d hd
    obtain hold | ⟨op, result, v, hop, hv, hnew⟩ :=
      step_value_cases watched control (run p watched control n) d
    · rw [run, hold]
      exact ih d hd
    rw [run, hnew]
    cases hd with
    | mask hmask =>
      unfold isNarrowing at hmask
      split at hmask
      · exact hnew ▸ (h (n + 1)).fits hmask
      · cases hmask
    | constant hop' hfits =>
      cases hop.symm.trans hop'
      cases hv
      exact hfits
    | box hop' hx =>
      cases hop.symm.trans hop'
      cases hv
      exact ih _ hx

variable {control : Control} (h : SoundRanges p (watchedAt (replaced p sel) sel) control)

include hsel h in
/-- The runs are in step as long as there was no leak. -/
theorem agree_run {n : ℕ}
    (hno : ∀ k < n, ¬ Leaks p (· ∈ sel) control
      (run p (watchedAt (replaced p sel) sel) control k)) :
    Agree sel (run p (watchedAt (replaced p sel) sel) control n)
      (run (replaced p sel) (watchedAt (replaced p sel) sel) control n) := by
  induction n with
  | zero => exact .start
  | succ n ih =>
    obtain ⟨hvalues, hrunning, hiff⟩ := agree_step hsel control (h n) (exactFits_run h n)
      (ih fun k hk => hno k (Nat.lt_succ_of_lt hk))
    exact ⟨hvalues, hiff.mpr (hno n (Nat.lt_succ_self n)), hrunning⟩

include hsel h in
/-- **The runs before and after the selection look the same iff no leak is reached.** -/
theorem seen_replaced_iff :
    (∀ n, (run (replaced p sel) (watchedAt (replaced p sel) sel) control n).seen =
        (run p (watchedAt (replaced p sel) sel) control n).seen) ↔
      ∀ n, ¬ Leaks p (· ∈ sel) control (run p (watchedAt (replaced p sel) sel) control n) := by
  refine ⟨fun hseen n => ?_, fun hno n => (agree_run hsel h fun k _ => hno k).seen⟩
  induction n using Nat.strong_induction_on with
  | _ n ih =>
  have hstep := agree_step hsel control (h n) (exactFits_run h n) (agree_run hsel h ih)
  exact hstep.2.2.mp (hseen (n + 1))

end

/-- **What the selection leaves visible.**  The pass ends, and on every run on which the ranges
hold, all that is seen of the new program — operands of instructions outside the selected set,
comparisons, boxes, and environments of instructions that may deoptimize — is as in the old one iff
no leak is reached. -/
theorem select_seen_iff (p : Program) :
    ∃ r, select p = some r ∧ ∀ control, SoundRanges p r.watched control →
      ((∀ n, (run r.program r.watched control n).seen = (run p r.watched control n).seen) ↔
        ∀ n, ¬ Leaks p (Narrows p) control (run p r.watched control n)) := by
  obtain ⟨sel, hsel⟩ := exists_propagate (p := p)
  have hnarrows : (· ∈ sel) = Narrows p := funext fun d => propext (mem_propagate_iff hsel)
  refine ⟨⟨sel, replaced p sel⟩, by simp [select, hsel], fun control h => ?_⟩
  rw [← hnarrows]
  exact seen_replaced_iff (selectable_of_propagate hsel) h

theorem step_stopped {s : State} (h : s.running = false) : step p watched control s = s := by
  obtain ⟨values, seen, running⟩ := s
  cases h
  rfl

theorem run_stopped {k n : ℕ} (h : (run p watched control k).running = false) (hk : k ≤ n) :
    run p watched control n = run p watched control k := by
  induction n, hk using Nat.le_induction with
  | base => rfl
  | succ n _ ih => rw [run, ih, step_stopped h]

/-- The ranges, checked definition by definition. -/
theorem rangesHold_iff : RangesHold p σ ↔ ∀ d < p.length, (rangeOf p d).all fun r =>
      (σ d).unbox.all fun w => r.min ≤ w.toInt && w.toInt ≤ r.max := by
  have hunbox : ∀ (v : Value) w, v.unbox = some w ↔ v = .int w := by
    intro v w
    cases v <;> simp [unbox]
  simp only [Option.all_eq_true, Bool.and_eq_true, decide_eq_true_eq, hunbox]
  refine ⟨fun h d _ r hr w hw => h d r w hr hw, fun h d r w hr hw => h d ?_ r hr w hw⟩
  by_contra hge
  simp [rangeOf, getElem?_eq_none (Nat.le_of_not_lt hge)] at hr

instance (p : Program) (σ : Values) : Decidable (RangesHold p σ) :=
  decidable_of_iff _ rangesHold_iff.symm

theorem soundRanges_of_stopped {k : ℕ} (hstop : (run p watched control k).running = false)
    (h : ∀ n ≤ k, RangesHold p (run p watched control n).values) :
    SoundRanges p watched control := by
  intro n
  rcases Nat.le_total n k with hn | hn
  · exact h n hn
  · rw [run_stopped hstop hn]
    exact h k le_rfl

/-- Definitions 0 to 2 are `a`, `b` and `v`; 8 returns the result. -/
def maskedSum : Program :=
  [⟨.other [] false, [], none⟩, ⟨.other [] false, [], none⟩, ⟨.other [] false, [], none⟩,
    ⟨.binaryInt64 .add 0 1, [], none⟩,
    ⟨.unboxInt64 2 .checkType, [3], none⟩,
    ⟨.binaryInt64 .add 3 4, [], none⟩,
    ⟨.constant 0xFFFFFFFF, [], none⟩,
    ⟨.binaryInt64 .bitAnd 5 6, [], some ⟨0, maxUint32⟩⟩,
    ⟨.other [7] false, [], none⟩]

/-- The instructions in order, on given `a`, `b` and `v`. -/
def inOrder (a b v : Value) : Control := fun seen =>
  some ⟨seen.length, fun _ => [a, b, v][seen.length]?⟩

/-- The sum, the unboxing and the mask are selected. -/
def maskedSumSelection : Selection :=
  ⟨[3, 4, 5, 7], replaced maskedSum [3, 4, 5, 7]⟩

theorem propagate_maskedSum : propagate maskedSum = some [3, 4, 5, 7] := by
  decide

theorem select_maskedSum : select maskedSum = some maskedSumSelection := by
  simp [select, propagate_maskedSum, maskedSumSelection]

/-- **The unboxing deoptimizes with a truncated sum**: `a + b` is `2 ^ 32`, and 0 is seen. -/
theorem maskedSum_seen : let control := inOrder (.int 0x100000000) (.int 0) (.object 1)
    select maskedSum = some maskedSumSelection ∧
      SoundRanges maskedSum maskedSumSelection.watched control ∧
      (run maskedSum maskedSumSelection.watched control 5).seen[4]? =
        some ⟨[.int 0x100000000], none, false⟩ ∧
      (run maskedSumSelection.program maskedSumSelection.watched control 5).seen[4]? =
        some ⟨[.int 0], none, false⟩ := by
  refine ⟨select_maskedSum, soundRanges_of_stopped (k := 5) ?_ ?_, ?_, ?_⟩ <;> decide

theorem not_fits_of_leaks_maskedSum {s : State}
    (h : Leaks maskedSum (Narrows maskedSum) control s) : ¬ (s.values 3).Fits := by
  obtain ⟨m, i, x, e, hreach, hd, hop, he, -, hnot⟩ := h
  have hi := getElem?_of_reached hreach
  have hcases : m.d = 3 ∨ m.d = 4 ∨ m.d = 5 ∨ m.d = 7 := by
    simpa using (mem_propagate_iff propagate_maskedSum).mpr hd
  rcases hcases with hd | hd | hd | hd <;> rw [hd] at hi <;> cases hi <;> cases hop
  obtain rfl : e = 3 := by simpa using he
  exact hnot

/-- With a sum that fits the two runs look the same, although the unboxing deoptimizes. -/
theorem select_seen_iff_maskedSum : let control := inOrder (.int 3) (.int 4) (.object 1)
    SoundRanges maskedSum maskedSumSelection.watched control ∧
      ∀ n, (run maskedSumSelection.program maskedSumSelection.watched control n).seen =
        (run maskedSum maskedSumSelection.watched control n).seen := by
  intro control
  obtain ⟨r, hr, hiff⟩ := select_seen_iff maskedSum
  cases select_maskedSum.symm.trans hr
  have hstop : (run maskedSum maskedSumSelection.watched control 5).running = false := by
    decide
  have hsound := soundRanges_of_stopped hstop (by decide)
  have hfits : ∀ n ≤ 5, ((run maskedSum maskedSumSelection.watched control n).values 3).Fits := by
    decide
  refine ⟨hsound, (hiff control hsound).mpr fun n hleak => ?_⟩
  rcases Nat.le_total n 5 with hn | hn
  · exact not_fits_of_leaks_maskedSum hleak (hfits n hn)
  · rw [run_stopped hstop hn] at hleak
    exact not_fits_of_leaks_maskedSum hleak (hfits 5 le_rfl)

end Uint32
