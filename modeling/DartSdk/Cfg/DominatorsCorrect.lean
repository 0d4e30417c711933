import DartSdk.Cfg.DiscoverBlocks
import DartSdk.Cfg.Dominators

/-!
# Cfg/DominatorsCorrect — the immediate dominators are exact

While the block `w` is processed, the blocks above `w` are *linked* (`Linked`): the parent of such a
block is an ancestor in the spanning tree, and its label is the least semidominator of the blocks
between — all of them above `w`.  After `compressPath` the parent is not above `w`, so that the
label speaks of **all** ancestors above `w`; this is what the semidominator of `w` needs.
-/

namespace Cfg

open Function List Forest Dominance Relation DepthFirst

variable {n : ℕ} {E : ℕ → ℕ → Prop} (t : DepthFirst n E) {cur : ℕ} {semi : ℕ → ℕ}

/-- The parent of a block that has one. -/
def Forest.up (f : Forest) (v : ℕ) : ℕ := (f.parent v).getD 0

/-- **The blocks above `w` are linked.** -/
structure Linked (w : ℕ) (f : Forest) : Prop where
  parent : ∀ v, 0 < v → v < n → f.parent v = some (f.up v)
  unlinked : ∀ v, 0 < v → v ≤ w → f.up v = t.parent v
  ancestor : ∀ v, w < v → v < n → f.up v < v ∧ Ancestor t.parent (f.up v) v
  above : ∀ v, w < v → v < n → ∀ u, Ancestor t.parent u v → f.up v < u → w < u
  label_mem : ∀ v, w < v → v < n → ∃ u, Ancestor t.parent u v ∧ f.up v < u ∧ f.label v = f.semi u
  label_le : ∀ v, w < v → v < n → ∀ u, Ancestor t.parent u v → f.up v < u → f.label v ≤ f.semi u

variable {t} {w : ℕ} {f : Forest}

theorem Forest.up_shortcut_self (f : Forest) (cur next : ℕ) :
    (f.shortcut cur next).up cur = f.up next :=
  congrArg (Option.getD · 0) (update_self ..)

theorem Forest.up_shortcut_of_ne (f : Forest) {v : ℕ} (next : ℕ) (h : v ≠ cur) :
    (f.shortcut cur next).up v = f.up v :=
  congrArg (Option.getD · 0) (update_of_ne h ..)

/-- The step of `compressPath` from a block to its parent. -/
theorem Linked.shortcut (h : Linked t w f) (hcur : w < cur) (hn : cur < n)
    (hnext : w < f.up cur) : Linked t w (f.shortcut cur (f.up cur)) := by
  obtain ⟨hlt, hanc⟩ := h.ancestor cur hcur hn
  obtain ⟨hlt', hanc'⟩ := h.ancestor (f.up cur) hnext (hlt.trans hn)
  -- the ancestors of `cur` above the new parent
  have hsplit {u : ℕ} (hu : Ancestor t.parent u cur) (hup : f.up (f.up cur) < u) :
      f.up cur < u ∨ (Ancestor t.parent u (f.up cur) ∧ f.up (f.up cur) < u) := by
    rcases lt_or_ge (f.up cur) u with hgt | hle
    · exact .inl hgt
    · exact .inr ⟨t.interval hn hu hle hlt.le, hup⟩
  have hself := f.up_shortcut_self cur (f.up cur)
  have hother {v : ℕ} (hv : v ≠ cur) := f.up_shortcut_of_ne (f.up cur) hv
  have hlabel : (f.shortcut cur (f.up cur)).label cur = min (f.label cur) (f.label (f.up cur)) :=
    update_self ..
  have hlabel' {v : ℕ} (hv : v ≠ cur) : (f.shortcut cur (f.up cur)).label v = f.label v :=
    update_of_ne hv ..
  refine ⟨fun v hpos hv => ?_, fun v hpos hv => ?_, fun v hwv hv => ?_, fun v hwv hv u hu hup => ?_,
    fun v hwv hv => ?_, fun v hwv hv u hu hup => ?_⟩
  · by_cases heq : v = cur
    · subst heq
      rw [hself]
      exact (update_self ..).trans (h.parent (f.up v) (by omega) (hlt.trans hn))
    · rw [hother heq]
      exact (update_of_ne heq ..).trans (h.parent v hpos hv)
  · rw [hother (by omega)]
    exact h.unlinked v hpos hv
  · by_cases heq : v = cur
    · subst heq
      rw [hself]
      exact ⟨hlt'.trans hlt, hanc'.trans hanc⟩
    · rw [hother heq]
      exact h.ancestor v hwv hv
  · by_cases heq : v = cur
    · subst heq
      rw [hself] at hup
      rcases hsplit hu hup with hgt | ⟨hu', hup'⟩
      · exact h.above v hwv hv u hu hgt
      · exact h.above (f.up v) hnext (hlt.trans hn) u hu' hup'
    · rw [hother heq] at hup
      exact h.above v hwv hv u hu hup
  · by_cases heq : v = cur
    · subst heq
      rw [hself, hlabel]
      rcases min_choice (f.label v) (f.label (f.up v)) with hmin | hmin
      · obtain ⟨u, hu, hup, heq⟩ := h.label_mem v hwv hv
        exact ⟨u, hu, hlt'.trans hup, hmin.trans heq⟩
      · obtain ⟨u, hu, hup, heq⟩ := h.label_mem (f.up v) hnext (hlt.trans hn)
        exact ⟨u, hu.trans hanc, hup, hmin.trans heq⟩
    · rw [hother heq, hlabel' heq]
      exact h.label_mem v hwv hv
  · by_cases heq : v = cur
    · subst heq
      rw [hself] at hup
      rw [hlabel]
      rcases hsplit hu hup with hgt | ⟨hu', hup'⟩
      · exact (min_le_left ..).trans (h.label_le v hwv hv u hu hgt)
      · exact (min_le_right ..).trans (h.label_le (f.up v) hnext (hlt.trans hn) u hu' hup')
    · rw [hother heq] at hup
      rw [hlabel' heq]
      exact h.label_le v hwv hv u hu hup

/-- **`compressPath`** keeps the links; the parent of its block is no longer above `w`. -/
theorem Linked.compressPath (h : Linked t w f) {fuel : ℕ} (hcur : w < cur) (hn : cur < n)
    (hfuel : cur < fuel) : ∃ f', f.compressPath w fuel cur = some f' ∧ Linked t w f' ∧
      f'.up cur ≤ w ∧ f'.semi = f.semi ∧ ∀ v, cur < v → f'.up v = f.up v := by
  induction fuel generalizing cur f with
  | zero => omega
  | succ fuel ih =>
    have hparent := h.parent cur (by omega) hn
    obtain ⟨hlt, -⟩ := h.ancestor cur hcur hn
    rw [compressPath, hparent]
    dsimp only
    split
    · next hnext =>
      obtain ⟨f1, hf1, hlinked, hup, hsemi, hrest⟩ := ih h hnext (hlt.trans hn) (by omega)
      have hcur1 : f1.up cur = f.up cur := hrest cur hlt
      rw [hf1, Option.map_some]
      have hshort := hlinked.shortcut hcur hn (by rw [hcur1]; exact hnext)
      rw [hcur1] at hshort
      refine ⟨_, rfl, hshort, ?_, hsemi, fun v hv => ?_⟩
      · rw [up_shortcut_self]
        exact hup
      · rw [up_shortcut_of_ne _ _ (by omega)]
        exact hrest v (hlt.trans hv)
    · next hnext => exact ⟨f, rfl, h, not_lt.mp hnext, rfl, fun _ _ => rfl⟩

/-! ## The semidominator of a block

Every predecessor contributes the label of its compressed path; the least one is the
semidominator. -/

theorem exists_semi_le (hsemi : ∀ u, w < u → u < n → IsSemidominator E (semi u) u) {v : ℕ}
    (hw : w < v) (hv : v < n) : ∃ u, w < u ∧ Ancestor t.parent u v ∧ semi u ≤ w := by
  classical
  have hex : ∃ u, w < u ∧ Ancestor t.parent u v := ⟨v, hw, .refl⟩
  obtain ⟨hwu, hu⟩ := Nat.find_spec hex
  have hun : Nat.find hex < n := (t.ancestor_le hv hu).trans_lt hv
  have hpos : 0 < Nat.find hex := by omega
  have hlt := t.parent_lt hpos hun
  have hparent : t.parent (Nat.find hex) ≤ w := by
    by_contra hgt
    exact Nat.find_min hex hlt ⟨not_le.mp hgt, ReflTransGen.head ⟨hpos, rfl⟩ hu⟩
  exact ⟨_, hwu, hu, (t.semidominator_le_parent (hsemi _ hwu hun) hpos hun).trans hparent⟩

variable (t) in
/-- **While `w` is processed**: its entry is the least of what the predecessors seen so far give. -/
structure Processing (w : ℕ) (done : List ℕ) (f : Forest) : Prop where
  linked : Linked t w f
  semi_above : ∀ u, w < u → u < n → IsSemidominator E (f.semi u) u
  semi_below : ∀ u, u < w → f.semi u = u
  le : f.semi w ≤ w
  mem : f.semi w = w ∨ E (f.semi w) w ∨
    ∃ u v, w < u ∧ f.semi w = f.semi u ∧ Ancestor t.parent u v ∧ E v w
  done : ∀ v ∈ done, f.semi w ≤ v ∧ ∀ u, w < u → Ancestor t.parent u v → f.semi w ≤ f.semi u

namespace Processing

variable {done : List ℕ} {best v : ℕ}

variable (h : Processing t w done f)

include h

theorem update_semi (hbest : best ≤ w) : (f.update w best).semi w = min (f.semi w) best := by
  refine (update_self ..).trans ?_
  rcases hbest.lt_or_eq with hlt | rfl
  · rw [h.semi_below best hlt]
  · rw [min_self, min_eq_left h.le]

/-- What a predecessor gives: a number that is not above `w`, and at most what it has to be. -/
theorem update (hbest : best ≤ w)
    (hmem : best = w ∨ E best w ∨ ∃ u, w < u ∧ best = f.semi u ∧ Ancestor t.parent u v ∧ E v w)
    (hle : min (f.semi w) best ≤ v) (hanc : ∀ u, w < u → Ancestor t.parent u v → best ≤ f.semi u) :
    Processing t w (v :: done) (f.update w best) := by
  have hsemi := h.update_semi hbest
  have hother {u : ℕ} (hu : u ≠ w) : (f.update w best).semi u = f.semi u := update_of_ne hu ..
  refine ⟨?_, fun u hu hn => ?_, fun u hu => ?_, ?_, ?_, fun x hx => ?_⟩
  · refine { h.linked with label_mem := fun v hv hn => ?_, label_le := fun v hv hn u hu hup => ?_ }
    · obtain ⟨u, hu, hup, heq⟩ := h.linked.label_mem v hv hn
      exact ⟨u, hu, hup, heq.trans (hother (h.linked.above v hv hn u hu hup).ne').symm⟩
    · rw [hother (h.linked.above v hv hn u hu hup).ne']
      exact h.linked.label_le v hv hn u hu hup
  · rw [hother hu.ne']
    exact h.semi_above u hu hn
  · rw [hother hu.ne]
    exact h.semi_below u hu
  · rw [hsemi]
    exact (min_le_left ..).trans h.le
  · rw [hsemi]
    rcases min_choice (f.semi w) best with hmin | hmin
    · rw [hmin]
      refine h.mem.imp_right (Or.imp_right ?_)
      rintro ⟨u, v, hu, heq, hanc⟩
      exact ⟨u, v, hu, heq.trans (hother hu.ne').symm, hanc⟩
    · rw [hmin]
      refine hmem.imp_right (Or.imp_right ?_)
      rintro ⟨u, hu, heq, hanc⟩
      exact ⟨u, v, hu, heq.trans (hother hu.ne').symm, hanc⟩
  · rw [hsemi]
    rcases mem_cons.mp hx with rfl | hx
    · refine ⟨hle, fun u hu hux => ?_⟩
      rw [hother hu.ne']
      exact (min_le_right ..).trans (hanc u hu hux)
    · obtain ⟨hxle, hxanc⟩ := h.done x hx
      refine ⟨(min_le_left ..).trans hxle, fun u hu hux => ?_⟩
      rw [hother hu.ne']
      exact (min_le_left ..).trans (hxanc u hu hux)

/-- **A predecessor.** -/
theorem visitPredecessor (hedge : E v w) :
    ∃ f', f.visitPredecessor w v = some f' ∧ Processing t w (v :: done) f' := by
  have hvn := (t.edge_lt hedge).1
  rw [Forest.visitPredecessor]
  split
  · next hgt =>
    obtain ⟨f1, hf1, hlinked, hup, hsemi, -⟩ := h.linked.compressPath hgt hvn (Nat.lt_succ_self v)
    have h1 : Processing t w done f1 := by
      refine ⟨hlinked, ?_, ?_, ?_, ?_, ?_⟩ <;> rw [hsemi]
      exacts [h.semi_above, h.semi_below, h.le, h.mem, h.done]
    rw [hf1, Option.map_some]
    -- the label is the least semidominator of the ancestors above `w`
    have hleast {u : ℕ} (hu : w < u) (hanc : Ancestor t.parent u v) : f1.label v ≤ f1.semi u :=
      hlinked.label_le v hgt hvn u hanc (hup.trans_lt hu)
    obtain ⟨u, hanc, hupu, heq⟩ := hlinked.label_mem v hgt hvn
    obtain ⟨u', hu', hanc', hle'⟩ := exists_semi_le (t := t) h1.semi_above hgt hvn
    refine ⟨_, rfl, h1.update ((hleast hu' hanc').trans hle')
      (.inr (.inr ⟨u, ?_, heq, hanc, hedge⟩)) ?_
      fun u hu hanc => hleast hu hanc⟩
    · exact hlinked.above v hgt hvn u hanc hupu
    · exact (min_le_left ..).trans (h1.le.trans hgt.le)
  · next hle =>
    refine ⟨_, rfl, h.update (not_lt.mp hle) (.inr (.inl hedge))
      (min_le_right ..) fun u hu hanc => ?_⟩
    have := t.ancestor_le hvn hanc
    omega

theorem visitPredecessors {preds : List ℕ} (hedge : ∀ v ∈ preds, E v w) :
    ∃ f', preds.foldlM (Forest.visitPredecessor w) f = some f' ∧
      Processing t w (preds.reverse ++ done) f' := by
  induction preds generalizing done f with
  | nil => exact ⟨f, rfl, h⟩
  | cons v preds ih =>
    obtain ⟨f1, hf1, h1⟩ := h.visitPredecessor (hedge v mem_cons_self)
    obtain ⟨f', hf', h'⟩ := ih h1 fun x hx => hedge x (mem_cons_of_mem _ hx)
    refine ⟨f', ?_, ?_⟩
    · rw [foldlM_cons, hf1]
      exact hf'
    · rw [reverse_cons, append_assoc]
      exact h'

/-- When all predecessors have been seen, the entry is the semidominator. -/
theorem isSemidominator (hall : ∀ v, E v w → v ∈ done) (hpos : 0 < w)
    (hn : w < n) : IsSemidominator E (f.semi w) w := by
  have hparent := t.parent_edge hpos hn
  have hlt : f.semi w < w := (h.done _ (hall _ hparent)).1.trans_lt (t.parent_lt hpos hn)
  refine t.isSemidominator_of h.semi_above (h.mem.resolve_left hlt.ne)
    (fun v hv => ?_) fun u v hu hanc hv => ?_
  · exact (h.done v (hall v hv)).1
  · exact (h.done v (hall v hv)).2 u hu hanc

end Processing

variable (t) in
/-- **Between two blocks of the first pass**: the blocks above `w` have been processed. -/
structure Processed (w : ℕ) (f : Forest) : Prop where
  linked : Linked t w f
  semi_above : ∀ u, w < u → u < n → IsSemidominator E (f.semi u) u
  semi_below : ∀ u, u ≤ w → f.semi u = u

/-- The block that has been processed is linked, with its semidominator as label. -/
theorem Linked.link (h : Linked t (w + 1) f) :
    Linked t w { f with label := update f.label (w + 1) (f.semi (w + 1)) } := by
  have hup : f.up (w + 1) = t.parent (w + 1) := h.unlinked (w + 1) (Nat.succ_pos w) le_rfl
  have honly {u : ℕ} (hn : w + 1 < n) (hanc : Ancestor t.parent u (w + 1))
    (hlt : f.up (w + 1) < u) :
      u = w + 1 := by
    rcases ancestor_iff.mp hanc with heq | ⟨-, hanc⟩
    · exact heq
    · have hparent := t.parent_lt (v := w + 1) (by omega) hn
      have := t.ancestor_le (hparent.trans hn) hanc
      omega
  have hlabel {v : ℕ} (hv : v ≠ w + 1) : update f.label (w + 1) (f.semi (w + 1)) v = f.label v :=
    update_of_ne hv ..
  refine ⟨h.parent, fun v hpos hv => h.unlinked v hpos (by omega), fun v hv hn => ?_,
    fun v hv hn u hu hlt => ?_, fun v hv hn => ?_, fun v hv hn u hu hlt => ?_⟩
  · by_cases heq : v = w + 1
    · subst heq
      change f.up (w + 1) < _ ∧ Ancestor t.parent (f.up (w + 1)) _
      rw [hup]
      exact ⟨t.parent_lt (Nat.succ_pos w) hn, .single ⟨Nat.succ_pos w, rfl⟩⟩
    · exact h.ancestor v (by omega) hn
  · by_cases heq : v = w + 1
    · subst heq
      rw [honly hn hu hlt]
      exact Nat.lt_succ_self w
    · have := h.above v (by omega) hn u hu hlt
      omega
  · by_cases heq : v = w + 1
    · subst heq
      refine ⟨w + 1, .refl, ?_, update_self ..⟩
      change f.up (w + 1) < _
      rw [hup]
      exact t.parent_lt (Nat.succ_pos w) hn
    · obtain ⟨u, hu, hlt, hmem⟩ := h.label_mem v (by omega) hn
      exact ⟨u, hu, hlt, (hlabel heq).trans hmem⟩
  · by_cases heq : v = w + 1
    · subst heq
      rw [honly hn hu hlt]
      exact (update_self ..).le
    · refine (hlabel heq).trans_le ?_
      exact h.label_le v (by omega) hn u hu hlt

section

variable {predecessors : ℕ → List ℕ} (hpreds : ∀ w, 0 < w → w < n → ∀ v, v ∈ predecessors w ↔ E v w)

include hpreds

theorem Processed.visitBlock (h : Processed t (w + 1) f) (hn : w + 1 < n) :
    ∃ f', f.visitBlock predecessors (w + 1) = some f' ∧ Processed t w f' := by
  have hself := h.semi_below (w + 1) le_rfl
  have hstart : Processing t (w + 1) [] f :=
    ⟨h.linked, h.semi_above, fun u hu => h.semi_below u hu.le, hself.le, .inl hself,
    fun _ hv => absurd hv not_mem_nil⟩
  have hmem := hpreds (w + 1) (Nat.succ_pos w) hn
  obtain ⟨f1, hf1, h1⟩ := hstart.visitPredecessors fun v hv => (hmem v).mp hv
  have hsemi := h1.isSemidominator (fun v hv => by simpa using (hmem v).mpr hv) (Nat.succ_pos w) hn
  refine ⟨_, by rw [Forest.visitBlock, hf1]; rfl, h1.linked.link, fun u hu hun => ?_,
    fun u hu => ?_⟩
  · by_cases heq : u = w + 1
    · exact heq ▸ hsemi
    · exact h1.semi_above u (by omega) hun
  · exact h1.semi_below u (by omega)

/-- **The first pass** finds all semidominators. -/
theorem Processed.computeSemi (h : Processed t w f) (hn : w < n) :
    ∃ f', f.computeSemi predecessors w = some f' ∧ Processed t 0 f' := by
  induction w generalizing f with
  | zero => exact ⟨f, rfl, h⟩
  | succ w ih =>
    obtain ⟨f1, hf1, h1⟩ := h.visitBlock hpreds hn
    obtain ⟨f', hf', h'⟩ := ih h1 (by omega)
    exact ⟨f', by rw [computeSemi, hf1]; exact hf', h'⟩

end

/-- **The ascent** ends at the immediate dominator.  Its invariant: the current block dominates the
parent, and all dominators of `w` dominate it. -/
theorem ascend_spec {semi : ℕ} (hsemi : IsSemidominator E semi w) (hpos : 0 < w) (hn : w < n)
    {idom : ℕ → Option ℕ}
    (hidom : ∀ v, 0 < v → v < w → ∃ d, idom v = some d ∧ IsImmediate E 0 d v) {fuel x : ℕ}
    (hfuel : x < fuel) (hx : x < w) (hdom : Dominates E 0 x (t.parent w))
    (hall : ∀ e, e ≠ w → Dominates E 0 e w → Dominates E 0 e x) :
    ∃ d, Dominators.ascend idom semi fuel x = some d ∧ IsImmediate E 0 d w := by
  induction fuel generalizing x with
  | zero => omega
  | succ fuel ih =>
    rw [Dominators.ascend]
    split
    · next hgt =>
      obtain ⟨y, hy, himmediate⟩ := hidom x (by omega) hx
      have hyx : y < x := lt_of_le_of_ne
        (t.ancestor_le (hx.trans hn) (t.ancestor_of_dominates (hx.trans hn) himmediate.dominates))
        himmediate.ne
      rw [hy, Option.bind_some]
      refine ih (by omega) (by omega) (himmediate.dominates.trans hdom) fun e hne he => ?_
      -- a dominator of `w` is not above the semidominator, so it is not `x`
      have hle := t.le_semidominator hsemi hpos hn he hne
      exact himmediate.least e (by omega) (hall e hne he)
    · next hle => exact ⟨x, rfl, t.isImmediate_of hsemi hpos hn hdom (not_lt.mp hle) hall⟩

variable (t) in
/-- **The second pass, before the block `w`**: the blocks below `w` have their immediate
dominators. -/
structure Dominated (w : ℕ) (d : Dominators) : Prop where
  entry : d.idom 0 = none
  below : ∀ v, 0 < v → v < w → ∃ i, d.idom v = some i ∧ IsImmediate E 0 i v
  above : ∀ v, 0 < v → w ≤ v → v < n → d.idom v = some (t.parent v)
  dominated : ∀ i, d.dominated i = (range w).filter fun v => d.idom v = some i

theorem Dominated.visitBlock {d : Dominators} (h : Dominated t w d)
    (hsemi : IsSemidominator E (semi w) w) (hpos : 0 < w) (hn : w < n) :
    ∃ d', d.visitBlock semi w = some d' ∧ Dominated t (w + 1) d' := by
  have hparent := t.parent_lt hpos hn
  obtain ⟨i, hi, himmediate⟩ :=
    ascend_spec (t := t) hsemi hpos hn h.below (Nat.lt_succ_self (t.parent w))
    hparent (dominates_refl _) fun e hne he => he.of_edge hne (t.parent_edge hpos hn)
  refine ⟨_, by rw [Dominators.visitBlock, h.above w hpos le_rfl hn, Option.bind_some, hi]; rfl, ?_,
    ?_, ?_, ?_⟩
  · exact (update_of_ne hpos.ne ..).trans h.entry
  · intro v hv hlt
    by_cases heq : v = w
    · subst heq
      exact ⟨i, update_self .., himmediate⟩
    · obtain ⟨j, hj, hdom⟩ := h.below v hv (by omega)
      exact ⟨j, (update_of_ne heq ..).trans hj, hdom⟩
  · intro v hv hle hvn
    exact (update_of_ne (by omega) ..).trans (h.above v hv (by omega) hvn)
  · intro j
    have hrest : (range w).filter (fun v => update d.idom w (some i) v = some j) =
        (range w).filter fun v => d.idom v = some j :=
      filter_congr fun v hv => by rw [update_of_ne (mem_range.mp hv).ne]
    dsimp only
    rw [range_succ, filter_append, hrest, ← h.dominated]
    by_cases heq : j = i
    · subst heq
      simp
    · rw [update_of_ne heq]
      simp [Ne.symm heq]

theorem Dominated.visitBlocks {d : Dominators} (hpos : 0 < w) (h : Dominated t w d)
    (hsemi : ∀ v, 0 < v → v < n → IsSemidominator E (semi v) v) {k : ℕ} (hk : w + k = n) :
    ∃ d', (range' w k).foldlM (Dominators.visitBlock semi) d = some d' ∧ Dominated t n d' := by
  induction k generalizing w d with
  | zero => exact ⟨d, rfl, hk ▸ h⟩
  | succ k ih =>
    obtain ⟨d1, hd1, h1⟩ := h.visitBlock (hsemi w hpos (by omega)) hpos (by omega)
    obtain ⟨d', hd', h'⟩ := ih (Nat.succ_pos w) h1 (by omega)
    exact ⟨d', by rw [range'_succ, foldlM_cons, hd1]; exact hd', h'⟩

variable {Block : Type} [DecidableEq Block] {g : FlowGraph Block} {s : Discovery Block}
  {hasPhis : Block → Bool} {old : Block → List Block} {parent : ℕ → ℕ}

variable (h : Discovered g hasPhis old parent s)

include h

theorem Discovered.mem_predecessorIndices {v : ℕ} : v ∈ predecessorIndices s w ↔ s.Edge g v w := by
  rw [predecessorIndices, Discovery.Edge]
  cases hw : s.preorder[w]? with
  | none => simp
  | some b =>
    have hb : b ∈ s.preorder := mem_of_getElem? hw
    rw [mem_map]
    constructor
    · rintro ⟨u, hu, rfl⟩
      have hmem := h.predecessors_mem b hb u hu
      obtain ⟨i, hi⟩ := mem_iff_getElem?.mp hmem
      rw [h.numbered.numbers i u hi, Int.toNat_natCast]
      refine ⟨u, b, hi, rfl, count_pos_iff.mp ?_⟩
      rw [← h.counts u hmem b hb]
      exact count_pos_iff.mpr hu
    · rintro ⟨u, b', hu, hb', hedge⟩
      obtain rfl : b = b' := Option.some.inj hb'
      refine ⟨u, count_pos_iff.mp ?_, ?_⟩
      · rw [h.counts u (mem_of_getElem? hu) b hb]
        exact count_pos_iff.mpr hedge
      · rw [h.numbered.numbers v u hu, Int.toNat_natCast]

theorem Discovered.spanningParent_eq {i : ℕ} (hpos : 0 < i) (hi : i < s.preorder.length) :
    spanningParent s i = some (parent i) := by
  have hv := getElem?_eq_getElem hi
  obtain ⟨u, hu, -, hhead⟩ := h.parent_edge i hpos _ hv
  rw [spanningParent, if_neg hpos.ne', predecessorIndices, hv]
  rw [head?_map, hhead, Option.map_some, h.numbered.numbers _ u hu, Int.toNat_natCast]

/-- **`computeDominators` is exact**, by numbers. -/
theorem Discovered.computeDominators :
    ∃ d, computeDominators s = some d ∧ Dominated h.depthFirst s.preorder.length d := by
  have hsize : 0 < s.preorder.length := (List.getElem?_eq_some_iff.mp h.numbered.entry).1
  have hblocks : (List.range s.preorder.length).drop 1 = List.range' 1 (s.preorder.length - 1) := by
    rw [range_eq_range', drop_range', Nat.zero_add]
  have hnonempty : ((range s.preorder.length).drop 1).any
      (fun i => (predecessorIndices s i).isEmpty) = false := by
    rw [hblocks, any_eq_false]
    intro i hi hempty
    rw [mem_range'_1] at hi
    have hparent := h.spanningParent_eq (i := i) (by omega) (by omega)
    rw [spanningParent, if_neg (by omega), isEmpty_iff.mp hempty] at hparent
    cases hparent
  have hstart : Processed h.depthFirst (s.preorder.length - 1) ⟨spanningParent s, id, id⟩ := by
    have hup {v : ℕ} (hpos : 0 < v) (hv : v < s.preorder.length) :
        up ⟨spanningParent s, id, id⟩ v = parent v :=
      congrArg (Option.getD · 0) (h.spanningParent_eq hpos hv)
    refine ⟨⟨fun v hpos hv => ?_, fun v hpos hv => hup hpos (by omega), ?_, ?_, ?_, ?_⟩, ?_,
      fun _ _ => rfl⟩
    · rw [hup hpos hv]
      exact h.spanningParent_eq hpos hv
    all_goals
      intro v hv hn
      omega
  obtain ⟨f, hf, hprocessed⟩ :=
    hstart.computeSemi (fun w _ _ v => h.mem_predecessorIndices) (by omega)
  have hdominated : Dominated h.depthFirst 1 ⟨spanningParent s, fun _ => []⟩ := by
    refine ⟨rfl, fun v hpos hv => by omega, fun v hpos _ hv => h.spanningParent_eq hpos hv,
      fun i => ?_⟩
    simp [spanningParent]
  obtain ⟨d, hd, hall⟩ := hdominated.visitBlocks Nat.one_pos hprocessed.semi_above
    (k := s.preorder.length - 1) (by omega)
  refine ⟨d, ?_, hall⟩
  rw [Cfg.computeDominators, hnonempty, if_neg Bool.false_ne_true, hf, Option.bind_some, hblocks]
  exact hd

end Cfg
