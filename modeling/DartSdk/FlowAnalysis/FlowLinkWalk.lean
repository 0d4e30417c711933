import DartSdk.FlowAnalysis.FlowLink

/-!
# FlowAnalysis/FlowLinkWalk — the walk from two links to their common ancestor

`nearest` is the map of a link: the nearest link with a key on its chain.  A walk from two links
keeps track of the links it has passed on each side (`Follows`).

* The first link that a side has passed with a key is its value — if there is one.
* The pointer that was written last is the value of the key *ahead* on one of the sides, whichever
  side was visited last.  At the end both sides are at the ancestor, so it is the value there.

The sides never pass a common ancestor (`Reaches`): the deeper one walks first, and then both walk
in lock step while they differ.
-/

namespace FlowAnalysis

open Function List FlowLinks DiffEntry Chains Option

variable {Link : Type} {α : Type} {link : Link}

theorem getSafe_setSafe (l : List (Option α)) (i j : ℕ) (v : Option α) :
    getSafe (setSafe l i v) j = if i = j then v else getSafe l j := by
  rw [getSafe, setSafe, getElem?_set]
  split
  · next h =>
    rw [if_pos (by simp; omega)]
    rfl
  rw [getSafe, getElem?_append]
  split
  · rfl
  · next h =>
    rw [getElem?_eq_none (not_lt.mp h), getElem?_replicate]
    split <;> rfl

theorem getSafe_set {l : List (Option α)} {i : ℕ} (j : ℕ) :
    getSafe (l.set i none) j = if i = j then none else getSafe l j := by
  rw [getSafe, getElem?_set, getSafe]
  split
  · split <;> rfl
  · rfl

theorem lt_length_of_getSafe {l : List (Option α)} {i : ℕ} {a : α}
    (h : getSafe l i = some a) : i < l.length := by
  by_contra hlt
  rw [getSafe, getElem?_eq_none (not_lt.mp hlt)] at h
  exact absurd h (by simp)

variable (t : FlowLinks Link)

/-- **The map of a link**: the nearest link with a key. -/
def FlowLinks.nearest (key : ℕ) (link : Option Link) : Option Link :=
  (t.chain link).find? fun l => t.key l = key

/-- `a` is the deepest common ancestor. -/
def FlowLinks.DeepestCommonAncestor (left right a : Option Link) : Prop :=
  (t.chain a <:+ t.chain left ∧ t.chain a <:+ t.chain right) ∧
    ∀ b, t.chain b <:+ t.chain left → t.chain b <:+ t.chain right → t.chain b <:+ t.chain a

/-- The links from `link` to an ancestor, without the ancestor. -/
def FlowLinks.linksTo (link a : Option Link) : List Link :=
  (t.chain link).take (t.depthOf link - t.depthOf a)

/-- **A difference**: the deepest common ancestor, and an entry for each key on the way to it. -/
structure FlowLinks.IsDifference (left right a : Option Link) (entries : List (DiffEntry Link)) :
    Prop where
  ancestor : t.DeepestCommonAncestor left right a
  nodup : (entries.map DiffEntry.key).Nodup
  keys : ∀ key, key ∈ entries.map DiffEntry.key ↔
    ∃ link ∈ t.linksTo left a ++ t.linksTo right a, t.key link = key
  values : ∀ entry ∈ entries, entry.left = t.nearest entry.key left ∧
    entry.right = t.nearest entry.key right ∧ entry.ancestor = t.nearest entry.key a

variable {t}

theorem FlowLinks.nearest_some (key : ℕ) (link : Link) : t.nearest key (some link) =
    if t.key link = key then some link else t.nearest key (t.previous link) := by
  rw [nearest, chain_some, find?_cons]
  split
  · next h => rw [if_pos (of_decide_eq_true h)]
  · next h => rw [if_neg (of_decide_eq_false h), nearest]

theorem KeyedLinks.computePreviousForKey_eq (t : KeyedLinks Link) (key : ℕ) (link : Option Link) :
    t.computePreviousForKey key link = (t.chain link).find? fun l => t.key l = key := by
  fun_induction KeyedLinks.computePreviousForKey t key link with
  | case1 => rw [chain_none, find?_nil]
  | case2 link h => simp [chain_some, h]
  | case3 link h ih => simp [ih, chain_some, h]

theorem FlowLinks.previousForKey_nearest (link : Link) :
    t.previousForKey link = t.nearest (t.key link) (t.previous link) := by
  rw [t.previousForKey_eq, KeyedLinks.computePreviousForKey_eq]
  rfl

/-- The first link of a side. -/
def DiffEntry.first (entry : DiffEntry Link) : Side → Option Link
  | .left => entry.firstLeft
  | .right => entry.firstRight

@[simp] theorem DiffEntry.key_visit (entry : DiffEntry Link) (side : Side) (link : Link)
    (p : Option Link) : (entry.visit side link p).key = entry.key := by
  cases side <;> rfl

@[simp] theorem DiffEntry.previousForKey_visit (entry : DiffEntry Link) (side : Side) (link : Link)
    (p : Option Link) : (entry.visit side link p).previousForKey = p := by
  cases side <;> rfl

theorem DiffEntry.first_visit (entry : DiffEntry Link) (side side' : Side) (link : Link)
    (p : Option Link) : (entry.visit side link p).first side' =
      if side' = side then (entry.first side).or (some link) else entry.first side' := by
  cases side <;> cases side' <;> rfl

/-- **The scratch area follows the walk**: `path` are the links that were passed on each side, `pos`
is where the sides are. -/
structure Follows (t : FlowLinks Link) (path : Side → List Link) (pos : Side → Option Link)
    (s : Scratch Link) : Prop where
  indices : ∀ key i, getSafe s.diffIndices key = some i ↔
    (s.entries.map DiffEntry.key)[i]? = some key
  keys : ∀ key, key ∈ s.entries.map DiffEntry.key ↔ ∃ side, ∃ link ∈ path side, t.key link = key
  first : ∀ entry ∈ s.entries, ∀ side,
    entry.first side = (path side).find? fun link => t.key link = entry.key
  ahead : ∀ entry ∈ s.entries, ∃ side, entry.previousForKey = t.nearest entry.key (pos side)

/-- The path of a side after a step. -/
def pass (path : Side → List Link) (side : Side) (link : Link) : Side → List Link :=
  update path side (path side ++ [link])

variable {path : Side → List Link} {side : Side}

theorem mem_pass {P : Link → Prop} :
    (∃ side', ∃ l ∈ pass path side link side', P l) ↔
      (∃ side', ∃ l ∈ path side', P l) ∨ P link := by
  have hmem (side') (l) : l ∈ pass path side link side' ↔
      l ∈ path side' ∨ side' = side ∧ l = link := by
    rw [pass, update_apply]
    split_ifs with hside <;> simp [hside]
  simp [hmem, or_and_right, exists_or]

theorem find_pass_of_ne {key : ℕ} (h : t.key link ≠ key) (side' : Side) :
    (pass path side link side').find? (fun l => t.key l = key) =
      (path side').find? fun l => t.key l = key := by
  by_cases hside : side' = side
  · subst hside
    rw [pass, update_self, find?_append]
    simp [h]
  · rw [pass, update_of_ne hside]

theorem find_pass_self (side' : Side) :
    (pass path side link side').find? (fun l => t.key l = t.key link) =
      if side' = side then ((path side).find? fun l => t.key l = t.key link).or (some link)
      else (path side').find? fun l => t.key l = t.key link := by
  by_cases hside : side' = side
  · subst hside
    rw [pass, update_self, find?_append, if_pos rfl]
    simp
  · rw [pass, update_of_ne hside, if_neg hside]

namespace Follows

variable {path : Side → List Link} {pos : Side → Option Link} {s : Scratch Link} {link : Link}
  {key : ℕ}

theorem start {diffIndices : List (Option ℕ)} (h : ∀ key, getSafe diffIndices key = none) :
    Follows t (fun _ => []) pos ⟨[], diffIndices⟩ where
  indices key i := by simp [h]
  keys key := by simp
  first entry h := absurd h not_mem_nil
  ahead entry h := absurd h not_mem_nil

variable {side : Side}

/-- A pointer to the value ahead stays right if the side passes a link with another key. -/
theorem ahead_step (hpos : pos side = some link)
    (hkey : t.key link ≠ key) {p : Option Link} (h : ∃ side', p = t.nearest key (pos side')) :
    ∃ side', p = t.nearest key (update pos side (t.previous link) side') := by
  obtain ⟨side', rfl⟩ := h
  refine ⟨side', ?_⟩
  by_cases hside : side' = side
  · subst hside
    rw [update_self, hpos, nearest_some, if_neg hkey]
  · rw [update_of_ne hside]

variable (h : Follows t path pos s)

include h

/-- A key without an index has no entry. -/
theorem not_mem_of_getSafe
    (hindex : getSafe s.diffIndices key = none) : key ∉ s.entries.map DiffEntry.key := by
  intro hmem
  obtain ⟨i, hi⟩ := getElem?_of_mem hmem
  rw [(h.indices key i).mpr hi] at hindex
  exact absurd hindex (by simp)

theorem key_ne (hindex : getSafe s.diffIndices key = none)
    {entry : DiffEntry Link} (hentry : entry ∈ s.entries) : key ≠ entry.key :=
  fun heq => h.not_mem_of_getSafe hindex (heq ▸ mem_map_of_mem hentry)

/-- A step that meets a new key. -/
theorem step_new (hpos : pos side = some link)
    (hindex : getSafe s.diffIndices (t.key link) = none) :
    Follows t (pass path side link) (update pos side (t.previous link))
      { entries := s.entries ++
          [DiffEntry.visit ⟨t.key link, none, none, none⟩ side link (t.previousForKey link)]
        diffIndices := setSafe s.diffIndices (t.key link) (some s.entries.length) } where
  indices key i := by
    rw [getSafe_setSafe, map_append, getElem?_append, length_map, map_singleton, key_visit]
    split
    · next heq =>
      subst heq
      split
      · next hlt =>
        refine ⟨fun h => absurd (some.inj h) (by omega), fun hi => ?_⟩
        exact absurd (mem_of_getElem? hi) (h.not_mem_of_getSafe hindex)
      · next hlt =>
        rw [getElem?_singleton]
        split
        · exact ⟨fun _ => rfl, fun _ => congrArg some (by omega)⟩
        · exact ⟨fun h => absurd (some.inj h) (by omega), fun h => absurd h (by simp)⟩
    · next hne =>
      rw [h.indices]
      split
      · rfl
      next hlt =>
      rw [getElem?_eq_none (by simpa using hlt), getElem?_singleton]
      split
      · exact ⟨fun h => absurd h (by simp), fun h => absurd (some.inj h) hne⟩
      · rfl
  keys key := by
    rw [mem_pass, ← h.keys, map_append, mem_append, map_singleton, mem_singleton, key_visit]
    exact or_congr_right eq_comm
  first entry hentry side' := by
    rcases mem_append.mp hentry with hentry | hentry
    · rw [h.first entry hentry, find_pass_of_ne (h.key_ne hindex hentry)]
    -- No link that was passed has the new key.
    have hpassed (side'') : ((path side'').find? fun l => t.key l = t.key link) = none := by
      rw [find?_eq_none]
      intro l hl heq
      exact h.not_mem_of_getSafe hindex ((h.keys _).mpr ⟨side'', l, hl, of_decide_eq_true heq⟩)
    rw [mem_singleton.mp hentry, DiffEntry.key_visit, find_pass_self, hpassed, hpassed,
      DiffEntry.first_visit]
    cases side <;> cases side' <;> rfl
  ahead entry hentry := by
    rcases mem_append.mp hentry with hentry | hentry
    · exact ahead_step hpos (h.key_ne hindex hentry) (h.ahead entry hentry)
    · refine ⟨side, ?_⟩
      rw [mem_singleton.mp hentry, key_visit, previousForKey_visit,
        update_self, previousForKey_nearest]

/-- A step that meets a key again. -/
theorem step_again (hpos : pos side = some link)
    {index : ℕ} (hindex : getSafe s.diffIndices (t.key link) = some index) :
    Follows t (pass path side link) (update pos side (t.previous link))
      { s with
        entries := s.entries.modify index fun entry =>
          entry.visit side link (t.previousForKey link) } := by
  have hkeys : (s.entries.modify index fun entry =>
      entry.visit side link (t.previousForKey link)).map key = s.entries.map key := by
    refine ext_getElem? fun i => ?_
    rw [getElem?_map, getElem?_map, getElem?_modify]
    cases s.entries[i]? with
    | none => split <;> rfl
    | some entry => split <;> simp
  -- An entry is the one that was visited, or it has another key.
  have hentries : ∀ entry ∈ s.entries.modify index (fun entry =>
      entry.visit side link (t.previousForKey link)),
      (∃ old ∈ s.entries, old.key = t.key link ∧
        entry = old.visit side link (t.previousForKey link)) ∨
      (entry ∈ s.entries ∧ t.key link ≠ entry.key) := by
    intro entry hentry
    obtain ⟨i, hi⟩ := getElem?_of_mem hentry
    rw [getElem?_modify] at hi
    split at hi
    · next heq =>
      subst heq
      obtain ⟨old, hold, rfl⟩ := map_eq_some_iff.mp hi
      refine .inl ⟨old, mem_of_getElem? hold, ?_, rfl⟩
      have hkey := (h.indices _ _).mp hindex
      rw [getElem?_map, hold] at hkey
      exact some.inj hkey
    · next hne =>
      have hold : s.entries[i]? = some entry := by simpa using hi
      refine .inr ⟨mem_of_getElem? hold, fun heq => hne ?_⟩
      have hkey : getSafe s.diffIndices (t.key link) = some i := by
        rw [h.indices, getElem?_map, hold, heq]
        rfl
      exact some.inj (hindex.symm.trans hkey)
  refine ⟨fun key i => ?_, fun key => ?_, fun entry hentry side' => ?_, fun entry hentry => ?_⟩
  · rw [hkeys]
    exact h.indices key i
  · rw [hkeys, mem_pass, ← h.keys]
    refine ⟨.inl, fun hor => hor.elim id ?_⟩
    rintro rfl
    exact mem_of_getElem? ((h.indices _ _).mp hindex)
  · rcases hentries entry hentry with ⟨old, hold, hkey, rfl⟩ | ⟨hold, hne⟩
    · rw [key_visit, hkey, find_pass_self, first_visit, h.first old hold, h.first old hold, hkey]
    · rw [h.first entry hold, find_pass_of_ne hne]
  · rcases hentries entry hentry with ⟨old, hold, hkey, rfl⟩ | ⟨hold, hne⟩
    · refine ⟨side, ?_⟩
      rw [key_visit, previousForKey_visit, hkey, update_self, previousForKey_nearest]
    · exact ahead_step hpos hne (h.ahead entry hold)

/-- **One step** of a side keeps the scratch area right, and does not fail. -/
theorem step (hpos : pos side = some link) :
    ∃ s', t.step side link s = some s' ∧
      Follows t (pass path side link) (update pos side (t.previous link)) s' := by
  rw [FlowLinks.step]
  cases hindex : getSafe s.diffIndices (t.key link) with
  | none => exact ⟨_, rfl, h.step_new hpos hindex⟩
  | some index =>
    have hlt : index < s.entries.length := by
      have hkey := (h.indices _ _).mp hindex
      by_contra hlt
      rw [getElem?_eq_none (by simpa using hlt)] at hkey
      exact absurd hkey (by simp)
    exact ⟨_, if_pos hlt, h.step_again hpos hindex⟩

end Follows

/-- **The sides have come** from their origins to `pos`, and have not passed a common ancestor. -/
structure Reaches (t : FlowLinks Link) (origin : Side → Option Link) (path : Side → List Link)
    (pos : Side → Option Link) : Prop where
  chain : ∀ side, t.chain (origin side) = path side ++ t.chain (pos side)
  common : ∀ b, (∀ side, t.chain b <:+ t.chain (origin side)) →
    ∀ side, t.chain b <:+ t.chain (pos side)

variable {origin : Side → Option Link} {path : Side → List Link} {pos : Side → Option Link}
  {s : Scratch Link}

theorem Reaches.start : Reaches t origin (fun _ => []) origin where
  chain _ := rfl
  common _ h := h

theorem Reaches.step (h : Reaches t origin path pos) {side : Side} {link : Link}
    (hpos : pos side = some link)
    (hne : ∀ b, (∀ side', t.chain b <:+ t.chain (pos side')) → b ≠ some link) :
    Reaches t origin (pass path side link) (update pos side (t.previous link)) where
  chain side' := by
    by_cases hside : side' = side
    · subst hside
      rw [pass, update_self, update_self, h.chain, hpos, chain_some, append_assoc, singleton_append]
    · rw [pass, update_of_ne hside, update_of_ne hside, h.chain]
  common b hb side' := by
    have hcommon := h.common b hb
    by_cases hside : side' = side
    · subst hside
      rw [update_self]
      exact suffix_previous (hpos ▸ hcommon side') (hne b hcommon)
    · rw [update_of_ne hside]
      exact hcommon side'

/-- The other side. -/
def Side.other : Side → Side
  | .left => .right
  | .right => .left

theorem Side.other_ne (side : Side) : side.other ≠ side := by cases side <;> decide

theorem FlowLinks.descend_spec (side : Side) {depth : ℕ} (hreaches : Reaches t origin path pos)
    (hfollows : Follows t path pos s) (hdepth : t.depthOf (pos side) = depth)
    (hle : t.depthOf (pos side.other) ≤ depth) :
    ∃ link s' path', t.descend side (t.depthOf (pos side.other)) depth (pos side) s =
      some (link, s') ∧
      t.depthOf link = t.depthOf (pos side.other) ∧
      Reaches t origin path' (update pos side link) ∧
      Follows t path' (update pos side link) s' := by
  induction depth generalizing path pos s with
  | zero =>
    refine ⟨pos side, s, path, rfl, by omega, ?_, ?_⟩
    all_goals rwa [update_eq_self]
  | succ depth ih =>
    cases hpos : pos side with
    | none => exact absurd (hpos ▸ hdepth) (by simp)
    | some link =>
      have hprevious : t.depthOf (t.previous link) = depth := by
        have := t.depthOf_some link
        rw [hpos] at hdepth
        omega
      rw [descend]
      split
      · next hgt =>
        have hother : update pos side (t.previous link) side.other = pos side.other :=
          update_of_ne side.other_ne _ _
        obtain ⟨s', hstep, hfollows'⟩ := hfollows.step hpos
        have hreaches' := hreaches.step hpos fun b hb heq => by
          have := depthOf_le_of_suffix (hb side.other)
          rw [heq, ← hpos, hdepth] at this
          omega
        have hnext := ih hreaches' hfollows' (by rw [update_self, hprevious])
          (by rw [hother]; omega)
        rw [update_self, hother] at hnext
        simp only [update_idem] at hnext
        rw [hstep]
        exact hnext
      · refine ⟨some link, s, path, rfl, by rw [← hpos]; omega, ?_, ?_⟩
        all_goals rwa [← hpos, update_eq_self]

variable [DecidableEq Link]

theorem FlowLinks.walk_self (a : Option Link) : t.walk a a s = some (a, s) := by
  rw [walk.eq_def, if_pos rfl]

theorem FlowLinks.walk_of_ne {l r : Link} (hne : l ≠ r) : t.walk (some l) (some r) s =
    (t.stepLeft l s).bind fun s => (t.stepRight r s).bind fun s =>
      t.walk (t.previous l) (t.previous r) s := by
  rw [walk, if_neg (by simpa using hne)]

omit [DecidableEq Link] in
/-- Different links of one depth are no root. -/
theorem FlowLinks.exists_of_ne {a b : Option Link} (hdepth : t.depthOf a = t.depthOf b)
    (hne : a ≠ b) :
    ∃ l r, a = some l ∧ b = some r := by
  cases a with
  | none =>
    cases b with
    | none => exact absurd rfl hne
    | some r => exact absurd hdepth (by rw [depthOf_some, depthOf_none]; omega)
  | some l =>
    cases b with
    | none => exact absurd hdepth (by rw [depthOf_some, depthOf_none]; omega)
    | some r => exact ⟨l, r, rfl, rfl⟩

omit [DecidableEq Link] in
theorem Reaches.step_both (h : Reaches t origin path pos) {l r : Link} (hl : pos .left = some l)
    (hr : pos .right = some r) (hdepth : t.depthOf (pos .left) = t.depthOf (pos .right))
    (hne : l ≠ r) :
    Reaches t origin (pass (pass path .left l) .right r)
      (update (update pos .left (t.previous l)) .right (t.previous r)) := by
  have hright : update pos .left (t.previous l) .right = some r := hr
  refine (h.step hl fun b hb heq => hne ?_).step hright fun b hb heq => ?_
  · have hsuffix := hb .right
    rw [heq, hr] at hsuffix
    exact some.inj (eq_of_suffix hsuffix (by rw [← hl, ← hr, hdepth]))
  · -- A common ancestor is above the left side, which is above the right one.
    have hsuffix := depthOf_le_of_suffix (hb .left)
    have hprevious := t.depthOf_some l
    rw [update_self, heq, ← hr, ← hdepth, hl] at hsuffix
    omega

theorem FlowLinks.walk_spec (hreaches : Reaches t origin path pos) (hfollows : Follows t path pos s)
    (hdepth : t.depthOf (pos .left) = t.depthOf (pos .right)) :
    ∃ a s' path', t.walk (pos .left) (pos .right) s = some (a, s') ∧
      Reaches t origin path' (fun _ => a) ∧ Follows t path' (fun _ => a) s' := by
  induction hsize : t.depthOf (pos .left) using Nat.strong_induction_on generalizing path pos s with
  | _ size ih =>
  by_cases heq : pos .left = pos .right
  · have hpos : pos = fun _ => pos .left := by
      funext side
      cases side
      · rfl
      · exact heq.symm
    refine ⟨pos .left, s, path, ?_, hpos ▸ hreaches, hpos ▸ hfollows⟩
    rw [← heq, walk_self]
  obtain ⟨l, r, hl, hr⟩ := exists_of_ne hdepth heq
  have hne : l ≠ r := fun h => heq (by rw [hl, hr, h])
  obtain ⟨s1, hstep1, hfollows1⟩ := hfollows.step hl
  have hr1 : update pos .left (t.previous l) .right = some r := hr
  obtain ⟨s2, hstep2, hfollows2⟩ := hfollows1.step hr1
  have hdepthl := t.depthOf_some l
  have hdepthr := t.depthOf_some r
  rw [hl, hr] at hdepth
  rw [hl] at hsize
  rw [hl, hr, walk_of_ne hne, stepLeft, hstep1, bind_some, stepRight, hstep2, bind_some]
  refine ih (t.depthOf (t.previous l)) (by omega)
    (hreaches.step_both hl hr (by rw [hl, hr, hdepth]) hne) hfollows2 ?_ rfl
  change t.depthOf (t.previous l) = t.depthOf (t.previous r)
  omega

end FlowAnalysis
