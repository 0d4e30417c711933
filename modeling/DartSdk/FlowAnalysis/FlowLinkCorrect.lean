import DartSdk.FlowAnalysis.FlowLinkWalk

/-!
# FlowAnalysis/FlowLinkCorrect — the reader sees the maps as they are

A walk ends with the difference of its two links (`IsDifference`), and leaves the scratch list all
`null`.  So the cache is the map of the link that was read last (`Reader.Exact`), wherever the calls
jump in the tree; `run_exact` is this for any history of calls.
-/

namespace FlowAnalysis

open List Option FlowLinks Reader

variable {Link : Type} {t : FlowLinks Link}

section

variable {origin : Side → Option Link} {path : Side → List Link} {pos : Side → Option Link}
  {s : Scratch Link}

variable {a : Option Link}

/-! ## A difference

The entries have what each key has on both sides and at the ancestor. -/

/-- The loop that clears the scratch list. -/
theorem clear_spec {entries : List (DiffEntry Link)} {diffIndices : List (Option ℕ)}
    (h : ∀ entry ∈ entries, entry.key < diffIndices.length) :
    ∃ cleared, clear entries diffIndices = some cleared ∧ ∀ key,
      getSafe cleared key = if key ∈ entries.map DiffEntry.key then none
        else getSafe diffIndices key := by
  induction entries generalizing diffIndices with
  | nil => exact ⟨diffIndices, rfl, fun key => rfl⟩
  | cons entry entries ih =>
    have hnext : ∀ entry' ∈ entries, entry'.key < (diffIndices.set entry.key none).length :=
      fun entry' hentry' => by
        rw [length_set]
        exact h entry' (mem_cons_of_mem _ hentry')
    obtain ⟨cleared, hcleared, hkeys⟩ := ih hnext
    refine ⟨cleared, ?_, fun key => ?_⟩
    · rw [clear, if_pos (h entry mem_cons_self), hcleared]
    rw [hkeys, getSafe_set]
    by_cases hmem : key ∈ entries.map DiffEntry.key
    · simp [hmem]
    · by_cases hkey : entry.key = key
      · simp [hkey]
      · simp [hmem, hkey, Ne.symm hkey]

/-- The two arguments of a difference. -/
def sides (left right : Option Link) : Side → Option Link
  | .left => left
  | .right => right

/-- **The core**: it comes to the common ancestor, and the scratch list is all `null` again. -/
theorem FlowLinks.diffCore_spec [DecidableEq Link] {diffIndices : List (Option ℕ)}
    (h : ∀ key, getSafe diffIndices key = none) (left right : Option Link) :
    ∃ a s cleared path, t.diffCore diffIndices left right = some (a, s.entries, cleared) ∧
      (∀ key, getSafe cleared key = none) ∧ Reaches t (sides left right) path (fun _ => a) ∧
      Follows t path (fun _ => a) s := by
  have hreaches : Reaches t (sides left right) (fun _ => []) (sides left right) := Reaches.start
  have hfollows : Follows t (fun _ => []) (sides left right) ⟨[], diffIndices⟩ := Follows.start h
  -- The deeper side walks first, then both.
  obtain ⟨a, s, path, hwalked, hreaches, hfollows⟩ : ∃ a s path,
      (if t.depthOf left > t.depthOf right then
        (t.descend .left (t.depthOf right) (t.depthOf left) left ⟨[], diffIndices⟩).bind
          fun p => t.walk p.1 right p.2
      else (t.descend .right (t.depthOf left) (t.depthOf right) right ⟨[], diffIndices⟩).bind
          fun p => t.walk left p.1 p.2) = some (a, s) ∧
      Reaches t (sides left right) path (fun _ => a) ∧ Follows t path (fun _ => a) s := by
    split
    · next hgt =>
      obtain ⟨link, s, path, hdescend, hdepth, hreaches, hfollows⟩ :=
        descend_spec .left hreaches hfollows rfl (Nat.le_of_lt hgt)
      rw [show t.descend .left (t.depthOf right) (t.depthOf left) left _ = some
        (link, s) from hdescend]
      exact walk_spec hreaches hfollows hdepth
    · next hgt =>
      obtain ⟨link, s, path, hdescend, hdepth, hreaches, hfollows⟩ :=
        descend_spec .right hreaches hfollows rfl (Nat.le_of_not_lt hgt)
      rw [show t.descend .right (t.depthOf left) (t.depthOf right) right _ = _ from hdescend]
      exact walk_spec hreaches hfollows hdepth.symm
  have hlt : ∀ entry ∈ s.entries, entry.key < s.diffIndices.length := by
    intro entry hentry
    obtain ⟨i, hi⟩ := getElem?_of_mem (mem_map_of_mem hentry)
    exact lt_length_of_getSafe ((hfollows.indices _ _).mpr hi)
  obtain ⟨cleared, hclear, hkeys⟩ := clear_spec hlt
  refine ⟨a, s, cleared, path, ?_, fun key => ?_, hreaches, hfollows⟩
  · rw [diffCore]
    simp [hwalked, bind_some, hclear, map_some]
  rw [hkeys]
  split
  · rfl
  next hmem =>
  cases hindex : getSafe s.diffIndices key with
  | none => rfl
  | some i => exact absurd (mem_of_getElem? ((hfollows.indices key i).mp hindex)) hmem

theorem Reaches.linksTo (h : Reaches t origin path fun _ => a) (side : Side) :
    t.linksTo (origin side) a = path side := by
  have hlength := congrArg List.length (h.chain side)
  rw [length_append, Chains.length_chain, Chains.length_chain] at hlength
  rw [FlowLinks.linksTo, h.chain side, take_left' (by omega)]

/-- An entry's link on a side is the value there: the first link that was passed, or the value
ahead. -/
theorem Follows.nearest (hreaches : Reaches t origin path fun _ => a)
    (hfollows : Follows t path (fun _ => a) s) {entry : DiffEntry Link} (hentry : entry ∈ s.entries)
    (side : Side) :
    (entry.first side).or entry.previousForKey = t.nearest entry.key (origin side) := by
  obtain ⟨-, hahead⟩ := hfollows.ahead entry hentry
  rw [hahead, hfollows.first entry hentry, FlowLinks.nearest, FlowLinks.nearest,
    hreaches.chain side, find?_append]

theorem Follows.nodup (h : Follows t path pos s) : (s.entries.map DiffEntry.key).Nodup := by
  refine nodup_iff_injective_get.mpr fun i j hij => Fin.ext ?_
  have hindex (k : Fin (s.entries.map DiffEntry.key).length) :
      getSafe s.diffIndices ((s.entries.map DiffEntry.key).get k) = some k.1 :=
    (h.indices _ _).mpr (getElem?_eq_getElem k.2)
  exact Option.some.inj ((hindex i).symm.trans (hij ▸ hindex j))

theorem Follows.isDifference {left right : Option Link}
    (hreaches : Reaches t (sides left right) path fun _ => a)
    (hfollows : Follows t path (fun _ => a) s) : t.IsDifference left right a s.entries where
  ancestor := by
    refine ⟨⟨?_, ?_⟩, fun b hleft hright => hreaches.common b (fun side => ?_) .left⟩
    · exact ⟨_, (hreaches.chain .left).symm⟩
    · exact ⟨_, (hreaches.chain .right).symm⟩
    · cases side
      · exact hleft
      · exact hright
  nodup := hfollows.nodup
  keys key := by
    have hleft : t.linksTo left a = path .left := hreaches.linksTo .left
    have hright : t.linksTo right a = path .right := hreaches.linksTo .right
    rw [hfollows.keys, hleft, hright]
    constructor
    · rintro ⟨side, link, hlink, hkey⟩
      refine ⟨link, ?_, hkey⟩
      cases side
      · exact mem_append_left _ hlink
      · exact mem_append_right _ hlink
    · rintro ⟨link, hlink, hkey⟩
      rcases mem_append.mp hlink with hlink | hlink
      · exact ⟨.left, link, hlink, hkey⟩
      · exact ⟨.right, link, hlink, hkey⟩
  values entry hentry := by
    refine ⟨hfollows.nearest hreaches hentry .left, hfollows.nearest hreaches hentry .right, ?_⟩
    obtain ⟨-, hahead⟩ := hfollows.ahead entry hentry
    exact hahead

theorem FlowLinks.nearest_of_suffix {link : Option Link} (hsuffix : t.chain a <:+ t.chain link)
    {key : ℕ} (hlinks : ∀ l ∈ t.linksTo link a, t.key l ≠ key) :
    t.nearest key link = t.nearest key a := by
  obtain ⟨path, hpath⟩ := hsuffix
  have hlength := congrArg List.length hpath
  rw [length_append, Chains.length_chain, Chains.length_chain] at hlength
  have hto : t.linksTo link a = path := by
    rw [linksTo, ← hpath, take_left' (by omega)]
  rw [nearest, ← hpath, find?_append, find?_eq_none.mpr, none_or]
  · rfl
  · intro l hl heq
    exact hlinks l (hto ▸ hl) (of_decide_eq_true heq)

section

variable {left right a : Option Link} {entries : List (DiffEntry Link)} {key : ℕ}
  (h : t.IsDifference left right a entries) (hkey : key ∉ entries.map DiffEntry.key)

include h hkey

theorem FlowLinks.IsDifference.nearest_left : t.nearest key left = t.nearest key a :=
  nearest_of_suffix h.ancestor.1.1 fun l hl heq =>
    hkey ((h.keys key).mpr ⟨l, mem_append_left _ hl, heq⟩)

theorem FlowLinks.IsDifference.nearest_right : t.nearest key right = t.nearest key a :=
  nearest_of_suffix h.ancestor.1.2 fun l hl heq =>
    hkey ((h.keys key).mpr ⟨l, mem_append_right _ hl, heq⟩)

/-- A key that has no entry has one value. -/
theorem FlowLinks.IsDifference.nearest_eq : t.nearest key left = t.nearest key right :=
  (h.nearest_left hkey).trans (h.nearest_right hkey).symm

end

/-- A link differs from itself in nothing. -/
theorem FlowLinks.isDifference_self (a : Option Link) : t.IsDifference a a a [] where
  ancestor := ⟨⟨suffix_rfl, suffix_rfl⟩, fun _ h _ => h⟩
  nodup := nodup_nil
  keys key := by simp [linksTo]
  values entry h := absurd h not_mem_nil

/-- **The reader is exact**: the cache is the map of its link, and the scratch list is all
`null`. -/
structure Reader.Exact (t : FlowLinks Link) (r : Reader Link) : Prop where
  cache : ∀ key, getSafe r.cache key = t.nearest key r.current
  scratch : ∀ key, getSafe r.diffIndices key = none

/-- Writing the entries to a cache. -/
theorem getSafe_foldl (value : ℕ → Option Link) {entries : List (DiffEntry Link)}
    (h : ∀ entry ∈ entries, entry.right = value entry.key) (cache : List (Option Link)) (key : ℕ) :
    getSafe (entries.foldl (fun cache entry => setSafe cache entry.key entry.right) cache) key =
      if key ∈ entries.map DiffEntry.key then value key else getSafe cache key := by
  induction entries generalizing cache with
  | nil => rfl
  | cons entry entries ih =>
    rw [foldl_cons, ih fun entry' hentry' => h entry' (mem_cons_of_mem _ hentry'),
      getSafe_setSafe, h entry mem_cons_self]
    by_cases hmem : key ∈ entries.map DiffEntry.key
    · simp [hmem]
    · by_cases hkey : entry.key = key
      · simp [hkey]
      · simp [hmem, hkey, Ne.symm hkey]

namespace Reader.Exact

variable [DecidableEq Link] {r : Reader Link}

theorem setCurrent (h : r.Exact t) (value : Option Link) :
    ∃ r', r.setCurrent t value = some r' ∧ r'.current = value ∧ r'.Exact t := by
  rw [Reader.setCurrent]
  split
  · next heq => exact ⟨r, rfl, heq.symm, h⟩
  obtain ⟨a, s, cleared, path, hcore, hcleared, hreaches, hfollows⟩ :=
    diffCore_spec h.scratch r.current value (t := t)
  have hdifference := Follows.isDifference hreaches hfollows
  refine ⟨_, by rw [hcore]; rfl, rfl, fun key => ?_, hcleared⟩
  rw [getSafe_foldl (t.nearest · value) fun entry hentry => (hdifference.values entry hentry).2.1]
  split
  · rfl
  · next hmem => rw [h.cache, hdifference.nearest_eq hmem]

theorem get (h : r.Exact t) (link : Option Link) (key : ℕ) :
    ∃ r', r.get t link key = some (t.nearest key link, r') ∧ r'.Exact t := by
  cases link with
  | none =>
    refine ⟨r, ?_, h⟩
    rw [Reader.get, nearest, Chains.chain_none, find?_nil]
  | some link =>
    obtain ⟨r', hset, hcurrent, hexact⟩ := h.setCurrent (some link)
    refine ⟨r', ?_, hexact⟩
    rw [Reader.get, hset, map_some, hexact.cache, hcurrent]

theorem diff (h : r.Exact t) (left right : Option Link) :
    ∃ a entries r', r.diff t left right = some ((a, entries), r') ∧
      t.IsDifference left right a entries ∧ r'.Exact t := by
  rw [Reader.diff]
  split
  · next heq =>
    subst heq
    exact ⟨left, [], r, rfl, isDifference_self left, h⟩
  · obtain ⟨a, s, cleared, path, hcore, hcleared, hreaches, hfollows⟩ :=
      diffCore_spec h.scratch left right (t := t)
    refine ⟨a, s.entries, _, by rw [hcore]; rfl, Follows.isDifference hreaches hfollows, ?_,
      hcleared⟩
    exact h.cache

end Reader.Exact

end

/-- What a call has to return. -/
def Call.Correct (t : FlowLinks Link) : Call Link → Answer Link → Prop
  | .get link key, .link value => value = t.nearest key link
  | .diff left right, .difference a entries => t.IsDifference left right a entries
  | _, _ => False

variable [DecidableEq Link]

theorem Reader.Exact.call {r : Reader Link} (h : r.Exact t) (c : Call Link) :
    ∃ answer r', r.call t c = some (answer, r') ∧ c.Correct t answer ∧ r'.Exact t := by
  cases c with
  | get link key =>
    obtain ⟨r', hget, hexact⟩ := h.get link key
    exact ⟨.link _, r', by rw [Reader.call, hget]; rfl, rfl, hexact⟩
  | diff left right =>
    obtain ⟨a, entries, r', hdiff, hdifference, hexact⟩ := h.diff left right
    exact ⟨.difference a entries, r', by rw [Reader.call, hdiff]; rfl, hdifference, hexact⟩

theorem Reader.Exact.run {r : Reader Link} (h : r.Exact t) (calls : List (Call Link)) :
    ∃ answers r', r.run t calls = some (answers, r') ∧
      List.Forall₂ (Call.Correct t) calls answers ∧ r'.Exact t := by
  induction calls generalizing r with
  | nil => exact ⟨[], r, rfl, .nil, h⟩
  | cons c calls ih =>
    obtain ⟨answer, r1, hcall, hcorrect, hexact⟩ := h.call c
    obtain ⟨answers, r2, hrun, hanswers, hexact⟩ := ih hexact
    refine ⟨answer :: answers, r2, ?_, .cons hcorrect hanswers, hexact⟩
    simp [Reader.run, hcall, bind_some, hrun, map_some]

omit [DecidableEq Link] in
theorem Reader.exact_new : (new : Reader Link).Exact t where
  cache key := by rw [new, nearest, Chains.chain_none]; rfl
  scratch _ := rfl

/-- **The reader is an exact view**: after any history of calls on any links it has answered each
call as the maps say, and its scratch list is all `null`. -/
theorem run_exact (t : FlowLinks Link) (calls : List (Call Link)) :
    ∃ answers r, (new : Reader Link).run t calls = some (answers, r) ∧
      List.Forall₂ (Call.Correct t) calls answers ∧ ∀ index ∈ r.diffIndices, index = none := by
  obtain ⟨answers, r, hrun, hanswers, hexact⟩ := exact_new.run calls (t := t)
  refine ⟨answers, r, hrun, hanswers, fun index hindex => ?_⟩
  obtain ⟨i, hi⟩ := getElem?_of_mem hindex
  have hscratch := hexact.scratch i
  rw [getSafe, hi] at hscratch
  exact hscratch

end FlowAnalysis
