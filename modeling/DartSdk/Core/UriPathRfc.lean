import DartSdk.Core.UriPath

/-!
# Core/UriPathRfc — the removal of dot segments

`Rfc` is section 5.2 of RFC 3986: the rules that move an input buffer to an output buffer, and the
merging of paths.  **The loop over a stack of segments does what the rules do, on every path**
(`removeDotSegments_eq_rfc`): as soon as the stack holds a segment, the output buffer is the stack
joined, and what is left of the input starts with a slash.
-/

namespace UriPath

open List

namespace Rfc

/-- Remove the last segment and its preceding slash, if any. -/
def removeLastSegment (output : List ℕ) : List ℕ :=
  ((output.reverse.dropWhile (· ≠ kSlash)).drop 1).reverse

theorem length_drop_lt {input : List ℕ} {n : ℕ} (h : input ≠ []) :
    (input.drop (n + 1)).length < input.length := by
  have := length_pos_of_ne_nil h
  rw [length_drop]
  omega

/-- `remove_dot_segments`, with its input and output buffer. -/
def removeDots (input output : List ℕ) : List ℕ :=
  if input = [] then output
  -- 2A
  else if [kDot, kDot, kSlash] <+: input then removeDots (input.drop 3) output
  else if [kDot, kSlash] <+: input then removeDots (input.drop 2) output
  -- 2B
  else if [kSlash, kDot, kSlash] <+: input then removeDots (kSlash :: input.drop 3) output
  else if input = [kSlash, kDot] then removeDots [kSlash] output
  -- 2C
  else if [kSlash, kDot, kDot, kSlash] <+: input then
    removeDots (kSlash :: input.drop 4) (removeLastSegment output)
  else if input = [kSlash, kDot, kDot] then removeDots [kSlash] (removeLastSegment output)
  -- 2D
  else if input = [kDot] ∨ input = [kDot, kDot] then output
  -- 2E
  else
    removeDots (input.tail.dropWhile (· ≠ kSlash))
      (output ++ input.head?.toList ++ input.tail.takeWhile (· ≠ kSlash))
termination_by input.length
decreasing_by
  · next hne _ => exact length_drop_lt hne
  · next hne _ _ => exact length_drop_lt hne
  · next h =>
    have := h.length_le
    simp only [length_cons, length_drop, length_nil] at this ⊢
    omega
  · next h => simp [h]
  · next h =>
    have := h.length_le
    simp only [length_cons, length_drop, length_nil] at this ⊢
    omega
  · next h => simp [h]
  · next hne _ _ _ _ _ _ _ =>
    have hle := (dropWhile_suffix (l := input.tail) (· ≠ kSlash)).length_le
    have hpos := length_pos_of_ne_nil hne
    rw [length_tail] at hle
    omega

/-- The algorithm of RFC 3986, section 5.2.4. -/
def removeDotSegments (path : List ℕ) : List ℕ := removeDots path []

/-- `merge`: all but the last segment of the base, and the reference. -/
def merge (hasAuthority : Bool) (base reference : List ℕ) : List ℕ :=
  if hasAuthority = true ∧ base = [] then kSlash :: reference
  else (base.reverse.dropWhile (· ≠ kSlash)).reverse ++ reference

/-- The path of the target in the transformation of references. -/
def transformPath (base : Base) (reference : Reference) : List ℕ :=
  if reference.scheme ≠ [] then removeDotSegments reference.path
  else if reference.hasAuthority then removeDotSegments reference.path
  else if reference.path = [] then base.path
  else if reference.path.head? = some kSlash then removeDotSegments reference.path
  else removeDotSegments (merge base.hasAuthority base.path reference.path)

end Rfc

/-! ## Segments -/

section

variable {s : List ℕ} {l : List (List ℕ)}

/-- The segments, each after a slash. -/
def slashed (l : List (List ℕ)) : List ℕ := l.flatMap fun s => kSlash :: s

@[simp] theorem slashed_nil : slashed [] = [] := rfl

@[simp] theorem slashed_cons : slashed (s :: l) = kSlash :: (s ++ slashed l) := rfl

theorem slashed_append (l l' : List (List ℕ)) : slashed (l ++ l') = slashed l ++ slashed l' :=
  flatMap_append

/-- `join("/")`. -/
def join (l : List (List ℕ)) : List ℕ := [kSlash].intercalate l

theorem join_cons (s : List ℕ) (l : List (List ℕ)) : join (s :: l) = s ++ slashed l := by
  induction l generalizing s with
  | nil => simp [join]
  | cons t l ih =>
    have ht : join (t :: l) = t ++ slashed l := ih t
    rw [join] at ht ⊢
    rw [intercalate_cons_cons, ht, slashed_cons]
    simp

theorem join_append (hne : l ≠ []) (l' : List (List ℕ)) :
    join (l ++ l') = join l ++ slashed l' := by
  obtain ⟨s, l, rfl⟩ := exists_cons_of_ne_nil hne
  rw [cons_append, join_cons, join_cons, slashed_append, append_assoc]

/-- No segment has a slash in it. -/
def Clean (l : List (List ℕ)) : Prop := ∀ s ∈ l, kSlash ∉ s

theorem clean_splitOn (path : List ℕ) : Clean (path.splitOn kSlash) := by
  induction path with
  | nil => simp [Clean, splitOn_nil]
  | cons c path ih =>
    rw [splitOn_cons_eq_if_modifyHead]
    split_ifs with hc
    · exact forall_mem_cons.2 ⟨not_mem_nil, ih⟩
    obtain ⟨s, l, heq⟩ := exists_cons_of_ne_nil (splitOn_ne_nil kSlash path)
    rw [heq] at ih ⊢
    obtain ⟨hs, hl⟩ := forall_mem_cons.1 ih
    refine forall_mem_cons.2 ⟨fun hmem => ?_, hl⟩
    obtain rfl | hmem := mem_cons.1 hmem
    · exact hc (beq_self_eq_true _)
    · exact hs hmem

theorem join_splitOn (path : List ℕ) : join (path.splitOn kSlash) = path :=
  intercalate_splitOn kSlash

theorem takeWhile_segment (hs : kSlash ∉ s) (l : List (List ℕ)) :
    (s ++ slashed l).takeWhile (· ≠ kSlash) = s := by
  have hall : ∀ c ∈ s, decide (c ≠ kSlash) = true := fun c hc =>
    decide_eq_true fun heq => hs (heq ▸ hc)
  rw [takeWhile_append_of_pos hall]
  cases l <;> simp

theorem dropWhile_segment (hs : kSlash ∉ s) (l : List (List ℕ)) :
    (s ++ slashed l).dropWhile (· ≠ kSlash) = slashed l := by
  have hall : ∀ c ∈ s, decide (c ≠ kSlash) = true := fun c hc =>
    decide_eq_true fun heq => hs (heq ▸ hc)
  rw [dropWhile_append_of_pos hall]
  cases l <;> simp

/-- A text that goes on with a slash after `d` has `d` as its first segment. -/
theorem segment_of_starts {d : List ℕ} (hs : kSlash ∉ s) (hd : kSlash ∉ d)
    (h : d ++ [kSlash] <+: s ++ slashed l) : s = d := by
  obtain ⟨r, hr⟩ := h
  have htake := congrArg (takeWhile (· ≠ kSlash)) hr
  rw [takeWhile_segment hs] at htake
  have hall : ∀ c ∈ d, decide (c ≠ kSlash) = true := fun c hc =>
    decide_eq_true fun heq => hd (heq ▸ hc)
  rw [append_assoc, takeWhile_append_of_pos hall] at htake
  simpa using htake.symm

theorem segment_of_eq {d : List ℕ} (hs : kSlash ∉ s) (hd : kSlash ∉ d)
    (h : s ++ slashed l = d) : s = d := by
  have htake := congrArg (takeWhile (· ≠ kSlash)) h
  rw [takeWhile_segment hs] at htake
  have hself := takeWhile_segment hd []
  rw [slashed_nil, append_nil] at hself
  rw [htake, hself]

theorem slash_notMem_dot : kSlash ∉ dot := by decide

theorem slash_notMem_dotDot : kSlash ∉ dotDot := by decide

end

namespace Rfc

variable {s output : List ℕ} {l : List (List ℕ)}

@[simp] theorem removeDots_nil : removeDots [] output = output := by
  rw [removeDots, if_pos rfl]

theorem not_prefix_of_head {c d : ℕ} {p t : List ℕ} (h : d ≠ c) : ¬ d :: p <+: c :: t := fun hp =>
  h (cons_prefix_cons.1 hp).1

theorem not_dot_prefix {p t : List ℕ} : ¬ kDot :: p <+: kSlash :: t :=
  not_prefix_of_head (by decide)

/-- 2E, at a slash. -/
theorem removeDots_segment (hs : kSlash ∉ s) (hdot : s ≠ dot) (hdotDot : s ≠ dotDot) :
    removeDots (slashed (s :: l)) output = removeDots (slashed l) (output ++ kSlash :: s) := by
  rw [slashed_cons, removeDots, if_neg (by simp), if_neg not_dot_prefix,
    if_neg not_dot_prefix, if_neg, if_neg, if_neg, if_neg, if_neg]
  · simp only [tail_cons, head?_cons, Option.toList_some, takeWhile_segment hs,
      dropWhile_segment hs, append_assoc, singleton_append]
  · rintro (h | h) <;> simp [kSlash, kDot] at h
  · exact fun h => hdotDot (segment_of_eq hs slash_notMem_dotDot (cons.inj h).2)
  · exact fun h => hdotDot (segment_of_starts hs slash_notMem_dotDot (cons_prefix_cons.1 h).2)
  · exact fun h => hdot (segment_of_eq hs slash_notMem_dot (cons.inj h).2)
  · exact fun h => hdot (segment_of_starts hs slash_notMem_dot (cons_prefix_cons.1 h).2)

/-- 2E, at the start of a relative path. -/
theorem removeDots_first (hs : kSlash ∉ s) (hempty : s ≠ []) (hdot : s ≠ dot)
    (hdotDot : s ≠ dotDot) :
    removeDots (s ++ slashed l) output = removeDots (slashed l) (output ++ s) := by
  obtain ⟨c, t, rfl⟩ := exists_cons_of_ne_nil hempty
  obtain ⟨hc, ht⟩ : kSlash ≠ c ∧ kSlash ∉ t := by simpa using hs
  rw [removeDots, if_neg (by simp), if_neg, if_neg, if_neg, if_neg, if_neg, if_neg, if_neg]
  · simp only [cons_append, tail_cons, head?_cons, Option.toList_some,
      takeWhile_segment ht, dropWhile_segment ht, append_assoc, nil_append]
  · rintro (h | h)
    · exact hdot (segment_of_eq hs slash_notMem_dot h)
    · exact hdotDot (segment_of_eq hs slash_notMem_dotDot h)
  · exact fun h => hc (cons.inj h).1.symm
  · exact not_prefix_of_head hc
  · exact fun h => hc (cons.inj h).1.symm
  · exact not_prefix_of_head hc
  · exact fun h => hdot (segment_of_starts hs slash_notMem_dot h)
  · exact fun h => hdotDot (segment_of_starts hs slash_notMem_dotDot h)

/-- A slash at the end. -/
theorem removeDots_slash : removeDots [kSlash] output = output ++ [kSlash] := by
  have h : removeDots (slashed [[]]) output = removeDots (slashed []) (output ++ [kSlash]) :=
    removeDots_segment not_mem_nil (by decide) (by decide)
  simpa using h

/-- 2B. -/
theorem removeDots_dot : removeDots (slashed (dot :: l)) output =
    if l = [] then output ++ [kSlash] else removeDots (slashed l) output := by
  rw [slashed_cons, removeDots, if_neg (by simp), if_neg not_dot_prefix, if_neg not_dot_prefix]
  cases l with
  | nil => rw [if_neg (by decide), if_pos (by decide), if_pos rfl, removeDots_slash]
  | cons t l =>
    rfl

/-- 2C. -/
theorem removeDots_dotDot : removeDots (slashed (dotDot :: l)) output =
    if l = [] then removeLastSegment output ++ [kSlash]
    else removeDots (slashed l) (removeLastSegment output) := by
  rw [slashed_cons, removeDots, if_neg (by simp), if_neg not_dot_prefix,
    if_neg not_dot_prefix, if_neg, if_neg (by simp [dotDot])]
  · cases l with
    | nil => rw [if_neg (by decide), if_pos (by decide), if_pos rfl, removeDots_slash]
    | cons t l =>
      rfl
  · rintro ⟨r, hr⟩
    exact absurd (cons.inj (cons.inj (cons.inj hr).2).2).1 (by decide)

/-- 2A and 2D. -/
theorem removeDots_first_dot (hs : s = dot ∨ s = dotDot) : removeDots (join (s :: l)) output =
    if l = [] then output else removeDots (join l) output := by
  rw [join_cons]
  cases l with
  | nil =>
    rw [slashed_nil, append_nil, if_pos rfl, removeDots]
    obtain rfl | rfl := hs
    · simp [dot, kDot, kSlash]
    · simp [dotDot, kDot, kSlash]
  | cons t l =>
    rw [if_neg (by simp), join_cons, removeDots]
    obtain rfl | rfl := hs
    · rw [if_neg (by simp), if_neg, if_pos ⟨t ++ slashed l, rfl⟩]
      · rfl
      · rintro ⟨r, hr⟩
        exact absurd (cons.inj (cons.inj hr).2).1 (by decide)
    · rfl

end Rfc

/-! ## The stack of segments

The rules work on segments from the left, and a `..` removes the last one of the output. -/

variable {l segs output : List (List ℕ)}

theorem popSegment_ne_nil (h : output ≠ []) : popSegment output ≠ [] := by
  rw [popSegment, if_pos h]
  dsimp only
  split_ifs with hnil
  · simp
  · exact hnil

theorem clean_popSegment (h : Clean output) : Clean (popSegment output) := by
  rw [popSegment]
  dsimp only
  split_ifs with hne hnil
  · exact fun s hs => by simp [mem_singleton.1 hs]
  · exact fun s hs => h s ((dropLast_sublist _).subset hs)
  · exact h

theorem removeLastSegment_join (hclean : Clean output) (hne : output ≠ []) :
    Rfc.removeLastSegment (join output) = join (popSegment output) := by
  obtain ⟨init, last, rfl⟩ : ∃ init last, output = init ++ [last] :=
    ⟨_, _, (dropLast_append_getLast hne).symm⟩
  have hall : ∀ c ∈ last.reverse, decide (c ≠ kSlash) = true := fun c hc =>
    decide_eq_true fun heq => hclean last (by simp) (heq ▸ mem_reverse.1 hc)
  rw [popSegment, if_pos hne, dropLast_concat]
  by_cases hinit : init = []
  · subst hinit
    rw [if_pos rfl, nil_append, join_cons, slashed_nil, append_nil, Rfc.removeLastSegment]
    have hdrop : last.reverse.dropWhile (· ≠ kSlash) = [] := by
      rw [← append_nil last.reverse, dropWhile_append_of_pos hall]
      rfl
    rw [hdrop]
    rfl
  · rw [if_neg hinit, join_append hinit, Rfc.removeLastSegment, reverse_append]
    simp only [slashed_cons, slashed_nil, append_nil, reverse_cons, append_assoc]
    rw [dropWhile_append_of_pos hall]
    simp

/-- The flag counts only at the end. -/
theorem removeLoop_flag (h : l ≠ []) (b b' : Bool) :
    removeLoop l output b = removeLoop l output b' := by
  obtain ⟨s, l, rfl⟩ := exists_cons_of_ne_nil h
  rfl

theorem joinOutput_slash (h : output ≠ []) : joinOutput (output, true) = join output ++ [kSlash] :=
  join_append h [[]]

/-- **The rules do to a nonempty output what the loop does to its stack.** -/
theorem removeDots_slashed (hsegs : Clean segs) (hout : Clean output) (hne : output ≠ []) :
    Rfc.removeDots (slashed segs) (join output) = joinOutput (removeLoop segs output false) := by
  induction segs generalizing output with
  | nil => exact Rfc.removeDots_nil
  | cons s l ih =>
    obtain ⟨hs, hl⟩ := forall_mem_cons.1 hsegs
    rw [removeLoop]
    by_cases hdotDot : s = dotDot
    · subst hdotDot
      rw [if_pos rfl, Rfc.removeDots_dotDot, removeLastSegment_join hout hne]
      by_cases hnil : l = []
      · subst hnil
        rw [if_pos rfl, removeLoop, joinOutput_slash (popSegment_ne_nil hne)]
      · rw [if_neg hnil, removeLoop_flag hnil true false]
        exact ih hl (clean_popSegment hout) (popSegment_ne_nil hne)
    rw [if_neg hdotDot]
    by_cases hdot : s = dot
    · subst hdot
      rw [if_pos rfl, Rfc.removeDots_dot]
      by_cases hnil : l = []
      · subst hnil
        rw [if_pos rfl, removeLoop, joinOutput_slash hne]
      · rw [if_neg hnil, removeLoop_flag hnil true false]
        exact ih hl hout hne
    · rw [if_neg hdot, Rfc.removeDots_segment hs hdot hdotDot]
      have hjoin : join output ++ kSlash :: s = join (output ++ [s]) := by
        rw [join_append hne]
        simp
      rw [hjoin]
      refine ih hl (fun t ht => ?_) (by simp)
      obtain ht | ht := mem_append.1 ht
      · exact hout t ht
      · rwa [mem_singleton.1 ht]

/-- The same from the start, where leading dot segments vanish. -/
theorem removeDots_join (hsegs : Clean segs) (hne : segs ≠ []) :
    Rfc.removeDots (join segs) [] = joinOutput (removeLoop segs [] false) := by
  induction segs with
  | nil => exact absurd rfl hne
  | cons s l ih =>
    obtain ⟨hs, hl⟩ := forall_mem_cons.1 hsegs
    by_cases hdots : s = dot ∨ s = dotDot
    · have hloop : removeLoop (s :: l) [] false = removeLoop l [] true := by
        obtain rfl | rfl := hdots <;> rfl
      rw [Rfc.removeDots_first_dot hdots, hloop]
      by_cases hnil : l = []
      · subst hnil
        rfl
      · rw [if_neg hnil, removeLoop_flag hnil true false]
        exact ih hl hnil
    · obtain ⟨hdot, hdotDot⟩ := not_or.1 hdots
      have hloop : removeLoop (s :: l) [] false = removeLoop l [s] false := by
        rw [removeLoop, if_neg hdotDot, if_neg hdot]
        rfl
      have hsingle : Clean [s] := fun t ht => by rwa [mem_singleton.1 ht]
      have hjoin : join [s] = s := by rw [join_cons, slashed_nil, append_nil]
      have hstack := removeDots_slashed hl hsingle (by simp)
      rw [hjoin] at hstack
      rw [hloop, ← hstack, join_cons]
      by_cases hempty : s = []
      · rw [hempty]
        rfl
      · rw [Rfc.removeDots_first hs hempty hdot hdotDot]
        rfl

theorem rfc_removeDotSegments_eq (path : List ℕ) : Rfc.removeDotSegments path =
    joinOutput (removeLoop (path.splitOn kSlash) [] false) := by
  rw [← removeDots_join (clean_splitOn path) (splitOn_ne_nil _ _), join_splitOn]
  rfl

theorem removeLoop_plain (h : ∀ s ∈ segs, s ≠ dot ∧ s ≠ dotDot) (hne : segs ≠ []) (b : Bool) :
    removeLoop segs output b = (output ++ segs, false) := by
  induction segs generalizing output b with
  | nil => exact absurd rfl hne
  | cons s l ih =>
    obtain ⟨⟨hdot, hdotDot⟩, hl⟩ := forall_mem_cons.1 h
    rw [removeLoop, if_neg hdotDot, if_neg hdot]
    by_cases hnil : l = []
    · subst hnil
      rfl
    · rw [ih hl hnil, append_assoc]
      rfl

/-- A segment that starts with a dot is seen. -/
theorem mayContainDotSegments_of_mem {t : List ℕ} (h : kDot :: t ∈ segs) :
    mayContainDotSegments (join segs) = true := by
  obtain ⟨s, l, rfl⟩ := exists_cons_of_ne_nil (ne_nil_of_mem h)
  simp only [mayContainDotSegments, Bool.or_eq_true, decide_eq_true_eq, join_cons]
  obtain rfl | h := mem_cons.1 h
  · exact .inl rfl
  obtain ⟨l1, l2, rfl⟩ := append_of_mem h
  refine .inr ⟨s ++ slashed l1, t ++ slashed l2, ?_⟩
  rw [slashed_append, slashed_cons]
  simp

/-- No segment of the path is `.` or `..`. -/
def NoDots (path : List ℕ) : Prop := ∀ s ∈ path.splitOn kSlash, s ≠ dot ∧ s ≠ dotDot

/-- The stack holds plain segments. -/
theorem removeLoop_mem {P : List ℕ → Prop} (hnil : P [])
    (hsegs : ∀ s ∈ segs, s ≠ dot → s ≠ dotDot → P s) (hout : ∀ s ∈ output, P s) (b : Bool) :
    ∀ s ∈ (removeLoop segs output b).1, P s := by
  induction segs generalizing output b with
  | nil => exact hout
  | cons s l ih =>
    obtain ⟨hs, hl⟩ := forall_mem_cons.1 hsegs
    rw [removeLoop]
    split_ifs with hdotDot hdot
    · refine ih hl (fun t ht => ?_) true
      rw [popSegment] at ht
      dsimp only at ht
      split_ifs at ht with hne hempty
      · rwa [mem_singleton.1 ht]
      · exact hout t ((dropLast_sublist _).subset ht)
      · exact hout t ht
    · exact ih hl hout true
    · exact ih hl (forall_mem_append.2 ⟨hout, forall_mem_singleton.2 (hs hdot hdotDot)⟩) false

/-- There is nothing left to remove. -/
theorem noDots_removeDotSegments (path : List ℕ) : NoDots (Rfc.removeDotSegments path) := by
  rw [rfc_removeDotSegments_eq, joinOutput]
  have hplain : ∀ s ∈ (removeLoop (path.splitOn kSlash) [] false).1,
      kSlash ∉ s ∧ s ≠ dot ∧ s ≠ dotDot :=
    removeLoop_mem ⟨not_mem_nil, by decide, by decide⟩
      (fun s hs hdot hdotDot => ⟨clean_splitOn path s hs, hdot, hdotDot⟩)
      (fun _ h => absurd h not_mem_nil) false
  generalize removeLoop (path.splitOn kSlash) [] false = result at hplain
  have hsegs : ∀ s ∈ (if result.2 then result.1 ++ [[]] else result.1),
      kSlash ∉ s ∧ s ≠ dot ∧ s ≠ dotDot := by
    split_ifs
    · exact forall_mem_append.2 ⟨hplain, forall_mem_singleton.2 ⟨not_mem_nil, by decide, by decide⟩⟩
    · exact hplain
  generalize (if result.2 then result.1 ++ [[]] else result.1) = segs at hsegs
  obtain rfl | hne := eq_or_ne segs []
  · exact forall_mem_singleton.2 ⟨by decide, by decide⟩
  · rw [NoDots, splitOn_intercalate kSlash (fun s hs => (hsegs s hs).1) hne]
    exact fun s hs => (hsegs s hs).2

theorem removeDotSegments_of_noDots {path : List ℕ} (h : NoDots path) :
    Rfc.removeDotSegments path = path := by
  rw [rfc_removeDotSegments_eq, removeLoop_plain h (splitOn_ne_nil _ _)]
  exact join_splitOn path

theorem removeDotSegments_eq_self_iff {path : List ℕ} :
    path = Rfc.removeDotSegments path ↔ NoDots path :=
  ⟨fun h => h ▸ noDots_removeDotSegments path, fun h => (removeDotSegments_of_noDots h).symm⟩

/-- **The removal of dot segments is that of the RFC, on every path.** -/
theorem removeDotSegments_eq_rfc (path : List ℕ) :
    removeDotSegments path = Rfc.removeDotSegments path := by
  rw [rfc_removeDotSegments_eq, removeDotSegments]
  by_cases hmay : mayContainDotSegments path = true
  · rw [hmay]
    rfl
  have hplain : NoDots path := by
    intro s hs
    have hhead : ∀ t, s ≠ kDot :: t := fun t heq =>
      hmay (join_splitOn path ▸ mayContainDotSegments_of_mem (heq ▸ hs))
    exact ⟨hhead _, hhead _⟩
  rw [Bool.not_eq_true] at hmay
  rw [hmay, ← rfc_removeDotSegments_eq, removeDotSegments_of_noDots hplain]
  rfl

end UriPath
