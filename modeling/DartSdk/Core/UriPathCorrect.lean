import DartSdk.Core.UriPathRfc

/-!
# Core/UriPathCorrect — reference resolution and RFC 3986

Merging takes `x/..` out before dot segments are removed, which changes nothing **unless only dot
segments stand before `x`**: there the RFC keeps the slash after `x`, and the result of the code has
none (`LosesSlash`).  A reference that is returned as it is keeps its dot segments, and one that is
not of the platform's own classes has its path normalised in the end (`Follows`).
-/

namespace UriPath

open List

/-! ## Merging on segments -/

section

variable {s rest : List ℕ} {l B R : List (List ℕ)} {n : ℕ}

/-- The segments, each with a slash after it. -/
def dir (l : List (List ℕ)) : List ℕ := l.flatMap fun s => s ++ [kSlash]

@[simp] theorem dir_nil : dir [] = [] := rfl

@[simp] theorem dir_cons : dir (s :: l) = s ++ kSlash :: dir l := by simp [dir]

theorem dir_append (l l' : List (List ℕ)) : dir (l ++ l') = dir l ++ dir l' := flatMap_append

theorem dir_concat (l : List (List ℕ)) (s : List ℕ) : dir (l ++ [s]) = dir l ++ s ++ [kSlash] := by
  rw [dir_append]
  simp

theorem join_dir (l : List (List ℕ)) (hR : R ≠ []) : join (l ++ R) = dir l ++ join R := by
  induction l with
  | nil => rfl
  | cons s l ih =>
    obtain ⟨t, k, hk⟩ := exists_cons_of_ne_nil (show l ++ R ≠ [] by simp [hR])
    rw [cons_append, join_cons, dir_cons, hk, slashed_cons, ← join_cons, ← hk, ih]
    simp

/-- All but the last segment of the base. -/
def directory (base : List ℕ) : List (List ℕ) := (base.splitOn kSlash).dropLast

/-- The base up to its last slash, and the rest. -/
theorem base_eq (base : List ℕ) : ∃ last, kSlash ∉ last ∧ base = dir (directory base) ++ last := by
  have hne := splitOn_ne_nil kSlash base
  refine ⟨_, clean_splitOn base _ (getLast_mem hne), ?_⟩
  rw [directory, ← append_nil ((base.splitOn kSlash).getLast hne), ← slashed_nil, ← join_cons,
    ← join_dir _ (by simp), dropLast_append_getLast hne, join_splitOn]

theorem clean_directory (base : List ℕ) : Clean (directory base) := fun s hs =>
  clean_splitOn base s ((dropLast_sublist _).subset hs)

/-- The index of the slash before a segment. -/
theorem lastSlash_eq (hs : kSlash ∉ s) (rest : List ℕ) :
    lastSlash (dir B ++ s ++ rest) (dir B ++ s).length = (dir B).length - 1 := by
  induction s using reverseRecOn generalizing rest with
  | nil =>
    rw [append_nil]
    by_cases hB : B = []
    · subst hB
      rfl
    obtain ⟨init, last, rfl⟩ : ∃ init last, B = init ++ [last] :=
      ⟨_, _, (dropLast_append_getLast hB).symm⟩
    rw [dir_concat, length_append, length_singleton, lastSlash, if_pos]
    · omega
    · simp
  | append_singleton s c ih =>
    obtain ⟨hs', hc⟩ : kSlash ∉ s ∧ kSlash ≠ c := by simpa using hs
    rw [← append_assoc, length_append, length_singleton, lastSlash, if_neg, append_assoc, ih hs']
    simpa using hc.symm

/-- What the loop does to the segments of the base, the last one first. -/
def dropBack : ℕ → List (List ℕ) → List (List ℕ) × ℕ
  | n + 1, s :: t :: back =>
    if s = dot ∨ s = dotDot then (s :: t :: back, n + 1) else dropBack n (t :: back)
  | n, back => (back, n)

/-- The test for a dot segment, by the characters between two slashes. -/
theorem isDot_iff (hs : kSlash ∉ s) (B : List (List ℕ)) (rest : List ℕ) :
    ((s.length + 1 = 2 ∨ s.length + 1 = 3) ∧
      (dir B ++ s ++ kSlash :: rest)[(dir B).length]? = some kDot ∧
      (s.length + 1 = 2 ∨ (dir B ++ s ++ kSlash :: rest)[(dir B).length + 1]? = some kDot)) ↔
    s = dot ∨ s = dotDot := by
  rcases s with _ | ⟨a, _ | ⟨b, _ | ⟨c, s⟩⟩⟩
  all_goals simp [dot, dotDot]

theorem dropSegments_eq (hclean : Clean l) (base rest : List ℕ)
    (hbase : base = dir l.reverse ++ rest) :
    dropSegments base n (((dir l.reverse).length : ℤ) - 1) =
      (((dir (dropBack n l).1.reverse).length : ℤ) - 1, (dropBack n l).2) := by
  induction n generalizing l rest with
  | zero => cases l <;> rfl
  | succ n ih =>
    cases l with
    | nil => rfl
    | cons s l =>
      obtain ⟨hs, hl⟩ := forall_mem_cons.1 hclean
      rw [reverse_cons, dir_concat] at hbase
      rw [append_assoc _ [kSlash], singleton_append] at hbase
      have hend : ((dir (s :: l).reverse).length : ℤ) - 1 = (dir l.reverse ++ s).length := by
        rw [reverse_cons, dir_concat, length_append, length_singleton]
        omega
      have hlast := lastSlash_eq (B := l.reverse) hs (kSlash :: rest)
      rw [← hbase] at hlast
      rw [hend, dropSegments, Int.toNat_natCast, hlast]
      cases l with
      | nil =>
        have hback : dropBack (n + 1) [s] = ([s], n + 1) := rfl
        have hneg : ((dir ([] : List (List ℕ)).reverse).length : ℤ) - 1 < 0 := by decide
        rw [hback, ← hend, if_pos hneg, ite_self]
      | cons t l =>
        have hpos : 0 < (dir (t :: l).reverse).length := by
          rw [reverse_cons, dir_concat, length_append, length_singleton]
          omega
        have hdelta : ((dir (t :: l).reverse ++ s).length : ℤ) -
          ((dir (t :: l).reverse).length - 1) =
            (s.length + 1 : ℕ) := by
          rw [length_append]
          omega
        have htoNat : (((dir (t :: l).reverse).length : ℤ) - 1).toNat + 1 =
            (dir (t :: l).reverse).length := by omega
        have hdots := isDot_iff hs (t :: l).reverse rest
        rw [← hbase] at hdots
        rw [if_pos (by omega), if_neg (by omega), hdelta, htoNat]
        rw [show (((dir (t :: l).reverse).length : ℤ) - 1).toNat + 2 =
          (dir (t :: l).reverse).length + 1 by omega]
        by_cases hdot : s = dot ∨ s = dotDot
        · rw [if_pos, dropBack, if_pos hdot, ← hend]
          exact_mod_cast hdots.2 hdot
        · rw [if_neg, dropBack, if_neg hdot]
          · exact ih hl (s ++ kSlash :: rest) (by rw [hbase, append_assoc])
          · exact_mod_cast fun h => hdot (hdots.1 h)

theorem countBack_spec (reference : List ℕ) : ∀ k ≤ countBack reference,
    dir (replicate k dotDot) ++ reference.drop (3 * k) = reference := by
  fun_induction countBack reference with
  | case1 a b c rest h ih =>
    obtain ⟨rfl, rfl, rfl⟩ := h
    intro k hk
    cases k with
    | zero => rfl
    | succ k =>
      rw [replicate_succ, dir_cons, show 3 * (k + 1) = 3 * k + 1 + 1 + 1 by omega,
        drop_succ_cons, drop_succ_cons, drop_succ_cons]
      rw [append_assoc, cons_append, ih k (by omega)]
      rfl
  | case2 a b c rest h =>
    intro k hk
    obtain rfl := Nat.le_zero.1 hk
    rfl
  | case3 reference h =>
    intro k hk
    obtain rfl := Nat.le_zero.1 hk
    rfl

theorem dropBack_le (n : ℕ) (l : List (List ℕ)) : (dropBack n l).2 ≤ n := by
  fun_induction dropBack n l with
  | case1 => exact le_rfl
  | case2 n s t back h ih => omega
  | case3 => exact le_rfl

theorem dropBack_suffix (n : ℕ) (l : List (List ℕ)) : (dropBack n l).1 <:+ l := by
  fun_induction dropBack n l with
  | case1 => exact suffix_rfl
  | case2 n s t back h ih => exact ih.trans (suffix_cons _ _)
  | case3 => exact suffix_rfl

/-- What is left of a reference after its leading `../`. -/
def remainder (reference : List ℕ) : List ℕ := reference.drop (3 * countBack reference)

/-- The `..` segments that are left after `k` of the leading ones. -/
theorem drop_reference {reference : List ℕ} {k : ℕ} (hk : k ≤ countBack reference) :
    reference.drop (3 * countBack reference - 3 * k) =
      dir (replicate k dotDot) ++ remainder reference := by
  have hall := countBack_spec reference _ le_rfl
  have hpart := countBack_spec reference (countBack reference - k) (by omega)
  have hsplit : replicate (countBack reference) dotDot =
      replicate (countBack reference - k) dotDot ++ replicate k dotDot := by
    rw [replicate_append_replicate, Nat.sub_add_cancel hk]
  rw [hsplit, dir_append, append_assoc] at hall
  rw [← Nat.mul_sub]
  exact append_cancel_left (hpart.trans hall.symm)

/-- **Merging on segments.** -/
theorem mergePaths_eq (base reference : List ℕ) : mergePaths base reference =
    join ((dropBack (countBack reference) (directory base).reverse).1.reverse ++
      replicate (dropBack (countBack reference) (directory base).reverse).2 dotDot ++
      (remainder reference).splitOn kSlash) := by
  obtain ⟨last, hlast, hbase⟩ := base_eq base
  have hclean : Clean (directory base).reverse := fun s hs =>
    clean_directory base s (mem_reverse.1 hs)
  have hstart := lastSlash_eq (B := directory base) hlast []
  rw [append_nil, ← hbase] at hstart
  have hdrop := dropSegments_eq (n := countBack reference) hclean base last
    (by rw [reverse_reverse]; exact hbase)
  rw [reverse_reverse] at hdrop
  obtain ⟨dropped, hsuffix⟩ := dropBack_suffix (countBack reference) (directory base).reverse
  have hle := dropBack_le (countBack reference) (directory base).reverse
  rw [mergePaths, hstart, hdrop]
  dsimp only
  generalize dropBack (countBack reference) (directory base).reverse = kept at hsuffix hle ⊢
  have hdirectory : directory base = kept.1.reverse ++ dropped.reverse := by
    rw [← reverse_append, hsuffix, reverse_reverse]
  have htake : base.take (((dir kept.1.reverse).length : ℤ) - 1 + 1).toNat =
      dir kept.1.reverse := by
    rw [Int.sub_add_cancel, Int.toNat_natCast, hbase, hdirectory, dir_append, append_assoc,
      take_left]
  rw [htake, drop_reference hle, join_dir _ (splitOn_ne_nil _ _), join_splitOn, dir_append,
    append_assoc]

/-- The merging of the RFC. -/
theorem rfc_merge_eq {hasAuthority : Bool} {base reference : List ℕ} (hbase : base ≠ []) :
    Rfc.merge hasAuthority base reference =
      join (directory base ++ replicate (countBack reference) dotDot ++
        (remainder reference).splitOn kSlash) := by
  obtain ⟨last, hlast, heq⟩ := base_eq base
  have hall : ∀ c ∈ last.reverse, decide (c ≠ kSlash) = true := fun c hc =>
    decide_eq_true fun heq => hlast (heq ▸ mem_reverse.1 hc)
  have hdir : (base.reverse.dropWhile (· ≠ kSlash)).reverse = dir (directory base) := by
    nth_rewrite 1 [heq]
    rw [reverse_append, dropWhile_append_of_pos hall]
    rcases eq_nil_or_concat (directory base) with hnil | ⟨init, s, hconcat⟩
    · rw [hnil]
      rfl
    · rw [hconcat, concat_eq_append, dir_concat]
      simp
  rw [Rfc.merge, if_neg (fun h => hbase h.2), hdir, join_dir _ (splitOn_ne_nil _ _),
    join_splitOn, dir_append, append_assoc]
  exact congrArg _ (countBack_spec reference _ le_rfl).symm

end

/-! ## What the early removal changes

The leading `../` of the reference are removed before the dot segments of the base are; that loses
segments if the base has dot segments. -/

section

variable {s : List ℕ} {l X B R o : List (List ℕ)} {n d : ℕ}

/-- A dot segment. -/
def IsDots (s : List ℕ) : Prop := s = dot ∨ s = dotDot

instance (s : List ℕ) : Decidable (IsDots s) := inferInstanceAs (Decidable (_ ∨ _))

/-- The stack after the segments. -/
def stack (o l : List (List ℕ)) : List (List ℕ) := (removeLoop l o false).1

@[simp] theorem stack_nil : stack o [] = o := rfl

theorem removeLoop_fst (b : Bool) : (removeLoop l o b).1 = stack o l := by
  cases l with
  | nil => rfl
  | cons s l => rfl

theorem stack_dot : stack o (dot :: l) = stack o l := removeLoop_fst true

theorem stack_dotDot : stack o (dotDot :: l) = stack (popSegment o) l := removeLoop_fst true

theorem stack_segment (hs : ¬ IsDots s) : stack o (s :: l) = stack (o ++ [s]) l := by
  obtain ⟨hdot, hdotDot⟩ := not_or.1 hs
  rw [stack, removeLoop, if_neg hdotDot, if_neg hdot]
  rfl

theorem stack_append (l l' : List (List ℕ)) : stack o (l ++ l') = stack (stack o l) l' := by
  induction l generalizing o with
  | nil => rfl
  | cons s l ih =>
    rw [cons_append]
    by_cases hs : IsDots s
    · obtain rfl | rfl := hs
      · rw [stack_dot, stack_dot, ih]
      · rw [stack_dotDot, stack_dotDot, ih]
    · rw [stack_segment hs, stack_segment hs, ih]

theorem removeLoop_append (hR : R ≠ []) (b : Bool) :
    removeLoop (l ++ R) o b = removeLoop R (stack o l) false := by
  induction l generalizing o b with
  | nil => exact removeLoop_flag hR b false
  | cons s l ih =>
    rw [cons_append, removeLoop]
    by_cases hs : IsDots s
    · obtain rfl | rfl := hs
      · rw [if_neg (by decide), if_pos rfl, stack_dot, ih]
      · rw [if_pos rfl, stack_dotDot, ih]
    · rw [stack_segment hs]
      obtain ⟨hdot, hdotDot⟩ := not_or.1 hs
      rw [if_neg hdotDot, if_neg hdot, ih]

theorem stack_ne_nil (ho : o ≠ []) : stack o l ≠ [] := by
  induction l generalizing o with
  | nil => exact ho
  | cons s l ih =>
    by_cases hs : IsDots s
    · obtain rfl | rfl := hs
      · rw [stack_dot]
        exact ih ho
      · rw [stack_dotDot]
        exact ih (popSegment_ne_nil ho)
    · rw [stack_segment hs]
      exact ih (by simp)

theorem stack_eq_nil_iff : stack [] l = [] ↔ ∀ s ∈ l, IsDots s := by
  induction l with
  | nil => simp
  | cons s l ih =>
    rw [forall_mem_cons]
    by_cases hs : IsDots s
    · have hstep : stack [] (s :: l) = stack [] l := by
        obtain rfl | rfl := hs
        · exact stack_dot
        · exact stack_dotDot
      rw [hstep, ih]
      exact (and_iff_right hs).symm
    · rw [stack_segment hs]
      exact iff_of_false (stack_ne_nil (by simp)) fun h => hs h.1

/-- A segment and `..` cancel, but for the first one of the stack. -/
theorem stack_cancel (hs : ¬ IsDots s) :
    stack o (s :: dotDot :: l) = if o = [] then stack [[]] l else stack o l := by
  rw [stack_segment hs, stack_dotDot, popSegment, if_pos (by simp), dropLast_concat]
  dsimp only
  split_ifs <;> rfl

theorem stack_root (n : ℕ) : stack [[]] (replicate n dotDot) = [[]] := by
  induction n with
  | zero => rfl
  | succ n ih =>
    rw [replicate_succ, stack_dotDot]
    exact ih

/-- Only dot segments, then others that are all taken away. -/
def Empties (B : List (List ℕ)) (n : ℕ) : Prop :=
  ∃ D N, B = D ++ N ∧ D ≠ [] ∧ N ≠ [] ∧ (∀ s ∈ D, IsDots s) ∧ (∀ s ∈ N, ¬ IsDots s) ∧ N.length ≤ n

theorem empties_concat_iff (hs : ¬ IsDots s) (hX : ¬ ∀ t ∈ X, IsDots t) :
    Empties (X ++ [s]) (n + 1) ↔ Empties X n := by
  constructor
  · rintro ⟨D, N, heq, hD, hN, hdots, hplain, hlen⟩
    obtain ⟨N', t, rfl⟩ : ∃ N' t, N = N' ++ [t] := ⟨_, _, (dropLast_append_getLast hN).symm⟩
    rw [← append_assoc] at heq
    obtain ⟨rfl, -⟩ := append_inj' heq rfl
    refine ⟨D, N', rfl, hD, ?_, hdots, fun t ht => hplain t (mem_append_left _ ht), ?_⟩
    · rintro rfl
      exact hX (by simpa using hdots)
    · simpa using hlen
  · rintro ⟨D, N, rfl, hD, hN, hdots, hplain, hlen⟩
    refine ⟨D, N ++ [s], by simp, hD, by simp, hdots, fun t ht => ?_, by simpa using hlen⟩
    obtain ht | ht := mem_append.1 ht
    · exact hplain t ht
    · rwa [mem_singleton.1 ht]

/-- **What taking segments away early does to the stack.** -/
theorem dropBack_stack (n : ℕ) (l : List (List ℕ)) : (¬ Empties l.reverse n →
      stack [] ((dropBack n l).1.reverse ++ replicate (dropBack n l).2 dotDot) =
        stack [] (l.reverse ++ replicate n dotDot)) ∧ (Empties l.reverse n →
      stack [] ((dropBack n l).1.reverse ++ replicate (dropBack n l).2 dotDot) = [] ∧
        stack [] (l.reverse ++ replicate n dotDot) = [[]]) := by
  fun_induction dropBack n l with
  | case1 n s t back hs =>
    refine ⟨fun _ => rfl, ?_⟩
    rintro ⟨D, N, heq, -, hN, -, hplain, -⟩
    obtain ⟨N', t', rfl⟩ : ∃ N' t', N = N' ++ [t'] := ⟨_, _, (dropLast_append_getLast hN).symm⟩
    rw [reverse_cons, ← append_assoc] at heq
    obtain ⟨-, hlast⟩ := append_inj' heq rfl
    exact absurd hs (singleton_injective hlast ▸ hplain t' (by simp))
  | case2 n s t back hs ih =>
    obtain ⟨ihkept, ihlost⟩ := ih
    rw [reverse_cons (a := s)]
    generalize hX : (t :: back).reverse = X at ihkept ihlost ⊢
    have hne : X ≠ [] := by simp [← hX]
    have hcancel : stack [] (X ++ [s] ++ replicate (n + 1) dotDot) =
        if stack [] X = [] then [[]] else stack [] (X ++ replicate n dotDot) := by
      rw [append_assoc, stack_append, replicate_succ, singleton_append,
        stack_cancel hs, stack_root, stack_append]
    by_cases hdots : ∀ t ∈ X, IsDots t
    · have hlost : Empties (X ++ [s]) (n + 1) :=
        ⟨X, [s], rfl, hne, by simp, hdots, fun t ht => mem_singleton.1 ht ▸ hs, by simp⟩
      have hkept : ¬ Empties X n := by
        rintro ⟨D, N, rfl, -, hN, -, hplain, -⟩
        obtain ⟨t', ht'⟩ := exists_mem_of_ne_nil N hN
        exact hplain t' ht' (hdots t' (mem_append_right _ ht'))
      refine ⟨fun h => absurd hlost h, fun _ => ⟨?_, ?_⟩⟩
      · rw [ihkept hkept, stack_eq_nil_iff]
        intro t' ht'
        obtain ht' | ht' := mem_append.1 ht'
        · exact hdots t' ht'
        · exact .inr (eq_of_mem_replicate ht')
      · rw [hcancel, if_pos (stack_eq_nil_iff.2 hdots)]
    · rw [empties_concat_iff hs hdots, hcancel, if_neg fun h => hdots (stack_eq_nil_iff.1 h)]
      exact ⟨ihkept, ihlost⟩
  | case3 n l h =>
    refine ⟨fun _ => rfl, ?_⟩
    rintro ⟨D, N, heq, hD, hN, -, -, hlen⟩
    have hlength := congrArg length heq
    have hDpos := length_pos_of_ne_nil hD
    have hNpos := length_pos_of_ne_nil hN
    obtain ⟨m, rfl⟩ : ∃ m, n = m + 1 := ⟨n - 1, by omega⟩
    rcases l with _ | ⟨s, _ | ⟨t, back⟩⟩
    · simp at hlength
      omega
    · simp at hlength
      omega
    · exact absurd rfl (h m s t back rfl)

/-- At some point the segments lead back to where they started; `d` of them are on the stack. -/
def returns : ℕ → List (List ℕ) → Bool
  | _, [] => false
  | d, s :: R =>
    if s = dotDot then d = 1 || returns (d - 1) R
    else if s = dot then returns d R
    else returns (d + 1) R

/-- An empty segment at the bottom of the stack stays there, or is replaced in the end. -/
theorem removeLoop_root (hd : o.length = d) (b : Bool) : removeLoop R ([] :: o) b =
      if returns d R then removeLoop R o b
      else ([] :: (removeLoop R o b).1, (removeLoop R o b).2) := by
  induction R generalizing o d b with
  | nil => rfl
  | cons s R ih =>
    rw [removeLoop, removeLoop, returns]
    by_cases hdotDot : s = dotDot
    · rw [if_pos hdotDot, if_pos hdotDot, if_pos hdotDot]
      subst hd
      rcases o with _ | ⟨x, _ | ⟨y, o⟩⟩
      · exact ih rfl true
      · rfl
      have hpop : ∀ t l, popSegment (t :: x :: y :: l) = t :: (x :: y :: l).dropLast := by
        intro t l
        rw [popSegment, if_pos (by simp), dropLast_cons_cons]
        simp
      have hpop' : popSegment (x :: y :: o) = (x :: y :: o).dropLast := by
        rw [popSegment, if_pos (by simp), dropLast_cons_cons]
        simp
      rw [hpop, hpop', ih (d := o.length + 1) (by simp)]
      simp
    · rw [if_neg hdotDot, if_neg hdotDot, if_neg hdotDot]
      by_cases hdot : s = dot
      · rw [if_pos hdot, if_pos hdot, if_pos hdot]
        exact ih hd true
      · rw [if_neg hdot, if_neg hdot, if_neg hdot]
        exact ih (by simpa using hd) false

theorem removeLoop_snd_of_dots (h : ∀ s ∈ R, IsDots s) (hR : R ≠ []) (b : Bool) :
    (removeLoop R o b).2 = true := by
  induction R generalizing o b with
  | nil => exact absurd rfl hR
  | cons s R ih =>
    obtain ⟨hs, hrest⟩ := forall_mem_cons.1 h
    have htrue : ∀ o, (removeLoop R o true).2 = true := by
      intro o
      by_cases hnil : R = []
      · rw [hnil]
        rfl
      · exact ih hrest hnil true
    obtain rfl | rfl := hs
    · exact htrue o
    · exact htrue (popSegment o)

/-- With an empty segment before them, the segments are joined to a path with a slash in front. -/
theorem joinOutput_root (hR : R ≠ []) :
    joinOutput ([] :: (removeLoop R [] false).1, (removeLoop R [] false).2) =
      kSlash :: joinOutput (removeLoop R [] false) := by
  have hroot : ∀ L : List (List ℕ), L ≠ [] → join ([] :: L) = kSlash :: join L := by
    intro L hL
    obtain ⟨s, L, rfl⟩ := exists_cons_of_ne_nil hL
    rw [join_cons, slashed_cons, nil_append, ← join_cons]
  cases hflag : (removeLoop R [] false).2 with
  | true =>
    rw [joinOutput, joinOutput, hflag, if_pos rfl, if_pos rfl]
    exact hroot _ (by simp)
  | false =>
    have hne : (removeLoop R [] false).1 ≠ [] := fun hnil => by
      rw [removeLoop_snd_of_dots (stack_eq_nil_iff.1 hnil) hR] at hflag
      exact absurd hflag (by decide)
    rw [joinOutput, joinOutput, hflag, if_neg (by simp), if_neg (by simp)]
    exact hroot _ hne

/-- **The inputs on which merging differs from the RFC**: the base starts with dot segments, after
which it has others only, as many `../` as those start the reference, and the rest of the reference
does not lead back to its own start. -/
def Loses (base reference : List ℕ) : Prop :=
  Empties (directory base) (countBack reference) ∧
    returns 0 ((remainder reference).splitOn kSlash) = false

theorem clean_append {l' : List (List ℕ)} (h : Clean l) (h' : Clean l') : Clean (l ++ l') :=
  fun s hs => (mem_append.1 hs).elim (h s) (h' s)

theorem clean_replicate (n : ℕ) : Clean (replicate n dotDot) := fun s hs => by
  rw [eq_of_mem_replicate hs]
  exact slash_notMem_dotDot

theorem rfc_removeDotSegments_join (hB : Clean B) (n : ℕ) (reference : List ℕ) :
    Rfc.removeDotSegments (join (B ++ replicate n dotDot ++ (remainder reference).splitOn kSlash)) =
      joinOutput (removeLoop ((remainder reference).splitOn kSlash)
        (stack [] (B ++ replicate n dotDot)) false) := by
  have hne := splitOn_ne_nil kSlash (remainder reference)
  have hclean : Clean (B ++ replicate n dotDot ++ (remainder reference).splitOn kSlash) :=
    clean_append (clean_append hB (clean_replicate n)) (clean_splitOn _)
  have hsplit := splitOn_intercalate kSlash hclean (by simp)
  rw [rfc_removeDotSegments_eq, join, hsplit, removeLoop_append hne]

theorem rfc_removeDotSegments_merge (hasAuthority : Bool) {base reference : List ℕ}
    (hbase : base ≠ []) :
    (Loses base reference → Rfc.removeDotSegments (Rfc.merge hasAuthority base reference) =
      kSlash :: removeDotSegments (mergePaths base reference)) ∧
    (¬ Loses base reference → Rfc.removeDotSegments (Rfc.merge hasAuthority base reference) =
      removeDotSegments (mergePaths base reference)) := by
  have hsuffix := dropBack_suffix (countBack reference) (directory base).reverse
  have hclean : Clean (dropBack (countBack reference) (directory base).reverse).1.reverse :=
    fun s hs => clean_directory base s
      (mem_reverse.1 (hsuffix.subset (mem_reverse.1 hs)))
  have hstack := dropBack_stack (countBack reference) (directory base).reverse
  rw [reverse_reverse] at hstack
  rw [removeDotSegments_eq_rfc, mergePaths_eq, rfc_merge_eq hbase,
    rfc_removeDotSegments_join hclean, rfc_removeDotSegments_join (clean_directory base), Loses]
  by_cases hempties : Empties (directory base) (countBack reference)
  · obtain ⟨hkept, hall⟩ := hstack.2 hempties
    rw [hkept, hall, removeLoop_root rfl]
    by_cases hreturns : returns 0 ((remainder reference).splitOn kSlash) = true
    · rw [length_nil, if_pos hreturns]
      exact ⟨fun h => absurd (hreturns.symm.trans h.2) (by decide), fun _ => rfl⟩
    · rw [length_nil, if_neg hreturns]
      refine ⟨fun _ => joinOutput_root (splitOn_ne_nil _ _), fun h => ?_⟩
      exact absurd ⟨hempties, by simpa using hreturns⟩ h
  · exact ⟨fun h => absurd h.1 hempties, fun _ => by rw [hstack.1 hempties]⟩

end

/-- The path is merged, and merging loses a slash. -/
def LosesSlash (base : Base) (reference : Reference) : Prop :=
  reference.scheme = [] ∧ reference.hasAuthority = false ∧ reference.path ≠ [] ∧
    reference.path.head? ≠ some kSlash ∧ base.path ≠ [] ∧ Loses base.path reference.path

/-- **The condition for the path of the RFC.**  A reference that is returned as it is has no dot
segments, and does not become absolute with another scheme; a merged path has not lost a slash; and
`_makePath` does not change the path of the RFC in the end. -/
def Follows (normalize : List ℕ → List ℕ) (base : Base) (reference : Reference) : Prop :=
  if reference.isPlatformUri then
    if reference.scheme ≠ [] then NoDots reference.path
    else if reference.hasAuthority then
      NoDots reference.path ∧
        (reference.path.head? = some kSlash ∨ reference.path = [] ∧ base.scheme ≠ kFile)
    else ¬ LosesSlash base reference
  else
    (¬ LosesSlash base reference → remakePath normalize base reference
      (Rfc.transformPath base reference) = Rfc.transformPath base reference) ∧
    (LosesSlash base reference → remakePath normalize base reference
      (Rfc.transformPath base reference).tail = Rfc.transformPath base reference)

section

variable {base : Base} {reference : Reference}

/-- `targetPath` is the path of the RFC, or that without its first slash. -/
theorem transformPath_eq (hpackage : base.scheme ≠ kPackage) :
    (LosesSlash base reference →
      Rfc.transformPath base reference = kSlash :: targetPath base reference) ∧
    (¬ LosesSlash base reference →
      Rfc.transformPath base reference = targetPath base reference) := by
  have hend : ¬ packageNameEnd base > 0 := by
    rw [packageNameEnd, if_neg fun h => hpackage h.1]
    decide
  rw [Rfc.transformPath, targetPath]
  by_cases hscheme : reference.scheme ≠ []
  · rw [if_pos hscheme, if_pos hscheme, removeDotSegments_eq_rfc]
    exact ⟨fun h => absurd h.1 hscheme, fun _ => rfl⟩
  rw [if_neg hscheme, if_neg hscheme]
  by_cases hauth : reference.hasAuthority = true
  · rw [if_pos hauth, if_pos hauth, removeDotSegments_eq_rfc]
    exact ⟨fun h => absurd (hauth.symm.trans h.2.1) (by decide), fun _ => rfl⟩
  rw [if_neg hauth, if_neg hauth]
  by_cases hempty : reference.path = []
  · rw [if_pos hempty, if_pos hempty]
    exact ⟨fun h => absurd hempty h.2.2.1, fun _ => rfl⟩
  rw [if_neg hempty, if_neg hempty, if_neg hend]
  by_cases hslash : reference.path.head? = some kSlash
  · rw [if_pos hslash, if_pos hslash, removeDotSegments_eq_rfc]
    exact ⟨fun h => absurd hslash h.2.2.2.1, fun _ => rfl⟩
  rw [if_neg hslash, if_neg hslash]
  by_cases hbase : base.path = []
  · rw [if_pos hbase, hbase]
    refine ⟨fun h => absurd hbase h.2.2.2.2.1, fun _ => ?_⟩
    cases hhost : base.hasAuthority <;> simp [Rfc.merge, removeDotSegments_eq_rfc]
  · rw [if_neg hbase]
    have hiff : LosesSlash base reference ↔ Loses base.path reference.path :=
      ⟨fun h => h.2.2.2.2.2, fun h => ⟨not_not.1 hscheme, Bool.eq_false_iff.2 hauth, hempty, hslash,
        hbase, h⟩⟩
    rw [hiff]
    exact rfc_removeDotSegments_merge base.hasAuthority hbase

/-- With another scheme, a path may get a slash in front, which the RFC does not have. -/
theorem replaceScheme_eq_iff (scheme path : List ℕ) :
    replaceScheme scheme path = Rfc.removeDotSegments path ↔
      NoDots path ∧ (path.head? = some kSlash ∨ path = [] ∧ scheme ≠ kFile) := by
  rw [replaceScheme]
  split_ifs with hslash
  · refine iff_of_false (fun heq => ?_) fun h => ?_
    · have hdots : NoDots (kSlash :: path) := heq ▸ noDots_removeDotSegments path
      have hpath : NoDots path := fun s hs => hdots s (by
        rw [splitOn_cons_eq_if_modifyHead, if_pos (beq_self_eq_true _)]
        exact mem_cons_of_mem _ hs)
      rw [removeDotSegments_of_noDots hpath] at heq
      exact absurd (congrArg length heq) (by simp)
    · rcases h.2 with h | ⟨hempty, hfile⟩
      · exact hslash.2 h
      · exact hslash.1.elim hfile fun hne => hne hempty
  · rw [removeDotSegments_eq_self_iff]
    refine (and_iff_left ?_).symm
    by_cases hhead : path.head? = some kSlash
    · exact .inl hhead
    · have hnot : ¬ (scheme = kFile ∨ path ≠ []) := fun h => hslash ⟨h, hhead⟩
      simp only [not_or, not_not] at hnot
      exact .inr ⟨hnot.2, hnot.1⟩

end

/-- **The removal of dot segments is that of the RFC on every path, and the path of a resolved
reference is that of the RFC** exactly under the condition. -/
theorem resolution_iff (normalize : List ℕ → List ℕ) (base : Base) (reference : Reference) :
    (∀ path, removeDotSegments path = Rfc.removeDotSegments path) ∧ (base.scheme ≠ kPackage →
      (resolveUri normalize base reference = Rfc.transformPath base reference ↔
        Follows normalize base reference)) := by
  refine ⟨removeDotSegments_eq_rfc, fun hpackage => ?_⟩
  obtain ⟨hloses, hkeeps⟩ : (LosesSlash base reference → _) ∧ _ := transformPath_eq hpackage
  rw [resolveUri, Follows]
  by_cases hplatform : reference.isPlatformUri = true
  · rw [if_pos hplatform, if_pos hplatform]
    by_cases hscheme : reference.scheme ≠ []
    · rw [if_pos hscheme, if_pos hscheme, Rfc.transformPath, if_pos hscheme,
        removeDotSegments_eq_self_iff]
    rw [if_neg hscheme, if_neg hscheme]
    by_cases hauth : reference.hasAuthority = true
    · rw [if_pos hauth, if_pos hauth, Rfc.transformPath, if_neg hscheme, if_pos hauth,
        replaceScheme_eq_iff]
    rw [if_neg hauth, if_neg hauth]
    refine ⟨fun heq h => ?_, fun h => (hkeeps h).symm⟩
    rw [hloses h] at heq
    exact absurd (congrArg length heq) (by simp)
  · rw [if_neg hplatform, if_neg hplatform]
    by_cases h : LosesSlash base reference
    · simp [h, hloses h]
    · simp [h, hkeeps h]

/-- The base `foo:../b/c` and the reference `../d`: the code gives `d`, the RFC `/d`. -/
theorem resolution_lostSlash :
    let base : Base := ⟨[0x66, 0x6F, 0x6F], false, [0x2E, 0x2E, 0x2F, 0x62, 0x2F, 0x63], by decide⟩
    let reference : Reference := ⟨[], false, [0x2E, 0x2E, 0x2F, 0x64], false, true⟩
    resolveUri id base reference = [0x64] ∧
      Rfc.transformPath base reference = [0x2F, 0x64] := by
  intro base reference
  have hmerge : Rfc.transformPath base reference = Rfc.removeDotSegments
      [0x2E, 0x2E, 0x2F, 0x62, 0x2F, 0x2E, 0x2E, 0x2F, 0x64] := rfl
  refine ⟨rfl, ?_⟩
  rw [hmerge, rfc_removeDotSegments_eq]
  rfl

end UriPath
