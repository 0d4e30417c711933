import DartSdk.Convert.Utf8.SinkCorrect

/-!
# Convert/Utf8/Replacement — what malformed input is replaced by

Where no character can be read, the **maximal subpart** is the longest sequence that begins one,
or a single byte if there is none.  `Replaced` is the text with one U+FFFD for each of them.
**Lenient decoding gives that text, and strict decoding is exact on UTF-8 and refuses the rest**
(`convertSingle_text`), both after the BOM.
-/

namespace Utf8

set_option maxRecDepth 10000

open List Transducer

variable {s s' : ℕ × ℕ} {byte : Byte} {tail rest p part : List Byte} {out text : List ℕ} {e : ℕ}

/-- The maximal subpart at the beginning of `part ++ rest`, where no character can be read. -/
structure IsMaximalSubpart (part rest : List Byte) : Prop where
  not_scalar : ∀ p, p <+: part ++ rest → ¬ IsScalar p
  subpart : IsUnfinished part ∨ part.length = 1
  maximal : ∀ p, p <+: part ++ rest → IsUnfinished p → p.length ≤ part.length

/-- The text of an input, with a replacement character for each maximal subpart. -/
inductive Replaced : List Byte → List ℕ → Prop
  | nil : Replaced [] []
  | scalar {scalar rest : List Byte} {out : List ℕ} : IsScalar scalar → Replaced rest out →
      Replaced (scalar ++ rest) (charUnits (codePoint scalar) ++ out)
  | subpart {part rest : List Byte} {out : List ℕ} : IsMaximalSubpart part rest →
      Replaced rest out → Replaced (part ++ rest) (0xFFFD :: out)

/-- Where a byte is refused, what can be read ends before it. -/
theorem prefix_tail (hrun : run strictStep (IA, 0) tail = (out, .ok s))
    (herror : strictStep s byte = .error e) (hp : p <+: tail ++ byte :: rest)
    (hok : run strictStep (IA, 0) p = (text, .ok s')) : p <+: tail := by
  rcases Nat.lt_or_ge tail.length p.length with hlt | hle
  · have hlong : tail ++ [byte] <+: p := by
      refine prefix_of_prefix_length_le ⟨rest, by simp⟩ hp ?_
      rwa [length_append]
    obtain ⟨q, rfl⟩ := hlong
    have hfail : run strictStep (IA, 0) (tail ++ [byte]) = (out ++ [], .error e) := by
      rw [run_append_ok hrun, run_cons_error herror]
    rw [run_append_error hfail] at hok
    cases hok
  · exact prefix_of_prefix_length_le hp (prefix_append _ _) hle

/-- **What is replaced at once**: the bytes after which nothing can be read, or a single byte. -/
theorem isMaximalSubpart (hrun : run strictStep (IA, 0) tail = ([], .ok s))
    (hstop : ∀ {p out s'}, p <+: part ++ rest → run strictStep (IA, 0) p = (out, .ok s') →
      p <+: tail)
    (hle : tail.length ≤ part.length) (hpart : IsUnfinished part ∨ part.length = 1) :
    IsMaximalSubpart part rest where
  not_scalar p hp hscalar := by
    obtain ⟨q, rfl⟩ := hstop hp hscalar.run
    rw [run_append_ok hscalar.run, Prod.mk.injEq] at hrun
    exact charUnits_ne_nil _ (append_eq_nil_iff.mp hrun.1).1
  subpart := hpart
  maximal p hp hunfinished := by
    obtain ⟨s', hafter⟩ := exists_after hunfinished
    exact (hstop hp hafter.1).length_le.trans hle

theorem lenientStep_refused (hs : IsCarried s) (hne : s.1 ≠ IA)
    (herror : strictStep s byte = .error e) (hagain : lenientStep (IA, 0) byte = .ok (out, s')) :
    lenientStep s byte = .ok (0xFFFD :: out, s') := by
  obtain ⟨rfl, hstate⟩ := strictStep_refused herror
  cases hs.1.step byte with
  | missing _ _ hmissing => exact lenientStep_again (hmissing ▸ herror) hagain
  | refused _ hlo hhi hrefused =>
    rw [lenientStep, strictStep_extension ⟨hlo, hhi⟩] at hagain
    cases hagain
    rw [lenientStep, herror]
    rcases hrefused with h | h | h <;> rw [h] <;> rfl
  | ascii hboundary | lead hboundary | bad hboundary => exact absurd hboundary hne
  | extend _ _ _ _ hcarry =>
    rw [hcarry.not_error] at hstate
    cases hstate
  | complete _ _ _ haccept =>
    rw [haccept] at hstate
    cases hstate

theorem finish_append (out : List ℕ) (r : List ℕ × Except ℕ (ℕ × ℕ)) :
    finish true (out ++ r.1, r.2) = (finish true r).map (out ++ ·) := by
  obtain ⟨out', _ | s⟩ := r
  · rfl
  · by_cases hs : s.1 = IA <;> simp [finish, hs]

theorem finish_cons (hstep : lenientStep s byte = .ok (out, s'))
    (h : finish true (run lenientStep s (byte :: rest)) = some text) :
    ∃ text', finish true (run lenientStep s' rest) = some text' ∧ text = out ++ text' := by
  rw [run_cons_ok hstep, finish_append, Option.map_eq_some_iff] at h
  obtain ⟨text', htext, rfl⟩ := h
  exact ⟨text', htext, rfl⟩

/-- **Lenient decoding** of what follows the first bytes of a character. -/
theorem replaced_of_finish (hrun : run strictStep (IA, 0) tail = ([], .ok s))
    (h : finish true (run lenientStep s rest) = some text) : Replaced (tail ++ rest) text := by
  induction rest generalizing tail s text with
  | nil =>
    by_cases htail : tail = []
    · subst htail
      cases hrun
      cases h
      exact .nil
    have hafter : After tail s := ⟨hrun, ne_boundary_of_run hrun htail⟩
    simp only [run_nil, finish, if_neg hafter.2, if_true] at h
    cases h
    refine .subpart (isMaximalSubpart hrun (fun hp _ => ?_) le_rfl
      (.inl hafter.begun.isUnfinished)) .nil
    rwa [append_nil] at hp
  | cons byte rest ih =>
    -- a byte that is accepted, in any state
    have haccepted {tail : List Byte} {s : ℕ × ℕ} {text : List ℕ}
        (hrun : run strictStep (IA, 0) tail = ([], .ok s))
        (h : finish true (run lenientStep s (byte :: rest)) = some text) {out : List ℕ} {s' : ℕ × ℕ}
        (hstep : strictStep s byte = .ok (out, s')) : Replaced (tail ++ byte :: rest) text := by
      obtain ⟨text', htext, rfl⟩ := finish_cons (lenientStep_of_strict hstep) h
      have hout := strictStep_out hrun hstep
      rw [append_cons]
      split_ifs at hout with haccept
      · have hs := isCarried_of_run hrun
        cases (isCarried_step hs hstep).eq_boundary haccept
        rw [hout]
        exact .scalar (isScalar_concat hrun hstep haccept) (ih run_nil htext)
      · subst hout
        refine ih ?_ htext
        rw [run_append_ok hrun, run_cons_ok hstep]
        rfl
    have hboundary {text : List ℕ}
        (h : finish true (run lenientStep (IA, 0) (byte :: rest)) = some text) :
        Replaced (byte :: rest) text := by
      cases hstep : strictStep (IA, 0) byte with
      | ok r => exact haccepted run_nil h hstep
      | error e =>
        have hreplaced : lenientStep (IA, 0) byte = .ok ([0xFFFD], (IA, 0)) := by
          rw [lenientStep, hstep]
          rcases strictStep_boundary_error hstep with rfl | rfl <;> rfl
        obtain ⟨text', htext, rfl⟩ := finish_cons hreplaced h
        have hsingle : IsMaximalSubpart [byte] rest :=
          isMaximalSubpart run_nil (prefix_tail run_nil hstep) zero_le_one (.inr rfl)
        exact .subpart hsingle (ih run_nil htext)
    cases hstep : strictStep s byte with
    | ok r => exact haccepted hrun h hstep
    | error e =>
      by_cases htail : tail = []
      · subst htail
        cases hrun
        exact hboundary h
      have hafter : After tail s := ⟨hrun, ne_boundary_of_run hrun htail⟩
      obtain ⟨out, s', hagain, -⟩ := exists_lenientStep isCarried_boundary byte
      obtain ⟨text', htext, rfl⟩ :=
        finish_cons (lenientStep_refused hafter.isCarried hafter.2 hstep hagain) h
      refine .subpart (isMaximalSubpart hrun (prefix_tail hrun hstep) le_rfl
        (.inl hafter.begun.isUnfinished)) (hboundary ?_)
      rw [run_cons_ok hagain, finish_append, htext]
      rfl

theorem WellFormed.exists_scalars {bytes : List Byte} (h : WellFormed bytes) :
    ∃ scalars : List (List Byte), (∀ scalar ∈ scalars, IsScalar scalar) ∧
      bytes = scalars.flatten := by
  induction h with
  | nil => exact ⟨[], by simp, rfl⟩
  | @append bytes scalar _ hscalar ih =>
    obtain ⟨scalars, hscalars, rfl⟩ := ih
    refine ⟨scalars ++ [scalar], ?_, by simp⟩
    simpa [or_imp, forall_and] using ⟨hscalars, hscalar⟩

theorem run_scalars {scalars : List (List Byte)} (h : ∀ scalar ∈ scalars, IsScalar scalar) :
    run strictStep (IA, 0) scalars.flatten =
      (scalars.flatMap fun scalar => charUnits (codePoint scalar), .ok (IA, 0)) := by
  induction scalars with
  | nil => rfl
  | cons scalar scalars ih =>
    rw [flatten_cons, run_append_ok (h scalar mem_cons_self).run,
      ih fun scalar hmem => h scalar (mem_cons_of_mem _ hmem)]
    rfl

/-- **Strict decoding** of UTF-8, and of nothing else. -/
theorem decoded_strict_iff (bytes : List Byte) : decoded false bytes = some text ↔
    ∃ scalars : List (List Byte), (∀ scalar ∈ scalars, IsScalar scalar) ∧
      skipBomSingle bytes = scalars.flatten ∧
      text = scalars.flatMap fun scalar => charUnits (codePoint scalar) := by
  rw [decoded]
  generalize skipBomSingle bytes = bytes
  constructor
  · intro h
    cases hrun : run (feed false) (IA, 0) bytes with
    | mk out r =>
    rw [hrun] at h
    cases r with
    | error e => cases h
    | ok s =>
      have hstate : s.1 = IA := by
        by_contra hne
        simp [finish, hne] at h
      rw [finish, if_pos hstate] at h
      cases h
      obtain ⟨pre, tail, rfl, hpre, htail⟩ := exists_wellFormed hrun
      have hnil : tail = [] := by
        by_contra hne
        exact ne_boundary_of_run htail hne hstate
      subst hnil
      obtain ⟨scalars, hscalars, rfl⟩ := hpre.exists_scalars
      rw [append_nil] at hrun ⊢
      exact ⟨scalars, hscalars, rfl, congrArg Prod.fst (hrun.symm.trans (run_scalars hscalars))⟩
  · rintro ⟨scalars, hscalars, rfl, rfl⟩
    have hrun : run (feed false) (IA, 0) scalars.flatten = _ := run_scalars hscalars
    rw [hrun]
    rfl

theorem convertSingle_eq_ok (allow : Bool) (slice : Slice) :
    convertSingle allow slice.codeUnits slice.start (some slice.stop) = .ok text ↔
      decoded allow slice.bytes = some text := by
  have hgives : Gives _ _ (decoded allow slice.bytes) := convertSingle_spec slice.slice_eq
  cases hdecoded : decoded allow slice.bytes with
  | some text' =>
    rw [hdecoded] at hgives
    obtain ⟨_, hcall, rfl⟩ := hgives
    rw [hcall, Except.ok.injEq, Option.some.injEq]
  | none =>
    rw [hdecoded] at hgives
    obtain ⟨message, offset, hcall⟩ := hgives
    rw [hcall]
    simp

/-- **The text of an input** after its BOM: lenient decoding replaces each maximal subpart by one
character, and strict decoding accepts UTF-8 only, which it decodes exactly. -/
theorem convertSingle_text (slice : Slice) :
    (∃ text, convertSingle true slice.codeUnits slice.start (some slice.stop) = .ok text ∧
      Replaced (skipBomSingle slice.bytes) text) ∧
    ∀ text, convertSingle false slice.codeUnits slice.start (some slice.stop) = .ok text ↔
      ∃ scalars : List (List Byte), (∀ scalar ∈ scalars, IsScalar scalar) ∧
        skipBomSingle slice.bytes = scalars.flatten ∧
        text = scalars.flatMap fun scalar => charUnits (codePoint scalar) := by
  constructor
  · obtain ⟨out, s, hrun, -⟩ := exists_run_lenient isCarried_boundary (skipBomSingle slice.bytes)
    obtain ⟨text, htext⟩ : ∃ text, finish true (out, .ok s) = some text := by
      by_cases hstate : s.1 = IA
      · exact ⟨_, if_pos hstate⟩
      · exact ⟨_, (if_neg hstate).trans (if_pos rfl)⟩
    rw [← hrun] at htext
    exact ⟨text, (convertSingle_eq_ok true slice).mpr htext, replaced_of_finish run_nil htext⟩
  · exact fun text => (convertSingle_eq_ok false slice).trans (decoded_strict_iff slice.bytes)

/-- The BOM itself, U+FEFF, is no part of the text. -/
theorem convertSingle_bom : convertSingle true (.uint8List bomValues) 0 none = .ok [] ∧
    IsScalar bomValues ∧ ¬ Replaced bomValues [] := by
  refine ⟨rfl, by simp [IsScalar, SecondOf, isExtension], ?_⟩
  generalize hbytes : bomValues = bytes
  generalize htext : ([] : List ℕ) = text
  intro h
  cases h with
  | nil => cases hbytes
  | scalar => exact charUnits_ne_nil _ (append_eq_nil_iff.mp htext.symm).1
  | subpart => cases htext

end Utf8
