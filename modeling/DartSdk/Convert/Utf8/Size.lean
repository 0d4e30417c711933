import DartSdk.Convert.Utf8.FastPath

/-!
# Convert/Utf8/Size — no write is outside of the string

The scan adds up the sizes of the bytes: a first byte counts the code units of its character, an
extension byte nothing.  What has been written and what the unfinished character will have written
always is what the character carried over and the bytes read so far count (`run_size`).  The last
first byte and the number of extension bytes after it, which `convertChunked` looks up from the end
of the chunk, give the size of the unfinished character (`lastLead`, `incompleteTail_eq`).

**The string is large enough for every input**, and filled when the input is well formed:
`decodeCall_size`.
-/

namespace Utf8

set_option maxRecDepth 10000

open List Option Transducer

variable {bytes : List Byte} {byte : Byte} {s s' : ℕ × ℕ} {out : List ℕ} {char state : ℕ}

/-! ## The scan

The sizes of the bytes are summed, and the flags or'ed. -/

/-- The code units that a byte adds at most. -/
def byteSize (byte : Byte) : ℕ := scanOf byte &&& sizeMask

/-- The code units that the scan allows for. -/
def sizeSum (bytes : List Byte) : ℕ := (bytes.map byteSize).sum

/-- The entry of a byte, by ranges. -/
def scanType (b : ℕ) : ℕ :=
  if b < 0x80 then 0x41
  else if b < 0xC0 then 0x44
  else if b < 0xC2 then 0x61
  else if b < 0xC4 then 0x49
  else if b < 0xF0 then 0x51
  else if b < 0xF5 then 0x52
  else 0x62

theorem scanOf_eq (byte : Byte) : scanOf byte = scanType byte := by
  revert byte
  decide +kernel

theorem byteSize_eq (byte : Byte) :
    byteSize byte = if byte.val < 0x80 then 1 else if byte.val < 0xC0 then 0
      else if byte.val < 0xF0 then 1 else 2 := by
  rw [byteSize, scanOf_eq]
  revert byte
  decide

theorem sizeSum_append (as bs : List Byte) : sizeSum (as ++ bs) = sizeSum as + sizeSum bs := by
  simp [sizeSum]

theorem sizeSum_cons (a : Byte) (bs : List Byte) : sizeSum (a :: bs) = byteSize a + sizeSum bs := by
  simp [sizeSum]

theorem sizeSum_singleton (a : Byte) : sizeSum [a] = byteSize a := by
  simp [sizeSum]

theorem sizeSum_ascii (h : ∀ byte ∈ bytes, byte.val < 0x80) : sizeSum bytes = bytes.length := by
  induction bytes with
  | nil => rfl
  | cons byte bytes ih =>
    rw [sizeSum_cons, byteSize_eq, if_pos (h byte (mem_cons_self ..)),
      ih fun b hb => h b (mem_cons_of_mem _ hb), length_cons, Nat.add_comm]

/-- The accumulator of `_scan`. -/
theorem scanPart_foldl (bytes : List Byte) (size flags : ℕ) : bytes.foldl (fun (size, flags) byte =>
        (size + (scanOf byte &&& sizeMask), flags ||| scanOf byte)) (size, flags) =
      (size + sizeSum bytes, bytes.foldl (fun flags byte => flags ||| scanOf byte) flags) := by
  induction bytes generalizing size flags with
  | nil => simp [sizeSum]
  | cons byte bytes ih =>
    rw [foldl_cons, ih, sizeSum_cons, byteSize, Nat.add_assoc]
    rfl

/-- The flags of a byte are among those of the chunk. -/
def HasFlags (flags : ℕ) (byte : Byte) : Prop := (scanOf byte &&& flagsMask) ||| flags = flags

theorem foldl_or_absorbs (bytes : List Byte) (flags : ℕ)
    (h : byte ∈ bytes ∨ scanOf byte ||| flags = flags) :
    scanOf byte ||| bytes.foldl (fun flags byte => flags ||| scanOf byte) flags =
      bytes.foldl (fun flags byte => flags ||| scanOf byte) flags := by
  induction bytes generalizing flags with
  | nil => simpa using h
  | cons b bytes ih =>
    refine ih (flags ||| scanOf b) ?_
    rcases h with hmem | habs
    · rcases mem_cons.mp hmem with rfl | hmem
      · right
        rw [Nat.or_comm flags, ← Nat.or_assoc, Nat.or_self]
      · exact Or.inl hmem
    · right
      rw [← Nat.or_assoc, habs]

theorem scanPart_eq (bytes : List Byte) :
    (scanPart bytes).1 = sizeSum bytes ∧ ∀ byte ∈ bytes, HasFlags (scanPart bytes).2 byte := by
  have hfold := scanPart_foldl bytes 0 0
  rw [scanPart, hfold, Nat.zero_add]
  refine ⟨rfl, fun byte hmem => ?_⟩
  rw [HasFlags, ← Nat.and_or_distrib_right, foldl_or_absorbs bytes 0 (Or.inl hmem)]

/-- **The scan**, in parts or at once. -/
theorem scan_eq (bytes : List Byte) :
    (scan bytes).1 = sizeSum bytes ∧ ∀ byte ∈ bytes, HasFlags (scan bytes).2 byte := by
  induction bytes using scan.induct with
  | case1 bytes hlong _ _ _ _ _ _ ih =>
    have hsplit := take_append_drop scanChunkSize bytes
    have hfirst := scanPart_eq (bytes.take scanChunkSize)
    have hscan : scan bytes = ((scanPart (bytes.take scanChunkSize)).1 +
        (scan (bytes.drop scanChunkSize)).1, (scanPart (bytes.take scanChunkSize)).2 |||
        (scan (bytes.drop scanChunkSize)).2) := by
      rw [scan, if_pos hlong]
    rw [hscan]
    refine ⟨?_, fun byte hmem => ?_⟩
    · rw [hfirst.1, ih.1, ← sizeSum_append, hsplit]
    · rw [← hsplit, mem_append] at hmem
      rcases hmem with hmem | hmem
      · rw [HasFlags, ← Nat.or_assoc, hfirst.2 byte hmem]
      · rw [HasFlags, Nat.or_comm (scanPart _).2, ← Nat.or_assoc, ih.2 byte hmem]
  | case2 bytes hshort =>
    rw [scan, if_neg hshort]
    exact scanPart_eq bytes

theorem hasFlags_zero : ∀ byte : Byte, HasFlags 0 byte → byte.val < 0x80 := by
  simp only [HasFlags, scanOf_eq]
  decide

theorem hasFlags_latin1 :
    ∀ byte : Byte, HasFlags (flagLatin1 ||| flagExtension) byte → IsLatin1 byte := by
  simp only [HasFlags, IsLatin1, scanOf_eq]
  decide

/-- The last byte that is no extension byte, and the number of extension bytes after it. -/
def lastLead (bytes : List Byte) : Option (Byte × ℕ) :=
  ((bytes.reverse.dropWhile isExtension).head?).map
    (·, (bytes.reverse.takeWhile isExtension).length)

theorem lastLead_concat (bytes : List Byte) (byte : Byte) : lastLead (bytes ++ [byte]) =
      if isExtension byte then (lastLead bytes).map fun (b, n) => (b, n + 1)
        else some (byte, 0) := by
  unfold lastLead
  cases hext : isExtension byte with
  | true => simp [hext, Function.comp_def]
  | false => simp [hext]

/-- The size that the tail of a chunk is corrected by. -/
def leadSize (byte : Byte) (extensionCount : ℕ) : ℕ :=
  if 0xFF - (0x3F >>> extensionCount) ≤ byte.val then if 0xF0 ≤ byte.val then 2 else 1 else 0

theorem incompleteTail_eq (bytes : List Byte) :
    incompleteTail bytes = (lastLead bytes).elim 0 fun (b, n) => leadSize b n := by
  unfold incompleteTail lastLead leadSize
  cases (bytes.reverse.dropWhile isExtension).head? <;> rfl

/-- Extension bytes that a first byte asks for. -/
def leadNeed (byte : Byte) : ℕ :=
  if byte.val < 0x80 then 0 else if byte.val < 0xE0 then 1 else if byte.val < 0xF0 then 2 else 3

/-- **What the end of the chunk tells about the state.** -/
def TailOf (s : ℕ × ℕ) (bytes : List Byte) (s' : ℕ × ℕ) : Prop :=
  match lastLead bytes with
  | none => need s.1 = need s'.1 + bytes.length ∧ (s'.1 ≠ IA → units s'.1 s'.2 = units s.1 s.2)
  | some (lead, n) => need s.1 ≤ bytes.length ∧ lead.val < 0xF5 ∧ need s'.1 + n = leadNeed lead ∧
      (s'.1 ≠ IA → units s'.1 s'.2 = byteSize lead)

/-- A byte that is accepted: an ASCII character, the first byte of a character, one in the middle of
a character, or the last one. -/
inductive Moves (s : ℕ × ℕ) (byte : Byte) (out : List ℕ) (s' : ℕ × ℕ) : Prop
  | ascii : s.1 = IA → byte.val < 0x80 → out.length = 1 → s'.1 = IA → Moves ..
  | lead : s.1 = IA → 0xC2 ≤ byte.val → byte.val < 0xF5 → out = [] → s'.1 ≠ IA →
      need s'.1 = leadNeed byte → units s'.1 s'.2 = byteSize byte → Moves ..
  | extend : s.1 ≠ IA → isExtension byte → out = [] → s'.1 ≠ IA → need s.1 = need s'.1 + 1 →
      units s'.1 s'.2 = units s.1 s.2 → Moves ..
  | complete : s.1 ≠ IA → isExtension byte → out.length = units s.1 s.2 → s'.1 = IA →
      need s.1 = 1 → Moves ..

theorem moves_of_step (hs : IsCarried s)
    (h : strictStep s byte = .ok (out, s')) : Moves s byte out s' := by
  have hstep := hs.1.step byte
  have hfail : ∀ {e}, transition (s.1 + typeOf byte) = e → isErrorState e → False := by
    intro e he herror
    rw [strictStep_error (he ▸ herror)] at h
    cases h
  cases hstep with
  | ascii hstate hlt haccept hchar =>
    rw [strictStep_accept haccept, hchar] at h
    cases h
    refine .ascii hstate hlt ?_ rfl
    rw [length_charUnits, if_neg (by omega)]
  | lead hstate hlo hhi hne hcarry hneed hunits =>
    rw [strictStep_inside hne hcarry] at h
    cases h
    refine .lead hstate hlo hhi rfl hne ?_ ?_
    · rw [hneed, leadNeed, if_neg (by omega : ¬ byte.val < 0x80)]
    · rw [hunits, byteSize_eq, if_neg (by omega : ¬ byte.val < 0x80),
        if_neg (by omega : ¬ byte.val < 0xC0)]
  | bad _ _ _ herror => rcases herror with he | he <;> exact (hfail he (by decide)).elim
  | missing _ _ he => exact (hfail he (by decide)).elim
  | refused _ _ _ herror => rcases herror with he | he | he <;> exact (hfail he (by decide)).elim
  | extend hstate hlo hhi hne hcarry hneed hunits =>
    rw [strictStep_inside hne hcarry] at h
    cases h
    exact .extend hstate ((isExtension_iff byte).mpr ⟨hlo, hhi⟩) rfl hne hneed hunits
  | complete hstate hlo hhi haccept hneed hlt hlen =>
    rw [strictStep_accept haccept] at h
    cases h
    exact .complete hstate ((isExtension_iff byte).mpr ⟨hlo, hhi⟩) hlen rfl hneed

theorem isExtension_eq_false (h : byte.val < 0x80 ∨ 0xC0 ≤ byte.val) :
    isExtension byte = false := by
  rw [Bool.eq_false_iff]
  intro hext
  rw [isExtension_iff] at hext
  omega

theorem tailOf_run (hs : IsCarried s)
    (h : run strictStep s bytes = (out, .ok s')) : TailOf s bytes s' := by
  induction bytes using List.reverseRecOn generalizing s' out with
  | nil =>
    cases h
    exact ⟨by simp, fun _ => rfl⟩
  | append_singleton bytes byte ih =>
    obtain ⟨out1, s1, out2, hrun, hstep, rfl⟩ := run_concat_ok h
    have htail := ih hrun
    have hs1 : IsCarried s1 := run_invariant isCarried_step hs hrun
    have hneeded : s1.1 = IA → need s.1 ≤ (bytes ++ [byte]).length := by
      intro hstate
      unfold TailOf at htail
      rw [length_append]
      split at htail
      · rw [hstate] at htail
        exact htail.1.le.trans (by simp [need])
      · exact htail.1.trans (Nat.le_add_right _ _)
    -- one more extension byte
    have hmore (hext : isExtension byte) (hneed : need s1.1 = need s'.1 + 1)
        (hunits : s'.1 ≠ IA → s1.1 ≠ IA ∧ units s'.1 s'.2 = units s1.1 s1.2) :
        TailOf s (bytes ++ [byte]) s' := by
      unfold TailOf at htail ⊢
      rw [lastLead_concat, if_pos hext]
      cases hlead : lastLead bytes with
      | none =>
        rw [hlead] at htail
        refine ⟨?_, fun hne => (hunits hne).2.trans (htail.2 (hunits hne).1)⟩
        rw [htail.1, hneed, length_append, length_singleton]
        omega
      | some p =>
        rw [hlead] at htail
        refine ⟨htail.1.trans (by simp), htail.2.1, ?_,
          fun hne => (hunits hne).2.trans (htail.2.2.2 (hunits hne).1)⟩
        omega
    cases moves_of_step hs1 hstep with
    | ascii hstate hlt hlen hstate' =>
      rw [TailOf, lastLead_concat, if_neg (by simp [isExtension_eq_false (Or.inl hlt)])]
      refine ⟨hneeded hstate, by omega, ?_, fun hne => absurd hstate' hne⟩
      rw [hstate', leadNeed, if_pos hlt]
      rfl
    | lead hstate hlo hhi hout hne hneed hunits =>
      rw [TailOf, lastLead_concat,
        if_neg (by simp [isExtension_eq_false (Or.inr (by omega : 0xC0 ≤ byte.val))])]
      exact ⟨hneeded hstate, hhi, hneed, fun _ => hunits⟩
    | extend hstate hext hout hne hneed hunits =>
      exact hmore hext hneed fun _ => ⟨hstate, hunits⟩
    | complete hstate hext hlen hstate' hneed =>
      refine hmore hext ?_ fun hne => absurd hstate' hne
      rw [hneed, hstate']
      rfl

/-- **What is written and what is pending is what was counted.** -/
theorem run_size (hs : IsCarried s) (h : run strictStep s bytes = (out, .ok s')) :
    out.length + units s'.1 s'.2 = units s.1 s.2 + sizeSum bytes := by
  induction bytes using List.reverseRecOn generalizing s' out with
  | nil =>
    cases h
    simp [sizeSum]
  | append_singleton bytes byte ih =>
    obtain ⟨out1, s1, out2, hrun, hstep, rfl⟩ := run_concat_ok h
    have hs1 : IsCarried s1 := run_invariant isCarried_step hs hrun
    have hsize := ih hrun
    have hzero : ∀ char, units IA char = 0 := fun _ => rfl
    rw [sizeSum_append, length_append, sizeSum_singleton]
    cases moves_of_step hs1 hstep with
    | ascii hstate hlt hlen hstate' =>
      rw [hstate, hzero] at hsize
      rw [hstate', hzero, byteSize_eq, if_pos hlt]
      omega
    | lead hstate hlo hhi hout hne hneed hunits =>
      rw [hstate, hzero] at hsize
      rw [hout, hunits, length_nil]
      omega
    | extend hstate hext hout hne hneed hunits =>
      have hext := (isExtension_iff byte).mp hext
      rw [hout, hunits, byteSize_eq, if_neg (by omega : ¬ byte.val < 0x80), if_pos hext.2,
        length_nil]
      omega
    | complete hstate hext hlen hstate' hneed =>
      have hext := (isExtension_iff byte).mp hext
      rw [hstate', hzero, hlen, byteSize_eq, if_neg (by omega : ¬ byte.val < 0x80), if_pos hext.2]
      omega

/-! ## The corrections

A sequence that the chunk before has begun is counted where it ends, and one that the chunk does not
finish is taken off again. -/

theorem carryOver_size (hs : Carry s.1 s.2) (length : ℕ) :
    (carryOver s.1 s.2 length).1 = if need s.1 ≤ length then units s.1 s.2 else 0 := by
  obtain ⟨state, char⟩ := s
  cases hs with
  | boundary => simp [carryOver, units, need]
  | _ => rfl

theorem leadSize_eq {lead : Byte} (h : lead.val < 0xF5) (n : ℕ) :
    leadSize lead n = if n < leadNeed lead then byteSize lead else 0 := by
  have hshift : 0x3F >>> n = 63 / 2 ^ n := Nat.shiftRight_eq_div_pow _ _
  have hlarge : 3 ≤ n → 0x3F >>> n ≤ 7 := by
    intro hn
    rw [hshift]
    calc 63 / 2 ^ n ≤ 63 / 2 ^ 3 :=
      Nat.div_le_div_left (Nat.pow_le_pow_right (by decide) hn) (by decide)
      _ = 7 := rfl
  rw [leadSize, byteSize_eq, leadNeed]
  rcases (by omega : n = 0 ∨ n = 1 ∨ n = 2 ∨ 3 ≤ n) with rfl | rfl | rfl | hn
  all_goals split_ifs <;> omega

theorem leadSize_le (lead : Byte) (n : ℕ) : leadSize lead n ≤ byteSize lead := by
  have hle : 0x3F >>> n ≤ 0x3F := by
    rw [Nat.shiftRight_eq_div_pow]
    exact Nat.div_le_self _ _
  rw [leadSize, byteSize_eq]
  split_ifs <;> omega

theorem lastLead_append (as bs : List Byte) : lastLead (as ++ bs) =
      (lastLead bs).elim ((lastLead as).map fun (b, n) => (b, n + bs.length)) some := by
  induction bs using List.reverseRecOn with
  | nil => simp [lastLead, Function.comp_def]
  | append_singleton bs b ih =>
    rw [← append_assoc, lastLead_concat, lastLead_concat, ih]
    split_ifs with hext
    · cases lastLead bs with
      | none => cases lastLead as <;> simp [Nat.add_assoc]
      | some p => rfl
    · rfl

theorem leadSize_le_sizeSum {lead : Byte} {n : ℕ}
    (h : lastLead bytes = some (lead, n)) : leadSize lead n ≤ sizeSum bytes := by
  have hmem : lead ∈ bytes := by
    obtain ⟨b, hb, heq⟩ := map_eq_some_iff.mp h
    cases heq
    have hmem := (dropWhile_suffix isExtension).subset (mem_of_head? hb)
    exact mem_reverse.mp hmem
  exact (leadSize_le lead n).trans (le_sum_of_mem (mem_map_of_mem hmem))

/-- The size that is computed for a chunk. -/
def chunkSize (s : ℕ × ℕ) (bytes : List Byte) : ℤ :=
  (sizeSum bytes + (if need s.1 ≤ bytes.length then units s.1 s.2 else 0) : ℕ) -
    incompleteTail bytes

/-- A chunk without an error fills the string. -/
theorem length_eq_chunkSize (hs : IsCarried s)
    (h : run strictStep s bytes = (out, .ok s')) : (out.length : ℤ) = chunkSize s bytes := by
  have hsize := run_size hs h
  have htail := tailOf_run hs h
  have hs' : IsCarried s' := run_invariant isCarried_step hs h
  rw [chunkSize, incompleteTail_eq]
  unfold TailOf at htail
  have hstate : s'.1 = IA ∧ need s'.1 = 0 ∧ units s'.1 s'.2 = 0 ∨ s'.1 ≠ IA ∧ 0 < need s'.1 := by
    by_cases hstate : s'.1 = IA
    · exact .inl ⟨hstate, by rw [hstate]; rfl, by rw [hstate]; rfl⟩
    · exact .inr ⟨hstate, hs'.1.need_pos hstate⟩
  cases hlead : lastLead bytes with
  | none =>
    rw [hlead] at htail
    simp only [elim_none]
    split_ifs <;> omega
  | some p =>
    rw [hlead] at htail
    rw [if_pos htail.1]
    simp only [elim_some, leadSize_eq htail.2.1]
    split_ifs <;> omega

theorem length_le_chunkSize {pre rest : List Byte} (hs : IsCarried s)
    (h : run strictStep s pre = (out, .ok s')) : (out.length : ℤ) ≤ chunkSize s (pre ++ rest) := by
  have hsize := run_size hs h
  have htail := tailOf_run hs h
  unfold TailOf at htail
  -- Without the correction for the tail.
  have hbound : out.length ≤ sizeSum pre +
      if need s.1 ≤ pre.length + rest.length then units s.1 s.2 else 0 := by
    split_ifs with hneed
    · omega
    cases hlead : lastLead pre with
    | some p =>
      rw [hlead] at htail
      exact absurd htail.1 (by omega)
    | none =>
      rw [hlead] at htail
      have hstate : s'.1 ≠ IA := by
        intro hstate
        rw [hstate] at htail
        have := htail.1
        simp only [need, if_pos] at this hneed
        omega
      omega
  rw [chunkSize, incompleteTail_eq, lastLead_append, sizeSum_append, length_append]
  cases hrest : lastLead rest with
  | some p =>
    have htailSize := leadSize_le_sizeSum hrest
    simp only [elim_some]
    omega
  | none =>
    cases hlead : lastLead pre with
    | none =>
      simp only [elim_none, map_none]
      omega
    | some p =>
      rw [hlead] at htail
      have htailSize : leadSize p.1 (p.2 + rest.length) ≤ units s'.1 s'.2 := by
        rw [leadSize_eq htail.2.1]
        split_ifs with hlt
        · have hstate : s'.1 ≠ IA := by
            intro hstate
            have hneed := htail.2.2.1
            rw [hstate] at hneed
            simp only [need, if_pos] at hneed
            omega
          exact (htail.2.2.2 hstate).ge
        · exact Nat.zero_le _
      simp only [elim_none, map_some, elim_some]
      rw [if_pos (by omega)]
      omega

theorem carryOver_flags (h : Carry state char) (length : ℕ) :
    (carryOver state char length).2 = if state = IA then 0
      else if state = X1 ∧ char < 4 then flagLatin1 else flagNonLatin1 := by
  cases h with
  | one =>
    simp only [carryOver, if_pos, true_and]
    rfl
  | _ => rfl

theorem carryOver_flags_zero {length : ℕ} (h : Carry state char)
    (hflags : (carryOver state char length).2 = 0) : state = IA := by
  rw [carryOver_flags h] at hflags
  split_ifs at hflags with hstate
  exact hstate

theorem carryOver_flags_latin1 {length : ℕ} (h : Carry state char)
    (hflags : (carryOver state char length).2 ||| (flagLatin1 ||| flagExtension) =
      flagLatin1 ||| flagExtension) : state = IA ∨ (state = X1 ∧ char < 4) := by
  rw [carryOver_flags h] at hflags
  split_ifs at hflags with hstate hlatin
  · exact Or.inl hstate
  · exact Or.inr hlatin
  · exact absurd hflags (by decide)

theorem or_absorb {a b c : ℕ} (h : a ||| b = c) : a ||| c = c ∧ b ||| c = c := by
  subst h
  refine ⟨by rw [← Nat.or_assoc, Nat.or_self], ?_⟩
  rw [Nat.or_comm a b, ← Nat.or_assoc, Nat.or_self]

variable {state char i : ℕ} {bytes : List Byte}

/-- A chunk of pure ASCII. -/
theorem decodeCall_none (h : Carry state char) (hcall : decodeCall state char i bytes = none) :
    state = IA ∧ ∀ byte ∈ bytes, byte.val < 0x80 := by
  unfold decodeCall at hcall
  simp only at hcall
  split_ifs at hcall with hflags
  obtain ⟨hscan, hcarry⟩ := Nat.or_eq_zero_iff.mp hflags
  refine ⟨carryOver_flags_zero h hcarry, fun byte hmem => ?_⟩
  have hbyte := (scan_eq bytes).2 byte hmem
  rw [hscan] at hbyte
  exact hasFlags_zero byte hbyte

/-- **The fast path of a chunk is a run of the automaton**, in a string of the size of the chunk. -/
theorem decodeCall_some (h : Carry state char) (hne : bytes ≠ []) {call : Call}
    (hcall : decodeCall state char i bytes = some call) :
    call.run.Follows (carried state char) bytes ∧
      call.size = chunkSize (carried state char) bytes := by
  have hsize : ((scan bytes).1 + (carryOver state char bytes.length).1 - incompleteTail bytes : ℤ) =
      chunkSize (carried state char) bytes := by
    have hunits : units (carried state char).1 (carried state char).2 = units state char ∧
        (carried state char).1 = state := by
      unfold carried
      split_ifs with hstate
      · subst hstate
        exact ⟨rfl, rfl⟩
      · exact ⟨rfl, rfl⟩
    rw [chunkSize, hunits.1, hunits.2, (scan_eq bytes).1, carryOver_size (s := (state, char)) h]
    rfl
  unfold decodeCall at hcall
  simp only at hcall
  split_ifs at hcall with hzero hlatin
  · obtain ⟨hscan, hcarry⟩ := or_absorb hlatin
    cases hcall
    refine ⟨decode8_run (carryOver_flags_latin1 h hcarry) i hne fun byte hmem => ?_, hsize⟩
    refine hasFlags_latin1 byte ?_
    rw [HasFlags, ← hscan, ← Nat.or_assoc, (scan_eq bytes).2 byte hmem]
  · cases hcall
    exact ⟨decode16_run h i hne, hsize⟩

/-- **No write is outside of the string**, and a chunk without an error fills it. -/
theorem length_writes_le (h : Carry state char) (hne : bytes ≠ []) {call : Call}
    (hcall : decodeCall state char i bytes = some call) : (call.run.writes.length : ℤ) ≤ call.size ∧
      (isErrorState call.run.state = false → (call.run.writes.length : ℤ) = call.size) := by
  obtain ⟨hfollows, hsize⟩ := decodeCall_some h hne hcall
  have hs := h.isCarried
  rw [hsize]
  cases herror : isErrorState call.run.state with
  | false =>
    rw [Run.Follows, herror] at hfollows
    have heq := length_eq_chunkSize hs hfollows
    exact ⟨heq.le, fun _ => heq⟩
  | true =>
    rw [Run.Follows, herror] at hfollows
    obtain ⟨pre, b, post, s', rfl, hpre, -⟩ := exists_of_run_error hfollows
    exact ⟨length_le_chunkSize hs hpre, fun hfalse => by cases hfalse⟩

end Utf8
