import DartSdk.Convert.Utf8.Unfinished
import DartSdk.Convert.Utf8.Sink

/-!
# Convert/Utf8/SinkCorrect — decoding does not depend on chunking, except at the end

`decoded` is the text of a whole input, or nothing if it is refused; `convertSingle` computes it
(`convertSingle_spec`).  The chunks of a conversion are one run of the automaton over the bytes
after the BOM, wherever the BOM is cut (`Progress`).

At the end the two sinks differ.  `_Utf8StringSinkAdapter` always flushes the decoder.  With
`addSlice(…, isLast: true)`, `_Utf8ConversionSink` flushes it only if that slice has decoded to
nothing: otherwise an unfinished sequence at the end of the input is lost, and **that is the only
way to get another text** (`convertSlices_iff`).
-/

namespace Utf8

open List Utf8 StringSinkAdapter Transducer

variable {allow : Bool} {bytes : List Byte} {k : ℕ} {bom : Byte} {pre : List Byte} {out : List ℕ}
  {d : Decoder}

/-- The text after the last byte: an unfinished character is replaced or refused. -/
def finish (allow : Bool) : List ℕ × Except ℕ (ℕ × ℕ) → Option (List ℕ)
  | (out, .ok s) => if s.1 = IA then some out else if allow then some (out ++ [0xFFFD]) else none
  | (_, .error _) => none

/-- **The text of a whole input**, or nothing if it is refused. -/
def decoded (allow : Bool) (bytes : List Byte) : Option (List ℕ) :=
  finish allow (run (feed allow) (IA, 0) (skipBomSingle bytes))

/-- A result that is the given text, or a `FormatException`. -/
def Gives {α : Type} (result : Except Exn α) (P : α → List ℕ → Prop) : Option (List ℕ) → Prop
  | some text => ∃ a, result = .ok a ∧ P a text
  | none => ∃ message offset, result = .error (.format message offset)

/-- At a boundary there is nothing to correct for. -/
theorem decodeCall_boundary (i : ℕ) (bytes : List Byte) :
    ((scan bytes).2 = 0 → decodeCall IA 0 i bytes = none) ∧
    ((scan bytes).2 ≠ 0 → ∃ latin1 size, decodeCall IA 0 i bytes = some ⟨latin1, size,
      if (scan bytes).2 = flagLatin1 ||| flagExtension then decode8 IA 0 i bytes
      else decode16 IA 0 i bytes⟩) := by
  have hcarry : carryOver IA 0 bytes.length = (0, 0) := rfl
  simp only [decodeCall, hcarry, Nat.or_zero]
  refine ⟨fun h => if_pos h, fun h => ?_⟩
  rw [if_neg h]
  split_ifs <;> exact ⟨_, _, rfl⟩

theorem convertRange_spec (allow : Bool) (bytes : List Byte) (i localEnd errorOffset : ℕ) :
    Gives (convertRange allow bytes i localEnd errorOffset) (· = ·)
      (finish allow (run (feed allow) (IA, 0) bytes)) := by
  by_cases hne : bytes = []
  · subst hne
    exact ⟨[], rfl, rfl⟩
  simp only [convertRange, if_neg hne]
  obtain ⟨hnone, hsome⟩ := decodeCall_boundary i bytes
  by_cases hflags : (scan bytes).2 = 0
  · obtain ⟨-, hascii⟩ := decodeCall_none (.boundary 0) (hnone hflags)
    have hrun := run_feed_of_strict allow (run_ascii (fun byte => strictStep_ascii) hascii)
    rw [if_pos hflags, hrun, (scan_eq bytes).1, sizeSum_ascii hascii, take_length]
    exact ⟨_, rfl, rfl⟩
  obtain ⟨latin1, size, hcall⟩ := hsome hflags
  obtain ⟨hfollows, -⟩ := decodeCall_some (.boundary 0) hne hcall
  rw [if_neg hflags]
  generalize (if (scan bytes).2 = flagLatin1 ||| flagExtension then decode8 IA 0 i bytes
    else decode16 IA 0 i bytes) = r at hfollows
  replace hfollows : run strictStep (IA, 0) bytes = (r.writes,
    if isErrorState r.state then .error r.state else .ok (carried r.state r.charOrIndex)) :=
      hfollows
  by_cases hstate : r.state = IA
  · have herror : isErrorState r.state = false := by rw [hstate]; decide
    rw [herror, hstate] at hfollows
    have hsize := run_size isCarried_boundary hfollows
    have hfits : (r.writes.length : ℤ) = (scan bytes).1 := by
      rw [(scan_eq bytes).1]
      simpa [carried, units] using hsize
    rw [if_pos hstate, stored_eq hfits, run_feed_of_strict allow hfollows]
    exact ⟨_, rfl, rfl⟩
  rw [if_neg hstate]
  cases allow with
  | false =>
    have hnone : finish false (run (feed false) (IA, 0) bytes) = none := by
      change finish false (run strictStep (IA, 0) bytes) = none
      rw [hfollows]
      split_ifs
      · rfl
      · simp [finish, hstate]
    rw [hnone]
    exact ⟨_, _, rfl⟩
  | true =>
    obtain ⟨out, s, hrun, -⟩ := exists_run_lenient isCarried_boundary bytes
    have hgeneral := decodeGeneral_single r.charOrIndex i hne hrun
    change Gives _ _ (finish true (run lenientStep (IA, 0) bytes))
    rw [hrun]
    simp only [Bool.not_true, Bool.false_eq_true, if_false, hgeneral]
    by_cases hs : s.1 = IA
    · simp only [finish, hs, if_true]
      exact ⟨_, rfl, by simp⟩
    · simp only [finish, hs, if_false, if_true]
      exact ⟨_, rfl, rfl⟩

/-- **`convertSingle`** decodes the whole input. -/
theorem convertSingle_spec {codeUnits : CodeUnits} {start : ℕ} {maybeEnd : Option ℕ}
    (h : codeUnits.slice start maybeEnd = .ok bytes) :
    Gives (convertSingle allow codeUnits start maybeEnd) (· = ·) (decoded allow bytes) := by
  rw [convertSingle, h]
  exact convertRange_spec allow _ _ _ _

/-! ## The BOM

A byte order mark is skipped at the start, also if it is cut. -/

theorem skipBomSingle_bom (rest : List Byte) : skipBomSingle (bomValues ++ rest) = rest := by
  simp [skipBomSingle]

theorem skipBomSingle_of_not (h : ¬ bomValues <+: bytes) : skipBomSingle bytes = bytes := by
  refine if_neg fun htake => h ?_
  rw [← htake]
  exact take_prefix _ _

theorem take_concat_bom (h : bomValues[k]? = some bom) :
    bomValues = bomValues.take k ++ bom :: bomValues.drop (k + 1) := by
  obtain ⟨hlt, rfl⟩ := List.getElem?_eq_some_iff.mp h
  rw [← drop_eq_getElem_cons, take_append_drop]

theorem skipBom_of_none (h : bomValues[k]? = none) (bytes : List Byte) :
    skipBom k bytes = some (.inr bytes) := by
  unfold skipBom
  rw [h]

theorem skipBom_nil (h : bomValues[k]? = some bom) : skipBom k [] = some (.inl k) := by
  unfold skipBom
  rw [h]

theorem skipBom_cons (h : bomValues[k]? = some bom) (byte : Byte) (bytes : List Byte) :
    skipBom k (byte :: bytes) = if byte = bom then skipBom (k + 1) bytes else none := by
  rw [skipBom.eq_def]
  simp [h]

/-- What the bytes so far are: the BOM with what follows, the beginning of the BOM, or neither. -/
def BomSpec (bytes : List Byte) : Option (ℕ ⊕ List Byte) → Prop
  | none => ¬ bytes <+: bomValues ∧ ¬ bomValues <+: bytes
  | some (.inl k) => bytes = bomValues.take k ∧ k < 3
  | some (.inr rest) => bytes = bomValues ++ rest

theorem skipBom_spec_of_none (hbom : bomValues[k]? = none) (bytes : List Byte) :
    BomSpec (bomValues.take k ++ bytes) (skipBom k bytes) := by
  have hlen : 3 ≤ k := List.getElem?_eq_none_iff.mp hbom
  rw [skipBom_of_none hbom, take_of_length_le (l := bomValues) hlen]
  rfl

theorem skipBom_spec (hk : k ≤ 3) (bytes : List Byte) :
    BomSpec (bomValues.take k ++ bytes) (skipBom k bytes) := by
  induction bytes generalizing k with
  | nil =>
    cases hbom : bomValues[k]? with
    | none => exact skipBom_spec_of_none hbom _
    | some bom =>
      obtain ⟨hlt, -⟩ := List.getElem?_eq_some_iff.mp hbom
      rw [skipBom_nil hbom]
      exact ⟨append_nil _, hlt⟩
  | cons byte bytes ih =>
    cases hbom : bomValues[k]? with
    | none => exact skipBom_spec_of_none hbom _
    | some bom =>
      obtain ⟨hlt, -⟩ := List.getElem?_eq_some_iff.mp hbom
      have hsplit := take_concat_bom hbom
      rw [skipBom_cons hbom]
      split_ifs with heq
      · subst heq
        have hnext : bomValues.take (k + 1) = bomValues.take k ++ [byte] := by
          rw [take_add_one, hbom]
          rfl
        have hspec := ih (k := k + 1) hlt
        rwa [hnext, append_assoc, singleton_append] at hspec
      · generalize bomValues.take k = pre at hsplit
        generalize bomValues.drop (k + 1) = post at hsplit
        rw [BomSpec, hsplit, prefix_append_right_inj, prefix_append_right_inj]
        exact ⟨fun h => heq (cons_prefix_cons.mp h).1, fun h => heq (cons_prefix_cons.mp h).1.symm⟩

/-- The beginning of the BOM decodes to nothing. -/
theorem run_bom (allow : Bool) (hk : k < 3) :
    ∃ s, run (feed allow) (IA, 0) (bomValues.take k) = ([], .ok s) := by
  have hstrict : ∃ s, run strictStep (IA, 0) (bomValues.take k) = ([], .ok s) := by
    rcases (by omega : k = 0 ∨ k = 1 ∨ k = 2) with rfl | rfl | rfl
    · exact ⟨_, rfl⟩
    · have hunfinished : IsUnfinished [0xEF] := ⟨by decide, by decide⟩
      obtain ⟨s, hafter⟩ := exists_after hunfinished
      exact ⟨s, hafter.1⟩
    · have hsecond : SecondOf 0xEF 0xBB := by
        refine ⟨?_, ?_, ?_, ?_, ?_, ?_⟩ <;> decide
      have hunfinished : IsUnfinished [0xEF, 0xBB] := ⟨by decide, by decide, hsecond⟩
      obtain ⟨s, hafter⟩ := exists_after hunfinished
      exact ⟨s, hafter.1⟩
  obtain ⟨s, hrun⟩ := hstrict
  exact ⟨s, run_feed_of_strict allow hrun⟩

/-- The decoder after the bytes `pre` have decoded to `out`. -/
structure Progress (allow : Bool) (pre : List Byte) (out : List ℕ) (d : Decoder) : Prop where
  allow_eq : d.allowMalformed = allow
  carry : Carry d.state d.charOrIndex
  run_eq : run (feed allow) (IA, 0) (skipBomSingle pre) = (out, .ok (carried d.state d.charOrIndex))
  bom : (∃ k < 3, pre = bomValues.take k ∧ d.bomIndex = k) ∨
    (d.bomIndex = -1 ∧ ∀ more, skipBomSingle (pre ++ more) = skipBomSingle pre ++ more)

theorem progress_new (allow : Bool) : Progress allow [] [] (Decoder.new allow) :=
  ⟨rfl, .boundary 0, rfl, Or.inl ⟨0, by decide, rfl, rfl⟩⟩

theorem skipBomSingle_take (hk : k < 3) : skipBomSingle (bomValues.take k) = bomValues.take k := by
  refine skipBomSingle_of_not fun h => ?_
  have hlen := h.length_le
  rw [length_take] at hlen
  simp only [length_cons, length_nil] at hlen
  omega

theorem Progress.skipBom {range : List Byte} {d' : Decoder}
    (h : Progress allow pre out d) (hskip : skipBomChunked d range = (d', bytes)) :
    d'.allowMalformed = allow ∧ (∃ earlier, skipBomSingle (pre ++ range) = earlier ++ bytes ∧
      run (feed allow) (IA, 0) earlier = (out, .ok (carried d'.state d'.charOrIndex)) ∧
      (bytes = range ∨ earlier = [] ∧ bytes.length ≤ range.length)) ∧
    ((∃ k < 3, pre ++ range = bomValues.take k ∧ d'.bomIndex = k) ∨ (d'.bomIndex = -1 ∧
        ∀ more, skipBomSingle (pre ++ range ++ more) = skipBomSingle (pre ++ range) ++ more)) := by
  rcases h.bom with ⟨k, hk, rfl, hindex⟩ | ⟨hindex, hdecided⟩
  · have hspec := skipBom_spec hk.le range
    have hrun := h.run_eq
    rw [skipBomSingle_take hk] at hrun
    simp only [skipBomChunked, hindex, Int.toNat_natCast] at hskip
    cases hbom : skipBom k range with
    | none =>
      rw [hbom] at hskip hspec
      cases hskip
      refine ⟨h.allow_eq, ⟨_, skipBomSingle_of_not hspec.2, hrun, Or.inl rfl⟩,
        Or.inr ⟨rfl, fun more => ?_⟩⟩
      rw [skipBomSingle_of_not hspec.2, skipBomSingle_of_not]
      intro hlong
      rcases prefix_or_prefix_of_prefix hlong (prefix_append _ more) with h | h
      · exact hspec.2 h
      · exact hspec.1 h
    | some r =>
      rw [hbom] at hskip hspec
      cases r with
      | inl k' =>
        cases hskip
        refine ⟨h.allow_eq, ⟨_, ?_, hrun, Or.inl rfl⟩, Or.inl ⟨k', hspec.2, hspec.1, rfl⟩⟩
        rw [hspec.1, skipBomSingle_take hspec.2]
      | inr rest =>
        cases hskip
        have hout : out = [] := by
          obtain ⟨s, hbom⟩ := run_bom allow hk
          rw [hrun] at hbom
          exact congrArg Prod.fst hbom
        have hlength : bytes.length ≤ range.length := by
          have hlen := congrArg List.length hspec
          simp only [length_append, length_take, length_cons, length_nil] at hlen
          omega
        refine ⟨h.allow_eq, ⟨[], ?_, ?_, Or.inr ⟨rfl, hlength⟩⟩, Or.inr ⟨rfl, fun more => ?_⟩⟩
        · rw [hspec, skipBomSingle_bom, nil_append]
        · rw [hout]
          rfl
        · rw [hspec, append_assoc, skipBomSingle_bom, skipBomSingle_bom]
  · simp only [skipBomChunked, if_pos hindex] at hskip
    cases hskip
    refine ⟨h.allow_eq, ⟨_, hdecided _, h.run_eq, Or.inl rfl⟩, Or.inr ⟨hindex, fun more => ?_⟩⟩
    rw [append_assoc, hdecided, hdecided, append_assoc]

theorem Slice.slice_eq (slice : Slice) :
    slice.codeUnits.slice slice.start (some slice.stop) = .ok slice.bytes :=
  if_pos ⟨slice.start_le, slice.stop_le⟩

/-- The part of the input, without the BOM, that stands before the last `n` bytes. -/
def beforeLast (n : ℕ) (body : List Byte) : List Byte := body.take (body.length - n)

/-- The last `n` bytes of the input, without the BOM. -/
def inLast (n : ℕ) (body : List Byte) : List Byte := body.drop (body.length - n)

theorem parts_eq {range earlier : List Byte}
    (h : bytes = range ∨ earlier = [] ∧ bytes.length ≤ range.length) :
    beforeLast range.length (earlier ++ bytes) = earlier ∧
      inLast range.length (earlier ++ bytes) = bytes := by
  have hlen : (earlier ++ bytes).length - range.length = earlier.length := by
    rcases h with rfl | ⟨rfl, hle⟩
    · simp
    · exact Nat.sub_eq_zero_of_le hle
  rw [beforeLast, inLast, hlen]
  exact ⟨take_left' rfl, drop_left' rfl⟩

/-- A call decodes the last part of the input to `s`. -/
def DecodesLast (allow : Bool) (n : ℕ) (body : List Byte) (out s : List ℕ) (st : ℕ × ℕ) : Prop :=
  ∃ s₀, run (feed allow) (IA, 0) (beforeLast n body) = (out, .ok s₀) ∧
    run (feed allow) s₀ (inLast n body) = (s, .ok st)

/-- The bytes are refused, whatever comes after them. -/
def Refused (allow : Bool) (bytes : List Byte) : Prop :=
  ∀ more, ∃ out e, run (feed allow) (IA, 0) (skipBomSingle (bytes ++ more)) = (out, .error e)

theorem Refused.append (h : Refused allow bytes) (bytes' : List Byte) :
    Refused allow (bytes ++ bytes') := by
  intro more
  rw [append_assoc]
  exact h _

theorem Refused.run (h : Refused allow bytes) :
    ∃ out e, run (feed allow) (IA, 0) (skipBomSingle bytes) = (out, .error e) := by
  simpa using h []

theorem Refused.decoded (h : Refused allow bytes) : decoded allow bytes = none := by
  obtain ⟨out, e, hrun⟩ := h.run
  rw [Utf8.decoded, hrun]
  rfl

/-- **A call goes on with the run**, or the input is refused. -/
theorem Progress.convertChunked (h : Progress allow pre out d) (slice : Slice) :
    (∃ s d', convertChunked d slice.codeUnits slice.start (some slice.stop) = (.ok s, d') ∧
      Progress allow (pre ++ slice.bytes) (out ++ s) d' ∧
      DecodesLast allow slice.bytes.length (skipBomSingle (pre ++ slice.bytes)) out s
        (carried d'.state d'.charOrIndex)) ∨
    (∃ message offset d', convertChunked d slice.codeUnits slice.start (some slice.stop) =
        (.error (.format message offset), d') ∧ Refused allow (pre ++ slice.bytes)) := by
  obtain ⟨p, hchunk⟩ : ∃ p, chunkOf d slice.codeUnits slice.start (some slice.stop) = .ok p := by
    rw [chunkOf, slice.slice_eq]
    exact ⟨_, rfl⟩
  obtain ⟨d1, chunk⟩ := p
  obtain ⟨range, hrange, hskip⟩ := chunkOf_eq hchunk
  rw [slice.slice_eq] at hrange
  cases hrange
  obtain ⟨hallow, ⟨earlier, hbody, hearlier, hparts⟩, hbom⟩ := h.skipBom hskip
  have hspec := convertChunked_spec h.carry hchunk
  rw [hallow] at hspec
  have hrun : run (feed allow) (IA, 0) (skipBomSingle (pre ++ slice.bytes)) = _ :=
    hbody ▸ run_append_ok hearlier
  cases hr : run (feed allow) (carried d1.state d1.charOrIndex) chunk.bytes with
  | mk out1 r =>
  rw [hr] at hspec hrun
  cases r with
  | ok s =>
    obtain ⟨state, char, rfl, hcarry, heq⟩ := hspec
    refine Or.inl ⟨out1, _, heq, ⟨hallow, hcarry, hrun, hbom⟩, ?_⟩
    rw [DecodesLast, hbody, (parts_eq hparts).1, (parts_eq hparts).2]
    exact ⟨_, hearlier, hr⟩
  | error e =>
    obtain ⟨message, offset, char, heq⟩ := hspec
    refine Or.inr ⟨message, offset, _, heq, fun more => ?_⟩
    rcases hbom with ⟨k, hk, htake, -⟩ | ⟨-, hdecided⟩
    · obtain ⟨s, hok⟩ := run_bom allow hk
      rw [htake, skipBomSingle_take hk, hok] at hrun
      exact nomatch congrArg Prod.snd hrun
    · rw [hdecided]
      exact ⟨_, _, run_append_error hrun⟩

/-! ## The sinks -/

attribute [local simp] text closes

@[simp] theorem text_append (a b : List Event) : text (a ++ b) = text a ++ text b := by
  induction a with
  | nil => rfl
  | cons e a ih => cases e <;> simp [ih]

@[simp] theorem closes_append (a b : List Event) : closes (a ++ b) = closes a + closes b := by
  induction a with
  | nil => simp
  | cons e a ih => cases e <;> simp [ih, Nat.add_assoc]

/-- A sink after the bytes `pre`. -/
structure SinkProgress (allow : Bool) (pre : List Byte) (k : Sink) : Prop where
  decoder : Progress allow pre (text k.events) k.decoder
  buffer : k.buffer = []
  closes : closes k.events = 0

theorem Progress.decoded_eq (h : Progress allow pre out d) :
    decoded allow pre = if d.state = IA then some out else if allow then some (out ++ [0xFFFD])
      else none := by
  rw [decoded, h.run_eq, finish, carried_fst]

theorem Progress.flush (h : Progress allow pre out d) :
    flush d = (if d.state = IA then .ok [] else if allow then .ok [0xFFFD]
      else .error (.format (errorDescription E7) none), { d with state := initial }) := by
  unfold Utf8.flush
  by_cases hstate : d.state = IA
  · rw [if_pos hstate, if_pos (by rw [hstate]; decide)]
  · rw [if_neg hstate, if_neg (h.carry.not_le_afterBom hstate), h.allow_eq]
    split_ifs <;> rfl

/-- The events of a conversion have the given text, and close the sink once. -/
def Delivers (events : List Event) (s : List ℕ) : Prop := text events = s ∧ closes events = 1

variable {k : Sink}

theorem SinkProgress.delivers_add (h : SinkProgress allow pre k)
    (s : List ℕ) : Delivers (k.events ++ [.add s true]) (text k.events ++ s) := by
  simp [Delivers, h.closes]

/-- **`close`** delivers the text of the bytes so far. -/
theorem SinkProgress.close (h : SinkProgress allow pre k) (kind : SinkKind) :
    Gives (kind.close k) (fun k s => Delivers k.events s) (decoded allow pre) := by
  have hflush := h.decoder.flush
  rw [h.decoder.decoded_eq]
  cases kind with
  | conversion =>
    simp only [SinkKind.close, ConversionSink.close, hflush, h.buffer, nil_append]
    split_ifs
    · exact ⟨_, rfl, by simp [Delivers, h.closes]⟩
    · exact ⟨_, rfl, h.delivers_add _⟩
    · exact ⟨_, _, rfl⟩
  | stringSink =>
    simp only [SinkKind.close, StringSinkAdapter.close, hflush]
    split_ifs
    · exact ⟨_, rfl, by simp [Delivers, h.closes]⟩
    · exact ⟨_, rfl, by simp [Delivers, h.closes]⟩
    · exact ⟨_, _, rfl⟩

/-- A step of the conversion over more bytes: it goes on, or the input is refused. -/
def Proceeds (allow : Bool) (bytes : List Byte) (result : Except Exn Sink) : Prop :=
  (∃ k, result = .ok k ∧ SinkProgress allow bytes k) ∨
    ((∃ message offset, result = .error (.format message offset)) ∧ Refused allow bytes)

/-- The text of a chunk is sent downstream. -/
theorem SinkProgress.add {s : List ℕ}
    (h : SinkProgress allow pre k) (hd : Progress allow bytes (text k.events ++ s) d) :
    SinkProgress allow bytes ⟨d, [], k.events ++ [.add s false]⟩ where
  decoder := by simpa using hd
  buffer := rfl
  closes := by simp [h.closes]

theorem SinkProgress.addSlice (h : SinkProgress allow pre k)
    (kind : SinkKind) (slice : Slice) :
    Proceeds allow (pre ++ slice.bytes) (kind.addSlice k slice false) := by
  rcases h.decoder.convertChunked slice with ⟨s, d, hcall, hprogress, -⟩ |
    ⟨m, o, d, hcall, hrefused⟩
  · left
    cases kind with
    | conversion =>
      simp only [SinkKind.addSlice, ConversionSink.addSlice, hcall, h.buffer, nil_append,
        Bool.false_eq_true, if_false]
      by_cases hs : s = []
      · subst hs
        rw [append_nil] at hprogress
        exact ⟨_, rfl, hprogress, rfl, h.closes⟩
      · rw [if_pos hs]
        exact ⟨_, rfl, h.add hprogress⟩
    | stringSink =>
      simp only [SinkKind.addSlice, StringSinkAdapter.addSlice, hcall]
      exact ⟨_, rfl, h.add hprogress⟩
  · right
    refine ⟨⟨m, o, ?_⟩, hrefused⟩
    cases kind with
    | conversion => simp [SinkKind.addSlice, ConversionSink.addSlice, hcall]
    | stringSink => simp [SinkKind.addSlice, StringSinkAdapter.addSlice, hcall]

/-- **All slices but the last one.** -/
theorem SinkProgress.addSlices (h : SinkProgress allow pre k)
    (kind : SinkKind) (slices : List Slice) : Proceeds allow (pre ++ slices.flatMap Slice.bytes)
      (slices.foldlM (fun k slice => kind.addSlice k slice false) k) := by
  induction slices generalizing pre k with
  | nil => exact Or.inl ⟨k, rfl, by simpa using h⟩
  | cons slice slices ih =>
    rw [foldlM_cons, flatMap_cons, ← append_assoc]
    rcases h.addSlice kind slice with ⟨k', hcall, hk'⟩ | ⟨⟨m, o, hcall⟩, hrefused⟩
    · rw [hcall]
      exact ih hk'
    · rw [hcall]
      exact Or.inr ⟨⟨m, o, rfl⟩, hrefused.append _⟩

theorem wellFormed_of_run {front tail : List Byte} {s : ℕ × ℕ}
    (h : run strictStep (IA, 0) (front ++ tail) = (out, .ok s)) (htail : IsUnfinished tail) :
    WellFormed front := by
  obtain ⟨st, hafter⟩ := exists_after htail
  obtain ⟨out1, s1, out2, hfront, hrun, rfl⟩ := exists_of_run_append h
  have hs1 := isCarried_of_run hfront
  obtain ⟨pre, tail', rfl, hpre, htail'⟩ := exists_wellFormed hfront
  by_cases hnil : tail' = []
  · rwa [hnil, append_nil]
  · have hrefused := run_feed_after hafter hs1 false
    rw [if_neg (ne_boundary_of_run htail' hnil)] at hrefused
    exact nomatch congrArg Prod.snd (hrun.symm.trans hrefused)

theorem exists_run_of_unfinished {front tail : List Byte} (htail : IsUnfinished tail)
    (hfront : allow = false → WellFormed front) :
    ∃ out s, run (feed allow) (IA, 0) (front ++ tail) = (out, .ok s) ∧ s.1 ≠ IA := by
  have hrun : ∃ out s, run (feed allow) (IA, 0) (front ++ tail) = (out, .ok s) := by
    cases allow with
    | false =>
      obtain ⟨out, hout⟩ := (hfront rfl).run
      obtain ⟨s, hafter⟩ := exists_after htail
      exact ⟨_, _, (run_append_ok hout).trans (by rw [hafter.1])⟩
    | true =>
      obtain ⟨out, s, hrun, -⟩ := exists_run_lenient isCarried_boundary (front ++ tail)
      exact ⟨out, s, hrun⟩
  obtain ⟨out, s, hrun⟩ := hrun
  exact ⟨out, s, hrun, (run_feed_unfinished_iff hrun).mpr ⟨tail, ⟨front, rfl⟩, htail⟩⟩

/-- The input ends with an unfinished sequence, is well-formed before it if it has to be, and its
last `n` bytes decode to something all the same. -/
def LosesEnd (allow : Bool) (n : ℕ) (body : List Byte) : Prop :=
  ∃ front tail, body = front ++ tail ∧ IsUnfinished tail ∧ (allow = false → WellFormed front) ∧
    WritesBefore (beforeLast n body) (inLast n body) tail

theorem losesEnd_iff {n : ℕ} {body : List Byte} {s : List ℕ} {st : ℕ × ℕ}
    (h : DecodesLast allow n body out s st) : LosesEnd allow n body ↔ st.1 ≠ IA ∧ s ≠ [] := by
  obtain ⟨s₀, hearlier, hlast⟩ := h
  have hbody : beforeLast n body ++ inLast n body = body := take_append_drop _ _
  have hrun : run (feed allow) (IA, 0) body = (out ++ s, .ok st) := by
    rw [← hbody, run_append_ok hearlier, hlast]
  constructor
  · rintro ⟨front, tail, heq, htail, -, hwrites⟩
    have hsuffix : tail <:+ body := ⟨front, heq.symm⟩
    have hne := (run_feed_unfinished_iff hrun).mpr ⟨tail, hsuffix, htail⟩
    refine ⟨hne, (last_writes_iff hearlier hlast hne).mpr ⟨tail, ?_, htail, hwrites⟩⟩
    rwa [hbody]
  · rintro ⟨hne, hs⟩
    obtain ⟨tail, hsuffix, htail, hwrites⟩ := (last_writes_iff hearlier hlast hne).mp hs
    rw [hbody] at hsuffix
    obtain ⟨front, rfl⟩ := hsuffix
    refine ⟨front, tail, rfl, htail, ?_, hwrites⟩
    rintro rfl
    exact wellFormed_of_run hrun htail

theorem Refused.not_losesEnd {n : ℕ} (h : Refused allow bytes) :
    ¬ LosesEnd allow n (skipBomSingle bytes) := by
  rintro ⟨front, tail, heq, htail, hfront, -⟩
  obtain ⟨out, st, hok, -⟩ := exists_run_of_unfinished htail hfront
  obtain ⟨out', e, herror⟩ := h.run
  rw [heq, hok] at herror
  exact nomatch congrArg Prod.snd herror

theorem StringSinkAdapter.addSlice_last (k : Sink) (slice : Slice) : addSlice k slice true =
      addSlice k slice false >>= close := by
  simp only [addSlice]
  rcases convertChunked k.decoder slice.codeUnits slice.start (some slice.stop) with ⟨_ | _, _⟩
  · rfl
  · rfl

theorem Proceeds.bind_close {result : Except Exn Sink} (h : Proceeds allow bytes result)
    (kind : SinkKind) :
    Gives (result >>= kind.close) (fun k s => Delivers k.events s) (decoded allow bytes) := by
  rcases h with ⟨k, rfl, hk⟩ | ⟨⟨m, o, rfl⟩, hrefused⟩
  · exact hk.close kind
  · rw [hrefused.decoded]
    exact ⟨m, o, rfl⟩

/-- **`addSlice(…, isLast: true)`** delivers the text of the whole input, unless the end is lost. -/
theorem SinkProgress.addLast_iff (h : SinkProgress allow pre k)
    (kind : SinkKind) (slice : Slice) :
    Gives (kind.addSlice k slice true) (fun k s => Delivers k.events s)
        (decoded allow (pre ++ slice.bytes)) ↔ ¬ (kind = .conversion ∧
        LosesEnd allow slice.bytes.length (skipBomSingle (pre ++ slice.bytes))) := by
  cases kind with
  | stringSink =>
    refine iff_of_true ?_ fun h => nomatch h.1
    change Gives (StringSinkAdapter.addSlice k slice true) _ _
    rw [StringSinkAdapter.addSlice_last]
    exact (h.addSlice .stringSink slice).bind_close .stringSink
  | conversion =>
    simp only [SinkKind.addSlice, ConversionSink.addSlice, true_and]
    rcases h.decoder.convertChunked slice with ⟨s, d, hcall, hd, hlast⟩ | ⟨m, o, d, hcall, hrefused⟩
    · rw [losesEnd_iff hlast, carried_fst]
      simp only [hcall, h.buffer, nil_append]
      by_cases hs : s = []
      · subst hs
        rw [append_nil] at hd
        refine iff_of_true ?_ fun h => h.2 rfl
        have hk : SinkProgress allow (pre ++ slice.bytes) ⟨d, [], k.events⟩ := ⟨hd, rfl, h.closes⟩
        exact hk.close .conversion
      rw [if_pos hs, hd.decoded_eq]
      by_cases hstate : d.state = IA
      · rw [if_pos hstate]
        exact iff_of_true ⟨_, rfl, h.delivers_add s⟩ fun h => h.1 hstate
      rw [if_neg hstate]
      refine iff_of_false ?_ fun h => h ⟨hstate, hs⟩
      cases allow with
      | false =>
        rintro ⟨m, o, heq⟩
        cases heq
      | true =>
        rintro ⟨k', heq, htext, -⟩
        cases heq
        rw [(h.delivers_add s).1] at htext
        simp at htext
    · simp only [hcall]
      rw [hrefused.decoded]
      exact iff_of_true ⟨m, o, rfl⟩ hrefused.not_losesEnd

/-- A chunked conversion with the result of a one-shot one: the same text, sent to a sink that is
closed once, or a `FormatException`. -/
def SameOutcome (chunked : Except Exn (List Event)) : Except Exn (List ℕ) → Prop
  | .ok s => ∃ events, chunked = .ok events ∧ text events = s ∧ closes events = 1
  | .error (.format _ _) => ∃ message offset, chunked = .error (.format message offset)
  | .error .range => False

theorem sameOutcome_iff {chunked : Except Exn (List Event)} {single : Except Exn (List ℕ)}
    {o : Option (List ℕ)} (h : Gives single (· = ·) o) :
    SameOutcome chunked single ↔ Gives chunked Delivers o := by
  cases o with
  | some s =>
    obtain ⟨s', rfl, rfl⟩ := h
    exact Iff.rfl
  | none =>
    obtain ⟨m, o, rfl⟩ := h
    exact Iff.rfl

theorem sinkProgress_new (allow : Bool) : SinkProgress allow [] (Sink.new allow) :=
  ⟨progress_new allow, rfl, rfl⟩

theorem gives_events {result : Except Exn Sink} {o : Option (List ℕ)} :
    Gives (do let k ← result; return k.events) Delivers o ↔
      Gives result (fun k s => Delivers k.events s) o := by
  cases o with
  | some s => exact exists_bind_ok
  | none => exact exists_congr fun m => exists_congr fun o => bind_eq_error

/-- The bytes of a whole conversion. -/
def allBytes (slices : List Slice) (ending : Ending) : List Byte :=
  slices.flatMap Slice.bytes ++ ending.bytes

/-- **Chunked decoding agrees with the one-shot conversion**, for both kinds of sinks and every way
to cut the input, unless the last slice goes to a `_Utf8ConversionSink` with `isLast: true` and
decodes to something before it leaves a sequence unfinished. -/
theorem convertSlices_iff (kind : SinkKind) (allow : Bool) (slices : List Slice) (ending : Ending) :
    SameOutcome (convertSlices kind allow slices ending)
        (convertSingle allow (.uint8List (allBytes slices ending)) 0 none) ↔
      ¬ (kind = .conversion ∧ ∃ last, ending = .last last ∧
        LosesEnd allow last.bytes.length (skipBomSingle (allBytes slices ending))) := by
  have hslice : (CodeUnits.uint8List (allBytes slices ending)).slice 0 none =
      .ok (allBytes slices ending) := by
    simp [CodeUnits.slice, CodeUnits.bytes]
  rw [sameOutcome_iff (convertSingle_spec hslice), convertSlices]
  have hslices := (sinkProgress_new allow).addSlices kind slices
  rw [nil_append] at hslices
  cases ending with
  | close =>
    have hgives := hslices.bind_close kind
    rw [allBytes, Ending.bytes, append_nil]
    rw [← gives_events, bind_assoc] at hgives
    refine iff_of_true hgives ?_
    rintro ⟨-, _, ⟨⟩, -⟩
  | last slice =>
    rw [allBytes, Ending.bytes]
    rcases hslices with ⟨k, hfold, hk⟩ | ⟨⟨m, o, hfold⟩, hrefused⟩
    · have hlast := hk.addLast_iff kind slice
      rw [hfold]
      rw [← gives_events] at hlast
      refine hlast.trans (not_congr (and_congr_right fun _ => ?_))
      constructor
      · exact fun h => ⟨slice, rfl, h⟩
      · rintro ⟨_, ⟨⟩, h⟩
        exact h
    · have hall := hrefused.append slice.bytes
      rw [hfold, hall.decoded]
      refine iff_of_true ⟨m, o, rfl⟩ ?_
      rintro ⟨-, last, -, hloses⟩
      exact hall.not_losesEnd hloses

/-- The byte `0xC3` after an `A` is lost: a `_Utf8ConversionSink` sends `A` with `isLast: true` and
is done, where the one-shot conversion gives `A` and U+FFFD. -/
theorem convertSlices_lostEnd : convertSlices .conversion true []
        (.last ⟨.uint8List [0x41, 0xC3], 0, 2, by decide, by decide⟩) = .ok [.add [0x41] true] ∧
      convertSingle true (.uint8List [0x41, 0xC3]) 0 none = .ok [0x41, 0xFFFD] := by
  constructor
  · decide +kernel
  · have hslice : (CodeUnits.uint8List [0x41, 0xC3]).slice 0 none = .ok [0x41, 0xC3] := rfl
    have hsingle : Gives _ _ (decoded true [0x41, 0xC3]) := convertSingle_spec hslice
    obtain ⟨s, heq, rfl⟩ := hsingle
    exact heq

/-! ## ASCII through the sinks

An ASCII text is sent downstream as it is: it has no BOM, nothing of it is refused and nothing is
left unfinished at the end, so that both ways of ending deliver it. -/

/-- A list of ASCII bytes. -/
def IsAscii (bytes : List Byte) : Prop := ∀ byte ∈ bytes, byte.val < 0x80

theorem IsAscii.skipBomSingle (h : IsAscii bytes) : skipBomSingle bytes = bytes := by
  refine skipBomSingle_of_not fun hbom => ?_
  have hfirst := h 0xEF (hbom.subset (by decide))
  exact absurd hfirst (by decide)

theorem IsAscii.run (h : IsAscii bytes) :
    run (feed allow) (IA, 0) (Utf8.skipBomSingle bytes) = (bytes.map Fin.val, .ok (IA, 0)) := by
  rw [h.skipBomSingle]
  exact run_feed_of_strict allow (run_ascii (fun _ => strictStep_ascii) h)

theorem IsAscii.decoded (h : IsAscii bytes) : decoded allow bytes = some (bytes.map Fin.val) := by
  rw [Utf8.decoded, h.run]
  rfl

theorem IsAscii.not_refused (h : IsAscii bytes) : ¬ Refused allow bytes := by
  intro hrefused
  obtain ⟨out, e, herror⟩ := hrefused.run
  rw [h.run] at herror
  exact nomatch congrArg Prod.snd herror

theorem IsUnfinished.exists_lead {tail : List Byte} (h : IsUnfinished tail) :
    ∃ byte ∈ tail, 0xC2 ≤ byte.val := by
  match tail, h with
  | [a], ⟨hlo, _⟩ => exact ⟨a, List.mem_cons_self, hlo⟩
  | [a, _], ⟨hlo, _⟩ => exact ⟨a, List.mem_cons_self, by omega⟩
  | [a, _, _], ⟨hlo, _⟩ => exact ⟨a, List.mem_cons_self, by omega⟩

theorem IsAscii.not_losesEnd {n : ℕ} (h : IsAscii bytes) :
    ¬ LosesEnd allow n (Utf8.skipBomSingle bytes) := by
  rintro ⟨front, tail, heq, htail, -, -⟩
  rw [h.skipBomSingle] at heq
  obtain ⟨byte, hbyte, hle⟩ := htail.exists_lead
  have hlt := h byte (by rw [heq]; exact List.mem_append_right _ hbyte)
  omega

variable {k : Sink} (h : SinkProgress allow pre k) (kind : SinkKind)

include h

theorem SinkProgress.addSlice_ascii {slice : Slice} (hascii : IsAscii (pre ++ slice.bytes)) :
    ∃ k', kind.addSlice k slice false = .ok k' ∧ SinkProgress allow (pre ++ slice.bytes) k' :=
  (h.addSlice kind slice).resolve_right fun hrefused => hascii.not_refused hrefused.2

theorem SinkProgress.addLast_ascii {slice : Slice} (hascii : IsAscii (pre ++ slice.bytes)) :
    ∃ k', kind.addSlice k slice true = .ok k' ∧
      Delivers k'.events ((pre ++ slice.bytes).map Fin.val) := by
  have hgives := (h.addLast_iff kind slice).mpr fun hloses => hascii.not_losesEnd hloses.2
  rwa [hascii.decoded] at hgives

theorem SinkProgress.close_ascii (hascii : IsAscii pre) :
    ∃ k', kind.close k = .ok k' ∧ Delivers k'.events (pre.map Fin.val) := by
  have hgives := h.close kind
  rwa [hascii.decoded] at hgives

end Utf8
