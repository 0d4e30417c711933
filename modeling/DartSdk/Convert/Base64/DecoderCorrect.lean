import DartSdk.Convert.Base64.Buffer

/-!
# Convert/Base64/DecoderCorrect — the decoder is a run of the automaton

A chunk is decoded as the automaton reads it, whatever comes before: `decode_spec`.  Every other
exception than a `FormatException` is excluded there, and with it a write outside of the buffer.
-/

namespace Base64

open List Base64 State Transducer

variable {bits count size i charOr char : ℕ} {out rest w chars : List ℕ} {st : State}

theorem encodeCharacterState_eq (h : count < 4) :
    encodeCharacterState count bits = ((bits * 4 + count : ℕ) : ℤ) := by
  have hadd := Nat.shiftLeft_add_eq_or_of_lt (i := 2) h bits
  rw [encodeCharacterState, ← hadd, Nat.shiftLeft_eq]

theorem stateCount_code (h : count < 4) : stateCount (encodeCharacterState count bits) = count := by
  rw [encodeCharacterState_eq h, stateCount, Int.toNat_natCast, Nat.and_two_pow_sub_one_eq_mod _ 2]
  omega

theorem stateBits_code (h : count < 4) : stateBits (encodeCharacterState count bits) = bits := by
  rw [encodeCharacterState_eq h, stateBits, Int.toNat_natCast, Nat.shiftRight_eq_div_pow]
  omega

theorem hasSeenPadding_data (h : count < 4) :
    ¬ hasSeenPadding (encodeCharacterState count bits) := by
  rw [encodeCharacterState_eq h, hasSeenPadding]
  omega

theorem hasSeenPadding_pad (e : ℕ) : hasSeenPadding (encodePaddingState e) := by
  rw [encodePaddingState, hasSeenPadding]
  omega

theorem bits_lt (hcount : count < 4) (hbits : bits < 64 ^ count) : bits < 2 ^ 18 :=
  hbits.trans_le ((Nat.pow_le_pow_right (by decide) (Nat.le_of_lt_succ hcount)).trans (by decide))

/-- Six more bits. -/
theorem addBits {code : ℕ} (hbits : bits < 2 ^ 18) (hcode : code < 64) :
    ((bits <<< 6) ||| code) &&& 0xFFFFFF = bits * 64 + code := by
  rw [← Nat.shiftLeft_add_eq_or_of_lt (i := 6) hcode, Nat.shiftLeft_eq,
    Nat.and_two_pow_sub_one_eq_mod _ 24]
  omega

theorem addCount (h : count < 4) : (count + 1) &&& 3 = if count = 3 then 0 else count + 1 := by
  rw [Nat.and_two_pow_sub_one_eq_mod _ 2]
  split_ifs <;> omega

theorem toByte (n : ℕ) : n &&& 0xFF = n % 256 := Nat.and_two_pow_sub_one_eq_mod n 8

theorem put_eq {bytes : List ℕ} (h : out.length + bytes.length ≤ size) :
    put size out bytes = .ok (out ++ bytes.map (· % 256)) := by
  simp [put, if_pos h, toByte]

theorem put_full (hroom : out.length + 3 ≤ size) (hbits : bits < 2 ^ 24) :
    put size out [bits >>> 16, bits >>> 8, bits] =
      .ok (out ++ [bits / 65536, bits / 256 % 256, bits % 256]) := by
  have hhigh : bits / 2 ^ 16 % 256 = bits / 65536 := Nat.mod_eq_of_lt (by omega)
  rw [put_eq (by exact hroom)]
  simp only [map_cons, map_nil, Nat.shiftRight_eq_div_pow, hhigh]

theorem beforePadding_three (hroom : out.length + 2 ≤ size) (hbits : bits < 2 ^ 18) :
    beforePadding size i 3 bits out = if bits % 4 = 0
      then .ok (out ++ [bits / 1024, bits / 4 % 256])
      else .error (.format "Invalid encoding before padding" (some i)) := by
  have hmask : bits &&& 3 = bits % 4 := Nat.and_two_pow_sub_one_eq_mod bits 2
  have hhigh : bits / 2 ^ 10 % 256 = bits / 1024 := Nat.mod_eq_of_lt (by omega)
  simp only [beforePadding, hmask, ite_not, if_true]
  refine if_congr Iff.rfl ?_ rfl
  rw [put_eq (by exact hroom)]
  simp only [map_cons, map_nil, Nat.shiftRight_eq_div_pow, hhigh]

theorem beforePadding_two (hroom : out.length + 1 ≤ size) (hbits : bits < 2 ^ 12) :
    beforePadding size i 2 bits out = if bits % 16 = 0 then .ok (out ++ [bits / 16])
      else .error (.format "Invalid encoding before padding" (some i)) := by
  have hmask : bits &&& 15 = bits % 16 := Nat.and_two_pow_sub_one_eq_mod bits 4
  have hhigh : bits / 2 ^ 4 % 256 = bits / 16 := Nat.mod_eq_of_lt (by omega)
  simp only [beforePadding, hmask, ite_not, (by decide : ¬ 2 = 3), if_false]
  refine if_congr Iff.rfl ?_ rfl
  rw [put_eq (by exact hroom)]
  simp only [map_cons, map_nil, Nat.shiftRight_eq_div_pow, hhigh]

/-! ## The loop

The loop keeps the bits of an unfinished group, and the automaton has the same state. -/

/-- A `FormatException`. -/
def Refuses {α : Type} (result : Except Exn α) : Prop :=
  ∃ message offset, result = .error (.format message offset)

theorem or_le_asciiMax {a b : ℕ} : a ||| b ≤ asciiMax ↔ a ≤ asciiMax ∧ b ≤ asciiMax := by
  constructor
  · exact fun h => ⟨Nat.left_le_or.trans h, Nat.right_le_or.trans h⟩
  · exact fun h => Nat.le_of_lt_succ (Nat.or_lt_two_pow (n := 7) (Nat.lt_succ_of_le h.1)
      (Nat.lt_succ_of_le h.2))

theorem afterLoop_refuses {start : ℕ} {chunk : List ℕ} (h : asciiMax < charOr) :
    Refuses (afterLoop start chunk count bits charOr out) :=
  ⟨_, _, if_neg (Nat.not_le.mpr h)⟩

/-- The loop follows the automaton while all characters are ASCII, and refuses the chunk
otherwise. -/
structure LoopSpec (charOr : ℕ) (out rest : List ℕ) (st : State)
    (result : Except Exn (List ℕ × ℤ)) :
    Prop where
  ascii : charOr ≤ asciiMax →
    Follows result (fun r w st' => r = (out ++ w, st'.code)) (run step st rest)
  other : asciiMax < charOr → Refuses result

theorem Follows.step {α : Type} {result : Except Exn α} {P : α → List ℕ → State → Prop}
    {st' : State} (hstep : step st char = .ok (w, st'))
    (h : Follows result (fun a w' st => P a (w ++ w') st) (run step st' rest)) :
    Follows result P (run step st (char :: rest)) := by
  rw [run_cons_ok hstep]
  cases hrun : run Base64.step st' rest with
  | mk out r =>
  rw [hrun] at h
  cases r with
  | ok => exact h
  | error => exact h

theorem Follows.refuse {α : Type} {result : Except Exn α} {P : α → List ℕ → State → Prop}
    (hstep : Base64.step st char = .error ())
    (h : Refuses result) : Follows result P (run Base64.step st (char :: rest)) := by
  rw [run_cons_error hstep]
  exact h


theorem step_other (h : asciiMax < char) : step (.data bits count) char = .error () := by
  simp [step, if_pos h]

theorem step_digit (bits count : ℕ) (hascii : char ≤ asciiMax) (hcode : 0 ≤ codeOf char) :
    step (.data bits count) char =
      if count = 3 then .ok ([(bits * 64 + (codeOf char).toNat) / 65536,
        (bits * 64 + (codeOf char).toNat) / 256 % 256, (bits * 64 + (codeOf char).toNat) % 256],
        .data 0 0)
      else .ok ([], .data (bits * 64 + (codeOf char).toNat) (count + 1)) := by
  simp [step, if_neg (Nat.not_lt.mpr hascii), if_pos hcode]

theorem step_pad_three (bits : ℕ) (hpad : IsPad char) : step (.data bits 3) char =
      if bits % 4 = 0 then .ok ([bits / 1024, bits / 4 % 256], .pad (firstPad 3 char))
      else .error () := by
  have hcode : ¬ (0 : ℤ) ≤ padding := by decide
  simp only [step, if_neg (Nat.not_lt.mpr hpad.le_asciiMax), hpad.codeOf, if_neg hcode]
  simp

theorem step_pad_two (bits : ℕ) (hpad : IsPad char) : step (.data bits 2) char =
      if bits % 16 = 0 then .ok ([bits / 16], .pad (firstPad 2 char)) else .error () := by
  have hcode : ¬ (0 : ℤ) ≤ padding := by decide
  simp only [step, if_neg (Nat.not_lt.mpr hpad.le_asciiMax), hpad.codeOf, if_neg hcode]
  simp

theorem step_invalid (hcode : ¬ 0 ≤ codeOf char) (hpad : ¬ (codeOf char = padding ∧ 1 < count)) :
    step (.data bits count) char = .error () := by
  simp [step, if_neg hcode, if_neg hpad, ite_self]

/-- The loop goes on. -/
theorem LoopSpec.of_next {st' : State}
    {result : Except Exn (List ℕ × ℤ)} (h : LoopSpec (charOr ||| char) (out ++ w) rest st' result)
    (hstep : char ≤ asciiMax → step (.data bits count) char = .ok (w, st')) :
    LoopSpec charOr out (char :: rest) (.data bits count) result := by
  constructor
  · intro hascii
    by_cases hchar : char ≤ asciiMax
    · refine Follows.step (hstep hchar) ?_
      simpa [append_assoc] using h.ascii (or_le_asciiMax.mpr ⟨hascii, hchar⟩)
    · refine Follows.refuse (step_other (Nat.not_le.mp hchar)) (h.other ?_)
      exact Nat.not_le.mp fun hle => hchar (or_le_asciiMax.mp hle).2
  · intro hother
    exact h.other (hother.trans_le Nat.left_le_or)

/-- The loop ends with an error. -/
theorem LoopSpec.of_refuses {result : Except Exn (List ℕ × ℤ)} (h : Refuses result)
    (hstep : charOr ≤ asciiMax → step st char = .error ()) :
    LoopSpec charOr out (char :: rest) st result :=
  ⟨fun hascii => Follows.refuse (hstep hascii) h, fun _ => h⟩

/-- The padding, from the first character of it on, behind bits that may be refused. -/
theorem padding_spec {i : ℕ} {valid : Prop} [Decidable valid] {m : String}
    {o : Option ℕ} (hcount : 1 < count) (hbefore : beforePadding size i count bits out =
      if valid then .ok (out ++ w) else .error (.format m o))
    (hstep : step (.data bits count) char =
      if valid then .ok (w, .pad (firstPad count char)) else .error ()) : Follows (do
        let out ← beforePadding size i count bits out
        let state ← checkPadding (i + 1) rest (encodePaddingState (firstPad count char))
        return (out, state)) (fun r w' st' => r = (out ++ w', st'.code))
      (run step (.data bits count) (char :: rest)) := by
  by_cases hvalid : valid
  swap
  · rw [if_neg hvalid] at hbefore hstep
    rw [hbefore]
    exact Follows.refuse hstep ⟨_, _, rfl⟩
  rw [if_pos hvalid] at hbefore hstep
  refine Follows.step hstep ?_
  rw [hbefore]
  have hle : firstPad count char ≤ 5 := by
    unfold firstPad
    split_ifs <;> omega
  have hspec := checkPadding_spec hle (i + 1) rest
  cases hrun : run step (.pad (firstPad count char)) rest with
  | mk w' r =>
  rw [hrun] at hspec
  cases r with
  | ok st =>
    obtain ⟨state, hcheck, rfl, rfl⟩ := hspec
    rw [hcheck]
    exact ⟨_, rfl, by simp [append_nil]⟩
  | error =>
    obtain ⟨m, o, hcheck⟩ := hspec
    rw [hcheck]
    exact ⟨m, o, rfl⟩

theorem decodeChunkLoop_spec (start : ℕ) (chunk : List ℕ) (size : ℕ) (rest : List ℕ)
    {c : ℕ} (hcount : count < 4) (hbits : bits < 64 ^ count)
    (hc : c % 4 = count) (hout : out.length = full c) (hfits : Fits size c rest) :
    LoopSpec charOr out rest (.data bits count)
      (decodeChunkLoop start chunk size i bits count charOr out rest) := by
  induction rest generalizing i bits count charOr c out with
  | nil =>
    exact ⟨fun h => ⟨_, if_pos h, by simp [code]⟩, fun h => afterLoop_refuses h⟩
  | cons char rest ih =>
    have hbits18 := bits_lt hcount hbits
    have hcode64 := toNat_codeOf_lt char
    obtain ⟨hfull, hpadRoom, hnext⟩ := hfits
    unfold decodeChunkLoop
    simp only [addBits hbits18 hcode64, addCount hcount]
    by_cases hcode : 0 ≤ codeOf char
    · have hnotpad : ¬ IsPad char := fun h => by
        rw [h.codeOf] at hcode
        exact absurd hcode (by decide)
      have hstep := fun hascii => step_digit bits count hascii hcode
      by_cases h3 : count = 3
      · -- The block is complete.
        have hbits24 : bits * 64 + (codeOf char).toNat < 2 ^ 24 := by omega
        have hroom : out.length + 3 ≤ size := hout ▸ hfull hcode (hc.trans h3)
        simp only [if_pos hcode, if_pos h3, if_true, put_full hroom hbits24] at hstep ⊢
        refine LoopSpec.of_next (ih (by decide) (by decide) ?_ ?_ (hnext hnotpad)) hstep
        · omega
        · rw [length_append, hout, full, full]
          simp only [length_cons, length_nil]
          omega
      · simp only [if_pos hcode, if_neg h3, Nat.succ_ne_zero, if_false] at hstep ⊢
        have hpow : bits * 64 + (codeOf char).toNat < 64 ^ (count + 1) := by
          omega
        have hout' : out.length = full (c + 1) := by
          rw [hout, full, full]
          omega
        refine LoopSpec.of_next ?_ hstep
        rw [append_nil]
        exact ih (by omega) hpow (by omega) hout' (hnext hnotpad)
    · by_cases hpad : codeOf char = padding ∧ 1 < count
      · simp only [if_neg hcode, if_pos hpad]
        by_cases hor : charOr ||| char ≤ asciiMax
        · have hpad' : IsPad char := (codeOf_eq_padding_iff (or_le_asciiMax.mp hor).2).mp hpad.1
          have hroom := hpadRoom hpad' (hc ▸ hpad.2)
          rw [if_neg (Nat.not_lt.mpr hor)]
          refine ⟨fun _ => ?_, fun hother => absurd hor
            (Nat.not_le.mpr (hother.trans_le Nat.left_le_or))⟩
          rcases (by omega : count = 3 ∨ count = 2) with rfl | rfl
          · have hroom : out.length + 2 ≤ size := by omega
            exact padding_spec (by decide) (beforePadding_three hroom hbits18)
              (step_pad_three bits hpad')
          · have hroom : out.length + 1 ≤ size := by omega
            exact padding_spec (by decide) (beforePadding_two hroom hbits) (step_pad_two bits hpad')
        · rw [if_pos (Nat.not_le.mp hor)]
          refine LoopSpec.of_refuses
            (afterLoop_refuses (Nat.not_le.mp hor)) fun hascii => step_other ?_
          exact Nat.not_le.mp fun hchar => hor (or_le_asciiMax.mpr ⟨hascii, hchar⟩)
      · simp only [if_neg hcode, if_neg hpad]
        exact LoopSpec.of_refuses ⟨_, _, rfl⟩ fun _ => step_invalid hcode hpad

/-! ## The buffer is filled

The size that was computed from the characters is what the loop writes. -/

theorem run_pad_out {e : ℕ}
    (h : run step (.pad e) rest = (out, .ok st)) : out = [] ∧ ∃ e' ≤ e, st = .pad e' := by
  induction rest generalizing e with
  | nil =>
    cases h
    exact ⟨rfl, e, le_rfl, rfl⟩
  | cons char rest ih =>
    obtain ⟨e', hnext, h⟩ := run_pad_cons h
    obtain ⟨hout, e'', hle, hst⟩ := ih h
    exact ⟨hout, e'', hle.trans (padNext_le hnext).1.le, hst⟩

/-- A chunk that begins in a block: data only, or data and padding. -/
inductive ChunkShape (count : ℕ) (chars w : List ℕ) (st : State) : Prop
  | data (hdata : ∀ char ∈ chars, ¬ IsPad char) (hlength : w.length = full (count + chars.length))
  | pad (data : List ℕ) (p : ℕ) (rest : List ℕ) (hchars : chars = data ++ p :: rest)
      (hdata : ∀ char ∈ data, ¬ IsPad char) (hpad : IsPad p)
      (hcount : (count + data.length) % 4 = 2 ∨ (count + data.length) % 4 = 3)
      (hlength : w.length = full (count + data.length) + ((count + data.length) % 4 - 1))
      (hrun : run step (.pad (firstPad ((count + data.length) % 4) p)) rest = ([], .ok st))

theorem ChunkShape.cons {count' : ℕ} {w' : List ℕ}
    (hchar : ¬ IsPad char) (hcount : count' % 4 = (count + 1) % 4)
    (hw : full count' + w.length = full (count + 1))
    (h : ChunkShape count' chars w' st) : ChunkShape count (char :: chars) (w ++ w') st := by
  have hall : ∀ {l : List ℕ}, (∀ c ∈ l, ¬ IsPad c) → ∀ c ∈ char :: l, ¬ IsPad c := fun hl c hc => by
    rcases mem_cons.mp hc with rfl | hc
    · exact hchar
    · exact hl c hc
  cases h with
  | data hdata hlength =>
    refine .data (hall hdata) ?_
    rw [length_append, hlength]
    simp only [full, length_cons] at hw ⊢
    omega
  | pad data p rest hchars hdata hpad hmod hlength hrun =>
    have hcount' : (count + (char :: data).length) % 4 = (count' + data.length) % 4 := by
      simp only [length_cons]
      omega
    refine .pad (char :: data) p rest (by rw [hchars]; rfl) (hall hdata) hpad ?_ ?_ ?_
    · rwa [hcount']
    · rw [length_append, hlength]
      simp only [full, length_cons] at hw ⊢
      omega
    · rwa [hcount']

/-- What a step from a block can do: read a character of an alphabet, or begin the padding. -/
theorem step_data_cases (h : step (.data bits count) char = .ok (w, st)) :
    (char ≤ asciiMax ∧ 0 ≤ codeOf char ∧ (count = 3 ∧ w.length = 3 ∧ st = .data 0 0 ∨
        count ≠ 3 ∧ w = [] ∧ ∃ bits', st = .data bits' (count + 1))) ∨
    (IsPad char ∧ st = .pad (firstPad count char) ∧
      (count = 3 ∧ bits % 4 = 0 ∧ w = [bits / 1024, bits / 4 % 256] ∨
        1 < count ∧ count ≠ 3 ∧ bits % 16 = 0 ∧ w = [bits / 16])) := by
  simp only [step] at h
  split_ifs at h with hascii hcode h3 hpad h3 hzero hzero
  · cases h
    exact Or.inl ⟨Nat.not_lt.mp hascii, hcode, Or.inl ⟨h3, rfl, rfl⟩⟩
  · cases h
    exact Or.inl ⟨Nat.not_lt.mp hascii, hcode, Or.inr ⟨h3, rfl, _, rfl⟩⟩
  · cases h
    have hpad' := (codeOf_eq_padding_iff (Nat.not_lt.mp hascii)).mp hpad.1
    exact Or.inr ⟨hpad', rfl, Or.inl ⟨h3, hzero, rfl⟩⟩
  · cases h
    have hpad' := (codeOf_eq_padding_iff (Nat.not_lt.mp hascii)).mp hpad.1
    exact Or.inr ⟨hpad', rfl, Or.inr ⟨hpad.2, h3, hzero, rfl⟩⟩

variable (hcount : count < 4) (h : run step (.data bits count) chars = (w, .ok st))

include hcount h

theorem chunkShape_of_run : ChunkShape count chars w st := by
  induction chars generalizing bits count w with
  | nil =>
    cases h
    refine .data (fun _ h => nomatch h) ?_
    simp only [full, length_nil]
    omega
  | cons char chars ih =>
    obtain ⟨w1, st1, w2, hstep, hrest, rfl⟩ := exists_of_run_cons h
    rcases step_data_cases hstep with ⟨-, hcode, hnext⟩ | ⟨hpad, rfl, hw⟩
    · have hpad : ¬ IsPad char := fun h => by
        rw [h.codeOf] at hcode
        exact absurd hcode (by decide)
      rcases hnext with ⟨rfl, hlength, rfl⟩ | ⟨h3, rfl, bits', rfl⟩
      · have hblock : ChunkShape 0 chars w2 st := ih (by decide) hrest
        exact .cons hpad (by decide) (by rw [hlength]; rfl) hblock
      · exact .cons hpad rfl rfl (ih (by omega) hrest)
    · obtain ⟨rfl, -⟩ := run_pad_out hrest
      refine .pad [] char chars rfl (fun _ h => nomatch h) hpad ?_ ?_ ?_
      all_goals simp only [length_nil, Nat.add_zero, Nat.mod_eq_of_lt hcount, append_nil]
      · omega
      · rcases hw with ⟨rfl, -, rfl⟩ | ⟨hmany, h3, -, rfl⟩
        · rfl
        · obtain rfl : count = 2 := by omega
          rfl
      · exact hrest

/-- **The buffer of a valid chunk is filled.** -/
theorem length_eq_allocateBuffer :
    w.length = allocateBuffer chars (encodeCharacterState count bits) := by
  rw [allocateBuffer_eq, stateCount_code hcount]
  cases chunkShape_of_run hcount h with
  | data hdata hlength => simp [trimPaddingChars_data hdata, hlength, full]
  | pad data p rest hchars hdata hpad hmod hlength hrun =>
    have hlt : data.length < (data ++ p :: rest).length := by simp
    rw [hchars, trimPaddingChars_pad hdata hmod hpad hrun, if_pos ⟨by omega, hlt⟩, hlength, full]

omit hcount h

/-- **`decodeChunk`** with the buffer that is allocated for it. -/
theorem decodeChunk_spec (hst : (data bits count).Valid) (start : ℕ) (chars : List ℕ) :
    Follows (decodeChunk start chars (allocateBuffer chars (data bits count).code)
        (data bits count).code) (fun r w st' => r = (w, st'.code) ∧
        w.length = allocateBuffer chars (data bits count).code)
      (run step (.data bits count) chars) := by
  obtain ⟨hcount, hbits⟩ := hst
  have hfits : Fits (allocateBuffer chars (data bits count).code) count chars := by
    have hroom := fits_allocateBuffer chars (encodeCharacterState count bits)
    rwa [stateCount_code hcount] at hroom
  have hempty : ([] : List ℕ).length = full count := by
    simp only [length_nil, full]
    omega
  have hspec := (decodeChunkLoop_spec start chars _ chars (i := start) hcount hbits
    (Nat.mod_eq_of_lt hcount) hempty hfits).ascii (Nat.zero_le _)
  have hchunk : ∀ size, decodeChunk start chars size (data bits count).code =
      decodeChunkLoop start chars size start bits count 0 [] chars := by
    intro size
    rw [decodeChunk, code, stateBits_code hcount, stateCount_code hcount]
  rw [hchunk]
  cases hrun : run step (.data bits count) chars with
  | mk w r =>
  rw [hrun] at hspec
  cases r with
  | ok st =>
    obtain ⟨r, hloop, rfl⟩ := hspec
    exact ⟨_, hloop, rfl, length_eq_allocateBuffer hcount hrun⟩
  | error => exact hspec

/-- **`decode`** reads the characters from the state it has kept.  After padding there is no buffer;
otherwise the buffer is what the automaton writes. -/
theorem decode_spec (hst : st.Valid) (chars : List ℕ) (start : ℕ) :
    Follows (decode st.code chars start)
      (fun r w st' => r.1.getD [] = w ∧ (r.1 = none ↔ hasSeenPadding st.code) ∧ r.2 = st'.code)
      (run step st chars) := by
  cases st with
  | pad e =>
    have hspec : Follows (checkPadding start chars (pad e).code) _ _ :=
      checkPadding_spec hst start chars
    rw [decode, if_pos (by exact hasSeenPadding_pad e)]
    cases hrun : run step (.pad e) chars with
    | mk w r =>
    rw [hrun] at hspec
    cases r with
    | ok st =>
      obtain ⟨state, hcheck, rfl, rfl⟩ := hspec
      rw [hcheck]
      exact ⟨_, rfl, rfl, iff_of_true rfl (hasSeenPadding_pad e), rfl⟩
    | error =>
      obtain ⟨m, o, hcheck⟩ := hspec
      rw [hcheck]
      exact ⟨m, o, rfl⟩
  | data bits count =>
    have hseen : ¬ hasSeenPadding (data bits count).code := hasSeenPadding_data hst.1
    rw [decode, if_neg hseen]
    by_cases hne : chars = []
    · subst hne
      exact ⟨_, rfl, rfl, iff_of_false (fun h => nomatch h) hseen, rfl⟩
    have hspec := decodeChunk_spec hst start chars
    rw [if_neg hne]
    dsimp only
    cases hrun : run step (.data bits count) chars with
    | mk w r =>
    rw [hrun] at hspec
    cases r with
    | ok st =>
      obtain ⟨r, hchunk, rfl, hlength⟩ := hspec
      rw [hchunk]
      refine ⟨_, rfl, ?_, iff_of_false (fun h => nomatch h) hseen, rfl⟩
      simp [hlength]
    | error =>
      obtain ⟨m, o, hchunk⟩ := hspec
      rw [hchunk]
      exact ⟨m, o, rfl⟩

theorem close_spec (hst : st.Valid) (stop : Option ℕ) :
    (st.Final → close st.code stop = .ok (encodePaddingState 0)) ∧
      (¬ st.Final → Refuses (close st.code stop)) := by
  have hend : encodePaddingState 0 = -1 := rfl
  cases st with
  | data bits count =>
    obtain ⟨hcount, hbits⟩ := hst
    have hcode : (data bits count).code = ((bits * 4 + count : ℕ) : ℤ) :=
      encodeCharacterState_eq hcount
    have hzero : count = 0 → bits = 0 := by
      rintro rfl
      omega
    have hge : ¬ (data bits count).code < encodePaddingState 0 := by
      omega
    constructor
    · intro hfinal
      have hnot : ¬ 0 < (data bits count).code := by
        have hc : count = 0 := hfinal
        omega
      rw [close, if_neg hge, if_neg hnot]
    · intro hfinal
      have hpos : 0 < (data bits count).code := by
        have hc : count ≠ 0 := hfinal
        omega
      rw [close, if_neg hge, if_pos hpos]
      exact ⟨_, _, rfl⟩
  | pad e =>
    have hcode : (pad e).code = -(e : ℤ) - 1 := rfl
    constructor
    · intro hfinal
      have he : e = 0 := hfinal
      subst he
      rfl
    · intro hfinal
      have he : e ≠ 0 := hfinal
      have hlt : (pad e).code < encodePaddingState 0 := by
        omega
      rw [close, if_pos hlt]
      exact ⟨_, _, rfl⟩

/-- The bytes of a text after the last character. -/
def finished : List ℕ × Except Unit State → Option (List ℕ)
  | (out, .ok st) => if st.Final then some out else none
  | (_, .error _) => none

/-- **The bytes that a text stands for**, if it is valid. -/
def decoded (chars : List ℕ) : Option (List ℕ) := finished (run step (.data 0 0) chars)

/-- A result that is right for the text: its bytes, or a `FormatException`. -/
def Gives {α : Type} (result : Except Exn α) (P : α → List ℕ → Prop) : Option (List ℕ) → Prop
  | some bytes => ∃ a, result = .ok a ∧ P a bytes
  | none => Refuses result

theorem valid_initial : (data 0 0).Valid := ⟨by decide, by decide⟩

/-- **The one-shot conversion** of a range of a string. -/
theorem convert_spec {input : List ℕ} {start stop : ℕ} {maybeEnd : Option ℕ}
    (hstop : maybeEnd.getD input.length = stop) (hle : start ≤ stop) (hlen : stop ≤ input.length) :
    Gives (convert input start maybeEnd) (· = ·) (decoded ((input.take stop).drop start)) := by
  rw [convert, hstop, if_pos ⟨hle, hlen⟩]
  by_cases hempty : start = stop
  · have hnil : (input.take stop).drop start = [] := by
      rw [hempty]
      simp
    rw [if_pos hempty, hnil]
    exact ⟨[], rfl, rfl⟩
  rw [if_neg hempty]
  generalize (input.take stop).drop start = chars
  have hspec := decode_spec valid_initial chars start
  have hzero : (data 0 0).code = 0 := rfl
  rw [hzero] at hspec
  rw [decoded]
  cases hrun : run step (.data 0 0) chars with
  | mk w r =>
  rw [hrun] at hspec
  cases r with
  | ok st =>
    obtain ⟨⟨buffer, state⟩, hdecode, hw, hnone, hstate⟩ := hspec
    have hvalid := run_invariant step_valid valid_initial hrun
    have hclose := close_spec hvalid (some stop)
    cases buffer with
    | none => exact absurd (hnone.mp rfl) (by decide)
    | some buffer =>
      subst hw hstate
      rw [hdecode]
      by_cases hfinal : st.Final
      · rw [finished, if_pos hfinal]
        refine ⟨buffer, ?_, rfl⟩
        change (close st.code (some stop) >>= fun _ => pure buffer) = _
        rw [hclose.1 hfinal]
        rfl
      · obtain ⟨m, o, herror⟩ := hclose.2 hfinal
        rw [finished, if_neg hfinal]
        refine ⟨m, o, ?_⟩
        change (close st.code (some stop) >>= fun _ => pure buffer) = _
        rw [herror]
        rfl
  | error =>
    obtain ⟨m, o, hdecode⟩ := hspec
    rw [hdecode]
    exact ⟨m, o, rfl⟩

end Base64
