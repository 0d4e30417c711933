import DartSdk.Convert.Base64.Text

/-!
# Convert/Base64/EncoderCorrect — encoding, at once and in chunks

`encoded` is the text of a byte list, three bytes at a time.  A chunk goes on with the bytes of an
unfinished group, so that **the chunks together give the same text** (`Group.encode`), and every
buffer is filled, whatever it held before.
-/

namespace Base64

open List Transducer

variable {w : List ℕ} {bits size : ℕ}

/-- An element of a byte list. -/
abbrev Byte := Utf8.Byte

/-- A byte list as the encoder gets it. -/
def ints (bytes : List Byte) : List ℤ := bytes.map fun b => (b.val : ℤ)

variable (alphabet : List Char)

/-- The characters of three bytes. -/
def group (a b c : Byte) : List ℕ :=
  let v := (a.val * 256 + b.val) * 256 + c.val
  [codeUnitAt alphabet (v / 262144), codeUnitAt alphabet (v / 4096 % 64),
    codeUnitAt alphabet (v / 64 % 64), codeUnitAt alphabet (v % 64)]

/-- The characters of an unfinished group, with padding. -/
def lastGroup : List Byte → List ℕ
  | [a] => [codeUnitAt alphabet (a.val / 4), codeUnitAt alphabet (a.val % 4 * 16), paddingChar,
      paddingChar]
  | [a, b] =>
    let v := a.val * 256 + b.val
    [codeUnitAt alphabet (v / 1024), codeUnitAt alphabet (v / 16 % 64),
      codeUnitAt alphabet (v % 16 * 4), paddingChar]
  | _ => []

/-- **The text of a byte list.** -/
def encoded : List Byte → List ℕ
  | a :: b :: c :: rest => group alphabet a b c ++ encoded rest
  | rest => lastGroup alphabet rest

/-- One byte more: the state is the unfinished group. -/
def encodeStep (pend : List Byte) (byte : Byte) : Except Empty (List ℕ × List Byte) :=
  match pend with
  | [a, b] => .ok (group alphabet a b byte, [])
  | pend => .ok ([], pend ++ [byte])

variable {alphabet} {pend bytes pend' : List Byte}

theorem encodeStep_short (h : pend.length < 2) (byte : Byte) :
    encodeStep alphabet pend byte = .ok ([], pend ++ [byte]) := by
  match pend, h with
  | [], _ => rfl
  | [_], _ => rfl

theorem short_or_pair (h : pend.length < 3) : pend.length < 2 ∨ ∃ a b, pend = [a, b] := by
  by_cases hlt : pend.length < 2
  · exact Or.inl hlt
  · exact Or.inr (length_eq_two.mp (by omega))

/-- A run over the bytes, and what is left of them. -/
theorem exists_encodeRun (alphabet : List Char) (hpend : pend.length < 3) (bytes : List Byte) :
    ∃ w pend', run (encodeStep alphabet) pend bytes = (w, .ok pend') ∧
      pend'.length = (pend.length + bytes.length) % 3 ∧
      w.length = (pend.length + bytes.length) / 3 * 4 := by
  induction bytes generalizing pend with
  | nil => exact ⟨[], pend, rfl, by simp; omega, by simp; omega⟩
  | cons byte bytes ih =>
    rcases short_or_pair hpend with hshort | ⟨a, b, rfl⟩
    · have hnext : (pend ++ [byte]).length = pend.length + 1 := length_append
      obtain ⟨w, pend', hrun, hpend', hw⟩ := ih (by omega : (pend ++ [byte]).length < 3)
      refine ⟨w, pend', ?_, ?_, ?_⟩
      · rw [run_cons_ok (encodeStep_short hshort byte), hrun, nil_append]
      · rw [hpend', hnext, length_cons]
        omega
      · rw [hw, hnext, length_cons]
        omega
    · obtain ⟨w, pend', hrun, hpend', hw⟩ := ih (by decide : ([] : List Byte).length < 3)
      refine ⟨group alphabet a b byte ++ w, pend', ?_, ?_, ?_⟩
      · rw [run_cons_ok rfl, hrun]
      · rw [hpend']
        simp only [length_cons, length_nil]
        omega
      · rw [length_append, hw]
        simp only [length_cons, length_nil, group]
        omega

/-- **The text is what the steps write, and the last group.** -/
theorem encoded_of_run (hpend : pend.length < 3)
    (h : run (encodeStep alphabet) pend bytes = (w, .ok pend')) :
    encoded alphabet (pend ++ bytes) = w ++ lastGroup alphabet pend' := by
  induction bytes generalizing pend w with
  | nil =>
    cases h
    match pend', hpend with
    | [], _ => rfl
    | [_], _ => rfl
    | [_, _], _ => rfl
  | cons byte bytes ih =>
    obtain ⟨w1, pend1, w2, hstep, hrun, rfl⟩ := exists_of_run_cons h
    rcases short_or_pair hpend with hshort | ⟨a, b, rfl⟩
    · rw [encodeStep_short hshort] at hstep
      cases hstep
      have hrest := ih (by rw [length_append, length_singleton]; omega) hrun
      rwa [append_assoc, singleton_append] at hrest
    · cases hstep
      have hrest := ih (by decide) hrun
      rw [nil_append] at hrest
      change group alphabet a b byte ++ encoded alphabet bytes = _
      rw [hrest, append_assoc]

theorem encoded_eq (h : run (encodeStep alphabet) [] bytes = (w, .ok pend)) :
    encoded alphabet bytes = w ++ lastGroup alphabet pend :=
  encoded_of_run (by decide : ([] : List Byte).length < 3) h

/-! ## The loop -/

/-- The bits of an unfinished group. -/
def bitsOf : List Byte → ℕ
  | [] => 0
  | [a] => a.val
  | a :: b :: _ => a.val * 256 + b.val

theorem bitsOf_lt (h : pend.length < 3) : bitsOf pend < 2 ^ 16 := by
  match pend, h with
  | [], _ => exact Nat.two_pow_pos 16
  | [a], _ =>
    simp only [bitsOf]
    omega
  | [a, b], _ =>
    simp only [bitsOf]
    omega

theorem addByte_eq (h : bits < 2 ^ 16) (byte : Byte) :
    Encoder.addByte bits byte.val = bits * 256 + byte.val := by
  have hadd := Nat.shiftLeft_add_eq_or_of_lt (i := 8) byte.isLt bits
  change (((bits <<< 8 ||| byte.val) &&& 0xFFFFFF : ℕ) : ℤ).toNat = _
  rw [Int.toNat_natCast, ← hadd, Nat.shiftLeft_eq, Nat.and_two_pow_sub_one_eq_mod _ 24]
  omega

theorem bitsOf_concat (h : pend.length < 2) (byte : Byte) :
    bitsOf (pend ++ [byte]) = bitsOf pend * 256 + byte.val := by
  match pend, h with
  | [], _ => simp [bitsOf]
  | [a], _ => rfl

theorem sixBits (n : ℕ) : n &&& sixBitMask = n % 64 := Nat.and_two_pow_sub_one_eq_mod n 6

theorem fullChunk_eq (a b c : Byte) :
    Encoder.fullChunk alphabet ((a.val * 256 + b.val) * 256 + c.val) = group alphabet a b c := by
  have hhigh : ((a.val * 256 + b.val) * 256 + c.val) / 2 ^ 18 % 64 =
      ((a.val * 256 + b.val) * 256 + c.val) / 262144 := Nat.mod_eq_of_lt (by omega)
  simp only [Encoder.fullChunk, group, sixBits, Nat.shiftRight_eq_div_pow, hhigh]

theorem finalChunk_eq (hpos : pend ≠ []) (h : pend.length < 3) :
    Encoder.finalChunk alphabet pend.length (bitsOf pend) = lastGroup alphabet pend := by
  match pend, hpos, h with
  | [a], _, _ =>
    have hhigh : a.val / 2 ^ 2 % 64 = a.val / 4 := Nat.mod_eq_of_lt (by omega)
    have hlow : a.val * 2 ^ 4 % 64 = a.val % 4 * 16 := by omega
    simp only [Encoder.finalChunk, lastGroup, bitsOf, sixBits, Nat.shiftRight_eq_div_pow,
      Nat.shiftLeft_eq, hhigh, hlow, length_singleton, if_true]
  | [a, b], _, _ =>
    have hhigh : (a.val * 256 + b.val) / 2 ^ 10 % 64 = (a.val * 256 + b.val) / 1024 :=
      Nat.mod_eq_of_lt (by omega)
    have hlow : (a.val * 256 + b.val) * 2 ^ 2 % 64 = (a.val * 256 + b.val) % 16 * 4 := by omega
    have htwo : ¬ [a, b].length = 1 := fun h => by simp at h
    simp only [Encoder.finalChunk, if_neg htwo]
    simp only [lastGroup, bitsOf, sixBits, Nat.shiftRight_eq_div_pow, Nat.shiftLeft_eq, hhigh, hlow]

theorem lor_byte {byteOr : ℤ} (h : 0 ≤ byteOr ∧ byteOr ≤ 255) (byte : Byte) :
    0 ≤ Int.lor byteOr byte.val ∧ Int.lor byteOr byte.val ≤ 255 := by
  obtain ⟨n, rfl⟩ := Int.eq_ofNat_of_zero_le h.1
  have hor : n ||| byte.val < 2 ^ 8 := Nat.or_lt_two_pow (by omega) byte.isLt
  have hlor : Int.lor (n : ℤ) (byte.val : ℤ) = ((n ||| byte.val : ℕ) : ℤ) := rfl
  omega

theorem put_chars {out chars : List ℕ} (h : out.length + chars.length ≤ size) :
    Encoder.put size out chars = .ok (out ++ chars) := if_pos h

/-- **The loop** goes on with the unfinished group. -/
theorem encodeLoop_spec {byteOr : ℤ} {out : List ℕ}
    (hpend : pend.length < 3) (hor : 0 ≤ byteOr ∧ byteOr ≤ 255)
    (hrun : run (encodeStep alphabet) pend bytes = (w, .ok pend'))
    (hroom : out.length + w.length ≤ size) : ∃ byteOr', (0 ≤ byteOr' ∧ byteOr' ≤ 255) ∧
      Encoder.encodeLoop alphabet size (bitsOf pend) (3 - pend.length) byteOr out (ints bytes) =
        .ok (bitsOf pend', 3 - pend'.length, byteOr', out ++ w) := by
  induction bytes generalizing pend byteOr out w with
  | nil =>
    cases hrun
    exact ⟨byteOr, hor, by rw [append_nil]; rfl⟩
  | cons byte bytes ih =>
    obtain ⟨w1, pend1, w2, hstep, hrest, rfl⟩ := exists_of_run_cons hrun
    have hlor := lor_byte hor byte
    rw [ints, map_cons, Encoder.encodeLoop]
    simp only [addByte_eq (bitsOf_lt hpend)]
    rcases short_or_pair hpend with hshort | ⟨a, b, rfl⟩
    · rw [encodeStep_short hshort] at hstep
      cases hstep
      have hmore : ¬ 3 - pend.length - 1 = 0 := by omega
      have hlength : 3 - pend.length - 1 = 3 - (pend ++ [byte]).length := by
        rw [length_append, length_singleton]
        omega
      rw [if_neg hmore, hlength, ← bitsOf_concat hshort]
      exact ih (by omega) hlor hrest hroom
    · cases hstep
      rw [length_append] at hroom
      have hput : Encoder.put size out (group alphabet a b byte) =
          .ok (out ++ group alphabet a b byte) :=
        put_chars (by omega)
      obtain ⟨byteOr', hor', hloop⟩ := ih (by decide) hlor hrest
        (by rw [length_append]; omega : (out ++ group alphabet a b byte).length + _ ≤ size)
      have hdone : 3 - [a, b].length - 1 = 0 := rfl
      refine ⟨byteOr', hor', ?_⟩
      rw [if_pos hdone, bitsOf, fullChunk_eq, hput, ← append_assoc, ← hloop]
      rfl

theorem stateBits_encodeState {count : ℕ} (h : count < 4) :
    Encoder.stateBits (Encoder.encodeState count bits) = bits := by
  have hadd := Nat.shiftLeft_add_eq_or_of_lt (i := 2) h bits
  rw [Encoder.stateBits, Encoder.encodeState, ← hadd, Nat.shiftLeft_eq, Nat.shiftRight_eq_div_pow]
  omega

theorem stateCount_encodeState {count : ℕ} (h : count < 4) :
    Encoder.stateCount (Encoder.encodeState count bits) = count := by
  have hadd := Nat.shiftLeft_add_eq_or_of_lt (i := 2) h bits
  rw [Encoder.stateCount, Encoder.encodeState, ← hadd, Nat.shiftLeft_eq,
    Nat.and_two_pow_sub_one_eq_mod _ 2]
  omega

/-- The state of an encoder with an unfinished group. -/
def groupState (pend : List Byte) : ℕ := Encoder.encodeState pend.length (bitsOf pend)

/-- What a chunk gives, and what is left of it. -/
def chunkText (alphabet : List Char) (isLast : Bool) (w : List ℕ) (pend : List Byte) : List ℕ :=
  if isLast then w ++ lastGroup alphabet pend else w

/-- What is left for the next chunk. -/
def chunkLeft (isLast : Bool) (pend : List Byte) : List Byte := if isLast then [] else pend

theorem groupState_nil : groupState [] = 0 := by decide

theorem encodeChunk_spec {start : ℕ} {isLast : Bool}
    (hpend : pend.length < 3) (hpend' : pend'.length < 3)
    (hrun : run (encodeStep alphabet) pend bytes = (w, .ok pend'))
    (hroom : (chunkText alphabet isLast w pend').length ≤ size) :
    Encoder.encodeChunk alphabet start (ints bytes) isLast size (groupState pend) =
      .ok (chunkText alphabet isLast w pend', groupState (chunkLeft isLast pend')) := by
  have hw : w.length ≤ size := by
    refine le_trans ?_ hroom
    unfold chunkText
    split_ifs
    · rw [length_append]
      omega
    · exact le_rfl
  have hfirst : (0 : ℤ) ≤ 0 ∧ (0 : ℤ) ≤ 255 := by decide
  have hempty : ([] : List ℕ).length + w.length ≤ size := by simpa using hw
  obtain ⟨byteOr, hor, hloop⟩ := encodeLoop_spec hpend hfirst hrun hempty
  have hcount : 3 - (3 - pend'.length) = pend'.length := by omega
  rw [Encoder.encodeChunk, groupState, stateBits_encodeState (by omega),
    stateCount_encodeState (by omega), hloop, nil_append]
  change (if 0 ≤ byteOr ∧ byteOr ≤ 255 then
    if isLast ∧ 3 - pend'.length < 3 then
      Encoder.put size w (Encoder.finalChunk alphabet (3 - (3 - pend'.length)) (bitsOf pend')) >>=
        fun out => pure (out, 0)
    else pure (w, Encoder.encodeState (3 - (3 - pend'.length)) (bitsOf pend'))
    else _) = _
  rw [if_pos hor, hcount]
  cases isLast with
  | false => rfl
  | true =>
    by_cases hnil : pend' = []
    · subst hnil
      simp only [chunkText, if_true, lastGroup, append_nil]
      rfl
    have hpos := length_pos_of_ne_nil hnil
    have hput : Encoder.put size w (lastGroup alphabet pend') =
        .ok (w ++ lastGroup alphabet pend') := by
      refine put_chars ?_
      rwa [← length_append]
    have hleft : groupState (chunkLeft true pend') = 0 := groupState_nil
    rw [if_pos ⟨rfl, by omega⟩, finalChunk_eq hnil hpend', hput, hleft]
    rfl

theorem length_createBuffer (e : Encoder) (n : ℕ) : (e.createBuffer n).1.length = n := by
  unfold Encoder.createBuffer
  split_ifs
  · cases e.bufferCache with
    | none => simp
    | some buffer =>
      simp only [length_take]
      split_ifs with hlt
      · simp
      · omega
  · simp

theorem length_lastGroup (h : pend.length < 3) :
    (lastGroup alphabet pend).length = if 0 < pend.length then 4 else 0 := by
  match pend, h with
  | [], _ => rfl
  | [_], _ => rfl
  | [_, _], _ => rfl

/-- The output of a call, or `null`. -/
def outputOf (text : List ℕ) : Option (List ℕ) := if text = [] then none else some text

/-- **`encode`** gives the text of the groups that are complete, and at the end of the last one. -/
theorem Encoder.encode_spec {e : Encoder} (hstate : e.state = groupState pend)
    (hpend : pend.length < 3) (start : ℕ) (bytes : List Byte) (isLast : Bool) :
    ∃ w pend' e', run (encodeStep (alphabetOf e.urlSafe)) pend bytes = (w, .ok pend') ∧
      pend'.length < 3 ∧ e'.urlSafe = e.urlSafe ∧ e'.state = groupState (chunkLeft isLast pend') ∧
      e.encode start (ints bytes) isLast =
        .ok (outputOf (chunkText (alphabetOf e.urlSafe) isLast w pend'), e') := by
  obtain ⟨w, pend', hrun, hlen', hw⟩ := exists_encodeRun (alphabetOf e.urlSafe) hpend bytes
  have hpend' : pend'.length < 3 := hlen' ▸ Nat.mod_lt _ (by decide)
  have hcount : Encoder.stateCount e.state + (ints bytes).length = pend.length + bytes.length := by
    rw [hstate, groupState, stateCount_encodeState (by omega), ints, length_map]
  set text := chunkText (alphabetOf e.urlSafe) isLast w pend' with htext
  have hpart : pend.length + bytes.length - (pend.length + bytes.length) / 3 * 3 =
      pend'.length := by
    omega
  have hsize : (pend.length + bytes.length) / 3 * 4 + (if isLast ∧ 0 < pend'.length then 4 else 0) =
      text.length := by
    rw [htext, chunkText]
    cases isLast with
    | false => simp [hw]
    | true => simp [hw, length_lastGroup hpend']
  have hchunk : Encoder.encodeChunk (alphabetOf e.urlSafe) start (ints bytes) isLast text.length
      (groupState pend) = .ok (text, groupState (chunkLeft isLast pend')) :=
    encodeChunk_spec hpend hpend' hrun (le_refl text.length)
  -- The buffer has the length of the text, so that nothing of it is left.
  have hdrop : (e.createBuffer text.length).1.drop text.length = [] := by
    rw [drop_eq_nil_iff, length_createBuffer]
  have houtput : (if 0 < text.length then some text else none) = outputOf text := by
    unfold outputOf
    by_cases hnil : text = []
    · rw [if_pos hnil, if_neg (by simp [hnil])]
    · rw [if_neg hnil, if_pos (length_pos_of_ne_nil hnil)]
  obtain ⟨cache, hencode⟩ : ∃ cache, e.encode start (ints bytes) isLast =
      .ok (outputOf text, { e with
        state := groupState (chunkLeft isLast pend'), bufferCache := cache }) := by
    simp only [Encoder.encode, hcount, hpart, hsize]
    simp only [hstate, hchunk, bind, Except.bind, pure, Except.pure, hdrop, append_nil, houtput]
    exact ⟨_, rfl⟩
  exact ⟨w, pend', { e with state := groupState (chunkLeft isLast pend'), bufferCache := cache },
    hrun, hpend', rfl, rfl, hencode⟩

theorem encoded_ne_nil (h : bytes ≠ []) : encoded alphabet bytes ≠ [] := by
  match bytes, h with
  | [_], _ => exact fun h => nomatch h
  | [_, _], _ => exact fun h => nomatch h
  | _ :: _ :: _ :: _, _ => exact fun h => nomatch h

/-- **The one-shot conversion.** -/
theorem encode_spec (urlSafe : Bool) (bytes : List Byte) :
    encode urlSafe (ints bytes) = .ok (encoded (alphabetOf urlSafe) bytes) := by
  by_cases hnil : bytes = []
  · subst hnil
    rfl
  have hints : ints bytes ≠ [] := fun h => hnil (map_eq_nil_iff.mp h)
  have hnew : (Encoder.new urlSafe false).state = groupState [] := groupState_nil.symm
  obtain ⟨w, pend, e, hrun, -, -, -, hencode⟩ :=
    Encoder.encode_spec hnew (by decide) 0 bytes true
  have htext : encoded (alphabetOf urlSafe) bytes = w ++ lastGroup (alphabetOf urlSafe) pend :=
    encoded_eq hrun
  have houtput : outputOf (chunkText (alphabetOf urlSafe) true w pend) =
      some (encoded (alphabetOf urlSafe) bytes) := by
    have hne : encoded (alphabetOf urlSafe) bytes ≠ [] := encoded_ne_nil hnil
    rw [htext] at hne ⊢
    exact if_neg hne
  rw [encode, if_neg hints, hencode, show (Encoder.new urlSafe false).urlSafe = urlSafe from rfl,
    houtput]
  rfl

theorem digit_codeUnitAt (urlSafe : Bool) {i : ℕ} (h : i < 64) :
    Digit (codeUnitAt (alphabetOf urlSafe) i) i := by
  cases urlSafe with
  | false => exact ⟨h, Or.inl rfl⟩
  | true => exact ⟨h, Or.inr rfl⟩

/-- **The text of a byte list stands for it.** -/
theorem text_encoded (urlSafe : Bool) (bytes : List Byte) :
    Text (encoded (alphabetOf urlSafe) bytes) (bytes.map Fin.val) := by
  match bytes with
  | [] => exact .nil
  | [a] =>
    have hv : a.val / 4 * 64 + a.val % 4 * 16 = a.val * 16 := by omega
    have htext := Text.two (digit_codeUnitAt urlSafe (by omega : a.val / 4 < 64))
      (digit_codeUnitAt urlSafe (by omega : a.val % 4 * 16 < 64)) rfl (by omega) .equals .equals
    rw [hv, Nat.mul_div_cancel _ (by decide)] at htext
    exact htext
  | [a, b] =>
    generalize hn : a.val * 256 + b.val = n
    have hv : (n / 1024 * 64 + n / 16 % 64) * 64 + n % 16 * 4 = n * 4 := by omega
    have htext := Text.three (digit_codeUnitAt urlSafe (by omega : n / 1024 < 64))
      (digit_codeUnitAt urlSafe (by omega : n / 16 % 64 < 64))
      (digit_codeUnitAt urlSafe (by omega : n % 16 * 4 < 64)) rfl (by omega) .equals
    have ha : n * 4 / 1024 = a.val := by omega
    have hb : n * 4 / 4 % 256 = b.val := by omega
    rw [hv, ha, hb] at htext
    rw [← hn] at htext
    exact htext
  | a :: b :: c :: rest =>
    generalize hn : (a.val * 256 + b.val) * 256 + c.val = n
    have hv : ((n / 262144 * 64 + n / 4096 % 64) * 64 + n / 64 % 64) * 64 + n % 64 = n := by omega
    have htext := Text.block (digit_codeUnitAt urlSafe (by omega : n / 262144 < 64))
      (digit_codeUnitAt urlSafe (by omega : n / 4096 % 64 < 64))
      (digit_codeUnitAt urlSafe (by omega : n / 64 % 64 < 64))
      (digit_codeUnitAt urlSafe (by omega : n % 64 < 64)) hv.symm (text_encoded urlSafe rest)
    have ha : n / 65536 = a.val := by omega
    have hb : n / 256 % 256 = b.val := by omega
    have hc : n % 256 = c.val := by omega
    rw [ha, hb, hc, ← hn] at htext
    exact htext

theorem codeUnitAt_lt (urlSafe : Bool) (i : ℕ) : codeUnitAt (alphabetOf urlSafe) i < 128 := by
  have hall : ('A' :: alphabetOf urlSafe).all (·.toNat < 128) := by
    cases urlSafe <;> decide
  refine of_decide_eq_true (all_eq_true.1 hall _ ?_)
  rw [getD_eq_getElem?_getD]
  cases hget : (alphabetOf urlSafe)[i]? with
  | none => exact mem_cons_self
  | some c => exact mem_cons_of_mem _ (mem_of_getElem? hget)

theorem encoded_lt (urlSafe : Bool) (bytes : List Byte) :
    ∀ char ∈ encoded (alphabetOf urlSafe) bytes, char < 128 := by
  have hdigit := codeUnitAt_lt urlSafe
  have hpad : paddingChar < 128 := by decide
  match bytes with
  | [] => exact fun _ h => nomatch h
  | [a] => simp [encoded, lastGroup, hdigit, hpad]
  | [a, b] => simp [encoded, lastGroup, hdigit, hpad]
  | a :: b :: c :: rest =>
    have hrest := encoded_lt urlSafe rest
    simp only [encoded, group, mem_append, mem_cons, not_mem_nil, or_false]
    rintro char ((rfl | rfl | rfl | rfl) | h)
    · exact hdigit _
    · exact hdigit _
    · exact hdigit _
    · exact hdigit _
    · exact hrest char h

end Base64
