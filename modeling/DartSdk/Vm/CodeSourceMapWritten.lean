import DartSdk.Vm.CodeSourceMapStacks
import DartSdk.Vm.DataStreamCorrect

/-!
# Vm/CodeSourceMapWritten — a reader follows the written state

The stream that the builder has written is a list of operations, and a reader that has run them has
the written state: the pc offset, the functions and their positions.  `Tracks` says so, for every pc
offset that the stream has not passed; an offset that it has passed has been answered, and no
further operation changes that.

`flushBuffer_spec` is what a flush does: the written state becomes the buffered one, and the offsets
between the two are answered with the buffered chain.
-/

namespace CodeSourceMap

open List Item Option
open BitVec (ofNat toNat_or toNat_ofNat toNat_and toInt_eq_toNat_cond ofInt)

open DataStream Bytecode

variable {i : Item}

theorem toNat_word {c : ℕ} (hc : c < 8) {x : BitVec 32} (hx : x.toNat < 2 ^ 29) :
    (ofNat 32 c ||| x <<< 3).toNat = c + 8 * x.toNat := by
  have hor := Nat.shiftLeft_add_eq_or_of_lt (show c < 2 ^ 3 from hc) x.toNat
  rw [toNat_or, BitVec.toNat_shiftLeft, toNat_ofNat, Nat.mod_eq_of_lt (by omega),
    Nat.mod_eq_of_lt (by omega), Nat.or_comm, ← hor, Nat.shiftLeft_eq]
  omega

theorem toNat_and_not_signBits (x : BitVec 32) : (x &&& ~~~signBits).toNat = x.toNat % 2 ^ 29 := by
  have hmask : (~~~signBits).toNat = 2 ^ 29 - 1 := by decide
  rw [toNat_and, hmask, Nat.and_two_pow_sub_one_eq_mod]

theorem toNat_or_signBits {x : BitVec 32} (hx : x.toNat < 2 ^ 29) :
    (x ||| signBits).toNat = x.toNat + 7 * 2 ^ 29 := by
  have hmask : signBits.toNat = 7 <<< 29 := by decide
  rw [toNat_or, hmask, Nat.or_comm, ← Nat.shiftLeft_add_eq_or_of_lt hx, Nat.shiftLeft_eq,
    Nat.add_comm]

theorem Item.toNat_word (h : i.Fits) : i.word.toNat = i.op.code + 8 * (i.arg1.toNat % 2 ^ 29) := by
  have hc : i.op.code < 8 := by cases i.op <;> decide
  rw [word]
  by_cases hneg : i.arg1.toInt < 0
  · rw [if_pos hneg, CodeSourceMap.toNat_word hc, toNat_and_not_signBits]
    rw [toNat_and_not_signBits]
    exact Nat.mod_lt _ (by decide)
  have hle := h.2
  have hlt : i.arg1.toNat < 2 ^ 29 := by
    rw [toInt_eq_toNat_cond] at hneg hle
    simp only [maxArgValue] at hle
    split at hle <;> omega
  rw [if_neg hneg, CodeSourceMap.toNat_word hc hlt, Nat.mod_eq_of_lt hlt]

/-- The reader's argument, from its low bits. -/
def signExtended (x : BitVec 32) : BitVec 32 :=
  if x.toInt > maxArgValue then x ||| signBits else x

theorem signExtended_word (h : i.Fits) : signExtended (i.word >>> 3) = i.arg1 := by
  have hc : i.op.code < 8 := by cases i.op <;> decide
  have hlow : (i.word >>> 3).toNat = i.arg1.toNat % 2 ^ 29 := by
    rw [BitVec.toNat_ushiftRight, Item.toNat_word h, Nat.shiftRight_eq_div_pow]
    omega
  have hint : (i.word >>> 3).toInt = (i.arg1.toNat % 2 ^ 29 : ℕ) := by
    rw [toInt_eq_toNat_cond, hlow, if_pos (by omega)]
  obtain ⟨hlo, hhi⟩ := h
  rw [toInt_eq_toNat_cond] at hlo hhi
  simp only [minArgValue, maxArgValue] at hlo hhi
  apply BitVec.eq_of_toNat_eq
  by_cases hbig : (i.word >>> 3).toInt > maxArgValue
  · rw [signExtended, if_pos hbig, toNat_or_signBits (by omega), hlow]
    rw [hint, maxArgValue] at hbig
    split at hlo <;> omega
  · rw [signExtended, if_neg hbig, hlow]
    rw [hint, maxArgValue] at hbig
    split at hlo <;> omega

theorem Op.ofCode_code (op : Op) : Op.ofCode op.code = some op := by cases op <;> rfl

theorem readOp_bytes (h : i.Fits) (dwarf : Bool) (rest : List UInt8) :
    readOp dwarf (i.bytes dwarf ++ rest) = some ((i.op, i.arg1), rest) := by
  have hc : i.op.code < 8 := by cases i.op <;> decide
  have hop : (i.word &&& 7#32).toNat = i.op.code := by
    rw [toNat_and, Item.toNat_word h]
    change _ &&& (2 ^ 3 - 1) = _
    rw [Nat.and_two_pow_sub_one_eq_mod]
    omega
  have hread (v : BitVec 32) (rest : List UInt8) :
      read 32 endByteMarker (write v.toInt ++ rest) = some (v, rest) :=
    read_write (t := .bits32) v
  have harg := signExtended_word h
  rw [signExtended] at harg
  simp only [readOp, bytes, append_assoc, hread, bind_eq_bind, bind_some, hop, Op.ofCode_code, harg]
  split
  · rw [hread]
    rfl
  · rfl

theorem Item.bytes_ne_nil (i : Item) (dwarf : Bool) : i.bytes dwarf ≠ [] := by
  rw [bytes, write]
  split <;> simp

/-- A reader of the bytes plays the operations. -/
theorem interpret_of_gives {σ ρ : Type} {step : σ → Op × BitVec 32 → Option (σ ⊕ ρ)} (dwarf : Bool)
    {s : σ} {items : List Item} {o : σ ⊕ ρ} (h : Gives view step s items o)
    (hfits : ∀ i ∈ items, i.Fits) :
    interpret (readOp dwarf) step (items.flatMap (bytes dwarf)).length s
      (items.flatMap (bytes dwarf)) = some o :=
  h.interpret (fun i hi => readOp_bytes (hfits i hi) dwarf) fun i _ => i.bytes_ne_nil dwarf

/-- An `int32_t`. -/
def IsInt32 (x : ℤ) : Prop := -2 ^ 31 ≤ x ∧ x < 2 ^ 31

instance (x : ℤ) : Decidable (IsInt32 x) := inferInstanceAs (Decidable (_ ∧ _))

theorem IsInt32.toInt_ofInt {x : ℤ} (h : IsInt32 x) : (ofInt 32 x).toInt = x := by
  obtain ⟨hlo, hhi⟩ := h
  rw [BitVec.toInt_ofInt, Int.bmod_eq_of_le (by omega) (by omega)]

namespace Context

variable {F : Type} (ctx : Context F) {f : Frame}

/-- A frame as a reader shows it. -/
def render (f : Frame) : F × TokenPosition :=
  (ctx.inlineIdToFunction f.id, ctx.serialize (ctx.inlineIdToFunction f.id) f.position)

/-- Where a reader starts. -/
def start : Position F := ⟨0, [(ctx.inlineIdToFunction 0, readerInitialPosition ctx)]⟩

/-- The initial position has no line. -/
theorem serialize_initialPosition (f : F) :
    ctx.serialize f initialPosition = readerInitialPosition ctx := by
  have hreal : TokenPosition.isReal initialPosition = false := by decide
  simp [serialize, getTokenLocation, hreal, readerInitialPosition]

/-- What the null-check reader has found: the first null check at the offset, or the written one. -/
def recorded (nulls : List (ℤ × ℤ)) (pc p : ℤ) : ℤ ⊕ ℤ :=
  match nulls.find? fun x => x.1 = p with
  | none => .inl pc
  | some x => .inr x.2

/-- **The readers follow the written state.**  The functions of the map are pairwise distinct, and
those of ids that are `int32_t`. -/
structure Tracks (nulls : List (ℤ × ℤ)) (b : Builder F) : Prop where
  stack : ∀ functions, b.inlinedFunctions <+: functions → ∀ p, b.writtenPc ≤ p →
    Gives view (inlinedStep ctx functions p) ctx.start b.stream
      (.inl ⟨b.writtenPc, b.written.map ctx.render⟩)
  nullChecks : ∀ p, b.writtenPc ≤ p ∨ p ∈ nulls.map Prod.fst →
    Gives view (nullCheckStep p) 0 b.stream (recorded nulls b.writtenPc p)
  nodup : b.inlinedFunctions.Nodup
  known : ∀ f ∈ b.inlinedFunctions, ∃ id < 2 ^ 31, ctx.inlineIdToFunction id = f

/-- A reader at `p` returns the chain. -/
def Answers (b : Builder F) (p : ℤ) (stack : List (F × TokenPosition)) : Prop :=
  ∀ functions, b.inlinedFunctions <+: functions →
    Gives view (inlinedStep ctx functions p) ctx.start b.stream (.inr stack)

/-- The stream and the functions have grown. -/
structure Grows (b b' : Builder F) : Prop where
  stream : b.stream <+: b'.stream
  functions : b.inlinedFunctions <+: b'.inlinedFunctions

variable {ctx} {nulls : List (ℤ × ℤ)} {b b' b'' : Builder F} {i : Item}

theorem Grows.refl : Grows b b := ⟨prefix_rfl, prefix_rfl⟩

theorem Grows.trans (h : Grows b b') (h' : Grows b' b'') : Grows b b'' :=
  ⟨h.stream.trans h'.stream, h.functions.trans h'.functions⟩

/-- **An answer stays.** -/
theorem Answers.grows {p : ℤ} {stack : List (F × TokenPosition)} (h : ctx.Answers b p stack)
    (hgrows : Grows b b') : ctx.Answers b' p stack :=
  fun functions hfunctions => (h functions (hgrows.functions.trans hfunctions)).extend hgrows.stream

/-- **One operation** that both readers follow. -/
theorem Tracks.emit (h : ctx.Tracks nulls b) (hgrows : Grows b b')
    (hstream : b'.stream = b.stream ++ [i]) (hpc : b.writtenPc ≤ b'.writtenPc)
    (hstack : ∀ functions, b'.inlinedFunctions <+: functions → ∀ p, b'.writtenPc ≤ p →
      inlinedStep ctx functions p ⟨b.writtenPc, b.written.map ctx.render⟩ (i.op, i.arg1) =
        some (.inl ⟨b'.writtenPc, b'.written.map ctx.render⟩)) (hnull : ∀ p, b'.writtenPc ≤ p →
      nullCheckStep p b.writtenPc (i.op, i.arg1) = some (.inl b'.writtenPc))
    (hnodup : b'.inlinedFunctions.Nodup)
    (hknown : ∀ f ∈ b'.inlinedFunctions, ∃ id < 2 ^ 31, ctx.inlineIdToFunction id = f) :
    ctx.Tracks nulls b' := by
  refine ⟨?_, ?_, hnodup, hknown⟩
  · intro functions hfunctions p hp
    have hbefore := h.stack functions (hgrows.functions.trans hfunctions) p (hpc.trans hp)
    rw [hstream]
    exact hbefore.concat (hstack functions hfunctions p hp)
  intro p hp
  have hbefore := h.nullChecks p (hp.imp_left hpc.trans)
  rw [recorded] at hbefore ⊢
  cases hfind : nulls.find? fun x => x.1 = p with
  | some x =>
    rw [hfind] at hbefore
    exact hbefore.extend hgrows.stream
  | none =>
    rw [hfind] at hbefore
    have hle : b'.writtenPc ≤ p := by
      refine hp.resolve_right fun hmem => ?_
      obtain ⟨x, hx, rfl⟩ := mem_map.mp hmem
      exact absurd (find?_eq_none.mp hfind x hx) (by simp)
    rw [hstream]
    exact hbefore.concat (hnull p hle)

/-! ## The writers -/

/-- Operations that do not advance the pc offset. -/
structure Writes (ctx : Context F) (nulls : List (ℤ × ℤ)) (b b' : Builder F) : Prop
    extends Grows b b' where
  bufferedPc : b'.bufferedPc = b.bufferedPc
  buffered : b'.buffered = b.buffered
  writtenPc : b'.writtenPc = b.writtenPc
  tracks : ctx.Tracks nulls b'

theorem Tracks.writes_refl (h : ctx.Tracks nulls b) : ctx.Writes nulls b b :=
  ⟨.refl, rfl, rfl, rfl, h⟩

theorem Writes.trans (h : ctx.Writes nulls b b') (h' : ctx.Writes nulls b' b'') :
    ctx.Writes nulls b b'' :=
  ⟨h.toGrows.trans h'.toGrows, h'.bufferedPc.trans h.bufferedPc, h'.buffered.trans h.buffered,
    h'.writtenPc.trans h.writtenPc, h'.tracks⟩

variable {below : List Frame} {top : Frame} {pos : TokenPosition}

theorem grows_write (b : Builder F) (i : Item) : Grows b (write b i) :=
  ⟨prefix_append _ _, prefix_rfl⟩

theorem writeChangePosition_spec (h : ctx.Tracks nulls b)
    (hwritten : b.written = below ++ [top]) :
    ∃ b', ctx.writeChangePosition b pos = some b' ∧ b'.written = below ++ [⟨top.id, pos⟩] ∧
      ctx.Writes nulls b b' := by
  let f := ctx.inlineIdToFunction top.id
  let i : Item :=
    ⟨.changePosition, ctx.serialize f pos - ctx.serialize f top.position, ctx.column f pos⟩
  have hbelow : b.written.dropLast = below := by rw [hwritten, dropLast_concat]
  refine ⟨{ write b i with written := below ++ [⟨top.id, pos⟩] }, ?_, rfl, ?_⟩
  · rw [writeChangePosition, hwritten, getLast?_concat, ← hbelow]
    rfl
  have hgrows : Grows b { write b i with written := below ++ [⟨top.id, pos⟩] } :=
    ⟨(grows_write b i).stream, prefix_rfl⟩
  refine ⟨hgrows, rfl, rfl, rfl, h.emit hgrows rfl le_rfl ?_ (fun _ _ => rfl) h.nodup h.known⟩
  intro functions _ p _
  simp only [inlinedStep, hwritten, map_append, map_singleton, getLast?_concat,
    bind_eq_bind, bind_some, dropLast_concat, render, i, f,
    BitVec.sub_add_cancel]
  rfl

theorem flushPosition_spec (h : ctx.Tracks nulls b) (hwritten : b.written = below ++ [top]) :
    ∃ b', ctx.flushPosition b pos = some b' ∧ b'.written = below ++ [⟨top.id, pos⟩] ∧
      ctx.Writes nulls b b' := by
  have heq : ctx.flushPosition b pos =
      if pos ≠ top.position then ctx.writeChangePosition b pos else some b := by
    simp [flushPosition, hwritten]
  rw [heq]
  split
  · exact writeChangePosition_spec h hwritten
  · rename_i hsame
    exact ⟨b, rfl, by rw [hwritten, not_not.mp hsame], h.writes_refl⟩

theorem writePop_spec (h : ctx.Tracks nulls b) (hwritten : b.written = below ++ [top])
    (hbelow : below ≠ []) :
    (writePop b).written = below ∧ ctx.Writes nulls b (writePop b) := by
  have hdrop : b.written.dropLast = below := by rw [hwritten, dropLast_concat]
  have hgrows : Grows b (writePop b) := ⟨prefix_append _ _, prefix_rfl⟩
  refine ⟨hdrop, hgrows, rfl, rfl, rfl,
    h.emit hgrows rfl le_rfl ?_ (fun _ _ => rfl) h.nodup h.known⟩
  intro functions _ p _
  have hlen := length_pos_iff.mpr hbelow
  simp [inlinedStep, writePop, write, hwritten, hlen]

/-- The functions that are left after `n` pops. -/
theorem writePops_spec {above : List Frame} (h : ctx.Tracks nulls b)
    (hwritten : b.written = below ++ above) (hbelow : below ≠ []) :
    (writePops above.length b).written = below ∧
      ctx.Writes nulls b (writePops above.length b) := by
  induction above using reverseRecOn generalizing b with
  | nil => exact ⟨by simpa [writePops] using hwritten, h.writes_refl⟩
  | append_singleton above top ih =>
    rw [← append_assoc] at hwritten
    obtain ⟨hwritten1, hwrites1⟩ := writePop_spec h hwritten (by simp [hbelow])
    obtain ⟨hwritten2, hwrites2⟩ := ih hwrites1.tracks hwritten1
    rw [length_append, length_singleton, writePops]
    exact ⟨hwritten2, hwrites1.trans hwrites2⟩

variable {functions : List F} (hnodup : functions.Nodup)
  (hknown : ∀ f ∈ functions, ∃ id < 2 ^ 31, ctx.inlineIdToFunction id = f)

include hnodup hknown

theorem length_le_of_known : functions.length ≤ 2 ^ 31 := by
  have hsubset : functions ⊆ (range (2 ^ 31)).map ctx.inlineIdToFunction := by
    intro f hf
    obtain ⟨id, hid, rfl⟩ := hknown f hf
    exact mem_map_of_mem (mem_range.mpr hid)
  simpa using (hnodup.subperm hsubset).length_le

variable {id : ℕ}

/-- `GetFunctionId` gives the index of the function. -/
theorem getFunctionId_spec [DecidableEq F] (hid : id < 2 ^ 31) {index : ℕ} {functions' : List F}
    (heq : ctx.getFunctionId functions id = (index, functions')) :
    index < 2 ^ 31 ∧ functions <+: functions' ∧
      functions'[index]? = some (ctx.inlineIdToFunction id) ∧ functions'.Nodup ∧
      ∀ f ∈ functions', ∃ id < 2 ^ 31, ctx.inlineIdToFunction id = f := by
  rw [getFunctionId] at heq
  split at heq
  · rename_i hmem
    obtain ⟨rfl, rfl⟩ := Prod.mk.inj heq
    have hlt := idxOf_lt_length_of_mem hmem
    refine ⟨hlt.trans_le (length_le_of_known hnodup hknown), prefix_rfl, ?_, hnodup, hknown⟩
    rw [getElem?_eq_getElem hlt, getElem_idxOf]
  rename_i hnew
  obtain ⟨rfl, rfl⟩ := Prod.mk.inj heq
  have hnodup' : (functions ++ [ctx.inlineIdToFunction id]).Nodup := by
    rw [nodup_append]
    refine ⟨hnodup, nodup_singleton _, ?_⟩
    rintro f hf g hg rfl
    rw [mem_singleton] at hg
    exact hnew (hg ▸ hf)
  have hknown' : ∀ f ∈ functions ++ [ctx.inlineIdToFunction id],
      ∃ id < 2 ^ 31, ctx.inlineIdToFunction id = f := by
    intro f hf
    rcases mem_append.mp hf with hf | hf
    · exact hknown f hf
    · exact ⟨id, hid, (mem_singleton.mp hf).symm⟩
  have hlen := length_le_of_known hnodup' hknown'
  rw [length_append, length_singleton] at hlen
  exact ⟨hlen, prefix_append _ _, getElem?_concat_length, hnodup', hknown'⟩

omit hnodup hknown

theorem writePush_spec [DecidableEq F] (h : ctx.Tracks nulls b) (hid : id < 2 ^ 31) :
    (ctx.writePush b id).written = b.written ++ [⟨id, initialPosition⟩] ∧
      ctx.Writes nulls b (ctx.writePush b id) := by
  obtain ⟨index, functions', heq⟩ : ∃ index functions',
      ctx.getFunctionId b.inlinedFunctions id = (index, functions') := ⟨_, _, rfl⟩
  obtain ⟨hindex, hprefix, hget, hnodup, hknown⟩ := getFunctionId_spec h.nodup h.known hid heq
  have hint : IsInt32 index := ⟨by omega, by omega⟩
  have htoInt : (ofNat 32 index).toInt = index := by
    rw [← BitVec.ofInt_natCast, hint.toInt_ofInt]
  have htoNat : (ofNat 32 index).toNat = index := by
    rw [toNat_ofNat, Nat.mod_eq_of_lt (by omega)]
  have hpush : ctx.writePush b id = { b with
      stream := b.stream ++ [{ op := .pushFunction, arg1 := ofNat 32 index }]
      inlinedFunctions := functions'
      written := b.written ++ [⟨id, initialPosition⟩] } := by
    rw [writePush, heq]
    rfl
  have hgrows : Grows b (ctx.writePush b id) := by
    rw [hpush]
    exact ⟨prefix_append _ _, hprefix⟩
  rw [hpush] at hgrows ⊢
  refine ⟨rfl, hgrows, rfl, rfl, rfl,
    h.emit hgrows rfl le_rfl ?_ (fun _ _ => rfl) hnodup hknown⟩
  intro functions hfunctions p _
  have hfunction : functions[index]? = some (ctx.inlineIdToFunction id) := by
    obtain ⟨rest, rfl⟩ := hfunctions
    rw [getElem?_append_left, hget]
    exact (List.getElem?_eq_some_iff.mp hget).1
  simp only [inlinedStep, htoInt, htoNat, hfunction, if_neg (Int.natCast_nonneg index).not_gt,
    map_append, map_singleton, render, serialize_initialPosition]
  rfl

/-- **The frames above a common one.**  The top function gets its position, and the others
follow. -/
theorem flushFrames_spec [DecidableEq F] {frames : List Frame} (h : ctx.Tracks nulls b)
    (hwritten : b.written = below ++ [top]) (hsame : top.id = f.id)
    (hids : ∀ g ∈ frames, g.id < 2 ^ 31) :
    ∃ b', ctx.flushFrames (f :: frames) b = some b' ∧ b'.written = below ++ f :: frames ∧
      ctx.Writes nulls b b' := by
  induction frames generalizing b f top below with
  | nil =>
    obtain ⟨b1, hflush, hwritten1, hwrites1⟩ := flushPosition_spec h hwritten
    rw [hsame] at hwritten1
    exact ⟨b1, hflush, hwritten1, hwrites1⟩
  | cons g frames ih =>
    obtain ⟨b1, hflush, hwritten1, hwrites1⟩ := flushPosition_spec h hwritten
    obtain ⟨hwritten2, hwrites2⟩ := writePush_spec hwrites1.tracks (hids g mem_cons_self)
    have hid : (⟨g.id, initialPosition⟩ : Frame).id = g.id := rfl
    obtain ⟨b3, hrest, hwritten3, hwrites3⟩ :=
      ih hwrites2.tracks hwritten2 hid fun x hx => hids x (mem_cons_of_mem g hx)
    refine ⟨b3, ?_, ?_, (hwrites1.trans hwrites2).trans hwrites3⟩
    · rw [flushFrames, hflush]
      exact hrest
    · rw [hwritten3, hwritten1, hsame, append_assoc]
      rfl

theorem writeAdvancePC_spec {distance : ℤ} (h : ctx.Tracks nulls b) (hpos : 0 < distance)
    (hint : IsInt32 distance) :
    Grows b (writeAdvancePC b distance) ∧ ctx.Tracks nulls (writeAdvancePC b distance) ∧
      ∀ p, b.writtenPc ≤ p → p < b.writtenPc + distance →
        ctx.Answers (writeAdvancePC b distance) p (b.written.map ctx.render) := by
  have hgrows : Grows b (writeAdvancePC b distance) := ⟨prefix_append _ _, prefix_rfl⟩
  refine ⟨hgrows, h.emit hgrows rfl (le_add_of_nonneg_right hpos.le) ?_ ?_ h.nodup h.known, ?_⟩
  · intro functions _ p hp
    change b.writtenPc + distance ≤ p at hp
    simp only [inlinedStep, hint.toInt_ofInt]
    rw [if_neg (not_lt.mpr hp)]
    rfl
  · intro p hp
    change b.writtenPc + distance ≤ p at hp
    simp only [nullCheckStep, hint.toInt_ofInt]
    rw [if_pos hp]
    rfl
  · intro p hle hlt functions hfunctions
    refine (h.stack functions hfunctions p hle).concat ?_
    change inlinedStep ctx functions p _ (Op.advancePC, ofInt 32 distance) = _
    simp only [inlinedStep, hint.toInt_ofInt]
    rw [if_pos hlt]

/-- The stacks have the same id at the common index. -/
theorem commonIndex_spec {buffered written : List Frame} {j : ℕ} {g : Frame}
    (hf : buffered[j]? = some f) (hg : written[j]? = some g) (hsame : f.id = g.id) :
    ∀ {n : ℕ}, j < n → ∃ index f g, commonIndex buffered written n = some index ∧
      buffered[index]? = some f ∧ written[index]? = some g ∧ g.id = f.id
  | 0, hj => absurd hj (Nat.not_lt_zero _)
  | n + 1, hj => by
    rw [commonIndex]
    split
    · rename_i hmatch
      obtain ⟨hsome, heq⟩ := hmatch
      obtain ⟨g', hg'⟩ : ∃ g', written[n]? = some g' := by
        rw [isSome_map] at hsome
        exact isSome_iff_exists.mp hsome
      rw [hg', map_some, map_eq_some_iff] at heq
      obtain ⟨f', hf', hid⟩ := heq
      exact ⟨n, f', g', rfl, hf', hg', hid.symm⟩
    · rename_i hmatch
      refine commonIndex_spec hf hg hsame (Nat.lt_of_le_of_ne (Nat.le_of_lt_succ hj) ?_)
      rintro rfl
      exact hmatch (by simp [hf, hg, hsame])

/-- **What a flush does.** -/
structure Flushed (ctx : Context F) (nulls : List (ℤ × ℤ)) (b b' : Builder F) : Prop
    extends Grows b b' where
  bufferedPc : b'.bufferedPc = b.bufferedPc
  buffered : b'.buffered = b.buffered
  writtenPc : b'.writtenPc = b.bufferedPc
  written : b'.written = b.buffered
  tracks : ctx.Tracks nulls b'
  answers : ∀ p, b.writtenPc ≤ p → p < b.bufferedPc →
    ctx.Answers b' p (b.buffered.map ctx.render)

/-- A stack of an id that is an `int32_t`. -/
def Stands (ctx : Context F) (stack : List Frame) : Prop :=
  ∃ id pos, stack = ctx.frames id pos ∧ id < 2 ^ 31

theorem Stands.forall_mem {stack : List Frame} (h : ctx.Stands stack) :
    ∀ f ∈ stack, f.id < 2 ^ 31 := by
  obtain ⟨id, pos, rfl, hid⟩ := h
  refine forall_frames hid fun id' hle hpos' => ?_
  exact (ctx.caller_lt id' hpos').trans (hle.trans_lt hid)

/-- The part of a stack below a frame, the frame, and the part above. -/
theorem Stands.split {stack : List Frame} (h : ctx.Stands stack) {index : ℕ}
    (hf : stack[index]? = some f) :
    stack = ctx.callers f.id f.id ++ f :: stack.drop (index + 1) := by
  obtain ⟨id, pos, rfl, -⟩ := h
  obtain ⟨hlt, hget⟩ := List.getElem?_eq_some_iff.mp hf
  rw [← take_frames hf, ← hget, ← drop_eq_getElem_cons hlt, take_append_drop]

theorem flushBuffer_spec [DecidableEq F] (h : ctx.Tracks nulls b)
    (hbuffered : ctx.Stands b.buffered) (hwritten : ctx.Stands b.written)
    (hpc : b.writtenPc ≤ b.bufferedPc) (hint : IsInt32 (b.bufferedPc - b.writtenPc)) :
    ∃ b', ctx.flushBuffer b = some b' ∧ ctx.Flushed nulls b b' := by
  -- the common frame, and the parts of the stacks below and above
  obtain ⟨index, f, g, hindex, hf, hg, hid⟩ : ∃ index f g,
      commonIndex b.buffered b.written b.buffered.length = some index ∧
      b.buffered[index]? = some f ∧ b.written[index]? = some g ∧ g.id = f.id := by
    obtain ⟨id, pos, hb, -⟩ := hbuffered
    obtain ⟨id', pos', hw, -⟩ := hwritten
    obtain ⟨q, hroot⟩ := ctx.frames_root id pos
    obtain ⟨q', hroot'⟩ := ctx.frames_root id' pos'
    rw [← hb] at hroot
    rw [← hw] at hroot'
    exact commonIndex_spec hroot hroot' rfl (List.getElem?_eq_some_iff.mp hroot).1
  have hsplit := hbuffered.split hf
  have hsplit' := hwritten.split hg
  have hdrop : b.buffered.drop index = f :: b.buffered.drop (index + 1) := by
    obtain ⟨hlt, hget⟩ := List.getElem?_eq_some_iff.mp hf
    rw [← hget, ← drop_eq_getElem_cons hlt]
  rw [hid, ← singleton_append, ← append_assoc] at hsplit'
  -- pops, then the frames above the common one
  obtain ⟨hwritten1, hwrites1⟩ := writePops_spec h hsplit' (by simp)
  rw [length_drop] at hwritten1 hwrites1
  have hmem := hbuffered.forall_mem
  have habove : ∀ x ∈ f :: b.buffered.drop (index + 1), x ∈ b.buffered := by
    rw [← hdrop]
    exact fun x hx => mem_of_mem_drop hx
  obtain ⟨b2, hframes, hwritten2, hwrites2⟩ := flushFrames_spec hwrites1.tracks hwritten1 hid
    fun x hx => hmem x (habove x (mem_cons_of_mem f hx))
  rw [← hsplit] at hwritten2
  have hwrites := hwrites1.trans hwrites2
  have heq : ctx.flushBuffer b = some (if b2.bufferedPc ≠ b2.writtenPc then
      writeAdvancePC b2 (b2.bufferedPc - b2.writtenPc) else b2) := by
    rw [← hdrop, ← hwrites1.buffered] at hframes
    rw [flushBuffer, hindex]
    change (ctx.flushFrames _ (writePops _ b)).bind _ = _
    rw [hframes]
    rfl
  rw [heq, hwrites.bufferedPc, hwrites.writtenPc]
  -- the pc offset
  split
  · rename_i hne
    obtain ⟨hgrows3, htracks3, hanswers3⟩ :=
      writeAdvancePC_spec hwrites.tracks (by omega : 0 < b.bufferedPc - b.writtenPc) hint
    have hend : b2.writtenPc + (b.bufferedPc - b.writtenPc) = b.bufferedPc := by
      rw [hwrites.writtenPc]
      omega
    rw [hend, hwrites.writtenPc, hwritten2] at hanswers3
    exact ⟨_, rfl, hwrites.toGrows.trans hgrows3, hwrites.bufferedPc, hwrites.buffered, hend,
      hwritten2, htracks3, hanswers3⟩
  · rename_i hsame
    have hend : b.bufferedPc = b.writtenPc := not_not.mp hsame
    exact ⟨b2, rfl, hwrites.toGrows, hwrites.bufferedPc, hwrites.buffered,
      hwrites.writtenPc.trans hend.symm, hwritten2, hwrites.tracks, fun p hle hlt => by omega⟩

/-- A null check at the written offset; an earlier one at the same offset goes before it. -/
theorem writeNullCheck_spec {nameIndex : ℤ} (h : ctx.Tracks nulls b)
    (hint : IsInt32 nameIndex) : Grows b (writeNullCheck b nameIndex) ∧
      ctx.Tracks (nulls ++ [(b.writtenPc, nameIndex)]) (writeNullCheck b nameIndex) := by
  have hgrows : Grows b (writeNullCheck b nameIndex) := grows_write b _
  refine ⟨hgrows, ?_, ?_, h.nodup, h.known⟩
  · intro functions hfunctions p hp
    exact (h.stack functions hfunctions p hp).concat rfl
  intro p hp
  have hmem : b.writtenPc ≤ p ∨ p ∈ nulls.map Prod.fst := by
    rcases hp with hp | hp
    · exact .inl hp
    · rw [map_append, mem_append] at hp
      refine hp.symm.imp_left fun hp => ?_
      rw [mem_singleton.mp hp]
  have hbefore := h.nullChecks p hmem
  rw [recorded] at hbefore ⊢
  rw [find?_append]
  cases hfind : nulls.find? fun x => x.1 = p with
  | some x =>
    rw [hfind] at hbefore
    exact hbefore.extend hgrows.stream
  | none =>
    rw [hfind] at hbefore
    refine hbefore.concat ?_
    change nullCheckStep p b.writtenPc (Op.nullCheck, ofInt 32 nameIndex) = _
    by_cases hpc : b.writtenPc = p
    · simp [nullCheckStep, hpc, hint.toInt_ofInt]
    · simp [nullCheckStep, hpc, writeNullCheck, write]

end Context

end CodeSourceMap
