import DartSdk.Lib.Run
import DartSdk.Vm.CodeSourceMapWritten

/-!
# Vm/CodeSourceMapCorrect — reading a code source map

An `Account` says what the calls of the builder describe, without its buffers: the chain in effect
and the ranges of pc offsets with their chains and positions.

The builder follows the account (`Follows`), and shows what the account has described — in the
stream, or in the buffer that the next flush writes.  Only one kind of call can take back what is
shown: a note in the same chain replaces the position of a range that waits in the buffer.  So

* `readsBack_iff` — there is a map from which all ranges and all null checks are read back, exactly
  when the operations that are written fit, no note replaces the position of a waiting range, and no
  two null checks at one offset have different names.
-/

namespace CodeSourceMap

open List Context

/-- The offsets from `start` up to `stop`, in the function of an inlining id. -/
structure Range where
  start : ℤ
  stop : ℤ
  id : ℕ
  position : TokenPosition

/-- The pc offset, that of the last call that could throw, the inlining id in effect, the ranges,
and the position of a range that waits for a flush. -/
structure Account where
  pc : ℤ
  thrown : ℤ
  id : ℕ
  waiting : Option TokenPosition
  ranges : List Range

namespace Call

def pcOffset : Call → ℤ
  | startInliningInterval pcOffset _ => pcOffset
  | beginCodeSourceRange pcOffset _ => pcOffset
  | endCodeSourceRange pcOffset _ => pcOffset
  | noteDescriptor _ pcOffset _ => pcOffset
  | noteNullCheck pcOffset _ _ => pcOffset

def source : Call → InstructionSource
  | startInliningInterval _ source => source
  | beginCodeSourceRange _ source => source
  | endCodeSourceRange _ source => source
  | noteDescriptor _ _ source => source
  | noteNullCheck _ source _ => source

/-- The null check that a call records. -/
def nullCheck : Call → List (ℤ × ℤ)
  | noteNullCheck pcOffset _ nameIndex => [(pcOffset, nameIndex)]
  | _ => []

/-- Offsets, names and ids are `int32_t`. -/
structure Typed (c : Call) : Prop where
  source : c.source.inliningId < 2 ^ 31
  offset : c.pcOffset < 2 ^ 31
  name : ∀ n ∈ c.nullCheck, IsInt32 n.2

end Call

/-- The inlining id in effect at a source: the current one if the source has none, or a position
that is neither real nor synthetic. -/
def InstructionSource.enters (source : InstructionSource) (id : ℕ) : ℕ :=
  if (source.tokenPos.isReal || source.tokenPos.isSynthetic) ∧ 0 ≤ source.inliningId then
    source.inliningId.toNat
  else id

namespace Account

def new : Account := ⟨0, 0, 0, none, []⟩

/-- Another chain; a range that waits is flushed before. -/
def enter (a : Account) (source : InstructionSource) : Account :=
  if source.enters a.id = a.id then a else { a with id := source.enters a.id, waiting := none }

/-- A call that could throw describes the offsets before its own. -/
def note (a : Account) (stackTracesOnly : Bool) (pcOffset : ℤ) (source : InstructionSource) :
    Account where
  pc := pcOffset
  thrown := pcOffset
  id := source.enters a.id
  waiting := none
  ranges := a.ranges ++
    [⟨if stackTracesOnly then a.thrown else a.pc, pcOffset, source.enters a.id, source.tokenPos⟩]

/-- With `stack_traces_only` the end of a range describes nothing. -/
def endRange (a : Account) (stackTracesOnly : Bool) (pcOffset : ℤ) (source : InstructionSource) :
    Account :=
  if pcOffset = a.pc then a
  else { a.enter source with
    pc := pcOffset
    waiting := some source.tokenPos
    ranges := a.ranges ++
      if stackTracesOnly then [] else [⟨a.pc, pcOffset, source.enters a.id, source.tokenPos⟩] }

def next (a : Account) (stackTracesOnly : Bool) : Call → Account
  | .startInliningInterval _ source => a.enter source
  | .beginCodeSourceRange _ source => a.enter source
  | .endCodeSourceRange pcOffset source => a.endRange stackTracesOnly pcOffset source
  | .noteDescriptor kind pcOffset source =>
    if kind.canThrow then a.note stackTracesOnly pcOffset source else a
  | .noteNullCheck pcOffset source _ => a.note stackTracesOnly pcOffset source

/-- The pc offset stays or is that of the call. -/
theorem pc_next (a : Account) (stackTracesOnly : Bool) (c : Call) :
    (a.next stackTracesOnly c).pc = a.pc ∨ (a.next stackTracesOnly c).pc = c.pcOffset := by
  have henter : ∀ source, (a.enter source).pc = a.pc := by
    intro source
    rw [enter]
    split <;> rfl
  cases c with
  | startInliningInterval _ source | beginCodeSourceRange _ source => exact .inl (henter source)
  | endCodeSourceRange pcOffset source =>
    rw [next, endRange]
    split
    · exact .inl rfl
    · exact .inr rfl
  | noteDescriptor kind pcOffset source =>
    rw [next]
    split
    · exact .inr rfl
    · exact .inl rfl
  | noteNullCheck pcOffset source nameIndex => exact .inr rfl

end Account

namespace Context

section

variable {F : Type} (ctx : Context F)

/-- **The inlining chain** as a reader shows it: the functions and positions, from the root on. -/
def chain (id : ℕ) (pos : TokenPosition) : List (F × TokenPosition) :=
  (ctx.frames id pos).map ctx.render

/-- What all calls describe. -/
def account (cs : List Call) : Account :=
  cs.foldl (fun a c => a.next ctx.stackTracesOnly c) .new

/-- The chains differ only in the last position. -/
theorem chain_inj {id : ℕ} {pos pos' : TokenPosition} : ctx.chain id pos = ctx.chain id pos' ↔
      ctx.serialize (ctx.inlineIdToFunction id) pos =
        ctx.serialize (ctx.inlineIdToFunction id) pos' := by
  simp [chain, frames, render]

/-- A note of the given source does not replace the position of a waiting range. -/
def KeepsWaiting (a : Account) (source : InstructionSource) : Prop :=
  ctx.stackTracesOnly = false → source.enters a.id = a.id → ∀ pos ∈ a.waiting,
    ctx.serialize (ctx.inlineIdToFunction a.id) source.tokenPos =
      ctx.serialize (ctx.inlineIdToFunction a.id) pos

/-- The same for a call. -/
def Keeps (a : Account) : Call → Prop
  | .noteDescriptor kind _ source => kind.canThrow → ctx.KeepsWaiting a source
  | .noteNullCheck _ source _ => ctx.KeepsWaiting a source
  | _ => True

end

variable {F : Type} [DecidableEq F] {ctx : Context F}
  {nulls : List (ℤ × ℤ)} {id : ℕ} {b b' : Builder F} {source : InstructionSource} {pcOffset : ℤ}

/-- The stacks are chains, of ids and between offsets that are `int32_t`. -/
structure Holds (ctx : Context F) (nulls : List (ℤ × ℤ))
    (id : ℕ) (b : Builder F) : Prop where
  tracks : ctx.Tracks nulls b
  buffered : ∃ pos, b.buffered = ctx.frames id pos
  id_lt : id < 2 ^ 31
  written : ctx.Stands b.written
  nonneg : 0 ≤ b.writtenPc
  le : b.writtenPc ≤ b.bufferedPc
  pc_lt : b.bufferedPc < 2 ^ 31

/-- A flush would answer `p` with the chain; with `stack_traces_only` the stream does. -/
def Shows (ctx : Context F) (b : Builder F) (p : ℤ) (stack : List (F × TokenPosition)) : Prop :=
  p < b.writtenPc ∧ ctx.Answers b p stack ∨
    ctx.stackTracesOnly = false ∧ b.writtenPc ≤ p ∧ p < b.bufferedPc ∧
      b.buffered.map ctx.render = stack

/-- Nothing waits any more. -/
structure Moves (ctx : Context F) (b b' : Builder F) : Prop extends Grows b b' where
  bufferedPc : b'.bufferedPc = b.bufferedPc
  keeps : ctx.stackTracesOnly = true → b'.writtenPc = b.writtenPc
  flushes : ctx.stackTracesOnly = false → b'.writtenPc = b.bufferedPc
  answers : ∀ p stack, ctx.Shows b p stack → p < b'.writtenPc ∧ ctx.Answers b' p stack

omit [DecidableEq F] in
/-- The buffer is not what is tracked. -/
theorem Tracks.rebuffer (h : ctx.Tracks nulls b) (stack : List Frame) (pc : ℤ) :
    ctx.Tracks nulls { b with buffered := stack, bufferedPc := pc } :=
  ⟨h.stack, h.nullChecks, h.nodup, h.known⟩

omit [DecidableEq F] in
theorem Grows.rebuffer (h : Grows b b') (stack : List Frame) (pc : ℤ) :
    Grows b { b' with buffered := stack, bufferedPc := pc } :=
  ⟨h.stream, h.functions⟩

theorem Holds.flush (h : ctx.Holds nulls id b) :
    ∃ b', ctx.flushBuffer b = some b' ∧ ctx.Flushed nulls b b' ∧
      ctx.Holds nulls id b' := by
  obtain ⟨pos, hbuffered⟩ := h.buffered
  have hstands : ctx.Stands b.buffered := ⟨id, pos, hbuffered, h.id_lt⟩
  have hle := h.le
  have hint : IsInt32 (b.bufferedPc - b.writtenPc) := by
    have hnonneg := h.nonneg
    have hlt := h.pc_lt
    constructor <;> omega
  obtain ⟨b', heq, hflushed⟩ := flushBuffer_spec h.tracks hstands h.written hle hint
  refine ⟨b', heq, hflushed, hflushed.tracks, ?_, h.id_lt, ?_, ?_, ?_, ?_⟩
  · exact ⟨pos, hflushed.buffered.trans hbuffered⟩
  · rw [hflushed.written]
    exact hstands
  · rw [hflushed.writtenPc]
    exact h.nonneg.trans hle
  · rw [hflushed.writtenPc, hflushed.bufferedPc]
  · rw [hflushed.bufferedPc]
    exact h.pc_lt

omit [DecidableEq F] in
theorem Flushed.answers_shows (h : ctx.Flushed nulls b b') (hle : b.writtenPc ≤ b.bufferedPc)
    {p : ℤ} {stack : List (F × TokenPosition)} (hshows : ctx.Shows b p stack) :
    p < b'.writtenPc ∧ ctx.Answers b' p stack := by
  rw [h.writtenPc]
  rcases hshows with ⟨hlt, hanswers⟩ | ⟨-, hge, hlt, rfl⟩
  · exact ⟨hlt.trans_le hle, hanswers.grows h.toGrows⟩
  · exact ⟨hlt, h.answers p hge hlt⟩

theorem Holds.flushUnlessStackTracesOnly (h : ctx.Holds nulls id b) :
    ∃ b', ctx.flushUnlessStackTracesOnly b = some b' ∧ ctx.Holds nulls id b' ∧
      b'.buffered = b.buffered ∧ ctx.Moves b b' := by
  rw [Context.flushUnlessStackTracesOnly]
  cases htraces : ctx.stackTracesOnly with
  | true =>
    refine ⟨b, rfl, h, rfl, .refl, rfl, fun _ => rfl, fun hfalse => ?_, fun p stack hshows => ?_⟩
    · rw [htraces] at hfalse
      contradiction
    · refine hshows.resolve_right fun hwaits => ?_
      rw [htraces] at hwaits
      exact absurd hwaits.1 (by decide)
  | false =>
    obtain ⟨b', heq, hflushed, hholds⟩ := h.flush
    refine ⟨b', heq, hholds, hflushed.buffered, hflushed.toGrows, hflushed.bufferedPc,
      fun htrue => ?_, fun _ => hflushed.writtenPc, fun p stack => hflushed.answers_shows h.le⟩
    rw [htraces] at htrue
    contradiction

theorem startInliningInterval_eq {pos : TokenPosition}
    (hbuffered : b.buffered = ctx.frames id pos) :
    ctx.startInliningInterval b source =
      if source.enters id = id then some b
      else (ctx.flushUnlessStackTracesOnly b).bind fun b =>
        some { b with buffered := ctx.enter b.buffered (source.enters id) } := by
  rw [startInliningInterval, hbuffered, getLast?_frames, InstructionSource.enters]
  by_cases hrecord : source.tokenPos.isReal || source.tokenPos.isSynthetic
  · have hnone : (!source.tokenPos.isReal && !source.tokenPos.isSynthetic) = false := by
      rw [← Bool.not_or, hrecord, Bool.not_true]
    by_cases hunset : source.inliningId < 0
    · simp [hnone, hunset]
    by_cases hsame : (id : ℤ) = source.inliningId
    · simp [hnone, ← hsame]
    · have hne : source.inliningId.toNat ≠ id := by omega
      simp [hnone, hrecord, hunset, hsame, hne, not_lt.mp hunset]
  · have hnone : (!source.tokenPos.isReal && !source.tokenPos.isSynthetic) = true := by
      rw [← Bool.not_or, Bool.eq_false_of_not_eq_true hrecord, Bool.not_false]
    simp [hnone, hrecord]

theorem enters_lt (hid : id < 2 ^ 31) (hsource : source.inliningId < 2 ^ 31) :
    source.enters id < 2 ^ 31 := by
  rw [InstructionSource.enters]
  split
  · omega
  · exact hid

/-- **Another chain**: the pops and pushes in the buffer, after a flush. -/
theorem startInliningInterval_spec (h : ctx.Holds nulls id b)
    (hsource : source.inliningId < 2 ^ 31) : ∃ b', ctx.startInliningInterval b source = some b' ∧
      ctx.Holds nulls (source.enters id) b' ∧ Grows b b' ∧
      b'.bufferedPc = b.bufferedPc ∧
      (source.enters id = id ∧ b' = b ∨ source.enters id ≠ id ∧ ctx.Moves b b') := by
  obtain ⟨pos, hbuffered⟩ := h.buffered
  rw [startInliningInterval_eq hbuffered]
  by_cases hsame : source.enters id = id
  · rw [if_pos hsame, hsame]
    exact ⟨b, rfl, h, .refl, rfl, .inl ⟨rfl, rfl⟩⟩
  obtain ⟨b1, heq, hholds, hbuffered1, hmoves⟩ := h.flushUnlessStackTracesOnly
  obtain ⟨pos', henter⟩ := ctx.enter_frames (source.enters id)
  rw [if_neg hsame, heq]
  refine ⟨_, rfl, ⟨hholds.tracks.rebuffer _ _, ⟨pos', ?_⟩, enters_lt h.id_lt hsource,
    hholds.written, hholds.nonneg, hholds.le, hholds.pc_lt⟩, hmoves.toGrows.rebuffer _ _,
    hmoves.bufferedPc, .inr ⟨hsame, ?_⟩⟩
  · rw [← henter, ← hbuffered, ← hbuffered1]
  · exact ⟨hmoves.toGrows.rebuffer _ _, hmoves.bufferedPc, hmoves.keeps, hmoves.flushes,
      hmoves.answers⟩

omit [DecidableEq F] in
/-- What is shown stays shown when the position in the buffer and the pc offset change, if nothing
waits or the chain stays. -/
theorem Shows.advance {p : ℤ} {stack : List (F × TokenPosition)} (h : ctx.Shows b p stack)
    (hstream : b'.stream = b.stream) (hfunctions : b'.inlinedFunctions = b.inlinedFunctions)
    (hwritten : b'.writtenPc = b.writtenPc) (hbuffered : b'.buffered = b.buffered)
    (hle : b.bufferedPc ≤ b'.bufferedPc) : ctx.Shows b' p stack := by
  rcases h with ⟨hlt, hanswers⟩ | ⟨htraces, hge, hlt, hstack⟩
  · refine .inl ⟨hlt.trans_eq hwritten.symm, hanswers.grows ⟨?_, ?_⟩⟩
    · rw [hstream]
    · rw [hfunctions]
  · exact .inr ⟨htraces, hwritten.trans_le hge, hlt.trans_le hle, by rw [hbuffered, hstack]⟩

section

variable (h : ctx.Holds nulls id b) (hsource : source.inliningId < 2 ^ 31)

include h hsource

/-- **The end of a range.**  What was shown stays shown, and the buffer has the chain of the
range. -/
theorem endCodeSourceRange_spec (hpc : b.bufferedPc < pcOffset) (hlt31 : pcOffset < 2 ^ 31) :
    ∃ b', ctx.endCodeSourceRange b pcOffset source = some b' ∧
      ctx.Holds nulls (source.enters id) b' ∧ Grows b b' ∧
      b'.bufferedPc = pcOffset ∧ b'.buffered = ctx.frames (source.enters id) source.tokenPos ∧
      (ctx.stackTracesOnly = true → b'.writtenPc = b.writtenPc) ∧
      b'.writtenPc ≤ b.bufferedPc ∧ ∀ p stack, ctx.Shows b p stack → ctx.Shows b' p stack := by
  obtain ⟨b1, hstart, hholds1, hgrows1, hpc1, hcases⟩ :=
    startInliningInterval_spec h hsource
  obtain ⟨pos1, hbuffered1⟩ := hholds1.buffered
  have hkeeps1 : ctx.stackTracesOnly = true → b1.writtenPc = b.writtenPc :=
    hcases.elim (fun hc _ => hc.2 ▸ rfl) fun hc => hc.2.keeps
  have hshows1 : ∀ p stack, ctx.Shows b p stack → ctx.Shows b1 p stack := by
    rcases hcases with ⟨-, rfl⟩ | ⟨-, hmoves⟩
    · exact fun _ _ hshows => hshows
    · exact fun p stack hshows => .inl (hmoves.answers p stack hshows)
  have heq : ctx.endCodeSourceRange b pcOffset source =
      if source.tokenPos = pos1 then some { b1 with bufferedPc := pcOffset }
      else (ctx.flushUnlessStackTracesOnly b1).bind fun b => some { b with
        buffered := bufferChangePosition b.buffered source.tokenPos, bufferedPc := pcOffset } := by
    have hne : pcOffset ≠ b.bufferedPc := hpc.ne'
    simp [endCodeSourceRange, hne, hstart, hbuffered1]
  have hle1 := hholds1.le
  rw [heq]
  by_cases hsame : source.tokenPos = pos1
  · rw [if_pos hsame]
    refine ⟨_, rfl, ⟨hholds1.tracks.rebuffer _ _, ⟨pos1, hbuffered1⟩, hholds1.id_lt,
      hholds1.written, hholds1.nonneg, ?_, hlt31⟩, hgrows1.rebuffer _ _, rfl,
      by rw [hbuffered1, hsame], hkeeps1, hpc1 ▸ hle1, fun p stack hshows => ?_⟩
    · change b1.writtenPc ≤ pcOffset
      omega
    · refine (hshows1 p stack hshows).advance rfl rfl rfl rfl ?_
      change b1.bufferedPc ≤ pcOffset
      omega
  · obtain ⟨b2, hflush, hholds2, hbuffered2, hmoves2⟩ := hholds1.flushUnlessStackTracesOnly
    have hle2 := hholds2.le
    have hpc2 := hmoves2.bufferedPc
    have hchange : bufferChangePosition b2.buffered source.tokenPos =
        ctx.frames (source.enters id) source.tokenPos := by
      rw [hbuffered2, hbuffered1, bufferChangePosition_frames]
    rw [if_neg hsame, hflush]
    refine ⟨_, rfl, ⟨hholds2.tracks.rebuffer _ _, ⟨source.tokenPos, hchange⟩,
      hholds2.id_lt, hholds2.written, hholds2.nonneg, ?_, hlt31⟩,
      (hgrows1.trans hmoves2.toGrows).rebuffer _ _, rfl, hchange, ?_, ?_, fun p stack hshows => ?_⟩
    · change b2.writtenPc ≤ pcOffset
      omega
    · exact fun htraces => (hmoves2.keeps htraces).trans (hkeeps1 htraces)
    · change b2.writtenPc ≤ b.bufferedPc
      omega
    · obtain ⟨hlt, hanswers⟩ := hmoves2.answers p stack (hshows1 p stack hshows)
      exact .inl ⟨hlt, hanswers.grows (Grows.refl.rebuffer _ _)⟩

/-- **A note.**  The offsets up to its own are answered with its chain, and so are those of a range
that waits in the same chain; the other ranges are answered as they were shown. -/
theorem note_spec (hpc : b.bufferedPc ≤ pcOffset) (hlt31 : pcOffset < 2 ^ 31) :
    ∃ b', ctx.note b pcOffset source = some b' ∧
      ctx.Holds nulls (source.enters id) b' ∧ Grows b b' ∧
      b'.bufferedPc = pcOffset ∧ b'.writtenPc = pcOffset ∧
      (∀ p, (if ctx.stackTracesOnly ∨ source.enters id = id then b.writtenPc else b.bufferedPc) ≤
        p →
        p < pcOffset → ctx.Answers b' p (ctx.chain (source.enters id) source.tokenPos)) ∧
      (source.enters id ≠ id → ∀ p stack, ctx.Shows b p stack → ctx.Answers b' p stack) := by
  obtain ⟨b1, hstart, hholds1, hgrows1, hpc1, hcases⟩ :=
    startInliningInterval_spec h hsource
  obtain ⟨pos1, hbuffered1⟩ := hholds1.buffered
  have hwritten1 : b1.writtenPc ≤
      if ctx.stackTracesOnly ∨ source.enters id = id then b.writtenPc else b.bufferedPc := by
    rcases hcases with ⟨hsame, rfl⟩ | ⟨hne, hmoves⟩
    · rw [if_pos (.inr hsame)]
    · cases htraces : ctx.stackTracesOnly with
      | true => rw [if_pos (.inl rfl), hmoves.keeps htraces]
      | false => rw [if_neg (by simp [hne]), hmoves.flushes htraces]
  have hchange : bufferChangePosition b1.buffered source.tokenPos =
      ctx.frames (source.enters id) source.tokenPos := by
    rw [hbuffered1, bufferChangePosition_frames]
  have hle1 := hholds1.le
  let b2 : Builder F := { b1 with
    buffered := bufferChangePosition b1.buffered source.tokenPos, bufferedPc := pcOffset }
  have hholds2 : ctx.Holds nulls (source.enters id) b2 := by
    refine ⟨hholds1.tracks.rebuffer _ _, ⟨source.tokenPos, hchange⟩, hholds1.id_lt,
      hholds1.written, hholds1.nonneg, ?_, hlt31⟩
    change b1.writtenPc ≤ pcOffset
    omega
  obtain ⟨b', hflush, hflushed, hholds'⟩ := hholds2.flush
  refine ⟨b', ?_, hholds', (hgrows1.rebuffer _ _).trans hflushed.toGrows, hflushed.bufferedPc,
    hflushed.writtenPc, ?_, ?_⟩
  · rw [note, hstart]
    exact hflush
  · intro p hge hlt
    have hanswers := hflushed.answers p (hwritten1.trans hge) hlt
    change ctx.Answers b' p ((bufferChangePosition b1.buffered source.tokenPos).map ctx.render)
      at hanswers
    rwa [hchange] at hanswers
  · intro hne p stack hshows
    obtain ⟨-, hmoves⟩ := hcases.resolve_left fun hc => hne hc.1
    exact (hmoves.answers p stack hshows).2.grows
      (Grows.refl.rebuffer _ _ |>.trans hflushed.toGrows)

end

/-- **The builder follows the account**: without `stack_traces_only` the range that waits is the
last one, and it is in the buffer. -/
structure Follows (ctx : Context F) (nulls : List (ℤ × ℤ))
    (a : Account) (b : Builder F) : Prop extends ctx.Holds nulls a.id b where
  pc : b.bufferedPc = a.pc
  thrown : ctx.stackTracesOnly = true → b.writtenPc = a.thrown
  settled : ctx.stackTracesOnly = false → a.waiting = none → b.writtenPc = b.bufferedPc
  waiting : ctx.stackTracesOnly = false → ∀ pos ∈ a.waiting,
    b.writtenPc < b.bufferedPc ∧ b.buffered = ctx.frames a.id pos ∧
      ∃ r ∈ a.ranges, r.start < r.stop ∧ r.stop = a.pc ∧ r.id = a.id ∧ r.position = pos

/-- What a call does to what is shown: the new ranges are, and the old ones stay if the call keeps
them.  Otherwise one of them is answered with another chain. -/
structure Step (ctx : Context F) (keeps : Prop) (a a' : Account) (b b' : Builder F) : Prop
    extends Grows b b' where
  subset : a.ranges ⊆ a'.ranges
  shows_new : ∀ r ∈ a'.ranges, r ∈ a.ranges ∨
    ∀ p, r.start ≤ p → p < r.stop → ctx.Shows b' p (ctx.chain r.id r.position)
  shows_old : keeps → ∀ p stack, ctx.Shows b p stack → ctx.Shows b' p stack
  replaces : ¬keeps → ∃ r ∈ a.ranges, ∃ p, r.start ≤ p ∧ p < r.stop ∧
    ∃ stack, stack ≠ ctx.chain r.id r.position ∧ ctx.Answers b' p stack

variable {a : Account}

omit [DecidableEq F] in
/-- A call that does nothing. -/
theorem Step.refl : ctx.Step True a a b b :=
  ⟨.refl, List.Subset.refl _, fun _ hr => .inl hr, fun _ _ _ hshows => hshows,
    fun h => absurd trivial h⟩

section

variable (h : ctx.Follows nulls a b) (hsource : source.inliningId < 2 ^ 31)

include h hsource

theorem Follows.enter : ∃ b', ctx.startInliningInterval b source = some b' ∧
      ctx.Follows nulls (a.enter source) b' ∧ ctx.Step True a (a.enter source) b b' := by
  obtain ⟨b', heq, hholds, -, -, hcases⟩ := startInliningInterval_spec h.toHolds hsource
  refine ⟨b', heq, ?_⟩
  rw [Account.enter]
  rcases hcases with ⟨hsame, rfl⟩ | ⟨hne, hmoves⟩
  · rw [if_pos hsame]
    exact ⟨h, .refl⟩
  rw [if_neg hne]
  refine ⟨⟨hholds, hmoves.bufferedPc.trans h.pc, fun htraces => ?_, fun htraces _ => ?_, ?_⟩,
    hmoves.toGrows, List.Subset.refl _, fun _ hr => .inl hr, ?_,
      fun hfalse => absurd trivial hfalse⟩
  · exact (hmoves.keeps htraces).trans (h.thrown htraces)
  · exact (hmoves.flushes htraces).trans hmoves.bufferedPc.symm
  · exact fun _ pos hpos => absurd hpos (Option.not_mem_none pos)
  · exact fun _ p stack hshows => .inl (hmoves.answers p stack hshows)

variable (hpc : a.pc ≤ pcOffset) (hlt31 : pcOffset < 2 ^ 31)

include hpc hlt31

theorem Follows.endRange : ∃ b', ctx.endCodeSourceRange b pcOffset source = some b' ∧
      ctx.Follows nulls (a.endRange ctx.stackTracesOnly pcOffset source) b' ∧
      ctx.Step True a (a.endRange ctx.stackTracesOnly pcOffset source) b b' := by
  rw [Account.endRange]
  by_cases hempty : pcOffset = a.pc
  · rw [if_pos hempty]
    refine ⟨b, ?_, h, .refl⟩
    rw [endCodeSourceRange, if_pos (hempty.trans h.pc.symm)]
    rfl
  have hlt : b.bufferedPc < pcOffset := by
    have := h.pc
    omega
  obtain ⟨b', heq, hholds, hgrows, hpc', hbuffered', hkeeps, hle, hshows⟩ :=
    endCodeSourceRange_spec h.toHolds hsource hlt hlt31
  have hid : (a.enter source).id = source.enters a.id := by
    rw [Account.enter]
    split
    · rename_i hsame
      exact hsame.symm
    · rfl
  have hthrown : (a.enter source).thrown = a.thrown := by
    rw [Account.enter]
    split <;> rfl
  rw [if_neg hempty]
  refine ⟨b', heq, ⟨?_, hpc', fun htraces => ?_, fun _ hnone => absurd hnone (by simp), ?_⟩,
    hgrows, subset_append_left _ _, ?_, fun _ => hshows, fun hfalse => absurd trivial hfalse⟩
  · rwa [hid]
  · exact ((hkeeps htraces).trans (h.thrown htraces)).trans hthrown.symm
  · rintro htraces pos ⟨⟩
    refine ⟨by omega, by rw [hbuffered', ← hid], ⟨a.pc, pcOffset, source.enters a.id, _⟩, ?_, ?_,
      rfl, hid.symm, rfl⟩
    · rw [htraces]
      simp
    · change a.pc < pcOffset
      omega
  · intro r hr
    refine (mem_append.mp hr).imp_right fun hr p hge hlt => ?_
    cases htraces : ctx.stackTracesOnly with
    | true => simp [htraces] at hr
    | false =>
      obtain rfl : r = ⟨a.pc, pcOffset, source.enters a.id, source.tokenPos⟩ := by
        simpa [htraces] using hr
      have := h.pc
      refine .inr ⟨htraces, ?_, hlt.trans_eq hpc'.symm, by rw [hbuffered', chain]⟩
      change a.pc ≤ p at hge
      omega

theorem Follows.note : ∃ b', ctx.note b pcOffset source = some b' ∧
      ctx.Follows nulls (a.note ctx.stackTracesOnly pcOffset source) b' ∧
      b'.writtenPc = pcOffset ∧
      ctx.Step (ctx.KeepsWaiting a source) a (a.note ctx.stackTracesOnly pcOffset source) b b' := by
  obtain ⟨b', heq, hholds, hgrows, hpc', hwritten', hanswers, hother⟩ :=
    note_spec h.toHolds hsource (h.pc.trans_le hpc) hlt31
  have hle := h.le
  have hpcs := h.pc
  -- an offset that waits in the same chain
  have hreplaced : ∀ p, source.enters a.id = a.id → b.writtenPc ≤ p → p < b.bufferedPc →
      ctx.Answers b' p (ctx.chain a.id source.tokenPos) := by
    intro p hsame hge hlt
    rw [if_pos (.inr hsame), hsame] at hanswers
    exact hanswers p hge (by omega)
  refine ⟨b', heq, ⟨hholds, hpc', fun _ => hwritten', fun _ _ => hwritten'.trans hpc'.symm, ?_⟩,
    hwritten', hgrows, subset_append_left _ _, ?_, ?_, ?_⟩
  · exact fun _ pos hpos => absurd hpos (Option.not_mem_none pos)
  · intro r hr
    refine (mem_append.mp hr).imp_right fun hr p hge hlt => ?_
    obtain rfl := mem_singleton.mp hr
    refine .inl ⟨hlt.trans_eq hwritten'.symm, hanswers p ?_ hlt⟩
    change (if ctx.stackTracesOnly = true then a.thrown else a.pc) ≤ p at hge
    cases htraces : ctx.stackTracesOnly with
    | true =>
      rw [htraces, if_pos rfl] at hge
      rw [if_pos (.inl rfl), h.thrown htraces]
      exact hge
    | false =>
      rw [htraces, if_neg (by decide)] at hge
      split <;> omega
  · intro hkeeps p stack hshows
    by_cases hsame : source.enters a.id = a.id
    · rcases hshows with ⟨hlt, hanswered⟩ | ⟨htraces, hge, hlt, hstack⟩
      · exact .inl ⟨by omega, hanswered.grows hgrows⟩
      refine .inl ⟨by omega, ?_⟩
      cases hwaiting : a.waiting with
      | none =>
        have := h.settled htraces hwaiting
        omega
      | some pos =>
        obtain ⟨-, hbuffered, -⟩ := h.waiting htraces pos hwaiting
        have hchain := (ctx.chain_inj).mpr (hkeeps htraces hsame pos hwaiting)
        rw [← hstack, hbuffered, ← chain, ← hchain]
        exact hreplaced p hsame hge hlt
    · refine .inl ⟨?_, hother hsame p stack hshows⟩
      rcases hshows with ⟨hlt, -⟩ | ⟨-, -, hlt, -⟩ <;> omega
  · intro hreplaces
    simp only [KeepsWaiting, not_forall] at hreplaces
    obtain ⟨htraces, hsame, pos, hwaiting, hne⟩ := hreplaces
    obtain ⟨hlt, -, r, hr, hnonempty, hstop, hid, hpos⟩ := h.waiting htraces pos hwaiting
    refine ⟨r, hr, b.bufferedPc - 1, by omega, by omega, _, ?_,
      hreplaced (b.bufferedPc - 1) hsame (by omega) (by omega)⟩
    rw [hid, hpos, Ne, chain_inj]
    exact hne

end

omit [DecidableEq F] in
/-- A null check changes only the stream. -/
theorem Follows.nullCheck (h : ctx.Follows nulls a b)
    (hb : b' = { b with stream := b'.stream }) {nulls' : List (ℤ × ℤ)}
    (htracks : ctx.Tracks nulls' b') : ctx.Follows nulls' a b' := by
  rw [hb] at htracks ⊢
  exact ⟨⟨htracks, h.buffered, h.id_lt, h.written, h.nonneg, h.le, h.pc_lt⟩, h.pc, h.thrown,
    h.settled, h.waiting⟩

omit [DecidableEq F] in
theorem Step.nullCheck {keeps : Prop} {a' : Account} {b0 : Builder F}
    (h : ctx.Step keeps a a' b0 b) (hb : b' = { b with stream := b'.stream })
    (hgrows : Grows b b') : ctx.Step keeps a a' b0 b' := by
  have hshows : ∀ p stack, ctx.Shows b p stack → ctx.Shows b' p stack := by
    intro p stack hshows
    rw [Shows]
    rw [hb] at hgrows ⊢
    exact hshows.imp_left fun hanswers => ⟨hanswers.1, hanswers.2.grows hgrows⟩
  refine ⟨h.toGrows.trans hgrows, h.subset, ?_, ?_, ?_⟩
  · exact fun r hr => (h.shows_new r hr).imp_right fun hnew p hge hlt => hshows p _ (hnew p hge hlt)
  · exact fun hkeeps p stack hold => hshows p stack (h.shows_old hkeeps p stack hold)
  · intro hreplaces
    obtain ⟨r, hr, p, hge, hlt, stack, hne, hanswers⟩ := h.replaces hreplaces
    exact ⟨r, hr, p, hge, hlt, stack, hne, hanswers.grows hgrows⟩

/-- **One call of the builder.** -/
theorem call_spec (h : ctx.Follows nulls a b) {c : Call} (hc : c.Typed) (hpc : a.pc ≤ c.pcOffset) :
    ∃ b', ctx.call b c = some b' ∧
      ctx.Follows (nulls ++ c.nullCheck) (a.next ctx.stackTracesOnly c) b' ∧
      ctx.Step (ctx.Keeps a c) a (a.next ctx.stackTracesOnly c) b b' := by
  have hnil : ∀ {b' : Builder F} {a' : Account}, ctx.Follows nulls a' b' →
      ctx.Follows (nulls ++ []) a' b' := by
    intro b' a' hfollows
    rwa [append_nil]
  cases c with
  | startInliningInterval _ source | beginCodeSourceRange _ source =>
    obtain ⟨b', heq, hfollows, hstep⟩ := h.enter hc.source
    exact ⟨b', heq, hnil hfollows, hstep⟩
  | endCodeSourceRange pcOffset source =>
    obtain ⟨b', heq, hfollows, hstep⟩ := h.endRange hc.source hpc hc.offset
    exact ⟨b', heq, hnil hfollows, hstep⟩
  | noteDescriptor kind pcOffset source =>
    rw [call, Account.next, Keeps]
    by_cases hthrow : kind.canThrow
    · obtain ⟨b', heq, hfollows, -, hstep⟩ := h.note hc.source hpc hc.offset
      simp only [hthrow, if_true, true_imp_iff]
      exact ⟨b', heq, hnil hfollows, hstep⟩
    · simp only [hthrow, Bool.false_eq_true, if_false, false_imp_iff]
      exact ⟨b, rfl, hnil h, .refl⟩
  | noteNullCheck pcOffset source nameIndex =>
    obtain ⟨b1, heq1, hfollows1, hwritten1, hstep1⟩ := h.note hc.source hpc hc.offset
    obtain ⟨hgrows2, htracks2⟩ :=
      writeNullCheck_spec hfollows1.tracks (hc.name _ (mem_singleton_self _))
    rw [hwritten1] at htracks2
    refine ⟨writeNullCheck b1 nameIndex, ?_, hfollows1.nullCheck rfl htracks2,
      hstep1.nullCheck rfl hgrows2⟩
    change ctx.note b pcOffset source = some b1 at heq1
    rw [call, heq1]
    rfl

/-- All ranges are shown. -/
def ShowsAll (ctx : Context F) (a : Account) (b : Builder F) : Prop :=
  ∀ r ∈ a.ranges, ∀ p, r.start ≤ p → p < r.stop → ctx.Shows b p (ctx.chain r.id r.position)

/-- No offset of a range is answered with another chain. -/
def Faithful (ctx : Context F) (a : Account) (b : Builder F) : Prop :=
  ∀ r ∈ a.ranges, ∀ p, r.start ≤ p → p < r.stop → ∀ stack, ctx.Answers b p stack →
    stack = ctx.chain r.id r.position

/-- The null checks of the calls. -/
def nullChecks (cs : List Call) : List (ℤ × ℤ) := cs.flatMap Call.nullCheck

/-- No call replaces the position of a waiting range. -/
def KeepsAll (ctx : Context F) (a : Account) (cs : List Call) : Prop :=
  Run.Along (fun a c => some (a.next ctx.stackTracesOnly c)) ctx.Keeps a cs

/-- **A run of the builder.**  It follows the account.  If no call replaces what waits, everything
that the account describes is shown; and if one does, an answer differs for good. -/
theorem calls_spec {cs : List Call} (h : ctx.Follows nulls a b) (hcs : ∀ c ∈ cs, c.Typed)
    (hpc : ∀ c ∈ cs, a.pc ≤ c.pcOffset) (hsorted : (cs.map Call.pcOffset).Pairwise (· ≤ ·)) :
    ∃ b', ctx.calls b cs = some b' ∧ ctx.Follows (nulls ++ nullChecks cs)
        (cs.foldl (fun a c => a.next ctx.stackTracesOnly c) a) b' ∧ Grows b b' ∧
      a.ranges ⊆ (cs.foldl (fun a c => a.next ctx.stackTracesOnly c) a).ranges ∧
      (ctx.ShowsAll a b → ctx.KeepsAll a cs →
        ctx.ShowsAll (cs.foldl (fun a c => a.next ctx.stackTracesOnly c) a) b') ∧
      ∀ b'', Grows b' b'' →
        ctx.Faithful (cs.foldl (fun a c => a.next ctx.stackTracesOnly c) a) b'' →
          ctx.KeepsAll a cs := by
  induction cs generalizing nulls a b with
  | nil =>
    refine ⟨b, rfl, ?_, .refl, List.Subset.refl _, fun hshows _ => hshows, fun _ _ _ => trivial⟩
    rwa [nullChecks, flatMap_nil, append_nil]
  | cons c cs ih =>
    obtain ⟨b1, heq1, hfollows1, hstep⟩ :=
      call_spec h (hcs c mem_cons_self) (hpc c mem_cons_self)
    rw [map_cons, pairwise_cons] at hsorted
    have hlater : ∀ d ∈ cs, (a.next ctx.stackTracesOnly c).pc ≤ d.pcOffset := by
      intro d hd
      rcases a.pc_next ctx.stackTracesOnly c with heq | heq
      · rw [heq]
        exact hpc d (mem_cons_of_mem c hd)
      · rw [heq]
        exact hsorted.1 _ (mem_map_of_mem hd)
    obtain ⟨b', heq', hfollows', hgrows', hsubset, hshows, hfaithful⟩ :=
      ih hfollows1 (fun d hd => hcs d (mem_cons_of_mem c hd)) hlater hsorted.2
    refine ⟨b', ?_, ?_, hstep.toGrows.trans hgrows', List.Subset.trans hstep.subset hsubset, ?_, ?_⟩
    · rw [calls, heq1]
      exact heq'
    · rwa [nullChecks, flatMap_cons, ← append_assoc]
    · rintro hshown ⟨hkeeps, hrest⟩
      refine hshows (fun r hr p hge hlt => ?_) (hrest _ rfl)
      rcases hstep.shows_new r hr with hold | hnew
      · exact hstep.shows_old hkeeps p _ (hshown r hold p hge hlt)
      · exact hnew p hge hlt
    · intro b'' hgrows'' hfaith
      refine ⟨?_, ?_⟩
      · by_contra hreplaces
        obtain ⟨r, hr, p, hge, hlt, stack, hne, hanswers⟩ := hstep.replaces hreplaces
        exact hne (hfaith r (hsubset (hstep.subset hr)) p hge hlt stack
          (hanswers.grows (hgrows'.trans hgrows'')))
      · rintro a' ⟨⟩
        exact hfaithful b'' hgrows'' hfaith

section

omit [DecidableEq F]

theorem follows_new : ctx.Follows [] .new (new : Builder F) := by
  have hstart : ctx.start = ⟨0, [ctx.render ⟨0, initialPosition⟩]⟩ := by
    rw [start, render, serialize_initialPosition]
  have hstands : ctx.Stands [⟨0, initialPosition⟩] := ⟨0, initialPosition, rfl, by decide⟩
  have htracks : ctx.Tracks [] (new : Builder F) := by
    refine ⟨fun functions _ p _ => ?_, fun p _ => Bytecode.gives_nil, nodup_nil,
      fun f hf => absurd hf not_mem_nil⟩
    have hnil : Bytecode.Gives Item.view (inlinedStep ctx functions p) ctx.start []
        (.inl ctx.start) := Bytecode.gives_nil
    rwa [hstart] at hnil ⊢
  have hpc : (0 : ℤ) < 2 ^ 31 := by decide
  exact ⟨⟨htracks, ⟨initialPosition, rfl⟩, by decide, hstands, le_rfl, le_rfl, hpc⟩, rfl,
    fun _ => rfl, fun _ _ => rfl, fun _ pos hpos => absurd hpos (Option.not_mem_none pos)⟩

/-- The bytes are those of operations that fit. -/
theorem encode_eq_some {items : List Item} {map : List UInt8} :
    ctx.encode items = some map ↔ (∀ i ∈ items, i.Fits) ∧
      items.flatMap (Item.bytes ctx.dwarfStackTracesMode) = map := by
  rw [encode]
  split_ifs with hfits
  · rw [and_iff_right hfits, Option.some_inj]
  · exact ⟨fun h => absurd h (by simp), fun h => absurd h.1 hfits⟩

variable {map : List UInt8} (hmap : ctx.encode b.stream = some map)

include hmap

/-- What the stream answers is what the reader gets. -/
theorem Answers.getInlinedFunctionsAt {p : ℤ} {stack : List (F × TokenPosition)}
    (h : ctx.Answers b p stack) :
    getInlinedFunctionsAt ctx map b.inlinedFunctions (ctx.inlineIdToFunction 0) p =
      some stack := by
  obtain ⟨hfits, rfl⟩ := encode_eq_some.mp hmap
  have hinterpret := interpret_of_gives ctx.dwarfStackTracesMode
    (h b.inlinedFunctions prefix_rfl) hfits
  rw [start] at hinterpret
  rw [CodeSourceMap.getInlinedFunctionsAt, hinterpret]
  rfl

theorem Tracks.getNullCheckNameIndexAt (h : ctx.Tracks nulls b) {n : ℤ × ℤ} (hn : n ∈ nulls) :
    ∃ m ∈ nulls, m.1 = n.1 ∧ getNullCheckNameIndexAt ctx map n.1 = some m.2 := by
  obtain ⟨hfits, rfl⟩ := encode_eq_some.mp hmap
  have hinterpret := interpret_of_gives ctx.dwarfStackTracesMode
    (h.nullChecks n.1 (.inr (mem_map_of_mem hn))) hfits
  rw [recorded] at hinterpret
  cases hfind : nulls.find? fun x => x.1 = n.1 with
  | none => exact absurd (find?_eq_none.mp hfind n hn) (by simp)
  | some m =>
    rw [hfind] at hinterpret
    refine ⟨m, mem_of_find?_eq_some hfind, by simpa using find?_some hfind, ?_⟩
    rw [CodeSourceMap.getNullCheckNameIndexAt, hinterpret]
    rfl

end

/-- Every offset of a described range is read as the chain in effect there, and every null check as
its name. -/
def ReadsBack (ctx : Context F) (cs : List Call) (map : List UInt8) (functions : List F) : Prop :=
  (∀ r ∈ (ctx.account cs).ranges, ∀ p, r.start ≤ p → p < r.stop →
    getInlinedFunctionsAt ctx map functions (ctx.inlineIdToFunction 0) p =
      some (ctx.chain r.id r.position)) ∧
  ∀ n ∈ nullChecks cs, getNullCheckNameIndexAt ctx map n.1 = some n.2

/-- The builder after the last flush has the operations. -/
theorem operations_of_finished {cs : List Call} (h : ctx.finished cs = some b) :
    ctx.operations cs = b.stream := by
  rw [operations, h]
  rfl

/-- The map is that of the operations. -/
theorem build_of_finished {cs : List Call} (h : ctx.finished cs = some b) :
    ctx.build cs = (ctx.encode b.stream).map fun map => (map, b.inlinedFunctions) := by
  rw [build, h]
  cases hmap : ctx.encode b.stream <;> simp [hmap]

/-- **Reading back.**  There is a map, and it is read back, exactly when the operations that are
written fit, no note replaces the position of a range that waits in its chain, and null checks at
one offset have one name. -/
theorem readsBack_iff {cs : List Call} (hsorted : (0 :: cs.map Call.pcOffset).Pairwise (· ≤ ·))
    (htyped : ∀ c ∈ cs, c.Typed) :
    (∃ map functions, ctx.build cs = some (map, functions) ∧ ctx.ReadsBack cs map functions) ↔
      (∀ i ∈ ctx.operations cs, i.Fits) ∧ ctx.KeepsAll .new cs ∧
        ∀ m ∈ nullChecks cs, ∀ n ∈ nullChecks cs, m.1 = n.1 → m.2 = n.2 := by
  rw [pairwise_cons] at hsorted
  have hnew : ctx.Follows [] .new new := follows_new
  obtain ⟨b, hcalls, hfollows, -, -, hshows, hfaithful⟩ :=
    calls_spec hnew htyped (fun c hc => hsorted.1 _ (mem_map_of_mem hc)) hsorted.2
  obtain ⟨b', hflush, hholds, -, hmoves⟩ := hfollows.toHolds.flushUnlessStackTracesOnly
  have hfinished : ctx.finished cs = some b' := by
    rw [finished, hcalls]
    exact hflush
  have hbuild := build_of_finished hfinished
  rw [operations_of_finished hfinished]
  constructor
  · rintro ⟨map, functions, heq, hranges, hnulls⟩
    rw [hbuild, Option.map_eq_some_iff] at heq
    obtain ⟨map, hmap, ⟨⟩⟩ := heq
    refine ⟨(encode_eq_some.mp hmap).1, hfaithful b' hmoves.toGrows ?_, fun m hm n hn hoffset => ?_⟩
    · intro r hr p hge hlt stack hanswers
      have hread := hanswers.getInlinedFunctionsAt hmap
      exact Option.some.inj (hread.symm.trans (hranges r hr p hge hlt))
    · have hm' := hnulls m hm
      rw [hoffset, hnulls n hn] at hm'
      exact (Option.some.inj hm').symm
  · rintro ⟨hfits, hkeeps, hnames⟩
    have hmap : ctx.encode b'.stream = some _ := encode_eq_some.mpr ⟨hfits, rfl⟩
    refine ⟨_, b'.inlinedFunctions, by rw [hbuild, hmap]; rfl, fun r hr p hge hlt => ?_,
      fun n hn => ?_⟩
    · have hshown := hshows (fun r hr => absurd hr not_mem_nil) hkeeps r hr p hge hlt
      exact (hmoves.answers p _ hshown).2.getInlinedFunctionsAt hmap
    · obtain ⟨m, hm, hoffset, hread⟩ := hholds.tracks.getNullCheckNameIndexAt hmap hn
      rw [hread, hnames m hm n hn hoffset]

end Context

/-- A function that is inlined at position 40; a function is given by its id. -/
def oneCallee : Context ℕ where
  stackTracesOnly := false
  precompiledMode := false
  dwarfStackTracesMode := false
  callerInlineId _ := 0
  inlineIdToTokenPos _ := 40
  inlineIdToFunction id := id
  location _ _ := none
  caller_lt _ h := h

/-- A range of the root, and a null check in the callee. -/
def inlinedCheck : List Call := [.endCodeSourceRange 4 ⟨5, 0⟩, .noteNullCheck 9 ⟨7, 1⟩ 3]

theorem readsBack_inlinedCheck : (∀ c ∈ inlinedCheck, c.Typed) ∧ ∃ map functions,
    oneCallee.build inlinedCheck = some (map, functions) ∧
      oneCallee.ReadsBack inlinedCheck map functions := by
  have htyped : ∀ c ∈ inlinedCheck, c.Typed := by
    simp only [inlinedCheck, mem_cons, not_mem_nil, or_false, forall_eq_or_imp, forall_eq]
    exact ⟨⟨by decide, by decide, by decide⟩, ⟨by decide, by decide, by decide⟩⟩
  refine ⟨htyped, (readsBack_iff (by decide) htyped).mpr ⟨by decide, ⟨trivial, ?_⟩, by decide⟩⟩
  rintro a ⟨⟩
  refine ⟨fun _ hsame => absurd hsame (by decide), ?_⟩
  rintro a ⟨⟩
  trivial

/-- A range of the root that waits when a call of the root is noted. -/
def replacing : List Call := [.endCodeSourceRange 3 ⟨5, 0⟩, .noteDescriptor .runtimeCall 5 ⟨6, 0⟩]

/-- The range has the position 5, and is read with that of the note. -/
theorem read_replacing : ∃ map functions, oneCallee.build replacing = some (map, functions) ∧
    ⟨0, 3, 0, 5⟩ ∈ (oneCallee.account replacing).ranges ∧
    getInlinedFunctionsAt oneCallee map functions 0 2 = some [(0, 6)] :=
  ⟨[16, 193, 233], [], by decide +kernel, mem_cons_self, by decide +kernel⟩

end CodeSourceMap
