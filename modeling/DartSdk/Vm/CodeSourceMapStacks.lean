import DartSdk.Vm.CodeSourceMap

/-!
# Vm/CodeSourceMapStacks — the stack of an inlining id

A stack is determined by its top: below an inline id stands its caller, at the position of the call.
`Context.frames` is the stack of an id with a position in its function — the inlining chain from the
outermost function on.

* `enter_frames` — the pops and pushes for another id lead to the stack of that id;
* `take_frames` — two stacks with the same id at an index are the same below it.
-/

namespace CodeSourceMap

open List

namespace Context

variable {F : Type} (ctx : Context F)

/-- The frames below an id. -/
def callers : ℕ → ℕ → List Frame
  | 0, _ => []
  | rounds + 1, id =>
    if id = 0 then []
    else callers rounds (ctx.callerInlineId id) ++
      [⟨ctx.callerInlineId id, ctx.inlineIdToTokenPos (id - 1)⟩]

/-- **The inlining chain** of an id, with the position in its function. -/
def frames (id : ℕ) (pos : TokenPosition) : List Frame := ctx.callers id id ++ [⟨id, pos⟩]

theorem callers_rounds {id : ℕ} :
    ∀ rounds, id ≤ rounds → ctx.callers rounds id = ctx.callers id id := by
  induction id using Nat.strong_induction_on with
  | _ id ih =>
  intro rounds hle
  rcases Nat.eq_zero_or_pos id with rfl | hpos
  · cases rounds <;> rfl
  have hlt := ctx.caller_lt id hpos
  obtain ⟨n, rfl⟩ := Nat.exists_eq_succ_of_ne_zero hpos.ne'
  obtain ⟨m, rfl⟩ := Nat.exists_eq_succ_of_ne_zero (Nat.ne_of_gt (hpos.trans_le hle))
  rw [Nat.succ_eq_add_one, Nat.succ_eq_add_one, callers, callers,
    ih _ hlt m (by omega), ih _ hlt n (by omega)]

/-- The frames below an id are the chain of its caller. -/
theorem callers_eq {id : ℕ} (hid : 0 < id) :
    ctx.callers id id = ctx.frames (ctx.callerInlineId id) (ctx.inlineIdToTokenPos (id - 1)) := by
  have hlt := ctx.caller_lt id hid
  obtain ⟨n, rfl⟩ := Nat.exists_eq_succ_of_ne_zero hid.ne'
  rw [callers, if_neg (by omega), ctx.callers_rounds n (by omega)]
  rfl

variable {ctx} {id : ℕ} {pos : TokenPosition}

@[simp] theorem getLast?_frames : (ctx.frames id pos).getLast? = some ⟨id, pos⟩ := by
  simp [frames]

@[simp] theorem frames_ne_nil : ctx.frames id pos ≠ [] := by
  simp [frames]

theorem bufferChangePosition_frames (pos' : TokenPosition) :
    bufferChangePosition (ctx.frames id pos) pos' = ctx.frames id pos' := by
  simp [bufferChangePosition, frames]

/-- What holds of the top, and of each caller at its call, holds of the chain. -/
theorem forall_frames {P : Frame → Prop} (htop : P ⟨id, pos⟩) (hcall : ∀ id' ≤ id, 0 < id' →
      P ⟨ctx.callerInlineId id', ctx.inlineIdToTokenPos (id' - 1)⟩) :
    ∀ f ∈ ctx.frames id pos, P f := by
  induction id using Nat.strong_induction_on generalizing pos with
  | _ id ih =>
  intro f hf
  rcases mem_append.mp hf with hf | hf
  · rcases Nat.eq_zero_or_pos id with rfl | hpos
    · exact absurd hf not_mem_nil
    · have hlt := ctx.caller_lt id hpos
      rw [callers_eq ctx hpos] at hf
      exact ih _ hlt (hcall id le_rfl hpos) (fun id' hle => hcall id' (hle.trans hlt.le)) f hf
  · rwa [mem_singleton.mp hf]

/-- The root is at the bottom. -/
theorem frames_root (id : ℕ) (pos : TokenPosition) :
    ∃ pos', (ctx.frames id pos)[0]? = some ⟨0, pos'⟩ := by
  induction id using Nat.strong_induction_on generalizing pos with
  | _ id ih =>
  rcases Nat.eq_zero_or_pos id with rfl | hpos
  · exact ⟨pos, rfl⟩
  obtain ⟨pos', hroot⟩ := ih _ (ctx.caller_lt id hpos) (ctx.inlineIdToTokenPos (id - 1))
  refine ⟨pos', ?_⟩
  rw [frames, callers_eq ctx hpos, getElem?_append_left, hroot]
  exact length_pos_iff.mpr frames_ne_nil

/-- **Below a frame are the callers of its id.** -/
theorem take_frames {index : ℕ} {f : Frame} (h : (ctx.frames id pos)[index]? = some f) :
    (ctx.frames id pos).take index = ctx.callers f.id f.id := by
  induction id using Nat.strong_induction_on generalizing pos with
  | _ id ih =>
  rcases lt_trichotomy index (ctx.callers id id).length with hlt | rfl | hgt
  · have hpos : 0 < id := by
      refine Nat.pos_of_ne_zero ?_
      rintro rfl
      exact absurd hlt (Nat.not_lt_zero _)
    rw [frames, getElem?_append_left hlt, callers_eq ctx hpos] at h
    rw [frames, take_append_of_le_length hlt.le, callers_eq ctx hpos]
    exact ih _ (ctx.caller_lt id hpos) h
  · rw [frames, getElem?_append_right le_rfl, Nat.sub_self] at h
    obtain rfl : _ = f := by simpa using h
    rw [frames, take_left]
  · rw [getElem?_eq_none] at h
    · exact absurd h (by simp)
    · simp only [frames, length_append, length_singleton]
      omega

theorem isOnStack_iff {stack : List Frame} : isOnStack stack id = true ↔
    ∃ f ∈ stack, f.id = id := by
  simp [isOnStack]

theorem rdropWhile_frames {parent : ℕ} (h : isOnStack (ctx.frames id pos) parent = true) :
    ∃ pos', ((ctx.frames id pos).rdropWhile fun f => f.id ≠ parent) = ctx.frames parent pos' := by
  induction id using Nat.strong_induction_on generalizing pos with
  | _ id ih =>
  by_cases heq : id = parent
  · subst heq
    refine ⟨pos, ?_⟩
    rw [frames, rdropWhile_concat_neg]
    simp
  have hid : 0 < id := by
    refine Nat.pos_of_ne_zero ?_
    rintro rfl
    obtain ⟨f, hf, rfl⟩ := isOnStack_iff.mp h
    obtain rfl := mem_singleton.mp hf
    exact heq rfl
  have hcallers : isOnStack (ctx.callers id id) parent = true := by
    obtain ⟨f, hf, rfl⟩ := isOnStack_iff.mp h
    refine isOnStack_iff.mpr ⟨f, ?_, rfl⟩
    refine (mem_append.mp hf).resolve_right fun hf => heq ?_
    rw [mem_singleton.mp hf]
  rw [callers_eq ctx hid] at hcallers
  obtain ⟨pos', hdrop⟩ := ih _ (ctx.caller_lt id hid) hcallers
  refine ⟨pos', ?_⟩
  rw [frames, rdropWhile_concat_pos _ _ _ (by simpa using heq), callers_eq ctx hid, hdrop]

/-- One push of `enter`. -/
def pushCallee (ctx : Context F) (stack : List Frame) (callee : ℕ) : List Frame :=
  bufferPush (bufferChangePosition stack (ctx.inlineIdToTokenPos (callee - 1))) callee

theorem pushCallee_frames (hid : 0 < id) :
    ctx.pushCallee (ctx.frames (ctx.callerInlineId id) pos) id = ctx.frames id initialPosition := by
  rw [pushCallee, bufferChangePosition_frames, bufferPush, ← callers_eq ctx hid]
  rfl

/-- The walk to the first caller on the stack and back: it is on the stack, and the pushes from its
chain lead to a chain of the id. -/
theorem commonParent_spec {stack : List Frame} (hroot : isOnStack stack 0 = true) {rounds : ℕ}
    (hle : id ≤ rounds) :
    isOnStack stack (ctx.commonParent stack rounds id) = true ∧ ∀ pos, ∃ pos',
        (ctx.toPush (ctx.commonParent stack rounds id) rounds id).foldl ctx.pushCallee
          (ctx.frames (ctx.commonParent stack rounds id) pos) = ctx.frames id pos' := by
  induction rounds generalizing id with
  | zero =>
    obtain rfl := Nat.le_zero.mp hle
    exact ⟨hroot, fun pos => ⟨pos, rfl⟩⟩
  | succ rounds ih =>
    by_cases hon : isOnStack stack id = true
    · rw [commonParent, if_pos hon, toPush, if_pos rfl]
      exact ⟨hon, fun pos => ⟨pos, rfl⟩⟩
    have hid : 0 < id := by
      refine Nat.pos_of_ne_zero ?_
      rintro rfl
      exact hon hroot
    have hlt := ctx.caller_lt id hid
    have hcaller : ctx.callerInlineId id ≤ rounds := by omega
    obtain ⟨hparent, hpush⟩ := ih hcaller
    rw [commonParent, if_neg hon, toPush, if_neg]
    · refine ⟨hparent, fun pos => ⟨initialPosition, ?_⟩⟩
      obtain ⟨pos', hpushed⟩ := hpush pos
      rw [List.foldl_append, hpushed]
      exact pushCallee_frames hid
    · rintro heq
      rw [← heq] at hparent
      exact hon hparent

/-- **The pops and pushes lead to the chain of the new id.** -/
theorem enter_frames (inlineId : ℕ) :
    ∃ pos', ctx.enter (ctx.frames id pos) inlineId = ctx.frames inlineId pos' := by
  have hroot : isOnStack (ctx.frames id pos) 0 = true := by
    obtain ⟨pos', hroot⟩ := ctx.frames_root id pos
    exact isOnStack_iff.mpr ⟨_, mem_of_getElem? hroot, rfl⟩
  obtain ⟨hparent, hpush⟩ := ctx.commonParent_spec hroot (le_refl inlineId)
  obtain ⟨pos1, hdrop⟩ := rdropWhile_frames hparent
  obtain ⟨pos', hpushed⟩ := hpush pos1
  refine ⟨pos', ?_⟩
  rw [enter, hdrop]
  exact hpushed

end Context

end CodeSourceMap
