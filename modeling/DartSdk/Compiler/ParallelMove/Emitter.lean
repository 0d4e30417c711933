import DartSdk.Compiler.ParallelMove.Resolver

/-!
# Compiler/ParallelMove/Emitter — scratch locations while a schedule is emitted

The emitter may clobber a location that no operation from the current one on reads, and that a later
move writes.  Two states that differ there only, stay so until that move, and agree from then on:
**a clobbered scratch location is not seen at the end** (`execSchedule_write_scratch`).
-/

namespace ParallelMove

open List Function

variable {C P V : Type*} {p : P} {σ τ : P → V}

theorem value_eq [Inhabited V] {const : C → V} {l : Location C P} (h : ∀ q ≠ p, σ q = τ q)
    (hl : l ≠ .place p) : l.value const σ = l.value const τ := by
  cases l with
  | place q => exact h q fun hq => hl (congrArg _ hq)
  | _ => rfl

variable [DecidableEq P]

theorem write_eq {l : Location C P} {v : V} {q : P} (h : σ q = τ q) :
    l.write σ v q = l.write τ v q := by
  cases l with
  | place r => simp [Location.write, update_apply, h]
  | _ => exact h

variable [DecidableEq C]

/-- The operation reads the location: as its source, or as a side of a swap. -/
def Op.uses (op : Op C P) (loc : Location C P) : Bool :=
  op.operands.src = loc || (op.kind = .swap && op.operands.dest = loc)

/-- `ParallelMoveEmitter::IsScratchLocation` at the position `currentMove` of a schedule. -/
def isScratchLocation (schedule : List (Op C P)) (currentMove : ℕ) (loc : Location C P) : Bool :=
  !(schedule.drop currentMove).any (·.uses loc) &&
    (schedule.drop (currentMove + 1)).any fun op => op.kind = .move && op.operands.dest = loc

variable [Inhabited V] {const : C → V} {op : Op C P}

/-- An operation that does not read `p` does not spread a difference at `p`, … -/
theorem exec_eq (h : ∀ q ≠ p, σ q = τ q) (huse : op.uses (.place p) = false) {q : P} (hq : q ≠ p) :
    op.exec const σ q = op.exec const τ q := by
  simp only [Op.uses, Bool.or_eq_false_iff, decide_eq_false_iff_not, Bool.and_eq_false_imp,
    decide_eq_true_eq] at huse
  obtain ⟨hsrc, hdest⟩ := huse
  have hvalue : op.operands.src.value const σ = _ := value_eq h hsrc
  cases hkind : op.kind with
  | nop => simpa [Op.exec, hkind] using h q hq
  | move =>
    simp only [Op.exec, hkind, hvalue]
    exact write_eq (h q hq)
  | swap =>
    simp only [Op.exec, hkind, hvalue, value_eq h (hdest hkind)]
    exact write_eq (write_eq (h q hq))

/-- … and a move to `p` ends it. -/
theorem exec_move_eq (h : ∀ q ≠ p, σ q = τ q) (huse : op.uses (.place p) = false)
    (hkind : op.kind = .move) (hdest : op.operands.dest = .place p) :
    op.exec const σ = op.exec const τ := by
  funext q
  obtain rfl | hq := eq_or_ne q p
  · have hsrc : op.operands.src ≠ .place q := by
      simpa [Op.uses, hkind] using huse
    simp only [Op.exec, hkind, hdest, Location.write, update_self]
    exact value_eq h hsrc
  · exact exec_eq h huse hq

theorem execSchedule_eq {ops : List (Op C P)} (h : ∀ q ≠ p, σ q = τ q)
    (huse : ∀ op ∈ ops, op.uses (.place p) = false)
    (hwrite : ∃ op ∈ ops, op.kind = .move ∧ op.operands.dest = .place p) :
    execSchedule const ops σ = execSchedule const ops τ := by
  induction ops generalizing σ τ with
  | nil => exact absurd hwrite (by simp)
  | cons op ops ih =>
    obtain ⟨hop, huse⟩ := forall_mem_cons.1 huse
    obtain ⟨hkind, hdest⟩ | hwrite := (exists_mem_cons_iff ..).1 hwrite
    · exact congrArg (execSchedule const ops) (exec_move_eq h hop hkind hdest)
    · exact ih (fun q hq => exec_eq h hop hq) huse hwrite

/-- **A scratch location may be clobbered**, in any schedule: from the current operation on it ends
in the same state, whatever is written to the location before. -/
theorem execSchedule_write_scratch (const : C → V) (schedule : List (Op C P)) (currentMove : ℕ)
    (loc : Location C P) (hscratch : isScratchLocation schedule currentMove loc = true) (v : V)
    (σ : P → V) : execSchedule const (schedule.drop currentMove) (loc.write σ v) =
      execSchedule const (schedule.drop currentMove) σ := by
  cases loc with
  | place p =>
    simp only [isScratchLocation, Bool.and_eq_true, Bool.not_eq_true', any_eq_false, any_eq_true,
      decide_eq_true_eq] at hscratch
    obtain ⟨huse, op, hop, hwrite⟩ := hscratch
    refine execSchedule_eq (fun q hq => update_of_ne hq _ _)
      (fun op hop => Bool.eq_false_iff.2 (huse op hop)) ⟨op, ?_, hwrite⟩
    rw [← drop_drop] at hop
    exact mem_of_mem_drop hop
  | _ => rfl

/-- A register that the second of two moves writes. -/
theorem execSchedule_write_scratch_later :
    let schedule : List (Op ℕ ℕ) := [⟨.move, ⟨.place 0, .place 2⟩⟩, ⟨.move, ⟨.place 1, .place 3⟩⟩]
    resolve [⟨.place 0, .place 2⟩, ⟨.place 1, .place 3⟩] = some schedule ∧
      execSchedule (fun c => c) schedule (Location.write (fun p => p) 9 (.place 1 : Location ℕ ℕ)) =
        execSchedule (fun c => c) schedule fun p => p :=
  ⟨rfl, execSchedule_write_scratch (fun c => c) _ 0 (.place 1) (by decide) 9 fun p => p⟩

end ParallelMove
