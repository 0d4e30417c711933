import DartSdk.Compiler.ParallelMove.Resolver
import DartSdk.Lib.Wp

/-!
# Compiler/ParallelMove/Correct — a schedule performs its parallel move

`performMove` walks a stack of pending moves, each reading the destination of the one below it
(`PendingChain`).  Destinations are distinct, so only the bottom of the stack can block its top:
that is the one cycle a swap resolves, and the place the swap overwrites is the destination of the
next move on the stack, not performed yet.

* `Inv` — every move not performed still reads its value, every performed one has delivered it.
* `resolve_correct` — the schedule computes the parallel assignment.
-/

namespace ParallelMove

open Function List MoveOperands Location

variable {C P V : Type*}

@[simp] theorem Location.isInvalid_noLocation : (noLocation : Location C P).isInvalid = true := rfl

@[simp] theorem Location.isInvalid_place (p : P) : (place p : Location C P).isInvalid = false := rfl

/-! ## The move list, read by index

Moves are changed in place while others refer to them by index. -/

namespace Resolver

variable {i j : ℕ}

section

variable (s : Resolver C P)

include s

@[simp] theorem length_setMove (i : ℕ) (m : MoveOperands C P) :
    (s.setMove i m).moves.length = s.moves.length := by simp [setMove]

@[simp] theorem scheduledOps_setMove (i : ℕ) (m : MoveOperands C P) :
    (s.setMove i m).scheduledOps = s.scheduledOps := rfl

@[simp] theorem length_addOp (k : OpKind) (m : MoveOperands C P) :
    (s.addOp k m).moves.length = s.moves.length := rfl

theorem moveAt_setMove_self (hi : i < s.moves.length)
    (m : MoveOperands C P) : (s.setMove i m).moveAt i = m := by
  simp [moveAt, setMove, getD_eq_getElem?_getD, hi]

theorem moveAt_setMove_of_ne (h : j ≠ i) (m : MoveOperands C P) :
    (s.setMove i m).moveAt j = s.moveAt j := by
  simp [moveAt, setMove, getD_eq_getElem?_getD, getElem?_set_ne h.symm]

/-- A map over the moves that fixes the eliminated move acts index by index. -/
theorem moveAt_map (f : MoveOperands C P → MoveOperands C P)
    (hf : f .eliminated = .eliminated) (i : ℕ) :
    ({ s with moves := s.moves.map f } : Resolver C P).moveAt i = f (s.moveAt i) := by
  simp only [moveAt, getD_eq_getElem?_getD, getElem?_map]
  cases s.moves[i]? with
  | none => exact hf.symm
  | some m => rfl

@[simp] theorem scheduledOps_addMoveToSchedule (i : ℕ) :
    (s.addMoveToSchedule i).scheduledOps = s.scheduledOps ++ [⟨.move, s.moveAt i⟩] := rfl

@[simp] theorem length_addMoveToSchedule (i : ℕ) :
    (s.addMoveToSchedule i).moves.length = s.moves.length := by simp [addMoveToSchedule]

theorem moveAt_addMoveToSchedule_self (hi : i < s.moves.length) :
    (s.addMoveToSchedule i).moveAt i = .eliminated :=
  moveAt_setMove_self _ (by simpa using hi) _

theorem moveAt_addMoveToSchedule_of_ne (h : j ≠ i) :
    (s.addMoveToSchedule i).moveAt j = s.moveAt j :=
  moveAt_setMove_of_ne _ h _

end

variable [DecidableEq C] [DecidableEq P]

@[simp] theorem scheduledOps_addSwapToSchedule (s : Resolver C P) (i : ℕ) :
    (s.addSwapToSchedule i).scheduledOps = s.scheduledOps ++ [⟨.swap, s.moveAt i⟩] := rfl

@[simp] theorem length_addSwapToSchedule (s : Resolver C P) (i : ℕ) :
    (s.addSwapToSchedule i).moves.length = s.moves.length := by simp [addSwapToSchedule]

theorem moveAt_addSwapToSchedule_self (s : Resolver C P) (hi : i < s.moves.length) :
    (s.addSwapToSchedule i).moveAt i = .eliminated := by
  rw [addSwapToSchedule, moveAt_map _ _ rfl, moveAt_setMove_self _ (by simpa using hi)]
  rfl

theorem moveAt_addSwapToSchedule_of_ne (s : Resolver C P) (h : j ≠ i) :
    (s.addSwapToSchedule i).moveAt j
      = renameSrc (s.moveAt i).src (s.moveAt i).dest (s.moveAt j) := by
  rw [addSwapToSchedule, moveAt_map _ _ rfl, moveAt_setMove_of_ne _ h]
  rfl

theorem exists_moveAt_of_find? {s : Resolver C P} {loc : Location C P} {m : MoveOperands C P}
    (h : s.moves.find? (fun x => x.blocks loc) = some m) :
    ∃ j < s.moves.length, s.moveAt j = m ∧ (s.moveAt j).blocks loc = true := by
  have hb : m.blocks loc = true := find?_some (p := fun x : MoveOperands C P => x.blocks loc) h
  obtain ⟨j, hj, rfl⟩ := getElem_of_mem (mem_of_find?_eq_some h)
  have hm : s.moveAt j = s.moves[j] := by simp [moveAt, hj]
  exact ⟨j, hj, hm, hm ▸ hb⟩

theorem not_blocks_of_find? {s : Resolver C P} {loc : Location C P}
    (h : s.moves.find? (fun x => x.blocks loc) = none) (hj : j < s.moves.length) :
    (s.moveAt j).blocks loc = false := by
  have hm : s.moveAt j = s.moves[j] := by simp [moveAt, hj]
  rw [hm]
  simpa using find?_eq_none.mp h s.moves[j] (getElem_mem hj)

end Resolver

open Resolver

namespace MoveOperands

variable {m : MoveOperands C P}

@[simp] theorem isEliminated_eliminated : (eliminated : MoveOperands C P).isEliminated = true := rfl

theorem isEliminated_of_src {p : P} (h : m.src = .place p) : m.isEliminated = false := by
  rw [isEliminated, h]; rfl

variable [DecidableEq C] [DecidableEq P]

theorem blocks_iff {loc : Location C P} :
    m.blocks loc = true ↔ m.isEliminated = false ∧ m.src = loc := by
  simp [blocks]

theorem blocks_place {p : P} : m.blocks (.place p) = true ↔ m.src = .place p :=
  blocks_iff.trans ⟨And.right, fun h => ⟨isEliminated_of_src h, h⟩⟩

end MoveOperands

section

variable [DecidableEq P] [Inhabited V]

/-- **The invariant of the scheduler**, for the stack `pending`. -/
structure Inv (const : C → V) (n : ℕ) (d : ℕ → P) (v : ℕ → V) (σ₀ : P → V) (pending : List ℕ)
    (s : Resolver C P) : Prop where
  length_eq : s.moves.length = n
  pending_dest : ∀ i ∈ pending, (s.moveAt i).isPending = true
  dest_eq : ∀ i < n, i ∉ pending → (s.moveAt i).isEliminated = false →
    (s.moveAt i).dest = .place (d i)
  src_ne : ∀ i < n, i ∉ pending → (s.moveAt i).src ≠ .place (d i)
  src_value : ∀ i < n, (s.moveAt i).isEliminated = false →
    (s.moveAt i).src.value const (execSchedule const s.scheduledOps σ₀) = v i
  dest_value : ∀ i < n, (s.moveAt i).isEliminated = true →
    execSchedule const s.scheduledOps σ₀ (d i) = v i
  frame : ∀ p, (∀ i < n, d i ≠ p) → execSchedule const s.scheduledOps σ₀ p = σ₀ p

/-- Each pending move but the last reads the destination of the one that waits for it. -/
def PendingChain (d : ℕ → P) (pending : List ℕ) (s : Resolver C P) : Prop :=
  pending.IsChain fun i q => (s.moveAt i).src = .place (d q)

/-- **What a call leaves alone**: performed moves stay performed, and a waiting move keeps its
source, unless a swap carried its value to the destination of a performed move. -/
structure Keeps (n : ℕ) (d : ℕ → P) (pending : List ℕ) (s s' : Resolver C P) : Prop where
  eliminated : ∀ i < n, (s.moveAt i).isEliminated = true → (s'.moveAt i).isEliminated = true
  src : ∀ i < n, i ∉ pending → (s'.moveAt i).isEliminated = false →
    (s'.moveAt i).src = (s.moveAt i).src ∨
      ∃ p k, k < n ∧ (s'.moveAt k).isEliminated = true ∧ (s.moveAt i).src = .place p ∧
        (s'.moveAt i).src = .place (d k)

omit [DecidableEq P] in
/-- Two calls in a row, the second one keeping what the first has performed. -/
theorem Keeps.trans {n : ℕ} {d : ℕ → P} {pending : List ℕ} {s s' s'' : Resolver C P}
    (h : Keeps n d pending s s') (h' : Keeps n d pending s' s'') : Keeps n d pending s s'' where
  eliminated i hi he := h'.eliminated i hi (h.eliminated i hi he)
  src i hi hp he := by
    have he' : (s'.moveAt i).isEliminated = false := by
      by_contra hne
      simp [h'.eliminated i hi (by simpa using hne)] at he
    rcases h.src i hi hp he' with h1 | ⟨p, k, hk, hke, h1, h2⟩
    · rcases h'.src i hi hp he with h3 | ⟨p, k, hk, hke, h3, h4⟩
      · exact Or.inl (h3.trans h1)
      · exact Or.inr ⟨p, k, hk, hke, h1 ▸ h3, h4⟩
    · rcases h'.src i hi hp he with h3 | ⟨_, k', hk', hke', _, h4⟩
      · exact Or.inr ⟨p, k, hk, h'.eliminated k hk hke, h1, h3.trans h2⟩
      · exact Or.inr ⟨p, k', hk', hke', h1, h4⟩

omit [DecidableEq P] in
theorem Keeps.refl (n : ℕ) (d : ℕ → P) (pending : List ℕ) (s : Resolver C P) :
    Keeps n d pending s s where
  eliminated _ _ h := h
  src _ _ _ _ := Or.inl rfl

end

section

variable [DecidableEq P] [Inhabited V] (const : C → V) (σ : P → V)

theorem execSchedule_append (ops : List (Op C P)) (op : Op C P) :
    execSchedule const (ops ++ [op]) σ = op.exec const (execSchedule const ops σ) := by
  simp [execSchedule]

theorem exec_move (p : P) (src : Location C P) : (⟨.move, ⟨.place p, src⟩⟩ : Op C P).exec const σ
      = update σ p (src.value const σ) := rfl

theorem exec_swap (p q : P) : (⟨.swap, ⟨.place p, .place q⟩⟩ : Op C P).exec const σ
      = update (update σ p (σ q)) q (σ p) := rfl

theorem value_update_of_ne {p : P} (v : V) {l : Location C P} (h : l ≠ .place p) :
    l.value const (update σ p v) = l.value const σ := by
  cases l with
  | place q => exact update_of_ne (fun hq => h (congrArg _ hq)) _ _
  | _ => rfl

end

/-! ## The three ways a move ends

`i` is the move on top of the stack, its blocking moves performed. -/

section

variable {n : ℕ} {d : ℕ → P} {v : ℕ → V} {σ₀ : P → V} {pending : List ℕ} {s s' : Resolver C P}
  {i : ℕ} {q : ℕ}

/-- A chain sees only the sources on it. -/
theorem PendingChain.congr (h : PendingChain d pending s)
    (hs : ∀ j ∈ pending, (s'.moveAt j).src = (s.moveAt j).src) : PendingChain d pending s' := by
  refine List.IsChain.imp_of_mem_imp ?_ h
  intro a b ha _ hab
  exact (hs a ha).trans hab

variable [DecidableEq P] [Inhabited V] {const : C → V}

/-- **The top of the stack is performed** — what the state after it owes the invariant below. -/
theorem Inv.pop (hI : Inv const n d v σ₀ (i :: pending) s) (hp : i ∉ pending)
    (hlen : s'.moves.length = s.moves.length) (hself : s'.moveAt i = .eliminated)
    (hdest : ∀ j, j ≠ i → (s'.moveAt j).dest = (s.moveAt j).dest)
    (helim : ∀ j, j ≠ i → (s'.moveAt j).isEliminated = (s.moveAt j).isEliminated)
    (hne : ∀ j < n, j ≠ i → j ∉ pending → (s'.moveAt j).src ≠ .place (d j))
    (hvalue : ∀ j < n, j ≠ i → (s.moveAt j).isEliminated = false →
      (s'.moveAt j).src.value const (execSchedule const s'.scheduledOps σ₀)
        = (s.moveAt j).src.value const (execSchedule const s.scheduledOps σ₀))
    (hdone : execSchedule const s'.scheduledOps σ₀ (d i) = v i)
    (hkeep : ∀ j < n, j ≠ i → (s.moveAt j).isEliminated = true →
      execSchedule const s'.scheduledOps σ₀ (d j) = execSchedule const s.scheduledOps σ₀ (d j))
    (hframe : ∀ p, (∀ j < n, d j ≠ p) →
      execSchedule const s'.scheduledOps σ₀ p = execSchedule const s.scheduledOps σ₀ p) :
    Inv const n d v σ₀ pending s' := by
  have hcons : ∀ j, j ≠ i → j ∉ pending → j ∉ i :: pending := fun j h1 h2 => by simp [h1, h2]
  have hlive : ∀ j, (s'.moveAt j).isEliminated = false → j ≠ i := by
    rintro j he rfl
    simp [hself] at he
  refine ⟨hlen.trans hI.length_eq, fun j hj => ?_, fun j hj hjp he => ?_, fun j hj hjp => ?_,
    fun j hj he => ?_, fun j hj he => ?_, fun p hpd => (hframe p hpd).trans (hI.frame p hpd)⟩
  · have hji : j ≠ i := fun h => hp (h ▸ hj)
    have h1 := hI.pending_dest j (mem_cons_of_mem _ hj)
    have h2 := helim j hji
    simp only [isPending, isEliminated] at h1 h2 ⊢
    rw [hdest j hji, h2]
    exact h1
  · have hji := hlive j he
    rw [hdest j hji]
    exact hI.dest_eq j hj (hcons j hji hjp) (helim j hji ▸ he)
  · rcases eq_or_ne j i with rfl | hji
    · rw [hself]; exact fun h => nomatch h
    · exact hne j hj hji hjp
  · have hji := hlive j he
    have he' : (s.moveAt j).isEliminated = false := helim j hji ▸ he
    exact (hvalue j hj hji he').trans (hI.src_value j hj he')
  · rcases eq_or_ne j i with rfl | hji
    · exact hdone
    · have he' : (s.moveAt j).isEliminated = true := helim j hji ▸ he
      exact (hkeep j hj hji he').trans (hI.dest_value j hj he')

variable [DecidableEq C]

/-- What is left of `performMove` once no waiting move blocks `i`. -/
structure Unblocked (n : ℕ) (d : ℕ → P) (pending : List ℕ) (s : Resolver C P) (i : ℕ) : Prop where
  lt : i < n
  not_mem : i ∉ pending
  src_ne : ∀ j < n, j ∉ i :: pending → (s.moveAt j).src ≠ .place (d i)

omit [DecidableEq C] in
/-- **The last move of a cycle**: its value has already arrived. -/
theorem Inv.eliminate (hI : Inv const n d v σ₀ (i :: pending) s) (hU : Unblocked n d pending s i)
    (hsrc : (s.moveAt i).src = .place (d i)) :
    Inv const n d v σ₀ pending (s.setMove i .eliminated) := by
  have hne : ∀ j, j ≠ i → (s.setMove i .eliminated).moveAt j = s.moveAt j :=
    fun j h => s.moveAt_setMove_of_ne h _
  refine hI.pop hU.not_mem (s.length_setMove i _) (s.moveAt_setMove_self (hI.length_eq ▸ hU.lt) _)
    (fun j h => by rw [hne j h]) (fun j h => by rw [hne j h])
    (fun j hj h hjp => ?_) (fun j _ h _ => by rw [hne j h, scheduledOps_setMove]) ?_
    (fun _ _ _ _ => rfl) (fun _ _ => rfl)
  · rw [hne j h]
    exact hI.src_ne j hj (by simp [h, hjp])
  · have h := hI.src_value i hU.lt (isEliminated_of_src hsrc)
    rwa [hsrc] at h

/-- The move on top of the stack, with its destination back in place. -/
def restore (d : ℕ → P) (s : Resolver C P) (i : ℕ) : Resolver C P :=
  s.setMove i ((s.moveAt i).clearPending (.place (d i)))

omit [DecidableEq P] [DecidableEq C] in
theorem moveAt_restore_self (hi : i < s.moves.length) :
    (restore d s i).moveAt i = ⟨.place (d i), (s.moveAt i).src⟩ := s.moveAt_setMove_self hi _

omit [DecidableEq P] [DecidableEq C] in
theorem moveAt_restore_of_ne {j : ℕ} (h : j ≠ i) : (restore d s i).moveAt j = s.moveAt j :=
  s.moveAt_setMove_of_ne h _

omit [DecidableEq P] [DecidableEq C] in
@[simp] theorem length_restore : (restore d s i).moves.length = s.moves.length :=
  s.length_setMove i _

omit [DecidableEq C] in
/-- **A move that nothing blocks** is performed by a plain move. -/
theorem Inv.addMove (hI : Inv const n d v σ₀ (i :: pending) s) (hU : Unblocked n d pending s i)
    (hinj : Set.InjOn d (Set.Iio n)) (hblock : ∀ j < n, j ≠ i → (s.moveAt j).src ≠ .place (d i)) :
    Inv const n d v σ₀ pending ((restore d s i).addMoveToSchedule i) := by
  have hlen : i < s.moves.length := hI.length_eq ▸ hU.lt
  have hne : ∀ j, j ≠ i → ((restore d s i).addMoveToSchedule i).moveAt j = s.moveAt j :=
    fun j h => (moveAt_addMoveToSchedule_of_ne _ h).trans (moveAt_restore_of_ne h)
  have hlive : (s.moveAt i).isEliminated = false := by
    have := hI.pending_dest i mem_cons_self
    simp only [isPending, Bool.and_eq_true, Bool.not_eq_true'] at this
    exact this.2
  have hexec : execSchedule const ((restore d s i).addMoveToSchedule i).scheduledOps σ₀
      = update (execSchedule const s.scheduledOps σ₀) (d i) (v i) := by
    rw [scheduledOps_addMoveToSchedule, execSchedule_append, moveAt_restore_self hlen, exec_move]
    exact congrArg _ (hI.src_value i hU.lt hlive)
  refine hI.pop hU.not_mem (by simp) (moveAt_addMoveToSchedule_self _ (by simpa using hlen))
    (fun j h => by rw [hne j h]) (fun j h => by rw [hne j h])
    (fun j hj h hjp => ?_) (fun j hj h _ => ?_) ?_ (fun j hj h _ => ?_) (fun p hpd => ?_)
  · rw [hne j h]
    exact hI.src_ne j hj (by simp [h, hjp])
  · rw [hne j h, hexec]
    exact value_update_of_ne const _ _ (hblock j hj h)
  · rw [hexec, update_self]
  · rw [hexec]
    exact update_of_ne (fun he => h (hinj hj hU.lt he)) _ _
  · rw [hexec]
    exact update_of_ne (hpd i hU.lt).symm _ _

variable (m : MoveOperands C P)

theorem isEliminated_renameSrc (p q : P) :
    (renameSrc (.place p) (.place q) m).isEliminated = m.isEliminated := by
  unfold renameSrc
  split_ifs with h1 h2
  · exact (blocks_iff.mp h1).1.symm
  · exact (blocks_iff.mp h2).1.symm
  · rfl

theorem dest_renameSrc (a b : Location C P) : (renameSrc a b m).dest = m.dest := by
  unfold renameSrc setSrc
  split_ifs <;> rfl

/-- The source of a renamed move: the two swapped places change roles. -/
theorem src_renameSrc (p q : P) : (renameSrc (.place p) (.place q) m).src =
      if m.src = .place p then .place q else if m.src = .place q then .place p else m.src := by
  unfold renameSrc
  simp only [blocks_place]
  split_ifs <;> rfl

/-- After a swap, the renamed source reads what the old one did. -/
theorem value_renameSrc (σ : P → V) {p q : P} (hpq : p ≠ q) :
    (renameSrc (.place p) (.place q) m).src.value const
        (update (update σ q (σ p)) p (σ q)) = m.src.value const σ := by
  rw [src_renameSrc]
  split_ifs with h1 h2
  · rw [h1]
    simp [value, update_of_ne hpq.symm]
  · rw [h2]
    simp [value]
  · rw [value_update_of_ne const _ _ h1, value_update_of_ne const _ _ h2]

theorem moveAt_addSwap (hlen : i < s.moves.length) (hsrc : (s.moveAt i).src = .place (d q)) {j : ℕ}
    (h : j ≠ i) : ((restore d s i).addSwapToSchedule i).moveAt j =
      renameSrc (.place (d q)) (.place (d i)) (s.moveAt j) := by
  rw [moveAt_addSwapToSchedule_of_ne _ h, moveAt_restore_of_ne h, moveAt_restore_self hlen, hsrc]

/-- **A move blocked by a pending one** is performed by a swap with the destination of the next move
on the stack. -/
theorem Inv.addSwap (hI : Inv const n d v σ₀ (i :: pending) s)
    (hU : Unblocked n d pending s i) (hinj : Set.InjOn d (Set.Iio n))
    (hq : q ∈ pending) (hqn : q < n) (hsrc : (s.moveAt i).src = .place (d q)) :
    Inv const n d v σ₀ pending ((restore d s i).addSwapToSchedule i) := by
  have hlen : i < s.moves.length := hI.length_eq ▸ hU.lt
  have hqi : q ≠ i := fun h => hU.not_mem (h ▸ hq)
  have hdq : d q ≠ d i := fun h => hqi (hinj hqn hU.lt h)
  have hqlive : (s.moveAt q).isEliminated = false := by
    have := hI.pending_dest q (mem_cons_of_mem _ hq)
    simp only [isPending, Bool.and_eq_true, Bool.not_eq_true'] at this
    exact this.2
  set σ := execSchedule const s.scheduledOps σ₀ with hσ
  have hexec : execSchedule const ((restore d s i).addSwapToSchedule i).scheduledOps σ₀
      = update (update σ (d i) (σ (d q))) (d q) (σ (d i)) := by
    rw [scheduledOps_addSwapToSchedule, execSchedule_append, moveAt_restore_self hlen, hsrc,
      exec_swap]
    rfl
  refine hI.pop hU.not_mem (by simp) (moveAt_addSwapToSchedule_self _ (by simpa using hlen))
    (fun j h => by rw [moveAt_addSwap hlen hsrc h, dest_renameSrc])
    (fun j h => by rw [moveAt_addSwap hlen hsrc h, isEliminated_renameSrc])
    (fun j hj h hjp => ?_) (fun j hj h _ => ?_) ?_ (fun j hj h he => ?_) (fun p hpd => ?_)
  · -- the renamed source of a waiting move is the destination of `i`
    rw [moveAt_addSwap hlen hsrc h, src_renameSrc]
    split_ifs with h1 h2
    · exact fun he => h (hinj hj hU.lt (place.inj he).symm)
    · exact absurd h2 (hU.src_ne j hj (by simp [h, hjp]))
    · exact hI.src_ne j hj (by simp [h, hjp])
  · rw [moveAt_addSwap hlen hsrc h, hexec]
    exact value_renameSrc _ σ hdq
  · rw [hexec, update_of_ne hdq.symm, update_self]
    have := hI.src_value i hU.lt (isEliminated_of_src hsrc)
    rwa [hsrc] at this
  · have hjq : j ≠ q := by rintro rfl; simp [hqlive] at he
    rw [hexec, update_of_ne (fun he => hjq (hinj hj hqn he)),
      update_of_ne (fun he => h (hinj hj hU.lt he))]
  · rw [hexec, update_of_ne (hpd q hqn).symm, update_of_ne (hpd i hU.lt).symm]

/-- Renaming leaves a chain alone, but for its last source: a destination further down the stack is
neither of the two swapped places. -/
theorem PendingChain.addSwap {ps : List ℕ} (hchain : PendingChain d (q :: ps) s)
    (hnodup : (i :: q :: ps).Nodup) (hlt : ∀ j ∈ i :: q :: ps, j < n)
    (hinj : Set.InjOn d (Set.Iio n)) (hlen : i < s.moves.length)
    (hsrc : (s.moveAt i).src = .place (d q)) :
    PendingChain d (q :: ps) ((restore d s i).addSwapToSchedule i) := by
  rw [PendingChain, isChain_iff_getElem] at hchain ⊢
  intro k hk
  have hmem : ∀ (j : ℕ) (hj : j < (q :: ps).length), (q :: ps)[j] ∈ q :: ps :=
    fun j hj => getElem_mem hj
  have hki : (q :: ps)[k] ≠ i := fun h =>
    (nodup_cons.mp hnodup).1 (h ▸ hmem k (by omega))
  have hnext : (q :: ps)[k + 1] ≠ i := fun h =>
    (nodup_cons.mp hnodup).1 (h ▸ hmem (k + 1) hk)
  have hnextq : (q :: ps)[k + 1] ≠ q := fun h =>
    (nodup_cons.mp (nodup_cons.mp hnodup).2).1 (h ▸ getElem_mem (by simpa using hk))
  have hin : (q :: ps)[k + 1] < n := hlt _ (mem_cons_of_mem _ (hmem (k + 1) hk))
  rw [moveAt_addSwap hlen hsrc hki, src_renameSrc, hchain k hk, if_neg, if_neg]
  · exact fun h => hnext (hinj hin (hlt i mem_cons_self) (place.inj h))
  · exact fun h => hnextq (hinj hin (hlt q (by simp)) (place.inj h))

/-- What `performMove` achieves for the move on top of the stack. -/
structure Performed (const : C → V) (n : ℕ) (d : ℕ → P) (v : ℕ → V) (σ₀ : P → V)
    (pending : List ℕ) (s s' : Resolver C P) (i : ℕ) : Prop where
  inv : Inv const n d v σ₀ pending s'
  chain : PendingChain d pending s'
  eliminated : (s'.moveAt i).isEliminated = true
  keeps : Keeps n d (i :: pending) s s'

omit [DecidableEq C] in
/-- …when the other moves are as before. -/
theorem Performed.of_others (hI : Inv const n d v σ₀ pending s') (hchain : PendingChain d pending s)
    (hp : i ∉ pending) (hself : s'.moveAt i = .eliminated)
    (hoth : ∀ j, j ≠ i → s'.moveAt j = s.moveAt j) : Performed const n d v σ₀ pending s s' i where
  inv := hI
  chain := hchain.congr fun j hj => by rw [hoth j fun h => hp (h ▸ hj)]
  eliminated := by rw [hself]; rfl
  keeps := by
    refine ⟨fun j _ he => ?_, fun j _ hj _ => Or.inl ?_⟩
    · rcases eq_or_ne j i with rfl | hji
      · rw [hself]; rfl
      · rw [hoth j hji, he]
    · rw [hoth j (by rintro rfl; simp at hj)]

/-- …when it is performed by a swap. -/
theorem Performed.of_swap {ps : List ℕ} (hI : Inv const n d v σ₀ (i :: q :: ps) s)
    (hU : Unblocked n d (q :: ps) s i) (hinj : Set.InjOn d (Set.Iio n))
    (hchain : PendingChain d (i :: q :: ps) s) (hnodup : (i :: q :: ps).Nodup)
    (hlt : ∀ j ∈ i :: q :: ps, j < n) :
    Performed const n d v σ₀ (q :: ps) s ((restore d s i).addSwapToSchedule i) i := by
  have hlen : i < s.moves.length := hI.length_eq ▸ hU.lt
  have hq : (s.moveAt i).src = .place (d q) := (isChain_cons_cons.mp hchain).1
  have hself := moveAt_addSwapToSchedule_self (restore d s i) (by simpa using hlen)
  refine ⟨hI.addSwap hU hinj mem_cons_self (hlt q (by simp)) hq,
    PendingChain.addSwap hchain.tail hnodup hlt hinj hlen hq, by rw [hself]; rfl, fun k _ he => ?_,
    fun k hk hkp _ => ?_⟩
  · rcases eq_or_ne k i with rfl | hki
    · rw [hself]; rfl
    · rw [moveAt_addSwap hlen hq hki, isEliminated_renameSrc, he]
  · have hki : k ≠ i := by rintro rfl; simp at hkp
    rw [moveAt_addSwap hlen hq hki, src_renameSrc]
    split_ifs with h1 h2
    · exact Or.inr ⟨d q, i, hU.lt, by rw [hself]; rfl, h1, rfl⟩
    · exact absurd h2 (hU.src_ne k hk hkp)
    · exact Or.inl rfl

theorem finishMove_eq (hi : i < s.moves.length) : s.finishMove i (.place (d i)) =
      if (s.moveAt i).src = .place (d i) then some ((restore d s i).setMove i .eliminated)
      else match (restore d s i).moves.find? (fun x => x.blocks (.place (d i))) with
        | some other =>
          if other.isPending then some ((restore d s i).addSwapToSchedule i) else none
        | none => some ((restore d s i).addMoveToSchedule i) := by
  change (if ((restore d s i).moveAt i).src = .place (d i) then _ else _) = _
  rw [moveAt_restore_self hi]
  rfl

/-- **`performMove` ends well**, whichever way the move on top of the stack is performed. -/
theorem finishMove_spec (hI : Inv const n d v σ₀ (i :: pending) s) (hU : Unblocked n d pending s i)
    (hinj : Set.InjOn d (Set.Iio n)) (hchain : PendingChain d (i :: pending) s)
    (hnodup : (i :: pending).Nodup) (hlt : ∀ j ∈ i :: pending, j < n) :
    ∃ s', s.finishMove i (.place (d i)) = some s' ∧ Performed const n d v σ₀ pending s s' i := by
  have hlen : i < s.moves.length := hI.length_eq ▸ hU.lt
  rw [finishMove_eq hlen]
  by_cases hsrc : (s.moveAt i).src = .place (d i)
  · have hset : (restore d s i).setMove i .eliminated = s.setMove i .eliminated := by
      simp [restore, setMove]
    rw [if_pos hsrc, hset]
    exact ⟨_, rfl, .of_others (hI.eliminate hU hsrc) hchain.tail hU.not_mem
      (s.moveAt_setMove_self hlen _) fun j h => s.moveAt_setMove_of_ne h _⟩
  rw [if_neg hsrc]
  cases hfind : (restore d s i).moves.find? (fun x => x.blocks (.place (d i))) with
  | none =>
    have hblock : ∀ j < n, j ≠ i → (s.moveAt j).src ≠ .place (d i) := fun j hj hji h => by
      have := not_blocks_of_find? hfind (j := j) (by simpa [hI.length_eq] using hj)
      rw [moveAt_restore_of_ne hji, Bool.eq_false_iff] at this
      exact this (blocks_place.mpr h)
    exact ⟨_, rfl, .of_others (hI.addMove hU hinj hblock) hchain.tail hU.not_mem
      (moveAt_addMoveToSchedule_self _ (by simpa using hlen))
      fun j h => (moveAt_addMoveToSchedule_of_ne _ h).trans (moveAt_restore_of_ne h)⟩
  | some other =>
    obtain ⟨j, hj, hother, hb⟩ := exists_moveAt_of_find? hfind
    have hji : j ≠ i := by
      rintro rfl
      rw [moveAt_restore_self hlen, blocks_place] at hb
      exact hsrc hb
    rw [moveAt_restore_of_ne hji] at hother hb
    -- a waiting move would have been performed, so the blocking move is on the stack
    have hjp : j ∈ pending := by
      by_contra hjp
      exact hU.src_ne j (by simpa [hI.length_eq] using hj) (by simp [hji, hjp])
        (blocks_place.mp hb)
    have hpend : other.isPending = true :=
      hother ▸ hI.pending_dest j (mem_cons_of_mem _ hjp)
    obtain ⟨q, ps, rfl⟩ := exists_cons_of_ne_nil (ne_nil_of_mem hjp)
    exact ⟨_, if_pos hpend, .of_swap hI hU hinj hchain hnodup hlt⟩

end

section

variable {n : ℕ} {d : ℕ → P} {v : ℕ → V} {σ₀ : P → V} {pending : List ℕ} {s s' : Resolver C P}
  {i : ℕ}

theorem Keeps.of_cons (h : Keeps n d (i :: pending) s s')
    (he : (s'.moveAt i).isEliminated = true) : Keeps n d pending s s' where
  eliminated := h.eliminated
  src j hj hjp hlive := by
    have hji : j ≠ i := by
      rintro rfl
      simp [he] at hlive
    exact h.src j hj (by simp [hji, hjp]) hlive

variable [DecidableEq P] [Inhabited V] {const : C → V}

/-- `i` may be performed on top of the stack `pending`. -/
structure Ready (n : ℕ) (d : ℕ → P) (pending : List ℕ) (s : Resolver C P) (i : ℕ) : Prop where
  lt : ∀ j ∈ i :: pending, j < n
  nodup : (i :: pending).Nodup
  live : (s.moveAt i).isEliminated = false
  head : ∀ q ∈ pending.head?, (s.moveAt i).src = .place (d q)

omit [DecidableEq P] in
theorem Ready.length_lt (h : Ready n d pending s i) : pending.length < n := by
  have hsub : (i :: pending) ⊆ List.range n := fun j hj => mem_range.mpr (h.lt j hj)
  simpa using (h.nodup.subperm hsub).length_le

theorem Inv.not_isPending (hI : Inv const n d v σ₀ pending s) (hi : i < n) (hp : i ∉ pending) :
    (s.moveAt i).isPending = false := by
  by_cases he : (s.moveAt i).isEliminated = true
  · have : (s.moveAt i).src.isInvalid = true := he
    simp [isPending, this]
  · simp [isPending, hI.dest_eq i hi hp (by simpa using he)]

/-- Entering `performMove`: the move goes on the stack. -/
theorem Inv.markPending (hI : Inv const n d v σ₀ pending s) (hR : Ready n d pending s i) :
    Inv const n d v σ₀ (i :: pending) (s.setMove i (s.moveAt i).markPending) := by
  have hlen : i < s.moves.length := hI.length_eq ▸ hR.lt i mem_cons_self
  have hself := s.moveAt_setMove_self hlen (s.moveAt i).markPending
  have hoth : ∀ j, j ≠ i → (s.setMove i (s.moveAt i).markPending).moveAt j = s.moveAt j :=
    fun j h => s.moveAt_setMove_of_ne h _
  have hsrc : ∀ j, ((s.setMove i (s.moveAt i).markPending).moveAt j).src = (s.moveAt j).src := by
    intro j
    rcases eq_or_ne j i with rfl | hji
    · rw [hself]; rfl
    · rw [hoth j hji]
  have helim : ∀ j, ((s.setMove i (s.moveAt i).markPending).moveAt j).isEliminated
      = (s.moveAt j).isEliminated := fun j => congrArg isInvalid (hsrc j)
  refine ⟨(s.length_setMove i _).trans hI.length_eq, fun j hj => ?_, fun j hj hjp he => ?_,
    fun j hj hjp => ?_, fun j hj he => ?_, fun j hj he => ?_, hI.frame⟩
  · rcases eq_or_ne j i with rfl | hji
    · have hlive : (s.moveAt j).src.isInvalid = false := hR.live
      rw [hself]
      simp [isPending, markPending, hlive]
    · rw [hoth j hji]
      exact hI.pending_dest j (mem_of_ne_of_mem hji hj)
  · rw [mem_cons, not_or] at hjp
    rw [hoth j hjp.1] at he ⊢
    exact hI.dest_eq j hj hjp.2 he
  · rw [hsrc]
    exact hI.src_ne j hj fun h => hjp (mem_cons_of_mem _ h)
  · rw [hsrc]
    exact hI.src_value j hj (helim j ▸ he)
  · exact hI.dest_value j hj (helim j ▸ he)

variable [DecidableEq C]

/-- The loop of `performMove` after `t` iterations: no waiting move before `t` blocks `i`. -/
structure Scanned (const : C → V) (n : ℕ) (d : ℕ → P) (v : ℕ → V) (σ₀ : P → V) (pending : List ℕ)
    (s₁ : Resolver C P) (i t : ℕ) (s : Resolver C P) : Prop where
  inv : Inv const n d v σ₀ (i :: pending) s
  chain : PendingChain d (i :: pending) s
  keeps : Keeps n d (i :: pending) s₁ s
  src_ne : ∀ j < t, j < n → j ∉ i :: pending → (s.moveAt j).src ≠ .place (d i)

omit [DecidableEq C] in
/-- A recursive call unblocks one move and blocks no other: a source it renames is the destination
of a performed move, and `i` is not performed yet. -/
theorem Scanned.call {t : ℕ} {s₁ : Resolver C P} (h : Scanned const n d v σ₀ pending s₁ i t s)
    (hi : i < n) (hinj : Set.InjOn d (Set.Iio n))
    (hP : Performed const n d v σ₀ (i :: pending) s s' t) :
    Scanned const n d v σ₀ pending s₁ i (t + 1) s' where
  inv := hP.inv
  chain := hP.chain
  keeps := h.keeps.trans (hP.keeps.of_cons hP.eliminated)
  src_ne j hj hjn hjp hsrc := by
    have hjt : j ≠ t := by
      rintro rfl
      exact absurd hP.eliminated (by simp [isEliminated_of_src hsrc])
    rcases (hP.keeps.of_cons hP.eliminated).src j hjn hjp (isEliminated_of_src hsrc)
      with h1 | ⟨_, k, hk, hke, _, h1⟩
    · exact h.src_ne j (by omega) hjn hjp (h1 ▸ hsrc)
    obtain rfl : k = i := hinj hk hi (place.inj (h1.symm.trans hsrc))
    have := hP.inv.pending_dest k mem_cons_self
    have hke' : (s'.moveAt k).src.isInvalid = true := hke
    simp [isPending, hke'] at this

/-- **One call of `performMove`** performs its move, with fuel for the moves not on the stack. -/
theorem performMove_spec (hinj : Set.InjOn d (Set.Iio n)) :
    ∀ (fuel : ℕ) {pending : List ℕ} {s : Resolver C P} {i : ℕ}, n ≤ fuel + pending.length →
      Inv const n d v σ₀ pending s → PendingChain d pending s → Ready n d pending s i →
      ∃ s', performMove fuel s i = some s' ∧ Performed const n d v σ₀ pending s s' i
  | 0, pending, s, i, hfuel, _, _, hR => by
    have := hR.length_lt
    omega
  | fuel + 1, pending, s, i, hfuel, hI, hchain, hR => by
    have hi : i < n := hR.lt i mem_cons_self
    have hp : i ∉ pending := (nodup_cons.mp hR.nodup).1
    have hdest : (s.moveAt i).dest = .place (d i) := hI.dest_eq i hi hp hR.live
    have hlive : (s.moveAt i).src.isInvalid = false := hR.live
    have hguard : ((s.moveAt i).isPending || (s.moveAt i).isRedundant
        || (s.moveAt i).src.isInvalid) = false := by
      have hne := hI.src_ne i hi hp
      simp [hI.not_isPending hi hp, isRedundant, hR.live, hdest, hne, hlive]
    set s₁ := s.setMove i (s.moveAt i).markPending with hs1
    have hI1 : Inv const n d v σ₀ (i :: pending) s₁ := hI.markPending hR
    have hsrc1 : ∀ j, (s₁.moveAt j).src = (s.moveAt j).src := by
      intro j
      rcases eq_or_ne j i with rfl | hji
      · rw [hs1, s.moveAt_setMove_self (hI.length_eq ▸ hi)]; rfl
      · rw [hs1, s.moveAt_setMove_of_ne hji]
    have hchain1 : PendingChain d (i :: pending) s₁ := by
      refine isChain_cons.mpr ⟨fun q hq => ?_, hchain.congr fun j _ => hsrc1 j⟩
      rw [hsrc1]
      exact hR.head q hq
    obtain ⟨s2, hs2, hS⟩ := Loop.foldlM_range (n := n)
      (f := fun s j => if (s.moveAt j).blocks (.place (d i)) && !(s.moveAt j).isPending then
        performMove fuel s j else some s)
      (Scanned const n d v σ₀ pending s₁ i)
      (by
        intro t ht s hS
        by_cases hb : ((s.moveAt t).blocks (.place (d i)) && !(s.moveAt t).isPending) = true
        · rw [if_pos hb]
          simp only [Bool.and_eq_true, Bool.not_eq_true', blocks_place] at hb
          have htp : t ∉ i :: pending := fun h => by
            simp [hS.inv.pending_dest t h] at hb
          obtain ⟨s', hs', hP⟩ := performMove_spec hinj fuel (by simp; omega) hS.inv hS.chain
            (i := t) ⟨forall_mem_cons.mpr ⟨ht, hR.lt⟩, nodup_cons.mpr ⟨htp, hR.nodup⟩,
              isEliminated_of_src hb.1, fun q hq => by
                obtain rfl : i = q := by simpa using hq
                exact hb.1⟩
          exact ⟨s', hs', hS.call hi hinj hP⟩
        · rw [if_neg hb]
          refine ⟨s, rfl, hS.inv, hS.chain, hS.keeps, fun j hj hjn hjp hsrc => ?_⟩
          rcases Nat.lt_succ_iff_lt_or_eq.mp hj with h | rfl
          · exact hS.src_ne j h hjn hjp hsrc
          · refine hb ?_
            rw [blocks_place.mpr hsrc, hS.inv.not_isPending hjn hjp]
            rfl)
      (s := s₁) ⟨hI1, hchain1, .refl _ _ _ _, fun j hj => by omega⟩
    obtain ⟨s', hs', hP⟩ := finishMove_spec hS.inv
      ⟨hi, hp, fun j hj hjp => hS.src_ne j hj hj hjp⟩ hinj hS.chain hR.nodup hR.lt
    refine ⟨s', ?_, hP.inv, hP.chain, hP.eliminated, ?_⟩
    · rw [performMove]
      simp only [hguard, Bool.false_eq_true, if_false, hdest]
      rw [← hs1, hI1.length_eq, hs2]
      exact hs'
    · have h01 : Keeps n d (i :: pending) s s₁ :=
        ⟨fun j _ he => (congrArg isInvalid (hsrc1 j)).trans he, fun j _ _ _ => Or.inl (hsrc1 j)⟩
      exact (h01.trans hS.keeps).trans hP.keeps

end

variable [DecidableEq C] [DecidableEq P] [Inhabited V] {const : C → V} {n : ℕ} {d : ℕ → P}
  {v : ℕ → V} {σ₀ : P → V} {s : Resolver C P}

/-- **The first loop** performs every move but those with a constant source. -/
theorem performMoves_spec (hinj : Set.InjOn d (Set.Iio n)) (hI : Inv const n d v σ₀ [] s) :
    ∃ s', s.performMoves = some s' ∧ Inv const n d v σ₀ [] s' ∧
      ∀ i < n, (s'.moveAt i).isEliminated = false → (s'.moveAt i).src.isConstant = true := by
  have hloop := Loop.foldlM_range (n := n)
    (f := fun s i => if !(s.moveAt i).isEliminated && !(s.moveAt i).src.isConstant then
      performMove s.moves.length s i else some s)
    (fun t s => Inv const n d v σ₀ [] s ∧ ∀ i < t, i < n → (s.moveAt i).isEliminated = false →
      (s.moveAt i).src.isConstant = true)
    (by
      rintro t ht s ⟨hI, hc⟩
      by_cases hb : (!(s.moveAt t).isEliminated && !(s.moveAt t).src.isConstant) = true
      · rw [if_pos hb]
        obtain ⟨s', hs', hP⟩ := performMove_spec hinj s.moves.length (by simp [hI.length_eq]) hI
          isChain_nil (i := t)
          ⟨by simpa using ht, by simp, by simpa using (Bool.and_eq_true_iff.mp hb).1, by simp⟩
        refine ⟨s', hs', hP.inv, fun i hi hin he => ?_⟩
        have hit : i ≠ t := by
          rintro rfl
          simp [hP.eliminated] at he
        have hlive : (s.moveAt i).isEliminated = false := by
          by_contra hne
          simp [hP.keeps.eliminated i hin (by simpa using hne)] at he
        have hcon := hc i (by omega) hin hlive
        -- a constant source is not renamed
        rcases hP.keeps.src i hin (by simp [hit]) he with h1 | ⟨_, _, _, _, h1, _⟩
        · rw [h1]; exact hcon
        · rw [h1] at hcon; exact nomatch hcon
      · rw [if_neg hb]
        refine ⟨s, rfl, hI, fun i hi hin he => ?_⟩
        rcases Nat.lt_succ_iff_lt_or_eq.mp hi with h | rfl
        · exact hc i h hin he
        · simpa [he] using hb)
    (s := s) ⟨hI, fun i hi => by omega⟩
  obtain ⟨s', hs', hI', hc⟩ := hloop
  refine ⟨s', ?_, hI', fun i hi => hc i hi hi⟩
  rw [performMoves, hI.length_eq]
  exact hs'

omit [DecidableEq C] [DecidableEq P] in
theorem moves_eq_map_moveAt (s : Resolver C P) :
    s.moves = (List.range s.moves.length).map s.moveAt := by
  refine ext_getElem (by simp) fun i h1 h2 => ?_
  simp [moveAt, h1]

omit [DecidableEq C] in
/-- **The second loop** performs the moves with constant sources, in any order. -/
theorem performConstants_spec (hinj : Set.InjOn d (Set.Iio n)) (hI : Inv const n d v σ₀ [] s)
    (hc : ∀ i < n, (s.moveAt i).isEliminated = false → (s.moveAt i).src.isConstant = true) :
    ∃ s', s.performConstants = some s' ∧
      (∀ i < n, execSchedule const s'.scheduledOps σ₀ (d i) = v i) ∧
      ∀ p, (∀ i < n, d i ≠ p) → execSchedule const s'.scheduledOps σ₀ p = σ₀ p := by
  have hloop := Loop.foldlM_range (n := n)
    (f := fun t i => if !(s.moveAt i).isEliminated then
      if (s.moveAt i).src.isConstant then some (t.addOp .move (s.moveAt i)) else none else some t)
    (fun k t => (∀ i < n, i < k ∨ (s.moveAt i).isEliminated = true →
        execSchedule const t.scheduledOps σ₀ (d i) = v i) ∧
      ∀ p, (∀ i < n, d i ≠ p) → execSchedule const t.scheduledOps σ₀ p = σ₀ p)
    (by
      rintro k hk t ⟨hdone, hframe⟩
      cases he : (s.moveAt k).isEliminated with
      | true =>
        refine ⟨t, by simp, fun i hi h => hdone i hi ?_, hframe⟩
        rcases eq_or_ne i k with rfl | hik
        · exact Or.inr he
        · exact h.imp (fun h => by omega) id
      | false =>
        have hcon := hc k hk he
        have hv : (s.moveAt k).src.value const (execSchedule const t.scheduledOps σ₀) = v k := by
          rw [← hI.src_value k hk he]
          cases hsrc : (s.moveAt k).src with
          | constant c => rfl
          | _ => rw [hsrc] at hcon; exact nomatch hcon
        have hexec : execSchedule const (t.addOp .move (s.moveAt k)).scheduledOps σ₀
            = update (execSchedule const t.scheduledOps σ₀) (d k) (v k) := by
          rw [addOp, execSchedule_append, Op.exec]
          simp only [hI.dest_eq k hk (by simp) he, hv]
          rfl
        refine ⟨t.addOp .move (s.moveAt k), by simp [hcon], fun i hi h => ?_, fun p hp => ?_⟩
        · rw [hexec]
          rcases eq_or_ne i k with rfl | hik
          · exact update_self _ _ _
          · rw [update_of_ne fun h => hik (hinj hi hk h)]
            exact hdone i hi (h.imp (fun h => by omega) id)
        · rw [hexec, update_of_ne (hp k hk).symm]
          exact hframe p hp)
    (s := s) ⟨fun i hi h => hI.dest_value i hi (h.resolve_left (by omega)), hI.frame⟩
  obtain ⟨s', hs', hdone, hframe⟩ := hloop
  refine ⟨s', ?_, fun i hi => hdone i hi (Or.inl hi), hframe⟩
  rw [performConstants, moves_eq_map_moveAt, foldlM_map, hI.length_eq]
  exact hs'

omit [DecidableEq C] in
theorem execSchedule_moveSchedule (ops : List (Op C P)) (σ : P → V) :
    execSchedule const (moveSchedule ops) σ = execSchedule const ops σ := by
  induction ops generalizing σ with
  | nil => rfl
  | cons op ops ih =>
    rw [moveSchedule, filter_cons]
    split_ifs with h
    · exact ih _
    · have hnop : op.kind = .nop := by simpa using h
      have : op.exec const σ = σ := by rw [Op.exec, hnop]
      exact (ih σ).trans (congrArg (execSchedule const ops) this.symm)

/-- The invariant holds of the initial move list. -/
theorem inv_buildInitialMoveList (const : C → V) {ms : List (MoveOperands C P)} (σ₀ : P → V)
    (hd : ∀ i (hi : i < ms.length), ms[i].dest = .place (d i))
    (hr : ∀ m ∈ ms, m.isRedundant = false) :
    Inv const ms.length d (fun i => ((⟨ms, []⟩ : Resolver C P).moveAt i).src.value const σ₀) σ₀ []
      ⟨ms, []⟩ := by
  have hat : ∀ i (hi : i < ms.length), (⟨ms, []⟩ : Resolver C P).moveAt i = ms[i] :=
    fun i hi => by simp [moveAt, hi]
  refine ⟨rfl, by simp, fun i hi _ _ => (hat i hi).symm ▸ hd i hi, fun i hi _ hsrc => ?_,
    fun i _ _ => rfl, fun i hi he => ?_, fun _ _ => rfl⟩
  · have := hr _ (getElem_mem hi)
    rw [hat i hi] at hsrc
    simp [isRedundant, hsrc, hd i hi] at this
  · have := hr _ (getElem_mem hi)
    rw [hat i hi] at he
    simp [isRedundant, he] at this

theorem exists_place_of_not_isRedundant {m : MoveOperands C P} (hr : m.isRedundant = false)
    (hc : m.dest.isConstant = false) : ∃ p, m.dest = .place p := by
  cases h : m.dest with
  | place p => exact ⟨p, rfl⟩
  | noLocation => simp [isRedundant, h] at hr
  | constant c => rw [h] at hc; exact nomatch hc

/-- The move list of a parallel move, its schedule and what the schedule does, index by index. -/
theorem resolve_spec (const : C → V) {moves : List (MoveOperands C P)} (σ : P → V)
    (hd : ∀ i (hi : i < (buildInitialMoveList moves).length),
      (buildInitialMoveList moves)[i].dest = .place (d i))
    (hinj : Set.InjOn d (Set.Iio (buildInitialMoveList moves).length)) :
    ∃ ops, resolve moves = some ops ∧ (∀ i (hi : i < (buildInitialMoveList moves).length),
        execSchedule const ops σ (d i) = (buildInitialMoveList moves)[i].src.value const σ) ∧
      ∀ p, (∀ i < (buildInitialMoveList moves).length, d i ≠ p) →
        execSchedule const ops σ p = σ p := by
  set ms := buildInitialMoveList moves with hms
  have hI := inv_buildInitialMoveList const σ hd fun m hm => by
    simpa using (mem_filter.mp hm).2
  obtain ⟨s₁, hs1, hI1, hc1⟩ := performMoves_spec hinj hI
  obtain ⟨s2, hs2, hdone, hframe⟩ := performConstants_spec hinj hI1 hc1
  refine ⟨moveSchedule s2.scheduledOps, ?_, fun i hi => ?_, fun p hp => ?_⟩
  · rw [resolve, ← hms, hs1]
    exact congrArg (Option.bind · _) hs2
  · rw [execSchedule_moveSchedule, hdone i hi]
    simp [moveAt, hi]
  · rw [execSchedule_moveSchedule, hframe p hp]

omit [DecidableEq C] [DecidableEq P] in
/-- Distinct destinations, indexed.  A parallel move without proper moves has no place to name. -/
theorem exists_dest {ms : List (MoveOperands C P)} (hne : ms ≠ [])
    (hplace : ∀ m ∈ ms, ∃ p, m.dest = .place p) (hdest : (ms.map (·.dest)).Nodup) :
    ∃ d : ℕ → P, (∀ i (hi : i < ms.length), ms[i].dest = .place (d i)) ∧
      Set.InjOn d (Set.Iio ms.length) := by
  obtain ⟨p0, -⟩ := hplace _ (head_mem hne)
  have hex : ∀ i, ∃ p, ∀ hi : i < ms.length, ms[i].dest = .place p := fun i => by
    by_cases hi : i < ms.length
    · obtain ⟨p, hp⟩ := hplace _ (getElem_mem hi)
      exact ⟨p, fun _ => hp⟩
    · exact ⟨p0, fun h => absurd h hi⟩
  choose d hd using hex
  refine ⟨d, hd, fun j hj k hk hjk => ?_⟩
  rw [Set.mem_Iio] at hj hk
  have hj' : j < (ms.map (·.dest)).length := by simpa using hj
  have hk' : k < (ms.map (·.dest)).length := by simpa using hk
  have heq : (ms.map (·.dest))[j] = (ms.map (·.dest))[k] := by
    rw [getElem_map, getElem_map, hd j hj, hd k hk, hjk]
  exact hdest.getElem_inj_iff.mp heq

/-- **`resolve` schedules every parallel move** whose proper moves have distinct destinations, and
the schedule delivers each value and changes no other place. -/
theorem resolve_correct (const : C → V) (moves : List (MoveOperands C P))
    (hdest : ((buildInitialMoveList moves).map (·.dest)).Nodup)
    (hconst : ∀ m ∈ moves, m.isRedundant = false → m.dest.isConstant = false) :
    ∃ ops, resolve moves = some ops ∧ ∀ σ : P → V, (∀ m ∈ moves, m.isRedundant = false →
        ∃ p, m.dest = .place p ∧ execSchedule const ops σ p = m.src.value const σ) ∧
      ∀ p, (∀ m ∈ moves, m.isRedundant = false → m.dest ≠ .place p) →
        execSchedule const ops σ p = σ p := by
  have hmem : ∀ m, m ∈ buildInitialMoveList moves ↔ m ∈ moves ∧ m.isRedundant = false := fun m => by
    simp [buildInitialMoveList]
  by_cases hne : buildInitialMoveList moves = []
  · refine ⟨[], by rw [resolve, hne]; rfl, fun σ => ⟨fun m hm hr => ?_, fun p _ => rfl⟩⟩
    have := (hmem m).mpr ⟨hm, hr⟩
    simp [hne] at this
  obtain ⟨d, hd, hinj⟩ := exists_dest hne (fun m hm => exists_place_of_not_isRedundant
    ((hmem m).mp hm).2 (hconst m ((hmem m).mp hm).1 ((hmem m).mp hm).2)) hdest
  obtain ⟨ops, hops, -⟩ := resolve_spec const (fun _ => default) hd hinj
  refine ⟨ops, hops, fun σ => ?_⟩
  obtain ⟨ops', hops', hdone, hframe⟩ := resolve_spec const σ hd hinj
  obtain rfl : ops = ops' := Option.some.inj (hops.symm.trans hops')
  refine ⟨fun m hm hr => ?_, fun p hp => hframe p fun i hi he => ?_⟩
  · obtain ⟨i, hi, rfl⟩ := getElem_of_mem ((hmem m).mpr ⟨hm, hr⟩)
    exact ⟨d i, hd i hi, hdone i hi⟩
  · have := (hmem _).mp (getElem_mem hi)
    exact hp _ this.1 this.2 ((hd i hi).trans (congrArg _ he))

/-- A three-cycle with a fan-out and a constant. -/
theorem resolve_correct_cycle : ∃ ops, resolve (C := ℕ) (P := ℕ) [⟨.place 1, .place 0⟩,
    ⟨.place 2, .place 1⟩, ⟨.place 0, .place 2⟩, ⟨.place 3, .place 0⟩, ⟨.place 4, .constant 7⟩]
      = some ops ∧ execSchedule (fun c => c) ops (fun p => 10 + p) 3 = 10 := by
  obtain ⟨ops, hops, h⟩ := resolve_correct (fun c : ℕ => c) [⟨.place 1, .place 0⟩,
    ⟨.place 2, .place 1⟩, ⟨.place 0, .place 2⟩, ⟨.place 3, .place 0⟩, ⟨.place 4, .constant 7⟩]
    (by decide) (by decide)
  refine ⟨ops, hops, ?_⟩
  obtain ⟨p, hp, hv⟩ := (h fun p => 10 + p).1 ⟨.place 3, .place 0⟩ (by decide) (by decide)
  obtain rfl : (3 : ℕ) = p := place.inj hp
  exact hv

end ParallelMove
