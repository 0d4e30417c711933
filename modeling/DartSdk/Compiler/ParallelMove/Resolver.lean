import Mathlib.Tactic

/-!
# Compiler/ParallelMove/Resolver — a parallel move is scheduled as moves and swaps

    parallel move ──resolve──▸ schedule of moves and swaps ──exec──▸ machine state

`resolve` is the depth-first scheduler of `parallel_move_resolver.cc`.  A move that is being
performed is *pending*: its destination is cleared and kept by the caller, so that a cycle shows up
as a pending move blocking the current one.  A cycle is resolved by a swap, which rewrites the
sources of every move not performed yet.

An `ASSERT` of the source that fails and a recursion that outgrows its fuel both yield `none`.
-/

namespace ParallelMove

/-- A `Location`: no location, a constant, or a place of the machine (a register or a stack
slot).  Places of different kinds never overlap, so a place is just a name. -/
inductive Location (C P : Type*) where
  | noLocation
  | constant (c : C)
  | place (p : P)
  deriving DecidableEq

namespace Location

variable {C P : Type*}

/-- `Location::IsInvalid`. -/
def isInvalid : Location C P → Bool
  | noLocation => true
  | _ => false

/-- `Location::IsConstant`. -/
def isConstant : Location C P → Bool
  | constant _ => true
  | _ => false

end Location

/-- One move of a parallel move, as `MoveOperands` in `il.h`. -/
structure MoveOperands (C P : Type*) where
  dest : Location C P
  src : Location C P
  deriving DecidableEq

/-! ## The marks a move carries

The resolver keeps its marks in the operands: a pending move has lost its destination, an eliminated
one has lost both operands. -/

namespace MoveOperands

variable {C P : Type*}

/-- `set_src`. -/
def setSrc (m : MoveOperands C P) (value : Location C P) : MoveOperands C P :=
  { m with src := value }

/-- The move with its destination cleared; the caller keeps the destination. -/
def markPending (m : MoveOperands C P) : MoveOperands C P := { m with dest := .noLocation }

/-- `ClearPending`: the destination comes back. -/
def clearPending (m : MoveOperands C P) (dest : Location C P) : MoveOperands C P :=
  { m with dest := dest }

/-- A move with its destination taken away: it waits for the moves that it blocks on. -/
def isPending (m : MoveOperands C P) : Bool := m.dest.isInvalid && !m.src.isInvalid

/-- A move without a source: it is done. -/
def isEliminated (m : MoveOperands C P) : Bool := m.src.isInvalid

/-- The eliminated move — both operands cleared. -/
def eliminated : MoveOperands C P := ⟨.noLocation, .noLocation⟩

variable [DecidableEq C] [DecidableEq P]

/-- `m` is a move from the given location. -/
def blocks (m : MoveOperands C P) (loc : Location C P) : Bool :=
  !m.isEliminated && decide (m.src = loc)

/-- Nothing is left to do for the move. -/
def isRedundant (m : MoveOperands C P) : Bool :=
  m.isEliminated || m.dest.isInvalid || decide (m.src = m.dest)

end MoveOperands

/-- The scheduled operations. -/
inductive OpKind where
  | nop
  | move
  | swap
  deriving DecidableEq

/-- A scheduled operation. -/
structure Op (C P : Type*) where
  kind : OpKind
  operands : MoveOperands C P

/-- The resolver's state: the moves not yet resolved, and the operations scheduled so far. -/
structure Resolver (C P : Type*) where
  moves : List (MoveOperands C P)
  scheduledOps : List (Op C P)

namespace Resolver

variable {C P : Type*} [DecidableEq C] [DecidableEq P]

/-- `moves_[i]`. -/
def moveAt (s : Resolver C P) (i : ℕ) : MoveOperands C P := s.moves.getD i .eliminated

/-- `moves_[i] = m`. -/
def setMove (s : Resolver C P) (i : ℕ) (m : MoveOperands C P) : Resolver C P :=
  { s with moves := s.moves.set i m }

/-- Appends an operation to the schedule. -/
def addOp (s : Resolver C P) (kind : OpKind) (m : MoveOperands C P) : Resolver C P :=
  { s with scheduledOps := s.scheduledOps ++ [⟨kind, m⟩] }

/-- Schedules a move and eliminates it. -/
def addMoveToSchedule (s : Resolver C P) (index : ℕ) : Resolver C P :=
  (s.addOp .move (s.moveAt index)).setMove index .eliminated

/-- The source of a move not performed yet, after the contents of `source` and `destination` have
been swapped. -/
def renameSrc (source destination : Location C P) (m : MoveOperands C P) : MoveOperands C P :=
  if m.blocks source then m.setSrc destination
  else if m.blocks destination then m.setSrc source
  else m

/-- Schedules a swap, and corrects the sources that it has moved. -/
def addSwapToSchedule (s : Resolver C P) (index : ℕ) : Resolver C P :=
  let move := s.moveAt index
  let s := (s.addOp .swap move).setMove index .eliminated
  -- pending moves are renamed too
  { s with moves := s.moves.map (renameSrc move.src move.dest) }

/-- The end of `performMove`, once the moves blocking `index` have been performed. -/
def finishMove (s : Resolver C P) (index : ℕ) (destination : Location C P) :
    Option (Resolver C P) :=
  let s := s.setMove index ((s.moveAt index).clearPending destination)
  if (s.moveAt index).src = destination then
    -- the last move of a cycle
    some (s.setMove index .eliminated)
  else
    match s.moves.find? (·.blocks destination) with
    | some other => if other.isPending then some (s.addSwapToSchedule index) else none
    | none => some (s.addMoveToSchedule index)

/-- Performs the move at `index` and every move it waits for.  `fuel` bounds the depth of the
recursion. -/
def performMove : ℕ → Resolver C P → ℕ → Option (Resolver C P)
  | 0, _, _ => none
  | fuel + 1, s, index =>
    let move := s.moveAt index
    if move.isPending || move.isRedundant || move.src.isInvalid then none
    else do
      let destination := move.dest
      let s := s.setMove index move.markPending
      let s ← (List.range s.moves.length).foldlM (fun s i =>
        if (s.moveAt i).blocks destination && !(s.moveAt i).isPending then
          performMove fuel s i
        else some s) s
      s.finishMove index destination

/-- The moves to resolve: redundant ones are dropped. -/
def buildInitialMoveList (moves : List (MoveOperands C P)) : List (MoveOperands C P) :=
  moves.filter (!·.isRedundant)

/-- The first loop of `Resolve`: every move whose source is not a constant. -/
def performMoves (s : Resolver C P) : Option (Resolver C P) :=
  (List.range s.moves.length).foldlM (fun s i =>
    if !(s.moveAt i).isEliminated && !(s.moveAt i).src.isConstant then
      performMove s.moves.length s i
    else some s) s

/-- The second loop of `Resolve`: the moves left over have constant sources. -/
def performConstants (s : Resolver C P) : Option (Resolver C P) :=
  s.moves.foldlM (fun s move =>
    if !move.isEliminated then
      if move.src.isConstant then some (s.addOp .move move) else none
    else some s) s

end Resolver

variable {C P : Type*} [DecidableEq C] [DecidableEq P]

/-- `MoveSchedule::From`: the scheduled operations without the no-ops. -/
def moveSchedule (ops : List (Op C P)) : List (Op C P) := ops.filter (·.kind ≠ .nop)

/-- `ParallelMoveResolver::Resolve`: the schedule of a parallel move. -/
def resolve (moves : List (MoveOperands C P)) : Option (List (Op C P)) := do
  let s ← Resolver.performMoves ⟨Resolver.buildInitialMoveList moves, []⟩
  let s ← s.performConstants
  return moveSchedule s.scheduledOps

variable {V : Type*} [Inhabited V]

/-- The value a location denotes in a machine state; `const` reads a constant. -/
def Location.value (const : C → V) (σ : P → V) : Location C P → V
  | .noLocation => default
  | .constant c => const c
  | .place p => σ p

/-- Writing a location.  Only a place can be written. -/
def Location.write (σ : P → V) (v : V) : Location C P → P → V
  | .place p => Function.update σ p v
  | _ => σ

/-- One operation of a schedule, run on a machine state. -/
def Op.exec (const : C → V) (op : Op C P) (σ : P → V) : P → V :=
  let value := Location.value const σ
  match op.kind with
  | .nop => σ
  | .move => op.operands.dest.write σ (value op.operands.src)
  | .swap =>
    op.operands.src.write (op.operands.dest.write σ (value op.operands.src))
      (value op.operands.dest)

/-- A schedule, run one operation after another. -/
def execSchedule (const : C → V) (ops : List (Op C P)) (σ : P → V) : P → V :=
  ops.foldl (fun σ op => op.exec const σ) σ

end ParallelMove
