import DartSdk.Lib.Wp

/-!
# Cfg/FlowGraph — control-flow graphs and the discovery of their blocks

`discoverBlocks` walks a graph depth-first from the entry block, with an explicit stack.  It numbers
the blocks in preorder and postorder and rebuilds the lists of predecessors.  It can run many times
on one graph: a block is visited if the preorder list has it at its number, whatever number was left
from the run before.

The order of predecessors is the order of the inputs of phis, so the inputs are permuted with it.
-/

namespace Cfg

open Function

/-- The blocks of a graph and their successors. -/
structure FlowGraph (Block : Type) where
  entryBlock : Block
  successors : Block → List Block
  blocks : List Block
  entryBlock_mem : entryBlock ∈ blocks
  successors_mem : ∀ b ∈ blocks, ∀ s ∈ successors b, s ∈ blocks

/-- What `discoverBlocks` computes, and the predecessors it has saved. -/
structure Discovery (Block : Type) where
  preorder : List Block
  postorder : List Block
  predecessors : Block → List Block
  preorderNumber : Block → ℤ
  postorderNumber : Block → ℤ
  oldPredecessors : List (Block × List Block)

variable {Block : Type} [DecidableEq Block]

namespace Discovery

/-- `_isVisited`. -/
def isVisited (s : Discovery Block) (block : Block) : Bool :=
  let preorderNumber := s.preorderNumber block
  decide (preorderNumber ≥ 0) && decide (preorderNumber < s.preorder.length) &&
    decide (s.preorder[preorderNumber.toNat]? = some block)

/-- `_discoverBlock`, for a block that has been visited already. -/
def addPredecessor (predecessor : Option Block) (block : Block) (s : Discovery Block) :
    Discovery Block :=
  let predecessors := s.predecessors block ++ predecessor.toList
  { s with predecessors := Function.update s.predecessors block predecessors }

/-- `_discoverBlock`, for a block that is visited now: its predecessors are saved if it has phis. -/
def visit (hasPhis : Block → Bool) (predecessor : Option Block) (block : Block)
    (s : Discovery Block) :
    Discovery Block :=
  { s with
    oldPredecessors := if hasPhis block then s.oldPredecessors ++ [(block, s.predecessors block)]
      else s.oldPredecessors
    predecessors := Function.update s.predecessors block predecessor.toList
    preorderNumber := Function.update s.preorderNumber block s.preorder.length
    preorder := s.preorder ++ [block] }

/-- All successors of a block have been processed. -/
def finish (block : Block) (s : Discovery Block) : Discovery Block :=
  { s with
    postorderNumber := Function.update s.postorderNumber block s.postorder.length
    postorder := s.postorder ++ [block] }

variable (hasPhis : Block → Bool) (predecessor : Option Block) (block : Block) (s : Discovery Block)

theorem addPredecessor_self : (s.addPredecessor predecessor block).predecessors block =
      s.predecessors block ++ predecessor.toList := update_self ..

theorem addPredecessor_of_ne {b : Block} (h : b ≠ block) :
    (s.addPredecessor predecessor block).predecessors b = s.predecessors b := update_of_ne h ..

@[simp] theorem visit_preorder :
    (s.visit hasPhis predecessor block).preorder = s.preorder ++ [block] := rfl

theorem visit_self : (s.visit hasPhis predecessor block).predecessors block = predecessor.toList :=
  update_self ..

theorem visit_of_ne {b : Block} (h : b ≠ block) :
    (s.visit hasPhis predecessor block).predecessors b = s.predecessors b := update_of_ne h ..

end Discovery

variable (g : FlowGraph Block) (hasPhis : Block → Bool)

/-- The body of the loop.  An entry of the stack has the number of successors still to be processed,
one more than the index of the next one. -/
def discoverStep (stack : List (Block × ℕ)) :
    Prog (Discovery Block) (List (Block × ℕ) ⊕ Unit) :=
  match stack with
  | [] => pure (.inr ())
  | (block, 0) :: stack => do
    modify (Discovery.finish block)
    pure (.inl stack)
  | (block, successorIndex + 1) :: stack => do
    let successor ← StateT.lift (g.successors block)[successorIndex]?
    let s ← get
    if s.isVisited successor then
      set (s.addPredecessor (some block) successor)
      pure (.inl ((block, successorIndex) :: stack))
    else
      set (s.visit hasPhis (some block) successor)
      pure (.inl ((successor, (g.successors successor).length) :: (block, successorIndex) :: stack))

/-- The loop of `discoverBlocks`, with fuel. -/
def discoverLoop (fuel : ℕ) : List (Block × ℕ) → Prog (Discovery Block) Unit :=
  Prog.loop fuel (discoverStep g hasPhis)

/-- Each step removes an entry of the stack or a successor of an entry; a block is pushed once. -/
def discoverFuel : ℕ := (g.blocks.map fun b => (g.successors b).length + 2).sum + 1

/-- `discoverBlocks`, but for the inputs of phis. -/
def discover : Prog (Discovery Block) Unit := do
  modify fun s => { s with preorder := [], postorder := [], oldPredecessors := [] }
  modify (Discovery.visit hasPhis none g.entryBlock)
  discoverLoop g hasPhis (discoverFuel g) [(g.entryBlock, (g.successors g.entryBlock).length)]

end Cfg
