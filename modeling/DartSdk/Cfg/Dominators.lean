import DartSdk.Cfg.FlowGraph

/-!
# Cfg/Dominators — immediate dominators with semidominators

All lists are indexed by preorder numbers of blocks; `none` stands for the number `-1` in the lists
`parent` and `idom`.

The first pass finds semidominators in a forest with path compression: `compressPath` replaces
parents of the spanning tree in place, and the label of a block is the least semidominator on the
compressed path.  The second pass ascends from the parent to the semidominator.  A result `none` is
an exception.
-/

namespace Cfg

open Function

/-- The link-eval forest, and the semidominators. -/
structure Forest where
  parent : ℕ → Option ℕ
  label : ℕ → ℕ
  semi : ℕ → ℕ

namespace Forest

/-- The assignments of `compressPath` after its recursive call. -/
def shortcut (currentIndex nextIndex : ℕ) (f : Forest) : Forest :=
  { f with
    label := update f.label currentIndex (min (f.label currentIndex) (f.label nextIndex))
    parent := update f.parent currentIndex (f.parent nextIndex) }

/-- `compressPath`, with fuel for the recursion. -/
def compressPath (startIndex : ℕ) : ℕ → ℕ → Forest → Option Forest
  | 0, _, _ => none
  | fuel + 1, currentIndex, f =>
    match f.parent currentIndex with
    | none => some f
    | some nextIndex =>
      if nextIndex > startIndex then
        (compressPath startIndex fuel nextIndex f).map (shortcut currentIndex nextIndex)
      else some f

/-- `semi[blockIndex] = math.min(semi[blockIndex], semi[best])`. -/
def update (f : Forest) (blockIndex best : ℕ) : Forest :=
  { f with semi := Function.update f.semi blockIndex (min (f.semi blockIndex) (f.semi best)) }

/-- A predecessor of the block.  The path from a larger number is compressed first. -/
def visitPredecessor (blockIndex : ℕ) (f : Forest) (predIndex : ℕ) : Option Forest :=
  if predIndex > blockIndex then
    (compressPath blockIndex (predIndex + 1) predIndex f).map fun f =>
      f.update blockIndex (f.label predIndex)
  else some (f.update blockIndex predIndex)

/-- The semidominator of a block, which becomes its label. -/
def visitBlock (predecessors : ℕ → List ℕ) (blockIndex : ℕ) (f : Forest) : Option Forest :=
  ((predecessors blockIndex).foldlM (visitPredecessor blockIndex) f).map fun f =>
    { f with label := Function.update f.label blockIndex (f.semi blockIndex) }

/-- The first pass, over the blocks from an index down to `1`. -/
def computeSemi (predecessors : ℕ → List ℕ) : ℕ → Forest → Option Forest
  | 0, f => some f
  | blockIndex + 1, f => (visitBlock predecessors (blockIndex + 1) f).bind
      (computeSemi predecessors blockIndex)

end Forest

/-! ## Immediate dominators

The second pass goes through the blocks in preorder, and ascends from the parent of a block to a
dominator that is not after its semidominator. -/

/-- The immediate dominators found so far, and the blocks that each dominates immediately. -/
structure Dominators where
  idom : ℕ → Option ℕ
  dominated : ℕ → List ℕ

namespace Dominators

/-- The loop that ascends from a dominator to the semidominator, with fuel. -/
def ascend (idom : ℕ → Option ℕ) (semi : ℕ) : ℕ → ℕ → Option ℕ
  | 0, _ => none
  | fuel + 1, domIndex => if domIndex > semi then (idom domIndex).bind (ascend idom semi fuel)
      else some domIndex

/-- A step of the second pass. -/
def visitBlock (semi : ℕ → ℕ) (d : Dominators) (blockIndex : ℕ) : Option Dominators :=
  (d.idom blockIndex).bind fun domIndex =>
    (ascend d.idom (semi blockIndex) (domIndex + 1) domIndex).map fun domIndex =>
      { idom := update d.idom blockIndex (some domIndex)
        dominated := update d.dominated domIndex (d.dominated domIndex ++ [blockIndex]) }

end Dominators

section

variable {Block : Type} (s : Discovery Block)

/-- The preorder numbers of the predecessors of a block. -/
def predecessorIndices (blockIndex : ℕ) : List ℕ :=
  match s.preorder[blockIndex]? with
  | none => []
  | some block => (s.predecessors block).map fun pred => (s.preorderNumber pred).toNat

/-- The parent in the spanning tree: the first predecessor. -/
def spanningParent (blockIndex : ℕ) : Option ℕ :=
  if blockIndex = 0 then none else (predecessorIndices s blockIndex).head?

/-- `computeDominators`. -/
def computeDominators : Option Dominators :=
  let size := s.preorder.length
  let blocks := (List.range size).drop 1
  if blocks.any fun i => (predecessorIndices s i).isEmpty then none
  else
    (Forest.computeSemi (predecessorIndices s) (size - 1) ⟨spanningParent s, id, id⟩).bind fun f =>
      blocks.foldlM (Dominators.visitBlock f.semi) ⟨spanningParent s, fun _ => []⟩

end

/-- The numbers of a block in the tree. -/
structure BlockNums where
  preorder : ℕ → ℕ
  postorder : ℕ → ℕ
  nextPreorder : ℕ
  nextPostorder : ℕ

/-- The loop of `_numberBlocks`, with fuel; an entry of the work list is a block and the index of
the child to visit next. -/
def numberBlocks (dominated : ℕ → List ℕ) : ℕ → List (ℕ × ℕ) → BlockNums → Option BlockNums
  | 0, _, _ => none
  | _ + 1, [], nums => some nums
  | fuel + 1, (block, index) :: workList, nums =>
    let nums := if index = 0 then
        { nums with
          preorder := update nums.preorder block nums.nextPreorder
          nextPreorder := nums.nextPreorder + 1 }
      else nums
    match (dominated block)[index]? with
    | some child => numberBlocks dominated fuel ((child, 0) :: (block, index + 1) :: workList) nums
    | none => numberBlocks dominated fuel workList
        { nums with
          postorder := update nums.postorder block nums.nextPostorder
          nextPostorder := nums.nextPostorder + 1 }

/-- `_numberBlocks`.  Each block is taken from the work list once more than it has children. -/
def Dominators.blockNums (d : Dominators) (size : ℕ) : Option BlockNums :=
  numberBlocks d.dominated (2 * size + 1) [(0, 0)] ⟨fun _ => 0, fun _ => 0, 0, 0⟩

/-- The instructions of each block, in order.  A block is itself an instruction, the first one. -/
structure Layout (Block Instr : Type) where
  header : Block → Instr
  body : Block → List Instr
  block : Instr → Block
  block_header : ∀ b, block (header b) = b
  block_body : ∀ b, ∀ i ∈ body b, block i = b
  nodup : ∀ b, (header b :: body b).Nodup

namespace Layout

variable {Block Instr : Type} [DecidableEq Block] [DecidableEq Instr] (layout : Layout Block Instr)

/-- The instructions of a block, its header first. -/
def instructions (b : Block) : List Instr := layout.header b :: layout.body b

/-- `_numberInstructionsInBlock`: the number of an instruction in its block, from `1` on; `0` is an
instruction that has no number yet. -/
def numberInstructions (b : Block) (nums : Instr → ℕ) : Instr → ℕ :=
  if nums (layout.header b) = 0 then
    (layout.instructions b).zipIdx.foldl (fun nums (instr, k) => update nums instr (k + 1)) nums
  else nums

/-- `isDominatedBy`.  The numbers of instructions are cached. -/
def isDominatedBy (preorderNumber : Block → ℕ) (blockNums : BlockNums) (a b : Instr)
    (instructionNums : Option (Instr → ℕ)) : Bool × Option (Instr → ℕ) :=
  if a = b then (false, instructionNums)
  else
    let blockA := layout.block a
    let blockB := layout.block b
    if blockA ≠ blockB then
      (decide (blockNums.preorder (preorderNumber blockB) < blockNums.preorder
        (preorderNumber blockA)) &&
        decide (blockNums.postorder (preorderNumber blockA) <
          blockNums.postorder (preorderNumber blockB)), instructionNums)
    else
      let nums := layout.numberInstructions blockA (instructionNums.getD fun _ => 0)
      (decide (nums b < nums a), some nums)

/-- The answers to queries, one after another. -/
def answers (preorderNumber : Block → ℕ) (blockNums : BlockNums) :
    List (Instr × Instr) → Option (Instr → ℕ) → List Bool
  | [], _ => []
  | (a, b) :: queries, nums =>
    let (answer, nums) := layout.isDominatedBy preorderNumber blockNums a b nums
    answer :: answers preorderNumber blockNums queries nums

end Layout

end Cfg
