import Mathlib.Data.List.DropRight
import DartSdk.Lib.Bytecode
import DartSdk.Vm.DataStream

/-!
# Vm/CodeSourceMap — the map from pc offsets to inlined functions and positions

A code source map is a little bytecode that pushes and pops functions, changes the position of the
top one and advances the pc offset.  The builder keeps two states — what is written and what is
buffered — and brings the first to the second when it flushes.  A reader runs the bytecode up to its
pc offset.

With `stack_traces_only` the buffer is flushed only where the code might throw; otherwise also
before a change of the functions or, at the end of a range, of the position.

`Write` asserts that the argument of an operation has 29 bits.  The builder here collects the
operations that it writes, and there is a map of them if all pass the assertion.  Elsewhere, too,
`none` is a failed assertion.  A position is an `int32_t`, and pc offsets are integers.
-/

namespace CodeSourceMap

open DataStream

/-- A `TokenPosition`: real ones are not negative, synthetic ones are below the sentinels. -/
abbrev TokenPosition := BitVec 32

namespace TokenPosition

/-- `kNoSource`. -/
def noSource : TokenPosition := BitVec.ofInt 32 (-1)

/-- `kDartCodePrologue`. -/
def dartCodePrologue : TokenPosition := BitVec.ofInt 32 (-12)

/-- `kLast`: synthetic positions are below it. -/
def lastPos : ℤ := -14

/-- `IsReal`. -/
def isReal (pos : TokenPosition) : Bool := 0 ≤ pos.toInt

/-- `IsSynthetic`. -/
def isSynthetic (pos : TokenPosition) : Bool := pos.toInt < lastPos

end TokenPosition

/-- The operations of the bytecode. -/
inductive Op where
  | changePosition
  | advancePC
  | pushFunction
  | popFunction
  | nullCheck
  deriving DecidableEq

/-- The number of an operation, in the low three bits of a word. -/
def Op.code : Op → ℕ
  | changePosition => 0
  | advancePC => 1
  | pushFunction => 2
  | popFunction => 3
  | nullCheck => 4

/-- The cases of the readers; any other one is unreachable. -/
def Op.ofCode : ℕ → Option Op
  | 0 => some changePosition
  | 1 => some advancePC
  | 2 => some pushFunction
  | 3 => some popFunction
  | 4 => some nullCheck
  | _ => none

/-- The argument has the bits above the three of the operation. -/
def maxArgValue : ℤ := 2 ^ 28 - 1

/-- `kMinArgValue`. -/
def minArgValue : ℤ := -2 ^ 28

/-- `kSignBits`: the bits that sign-extend an argument. -/
def signBits : BitVec 32 := BitVec.ofInt 32 (-2 ^ 29)

/-- An operation with its arguments. -/
structure Item where
  op : Op
  arg1 : BitVec 32
  arg2 : BitVec 32 := 0

/-- The assertion of `Write`. -/
def Item.Fits (i : Item) : Prop := minArgValue ≤ i.arg1.toInt ∧ i.arg1.toInt ≤ maxArgValue

instance (i : Item) : Decidable i.Fits := inferInstanceAs (Decidable (_ ∧ _))

/-- The operation and the first argument in one word. -/
def Item.word (i : Item) : BitVec 32 :=
  let arg1 := if i.arg1.toInt < 0 then i.arg1 &&& ~~~signBits else i.arg1
  BitVec.ofNat 32 i.op.code ||| arg1 <<< 3

/-- What a reader gets of an operation. -/
def Item.view (i : Item) : Op × BitVec 32 := (i.op, i.arg1)

/-- What `Write` appends; the second argument only with `dwarf_stack_traces_mode`. -/
def Item.bytes (dwarf : Bool) (i : Item) : List UInt8 :=
  write i.word.toInt ++
    if i.op = .changePosition ∧ dwarf then write i.arg2.toInt else []

/-- `CodeSourceMapOps::Read`; the readers here do not ask for the second argument. -/
def readOp (dwarf : Bool) : Reader (Op × BitVec 32) := fun bytes => do
  let (n, bytes) ← read 32 endByteMarker bytes
  let op ← Op.ofCode (n &&& 7#32).toNat
  let arg1 := n >>> 3
  let arg1 := if arg1.toInt > maxArgValue then arg1 ||| signBits else arg1
  if op = .changePosition ∧ dwarf then
    let (_, bytes) ← read 32 endByteMarker bytes
    some ((op, arg1), bytes)
  else some ((op, arg1), bytes)

/-! ## What the builder is constructed with -/

/-- The inlining tree, the flags, and the scripts of the functions.  The root has the id 0, and the
caller of another id is an earlier one. -/
structure Context (F : Type) where
  stackTracesOnly : Bool
  precompiledMode : Bool
  dwarfStackTracesMode : Bool
  callerInlineId : ℕ → ℕ
  inlineIdToTokenPos : ℕ → TokenPosition
  inlineIdToFunction : ℕ → F
  /-- The line and the column, where the script of the function has them. -/
  location : F → TokenPosition → Option (BitVec 32 × BitVec 32)
  caller_lt : ∀ id, 0 < id → callerInlineId id < id

/-- A position, with the inlining id of its function or a negative one. -/
structure InstructionSource where
  tokenPos : TokenPosition
  inliningId : ℤ

/-- An inline id and the position in its function: an entry of both stacks. -/
structure Frame where
  id : ℕ
  position : TokenPosition
  deriving DecidableEq

/-- `CodeSourceMapBuilder`.  The stacks have their top at the end, and the root at the start; the
stream has the operations in the order of their `Write`s. -/
structure Builder (F : Type) where
  bufferedPc : ℤ
  buffered : List Frame
  writtenPc : ℤ
  written : List Frame
  inlinedFunctions : List F
  stream : List Item

namespace Context

variable {F : Type} [DecidableEq F] (ctx : Context F)

/-- The position of a function that has just been pushed. -/
def initialPosition : TokenPosition := .dartCodePrologue

/-- Only the root is on the stacks, and nothing is written. -/
def new : Builder F := ⟨0, [⟨0, initialPosition⟩], 0, [⟨0, initialPosition⟩], [], []⟩

/-- `Script::GetTokenLocation`. -/
def getTokenLocation (f : F) (pos : TokenPosition) : Option (BitVec 32 × BitVec 32) :=
  if pos.isReal then ctx.location f pos else none

/-- A position as the map has it: in precompiled mode its line, or `kNoSource`. -/
def serialize (f : F) (pos : TokenPosition) : BitVec 32 :=
  if ctx.precompiledMode then
    ((ctx.getTokenLocation f pos).map Prod.fst).getD TokenPosition.noSource
  else pos

/-- The second argument of a change of position. -/
def column (f : F) (pos : TokenPosition) : BitVec 32 :=
  if ctx.precompiledMode then
    ((ctx.getTokenLocation f pos).map Prod.snd).getD TokenPosition.noSource
  else TokenPosition.noSource

/-- `CodeSourceMapOps::Write`. -/
def write (b : Builder F) (i : Item) : Builder F := { b with stream := b.stream ++ [i] }

/-- `WriteChangePosition`: the difference to the position before. -/
def writeChangePosition (b : Builder F) (pos : TokenPosition) : Option (Builder F) := do
  let top ← b.written.getLast?
  let f := ctx.inlineIdToFunction top.id
  let b := write b
    ⟨.changePosition, ctx.serialize f pos - ctx.serialize f top.position, ctx.column f pos⟩
  return { b with written := b.written.dropLast ++ [⟨top.id, pos⟩] }

/-- `WriteAdvancePC`. -/
def writeAdvancePC (b : Builder F) (distance : ℤ) : Builder F :=
  let b := write b { op := .advancePC, arg1 := BitVec.ofInt 32 distance }
  { b with writtenPc := b.writtenPc + distance }

/-- `GetFunctionId`: the index, and the functions with this one. -/
def getFunctionId (inlinedFunctions : List F) (inlineId : ℕ) : ℕ × List F :=
  let f := ctx.inlineIdToFunction inlineId
  if f ∈ inlinedFunctions then (inlinedFunctions.idxOf f, inlinedFunctions)
  else (inlinedFunctions.length, inlinedFunctions ++ [f])

/-- `WritePush`: a function is named by its index in the map. -/
def writePush (b : Builder F) (inlineId : ℕ) : Builder F :=
  let (functionId, inlinedFunctions) := ctx.getFunctionId b.inlinedFunctions inlineId
  let b := write { b with inlinedFunctions := inlinedFunctions }
    { op := .pushFunction, arg1 := BitVec.ofNat 32 functionId }
  { b with written := b.written ++ [⟨inlineId, initialPosition⟩] }

/-- `WritePop`. -/
def writePop (b : Builder F) : Builder F :=
  let b := write b { op := .popFunction, arg1 := 0 }
  { b with written := b.written.dropLast }

/-- `WriteNullCheck`. -/
def writeNullCheck (b : Builder F) (nameIndex : ℤ) : Builder F :=
  write b { op := .nullCheck, arg1 := BitVec.ofInt 32 nameIndex }

/-- The top-most index, below the given one, where the stacks have the same id. -/
def commonIndex (buffered written : List Frame) : ℕ → Option ℕ
  | 0 => none
  | index + 1 =>
    if (written[index]?.map Frame.id).isSome ∧
        buffered[index]?.map Frame.id = written[index]?.map Frame.id then some index
    else commonIndex buffered written index

/-- As many pops. -/
def writePops : ℕ → Builder F → Builder F
  | 0, b => b
  | n + 1, b => writePops n (writePop b)

/-- Changes the position of the top function where it is another one. -/
def flushPosition (b : Builder F) (pos : TokenPosition) : Option (Builder F) := do
  let top ← b.written.getLast?
  if pos ≠ top.position then ctx.writeChangePosition b pos else some b

/-- The position of the top function, and then the functions above it with theirs. -/
def flushFrames : List Frame → Builder F → Option (Builder F)
  | [], b => some b
  | [f], b => ctx.flushPosition b f.position
  | f :: g :: frames, b => do
    let b ← ctx.flushPosition b f.position
    flushFrames (g :: frames) (ctx.writePush b g.id)

/-- `FlushBuffer`: pops to the common function, then positions and pushes, then the pc offset. -/
def flushBuffer (b : Builder F) : Option (Builder F) := do
  let index ← commonIndex b.buffered b.written b.buffered.length
  let b := writePops (b.written.length - (index + 1)) b
  let b ← ctx.flushFrames (b.buffered.drop index) b
  return if b.bufferedPc ≠ b.writtenPc then writeAdvancePC b (b.bufferedPc - b.writtenPc) else b

/-- `BufferChangePosition`. -/
def bufferChangePosition (stack : List Frame) (pos : TokenPosition) : List Frame :=
  match stack.getLast? with
  | none => stack
  | some top => stack.dropLast ++ [⟨top.id, pos⟩]

/-- `BufferPush`. -/
def bufferPush (stack : List Frame) (inlineId : ℕ) : List Frame :=
  stack ++ [⟨inlineId, initialPosition⟩]

/-- `IsOnBufferedStack`. -/
def isOnStack (stack : List Frame) (inlineId : ℕ) : Bool := stack.any fun f => f.id = inlineId

/-- The first caller that is on the stack.  A caller is an earlier id and the root is on the stack,
so the id is a bound for the number of rounds. -/
def commonParent (stack : List Frame) : ℕ → ℕ → ℕ
  | 0, id => id
  | rounds + 1, id =>
    if isOnStack stack id then id else commonParent stack rounds (ctx.callerInlineId id)

/-- The ids from the one above the parent up to the given one. -/
def toPush (parent : ℕ) : ℕ → ℕ → List ℕ
  | 0, _ => []
  | rounds + 1, id =>
    if id = parent then [] else toPush parent rounds (ctx.callerInlineId id) ++ [id]

/-- The changes of the stack for another inlining id: pops to a common caller, then pushes. -/
def enter (stack : List Frame) (inlineId : ℕ) : List Frame :=
  let parent := ctx.commonParent stack inlineId inlineId
  (ctx.toPush parent inlineId inlineId).foldl
    (fun stack callee =>
      bufferPush (bufferChangePosition stack (ctx.inlineIdToTokenPos (callee - 1))) callee)
    (stack.rdropWhile fun f => f.id ≠ parent)

/-- The flush before a change of the buffer. -/
def flushUnlessStackTracesOnly (b : Builder F) : Option (Builder F) :=
  if ctx.stackTracesOnly then some b else ctx.flushBuffer b

/-- `StartInliningInterval`: a source without a usable position or id changes nothing. -/
def startInliningInterval (b : Builder F) (source : InstructionSource) : Option (Builder F) := do
  if !source.tokenPos.isReal && !source.tokenPos.isSynthetic then return b
  let top ← b.buffered.getLast?
  if (top.id : ℤ) = source.inliningId then return b
  if source.inliningId < 0 then return b
  let b ← ctx.flushUnlessStackTracesOnly b
  return { b with buffered := ctx.enter b.buffered source.inliningId.toNat }

/-- `EndCodeSourceRange`: an empty range changes nothing. -/
def endCodeSourceRange (b : Builder F) (pcOffset : ℤ) (source : InstructionSource) :
    Option (Builder F) := do
  if pcOffset = b.bufferedPc then return b
  let b ← ctx.startInliningInterval b source
  let top ← b.buffered.getLast?
  if source.tokenPos = top.position then return { b with bufferedPc := pcOffset }
  let b ← ctx.flushUnlessStackTracesOnly b
  return { b with
    buffered := bufferChangePosition b.buffered source.tokenPos, bufferedPc := pcOffset }

/-- The common part of `NoteDescriptor` and `NoteNullCheck`. -/
def note (b : Builder F) (pcOffset : ℤ) (source : InstructionSource) : Option (Builder F) := do
  let b ← ctx.startInliningInterval b source
  ctx.flushBuffer { b with
    buffered := bufferChangePosition b.buffered source.tokenPos, bufferedPc := pcOffset }

end Context

/-- `UntaggedPcDescriptors::Kind`. -/
inductive Kind where
  | deopt
  | icCall
  | unoptStaticCall
  | runtimeCall
  | osrEntry
  | rewind
  | other
  | anyKind
  deriving DecidableEq

/-- The mask of `NoteDescriptor`; `kAnyKind` has all bits. -/
def Kind.canThrow : Kind → Bool
  | icCall | unoptStaticCall | runtimeCall | other | anyKind => true
  | deopt | osrEntry | rewind => false

/-- The calls of the builder. -/
inductive Call where
  | startInliningInterval (pcOffset : ℤ) (source : InstructionSource)
  | beginCodeSourceRange (pcOffset : ℤ) (source : InstructionSource)
  | endCodeSourceRange (pcOffset : ℤ) (source : InstructionSource)
  | noteDescriptor (kind : Kind) (pcOffset : ℤ) (source : InstructionSource)
  | noteNullCheck (pcOffset : ℤ) (source : InstructionSource) (nameIndex : ℤ)

namespace Context

variable {F : Type} [DecidableEq F] (ctx : Context F)

/-- One call. -/
def call (b : Builder F) : Call → Option (Builder F)
  | .startInliningInterval _ source => ctx.startInliningInterval b source
  | .beginCodeSourceRange _ source => ctx.startInliningInterval b source
  | .endCodeSourceRange pcOffset source => ctx.endCodeSourceRange b pcOffset source
  | .noteDescriptor kind pcOffset source =>
    if kind.canThrow then ctx.note b pcOffset source else some b
  | .noteNullCheck pcOffset source nameIndex => do
    let b ← ctx.note b pcOffset source
    return writeNullCheck b nameIndex

/-- The calls in turn. -/
def calls : Builder F → List Call → Option (Builder F)
  | b, [] => some b
  | b, c :: cs => do calls (← ctx.call b c) cs

/-- The builder after the last flush, which `Finalize` makes. -/
def finished (cs : List Call) : Option (Builder F) := do
  ctx.flushUnlessStackTracesOnly (← ctx.calls new cs)

/-- **The operations that the builder writes.** -/
def operations (cs : List Call) : List Item := (ctx.finished cs).elim [] Builder.stream

/-- The bytes of operations that pass the assertion of `Write`. -/
def encode (items : List Item) : Option (List UInt8) :=
  if ∀ i ∈ items, i.Fits then some (items.flatMap (Item.bytes ctx.dwarfStackTracesMode)) else none

/-- The map and its functions, after `Finalize`. -/
def build (cs : List Call) : Option (List UInt8 × List F) := do
  let b ← ctx.finished cs
  let map ← ctx.encode b.stream
  return (map, b.inlinedFunctions)

end Context

variable {F : Type} (ctx : Context F)

/-- The position of a function that a reader has just pushed. -/
def readerInitialPosition : TokenPosition :=
  if ctx.precompiledMode then .noSource else Context.initialPosition

/-- The pc offset and the stacks of functions and positions. -/
structure Position (F : Type) where
  pc : ℤ
  stack : List (F × TokenPosition)

/-- The operations of `GetInlinedFunctionsAt`. -/
def inlinedStep (functions : List F) (pcOffset : ℤ) (s : Position F) (i : Op × BitVec 32) :
    Option (Position F ⊕ List (F × TokenPosition)) :=
  match i.1 with
  | .changePosition => do
    let (f, oldToken) ← s.stack.getLast?
    return .inl { s with stack := s.stack.dropLast ++ [(f, i.2 + oldToken)] }
  | .advancePC =>
    let pc := s.pc + i.2.toInt
    if pc > pcOffset then some (.inr s.stack) else some (.inl { s with pc := pc })
  | .pushFunction => do
    let f ← if i.2.toInt < 0 then none else functions[i.2.toNat]?
    return .inl { s with stack := s.stack ++ [(f, readerInitialPosition ctx)] }
  | .popFunction =>
    if s.stack.length > 1 then some (.inl { s with stack := s.stack.dropLast }) else none
  | .nullCheck => some (.inl s)

/-- The functions with their positions, from the root on. -/
def getInlinedFunctionsAt (map : List UInt8) (functions : List F) (root : F) (pcOffset : ℤ) :
    Option (List (F × TokenPosition)) := do
  match ← Bytecode.interpret (readOp ctx.dwarfStackTracesMode) (inlinedStep ctx functions pcOffset)
      map.length ⟨0, [(root, readerInitialPosition ctx)]⟩ map with
  | .inl s => return s.stack
  | .inr stack => return stack

/-- The operations of `GetNullCheckNameIndexAt`, which only follow the pc offset. -/
def nullCheckStep (pcOffset : ℤ) (pc : ℤ) (i : Op × BitVec 32) : Option (ℤ ⊕ ℤ) :=
  match i.1 with
  | .changePosition => some (.inl pc)
  | .advancePC =>
    if pc + i.2.toInt ≤ pcOffset then some (.inl (pc + i.2.toInt)) else none
  | .pushFunction => some (.inl pc)
  | .popFunction => some (.inl pc)
  | .nullCheck => if pc = pcOffset then some (.inr i.2.toInt) else some (.inl pc)

/-- `GetNullCheckNameIndexAt`. -/
def getNullCheckNameIndexAt (map : List UInt8) (pcOffset : ℤ) : Option ℤ := do
  match ← Bytecode.interpret (readOp ctx.dwarfStackTracesMode) (nullCheckStep pcOffset)
      map.length 0 map with
  | .inl _ => none
  | .inr nameIndex => return nameIndex

end CodeSourceMap
