import DartSdk.Lib.Saturate
import DartSdk.Compiler.IntegerOp

/-!
# Compiler/Uint32/Selector — selecting 32-bit instructions

`IntegerInstructionSelector` replaces 64-bit operations by `Uint32` ones where only the low 32 bits
of a result are used.  It starts from the masks whose range fits, and adds definitions all of whose
uses — as inputs and in environments — are selected, until nothing changes.  The selected
definitions are then replaced, and comparisons between them become `Uint32` comparisons.

A program is the list of its instructions in block order; a definition is its index.
-/

namespace Uint32

open Dart

/-- A definition, by its index. -/
abbrev Def := ℕ

/-- `Token::Kind` of a `UnaryInt64Op`. -/
inductive UnaryOp where
  | bitNot
  | negate
  | popcnt
  | ctz
  deriving Repr, DecidableEq

/-- The kinds that a `BinaryUint32Op` can have. -/
inductive Uint32Op where
  | add
  | sub
  | mul
  | bitAnd
  | bitOr
  | bitXor
  | shl
  | shr
  | ushr
  deriving Repr, DecidableEq

/-- The condition of a comparison. -/
inductive Relation where
  | eq
  | ne
  | lt
  | le
  | gt
  | ge
  deriving Repr, DecidableEq

/-- `UnboxInstr::ValueMode`: with `checkType`, the instruction deoptimizes on any other type. -/
inductive ValueMode where
  | hasValidType
  | checkType
  deriving Repr, DecidableEq

/-- The input representation of a comparison. -/
inductive Representation where
  | tagged
  | int32
  | int64
  | uint32
  deriving Repr, DecidableEq

/-- The instructions.  `bitNotUint32` is the one `UnaryUint32Op` there is; `other` stands for every
instruction that the pass does not know, phis and parameters included. -/
inductive Op where
  | constant (value : BitVec 64)
  | binaryInt64 (op : BinaryOp) (left right : Def)
  | unaryInt64 (op : UnaryOp) (value : Def)
  | boxInt64 (value : Def)
  | unboxInt64 (value : Def) (mode : ValueMode)
  | comparison (rel : Relation) (left right : Def) (rep : Representation)
  | binaryUint32 (op : Uint32Op) (left right : Def)
  | bitNotUint32 (value : Def)
  | boxUint32 (value : Def)
  | unboxUint32 (value : Def) (mode : ValueMode)
  | other (inputs : List Def) (canDeoptimize : Bool)
  deriving Repr, DecidableEq

/-- The constant bounds of a range. -/
structure Range where
  min : ℤ
  max : ℤ
  deriving Repr, DecidableEq

/-- An instruction with its environment and its range, if one is known. -/
structure Instr where
  op : Op
  env : List Def
  range : Option Range
  deriving Repr, DecidableEq

/-- The instructions in order; an instruction is named by its index. -/
abbrev Program := List Instr

/-- The set of selected definitions, `selected_uint32_defs_`. -/
abbrev Selected := List Def

/-- The definitions that an operation reads. -/
def Op.inputs : Op → List Def
  | .constant _ => []
  | .binaryInt64 _ l r | .binaryUint32 _ l r => [l, r]
  | .unaryInt64 _ x | .bitNotUint32 x => [x]
  | .boxInt64 x | .boxUint32 x => [x]
  | .unboxInt64 x _ | .unboxUint32 x _ => [x]
  | .comparison _ l r _ => [l, r]
  | .other inputs _ => inputs

/-- `CanDeoptimize`: a 64-bit shift can after the call of its slow path. -/
def Op.canDeoptimize : Op → Bool
  | .binaryInt64 op _ _ => op.isShift
  | .unboxInt64 _ mode | .unboxUint32 _ mode => mode = .checkType
  | .other _ canDeoptimize => canDeoptimize
  | _ => false

/-- `BinaryUint32OpInstr::IsSupported`, with the kind of the `Uint32` operation. -/
def toUint32 : BinaryOp → Option Uint32Op
  | .add => some .add
  | .sub => some .sub
  | .mul => some .mul
  | .bitAnd => some .bitAnd
  | .bitOr => some .bitOr
  | .bitXor => some .bitXor
  | .shl => some .shl
  | .shr => some .shr
  | .ushr => some .ushr
  | .truncDiv | .mod => none

/-- `kMaxUint32`. -/
def maxUint32 : ℤ := 4294967295

/-- `Range::Fits(range, kUnboxedUint32)`. -/
def fitsUint32 : Option Range → Bool
  | none => false
  | some r => 0 ≤ r.min && r.max ≤ maxUint32

/-- `ConstructReplacementFor`; `none` where the source is unreachable. -/
def constructReplacementFor : Op → Option Op
  | .binaryInt64 op l r => (toUint32 op).map (.binaryUint32 · l r)
  | .unaryInt64 .bitNot x => some (.bitNotUint32 x)
  | .boxInt64 x => some (.boxUint32 x)
  | .unboxInt64 x mode => some (.unboxUint32 x mode)
  | _ => none

/-- `IsPotentialUint32Definition`. -/
def Op.isPotential : Op → Bool
  | .boxInt64 _ | .unboxInt64 _ _ => true
  | .binaryInt64 op _ _ => (toUint32 op).isSome
  | .unaryInt64 op _ => op = .bitNot
  | _ => false

/-! ## The selected definitions

The selection starts with the masks whose result fits 32 bits.  It grows with inputs of selected
definitions as long as all uses of an input are narrowing, too. -/

variable (p : Program)

/-- The operation of a definition. -/
def opOf (d : Def) : Option Op := p[d]?.map Instr.op

/-- The range that the analysis has given to a definition. -/
def rangeOf (d : Def) : Option Range := p[d]?.bind Instr.range

/-- `FindPotentialUint32Definitions`. -/
def potential : List Def :=
  (List.range p.length).filter fun d => (opOf p d).any Op.isPotential

/-- `IsUint32NarrowingDefinition`: a mask whose result fits. -/
def isNarrowing (d : Def) : Bool :=
  match opOf p d with
  | some (.binaryInt64 .bitAnd _ _) => fitsUint32 (rangeOf p d)
  | _ => false

/-- `FindUint32NarrowingDefinitions`. -/
def initialSet : Selected := (potential p).filter (isNarrowing p)

/-- Whether the use of `d` as an input of a selected instruction is narrowing: as the right operand
of a shift it is not, all its bits count there. -/
def Op.narrowsInput (d : Def) : Op → Bool
  | .binaryInt64 op _ r => !(op.isShift && r = d)
  | _ => true

/-- `AllUsesAreUint32Narrowing(input_use_list)`. -/
def inputUsesNarrowing (sel : Selected) (d : Def) : Bool :=
  (List.range p.length).all fun user =>
    (opOf p user).all fun op => d ∉ op.inputs || (user ∈ sel && op.narrowsInput d)

/-- `AllUsesAreUint32Narrowing(env_use_list)`. -/
def envUsesNarrowing (sel : Selected) (d : Def) : Bool :=
  (List.range p.length).all fun user => p[user]?.all fun i => d ∉ i.env || user ∈ sel

/-- `HasUses`. -/
def hasUses (d : Def) : Bool := p.any fun i => d ∈ i.op.inputs || d ∈ i.env

/-- The operands of a shift must fit where their high bits count. -/
def Op.operandsFit : Op → Bool
  | .binaryInt64 .shl _ r => fitsUint32 (rangeOf p r)
  | .binaryInt64 .shr l r | .binaryInt64 .ushr l r =>
    fitsUint32 (rangeOf p r) && fitsUint32 (rangeOf p l)
  | _ => true

/-- `CanBecomeUint32`. -/
def canBecomeUint32 (sel : Selected) (d : Def) : Bool :=
  match opOf p d with
  | some (.boxInt64 x) => x ∈ sel
  | some op =>
    op.operandsFit p && hasUses p d && inputUsesNarrowing p sel d && envUsesNarrowing p sel d
  | none => false

/-- `Propagate`.  Each sweep but the last selects a definition, which bounds their number. -/
def propagate : Option Selected :=
  saturate (canBecomeUint32 p) (potential p) ((potential p).length + 1) (initialSet p)

/-- `IsUint32Use`. -/
def isUint32Use (sel : Selected) (d : Def) : Bool :=
  d ∈ sel ||
    match opOf p d with
    | some (.constant v) => 0 ≤ v.toInt && v.toInt ≤ maxUint32
    | _ => false

/-- `NarrowUint32Uses` on one instruction. -/
def narrowUint32Uses (sel : Selected) : Op → Op
  | .comparison rel l r rep =>
    if (l ∈ sel || r ∈ sel) && (rep = .int64 || rep = .int32) && isUint32Use p sel l &&
        isUint32Use p sel r then
      .comparison rel l r .uint32
    else .comparison rel l r rep
  | op => op

/-- The range of a replacement. -/
def replacementRange (r : Range) : Range := if 0 ≤ r.min then r else ⟨0, maxUint32⟩

/-- `NarrowUint32Uses` and `ReplaceInstructions` on one instruction.  A replacement takes over the
environment. -/
def replaceInstr (sel : Selected) (d : Def) (i : Instr) : Instr :=
  if d ∈ sel then
    match constructReplacementFor i.op with
    | some op => ⟨op, i.env, i.range.map replacementRange⟩
    | none => i
  else { i with op := narrowUint32Uses p sel i.op }

/-- What the pass leaves: the selected definitions and the new program. -/
structure Selection where
  selected : Selected
  program : Program

/-- `Select`. -/
def select : Option Selection := do
  let sel ← propagate p
  return ⟨sel, p.mapIdx (replaceInstr p sel)⟩

end Uint32
