import DartSdk.Compiler.Uint32.Selector

/-!
# Compiler/Uint32/Machine — running a program, and what is seen of it

One machine runs the program before and after the selection.  The values of definitions are 64-bit
words; a `Uint32` operation reads the low halves of its operands and leaves a zero-extended word, as
the conversions between the representations do.

What is executed next is up to a `Control`, which knows only what has been **seen** so far: the
operands of the instructions outside the selected set, the environments from which one may
deoptimize, and the results of boxes and comparisons.
-/

namespace Uint32

/-- The low half of a word, and a `Uint32` as a word. -/
def low (w : BitVec 64) : BitVec 32 := w.setWidth 32

/-- A word, zero-extended. -/
def wide (w : BitVec 32) : BitVec 64 := w.setWidth 64

/-- The unary operations on 64 bits. -/
def UnaryOp.eval (a : BitVec 64) : UnaryOp → BitVec 64
  | .bitNot => ~~~a
  | .negate => -a
  | .popcnt => BitVec.ofNat 64 ((List.range 64).countP a.getLsbD)
  | .ctz => BitVec.ofNat 64 ((List.range 64).findIdx a.getLsbD)

/-- `kUint32ShiftCountLimit`. -/
def shiftCountLimit : ℕ := 31

/-- A `BinaryUint32Op`: a shift by more than the limit clears the result, and both right shifts
bring in zeros. -/
def Uint32Op.eval (a b : BitVec 32) : Uint32Op → BitVec 32
  | .add => a + b
  | .sub => a - b
  | .mul => a * b
  | .bitAnd => a &&& b
  | .bitOr => a ||| b
  | .bitXor => a ^^^ b
  | .shl => if shiftCountLimit < b.toNat then 0 else a <<< b.toNat
  | .shr | .ushr => if shiftCountLimit < b.toNat then 0 else a >>> b.toNat

/-- The comparisons of two integers. -/
def Relation.holds (a b : ℤ) : Relation → Bool
  | .eq => a = b
  | .ne => a ≠ b
  | .lt => a < b
  | .le => a ≤ b
  | .gt => b < a
  | .ge => b ≤ a

/-- The integer that a comparison reads from a word. -/
def Representation.read (w : BitVec 64) : Representation → ℤ
  | .uint32 => (low w).toNat
  | _ => w.toInt

/-! ## Values and steps

A value is a word of 64 or 32 bits, or an object.  A run is given by the control, which says what is
reached next. -/

/-- The value of a definition: an integer, boxed or not, or another object. -/
inductive Value where
  | int (w : BitVec 64)
  | object (id : ℕ)
  deriving Repr, DecidableEq

namespace Value

/-- The word an integer operation reads. -/
def toWord : Value → BitVec 64
  | int w => w
  | object _ => 0

/-- Unboxing to an integer fails on any other object. -/
def unbox : Value → Option (BitVec 64)
  | int w => some w
  | object _ => none

end Value

/-- The values of the definitions. -/
abbrev Values := Def → Value

/-- The value that an instruction computes; `none` where it leaves the function, by an exception or
by deoptimization.  `result` tells what an instruction of another kind computes. -/
def Op.eval (result : List Value → Option Value) (σ : Values) : Op → Option Value
  | .constant v => some (.int v)
  | .binaryInt64 op l r => (op.eval (σ l).toWord (σ r).toWord).map .int
  | .unaryInt64 op x => some (.int (op.eval (σ x).toWord))
  | .boxInt64 x => some (.int (σ x).toWord)
  | .unboxInt64 x _ => (σ x).unbox.map .int
  | .comparison rel l r rep =>
    some (.int (if rel.holds (rep.read (σ l).toWord) (rep.read (σ r).toWord) then 1 else 0))
  | .binaryUint32 op l r => some (.int (wide (op.eval (low (σ l).toWord) (low (σ r).toWord))))
  | .bitNotUint32 x => some (.int (wide (~~~(low (σ x).toWord))))
  | .boxUint32 x => some (.int (wide (low (σ x).toWord)))
  | .unboxUint32 x _ => (σ x).unbox.map fun w => .int (wide (low w))
  | .other inputs _ => result (inputs.map σ)

/-- Boxes and comparisons show their results. -/
def Op.showsResult : Op → Bool
  | .boxInt64 _ | .boxUint32 _ | .comparison _ _ _ _ => true
  | _ => false

/-- What is seen of one step: the values of the watched definitions, the result if it is shown, and
whether the function goes on. -/
structure Observation where
  watched : List Value
  result : Option Value
  completed : Bool
  deriving Repr, DecidableEq

/-- The next instruction, with what it computes if it is of another kind. -/
structure Move where
  d : Def
  result : List Value → Option Value

/-- What is executed next, from what has been seen; `none` ends the run. -/
abbrev Control := List Observation → Option Move

/-- What the definitions hold, what has been observed, and whether the run goes on. -/
structure State where
  values : Values
  seen : List Observation
  running : Bool

/-- No definition has been computed. -/
def State.start : State := ⟨fun _ => .object 0, [], true⟩

/-- The definitions whose values are read from outside of the selected set when `d` is executed: the
inputs and the environment of an instruction that is not selected, and the environment of one that
is, if it may deoptimize. -/
def watchedAt (p : Program) (sel : Selected) (d : Def) : List Def :=
  match p[d]? with
  | none => []
  | some i =>
    if d ∈ sel then (if i.op.canDeoptimize then i.env else []) else i.op.inputs ++ i.env

/-- What is watched of the program after the selection. -/
def Selection.watched (s : Selection) : Def → List Def := watchedAt s.program s.selected

variable (p : Program) (watched : Def → List Def)

/-- Executing one instruction. -/
def execute (m : Move) (i : Instr) (s : State) : State :=
  let v := i.op.eval m.result s.values
  { values := match v with
      | some v => Function.update s.values m.d v
      | none => s.values
    seen := s.seen ++
      [⟨(watched m.d).map s.values, if i.op.showsResult then v else none, v.isSome⟩]
    running := v.isSome }

/-- The instruction that control reaches in a state. -/
def reached (control : Control) (s : State) : Option (Move × Instr) :=
  if s.running then
    (control s.seen).bind fun m => p[m.d]?.map fun i => (m, i)
  else none

/-- One instruction; where none is reached, the run stops. -/
def step (control : Control) (s : State) : State :=
  match reached p control s with
  | some (m, i) => execute watched m i s
  | none => { s with running := false }

/-- The state after `n` steps. -/
def run (control : Control) : ℕ → State
  | 0 => .start
  | n + 1 => step p watched control (run control n)

end Uint32
