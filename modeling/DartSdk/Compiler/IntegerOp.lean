import Mathlib.Tactic

/-!
# Compiler/IntegerOp — the binary operations on 64-bit integers

The kinds of a `BinaryInt64Op` and what they compute on words, as Dart has it: arithmetic wraps
around, division by zero and shifts by negative counts throw, `%` is never negative, and shifts take
any count.
-/

namespace Dart

/-- `Token::Kind` of a binary integer operation. -/
inductive BinaryOp where
  | add
  | sub
  | mul
  | truncDiv
  | mod
  | bitAnd
  | bitOr
  | bitXor
  | shl
  | shr
  | ushr
  deriving Repr, DecidableEq

namespace BinaryOp

/-- The operations whose right operand is a count. -/
def isShift : BinaryOp → Bool
  | shl | shr | ushr => true
  | _ => false

/-- The result on two words; `none` is an exception. -/
def eval (a b : BitVec 64) : BinaryOp → Option (BitVec 64)
  | add => some (a + b)
  | sub => some (a - b)
  | mul => some (a * b)
  | truncDiv => if b = 0 then none else some (a.sdiv b)
  | mod => if b = 0 then none else some (BitVec.ofInt 64 (a.toInt % b.toInt))
  | bitAnd => some (a &&& b)
  | bitOr => some (a ||| b)
  | bitXor => some (a ^^^ b)
  | shl => if b.toInt < 0 then none else some (if 64 ≤ b.toNat then 0 else a <<< b.toNat)
  | shr => if b.toInt < 0 then none else some (a.sshiftRight b.toNat)
  | ushr => if b.toInt < 0 then none else some (a >>> b.toNat)

theorem eval_shl {a b : BitVec 64} (hb : ¬ b.toInt < 0) : shl.eval a b = some (a <<< b.toNat) := by
  rw [eval, if_neg hb]
  split
  · rename_i hlarge
    rw [BitVec.shiftLeft_eq_zero hlarge]
    rfl
  · rfl

end BinaryOp

end Dart
