import Vcx.Constexpr.Value
import Vcx.Token

/-!
# Integer arithmetic of the constant evaluator

`evalIntBinary`, and unary minus of an integer. Operands are neither promoted nor converted:
the result has the left operand's type, the larger width, and is signed when both operands
are.
-/

namespace Vcx.Constexpr
set_option autoImplicit false
open Vcx.Lib Vcx.Types

/-- The result of an operator that has one on all integers, and of the shifts within range. -/
def intResult (a b : IntValue) (res : Int) : Value :=
  .int ({ val := res, bitWidth := max a.bitWidth b.bitWidth, isSigned := a.isSigned && b.isSigned,
          typ := some a.type } : IntValue).normalize

/-- `fmt` of the shift that is out of range. -/
def shiftRangeMsg (shift : Int) (bitWidth : Nat) : String :=
  "shift count " ++ toString shift ++ " out of range [0, " ++ toString bitWidth ++ ")"

/-- `evalIntBinary`. -/
def evalIntBinary (m : Model) (h : Hierarchy) (op : Token.Kind) (a b : IntValue) : Except Error Value :=
  match op with
  | .add => .ok (intResult a b (a.val + b.val))
  | .sub => .ok (intResult a b (a.val - b.val))
  | .mul => .ok (intResult a b (a.val * b.val))
  | .quo =>
    if b.val = 0 then .error (.ub "division by zero in constant expression")
    else .ok (intResult a b (a.val.tdiv b.val))
  | .rem =>
    if b.val = 0 then .error (.ub "modulo by zero in constant expression")
    else .ok (intResult a b (a.val.tmod b.val))
  | .and => .ok (intResult a b (a.val.land b.val))
  | .or => .ok (intResult a b (a.val.lor b.val))
  | .xor => .ok (intResult a b (a.val.xor b.val))
  | .shl =>
    if b.int64 < 0 ∨ (a.bitWidth : Int) ≤ b.int64 then .error (.ub (shiftRangeMsg b.int64 a.bitWidth))
    else .ok (intResult a b (a.val * 2 ^ b.int64.toNat))
  | .shr =>
    if b.int64 < 0 ∨ (a.bitWidth : Int) ≤ b.int64 then .error (.ub (shiftRangeMsg b.int64 a.bitWidth))
    else .ok (intResult a b (a.val / 2 ^ b.int64.toNat))
  | .eql => .ok (.bool (a.val = b.val))
  | .neq => .ok (.bool (a.val ≠ b.val))
  | .lss => .ok (.bool (a.val < b.val))
  | .leq => .ok (.bool (a.val ≤ b.val))
  | .gtr => .ok (.bool (b.val < a.val))
  | .geq => .ok (.bool (b.val ≤ a.val))
  | .spaceship => .ok (.int (newBigInt m h (Int.sign (a.val - b.val)) (some (.basic .int))))
  | _ => .error (.nonConstexpr "unknown binary operator")

/-- `-x` of an integer, as `evalUnary` has it. -/
def evalIntMinus (m : Model) (h : Hierarchy) (v : IntValue) : IntValue := newBigInt m h (-v.val) (some v.type)

end Vcx.Constexpr
