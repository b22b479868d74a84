import Vcx.Lower.IntExprSound

/-!
# Conversions and operators on registers

The conversions of the lowering between integer types, enumerations among them, its operators on
operands converted to their common type, and what both are to leave in a register.
-/

namespace Vcx.IntConvert
set_option autoImplicit false
open Vcx.Lib Vcx.Types Vcx.IntExpr
open Vcx.Constexpr (signed bits lowest highest promote common narrow Operand cxxBinary wideKinds)

variable {m : Model}

/-! ### The lowering -/

/-- An integer type: a fundamental one, or an enumeration of an underlying type. -/
inductive IntType
  | basic (k : Kind)
  | enum (underlying : Kind)
  deriving DecidableEq, Repr

namespace IntType

/-- The type's representation. -/
def kind : IntType → Kind
  | basic k => k
  | enum k => k

@[simp] theorem kind_basic (k : Kind) : (basic k).kind = k := rfl

@[simp] theorem kind_enum (k : Kind) : (enum k).kind = k := rfl

/-- `isBool`: no enumeration is. -/
def isBool (t : IntType) : Bool := t = basic .bool

end IntType

/-- The change of width within `convert`, with the narrowing. -/
def resize (m : Model) (v : Reg) (sign : Bool) (to_ : Kind) : Reg :=
  match v, inI64 m to_ with
  | .i32 v, false => .i32 (narrowTo m v to_)
  | .i32 v, true => .i64 (if sign then v.signExtend 64 else v.zeroExtend 64)
  | .i64 v, true => .i64 v
  | .i64 v, false => .i32 (narrowTo m (v.truncate 32) to_)

/-- `convert` -/
def convertType (m : Model) (v : Reg) (from_ to_ : IntType) : Reg :=
  if to_.isBool ∧ ¬ from_.isBool then fromBool (truthOf v) else resize m v (isSigned from_.kind) to_.kind

/-- `arith`, the comparisons of `binaryI32` and `binaryI64` included. -/
def operate (op : Token.Kind) (l r : Reg) (common : Kind) : Option Reg :=
  if isComparison op then (compare op l r common).map fromBool else arith op l r common

/-- `!` -/
def lowerNot (v : Reg) : Reg := fromBool !truthOf v

/-! ### What is asked of it -/

/-- The operators of integers. -/
def operators : List Token.Kind :=
  [.add, .sub, .mul, .quo, .rem, .and, .or, .xor, .shl, .shr, .eql, .neq, .lss, .leq, .gtr, .geq]

/-- The type the operands are converted to: a shift's is the left operand's, promoted. -/
def operandType (m : Model) (op : Token.Kind) (a b : Kind) : Kind := if isShift op then promote m a else common m a b

def resultType (m : Model) (op : Token.Kind) (a b : Kind) : Kind :=
  if isComparison op then .bool else operandType m op a b

/-- The C++ value of a unary operator. -/
def cxxUnary (m : Model) (op : UnaryOp) (k : Kind) (v : Int) : Option Int :=
  match op with
  | .add => some v
  | .sub => (Constexpr.cxxMinus m k v).bind cxxValue
  | .tilde => some (Constexpr.convert m (promote m k) (-v - 1))

/-- A conversion, or an operator on operands of some types. Scoped enumerations are compared without a
promotion. -/
inductive Operation
  | convert (from_ to_ : IntType)
  | unary (op : UnaryOp) (t : IntType)
  | not (t : IntType)
  | binary (op : Token.Kind) (a b : IntType)
  | sameEnum (op : Token.Kind) (underlying : Kind)
  deriving DecidableEq, Repr

/-- The operation is one of integers up to `long long`. -/
def Operation.wellFormed : Operation → Bool
  | convert a b => isInt a.kind && isInt b.kind
  | unary _ t | not t => isInt t.kind
  | binary op a b => op ∈ operators && isInt a.kind && isInt b.kind
  | sameEnum op k => isComparison op && isInt k

/-- What `operate` leaves of two operands of types `a` and `b`, converted to `t`. -/
def operands (m : Model) (op : Token.Kind) (a b t : IntType) (x y : Int) : Option Reg :=
  operate op (convertType m (held m a.kind x) a t) (convertType m (held m b.kind y) b t) t.kind

/-- Of all values the code makes the register form of the C++ value. -/
def Operation.Right (m : Model) : Operation → Prop
  | convert a b => ∀ v, Operand m a.kind v →
    convertType m (held m a.kind v) a b = held m b.kind (cxxConvert m b.kind v)
  | unary op t => ∀ v w, Operand m t.kind v → cxxUnary m op t.kind v = some w →
    IntExpr.unary op (convertType m (held m t.kind v) t (.basic (promote m t.kind))) = held m (promote m t.kind) w
  | not t => ∀ v, Operand m t.kind v → lowerNot (held m t.kind v) = held m .bool (ofBool (v = 0))
  | binary op a b => ∀ x y z, Operand m a.kind x → Operand m b.kind y →
    (cxxBinary m op a.kind x b.kind y).bind cxxValue = some z →
      operands m op a b (.basic (operandType m op a.kind b.kind)) x y = some (held m (resultType m op a.kind b.kind) z)
  | sameEnum op k => ∀ x y z, Operand m k x → Operand m k y → (cxxBinary m op k x k y).bind cxxValue = some z →
    operands m op (.enum k) (.enum k) (.enum k) x y = some (held m .bool z)

/-! ### Where it does -/

/-- An unsigned `wchar_t` of 32 bits, which is widened with its sign. -/
def wideWChar (m : Model) (k : Kind) : Bool := !signKept m k && bits m k = 32

/-- The values of `a` are less than half of those of `b`. -/
def inLowerHalf (m : Model) (a b : Kind) : Bool := !signed m a && highest m a < 2 ^ (bits m b - 1)

/-- No conversion to an enumeration of `bool` but from `bool`, none to a narrow type that is unsigned and
taken for signed but of values it has with a clear highest bit, and none of an unsigned `wchar_t` of 32
bits to 64: neither by itself nor for an operator. And scoped enumerations of a type that is unsigned and
taken for signed are compared for equality only. -/
def Operation.kept (m : Model) : Operation → Bool
  | convert a b =>
    if b = .enum .bool then a.kind = .bool
    else (signKept m b.kind || bits m b.kind = 32 || inLowerHalf m a.kind b.kind) && !(wideWChar m a.kind && bits m b.kind = 64)
  | unary _ _ | not _ => true
  | binary op a b =>
    isShift op || bits m (common m a.kind b.kind) ≠ 64 || !(wideWChar m a.kind || wideWChar m b.kind)
  | sameEnum op k => op = .eql || op = .neq || signKept m k

/-- The value a register is widened to: of an unsigned `wchar_t` of 32 bits the highest bit is its sign. -/
def extended (m : Model) (k : Kind) (v : Int) : Int := if signKept m k ∨ v < 2 ^ 31 then v else v - 2 ^ 32

end Vcx.IntConvert
