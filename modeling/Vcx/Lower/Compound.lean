import Vcx.Lib.Memory
import Vcx.Lower.IntConvertSound

/-!
# Compound assignment

`E1 op= E2` as `assign` lowers it: the right operand is converted to the type of the left one, and the
operator is one of that type. C++ has the operator in the operands' common type and converts the result.
-/

namespace Vcx.Compound
set_option autoImplicit false
open Vcx.Lib Vcx.Types Vcx.IntExpr
open Vcx.Constexpr (signed bits lowest highest promote common fits Operand cxxBinary)

variable {m : Model}

/-! ### The lowering -/

/-- `load` of an integer from memory. -/
def loadAt (m : Model) (k : Kind) (mem : Memory) (p : Nat) : Reg :=
  if inI64 m k then .i64 (mem.load 8 p)
  else match storeBytes m k with
    | 1 => .i32 (if isSigned k then (mem.load 1 p).signExtend 32 else (mem.load 1 p).zeroExtend 32)
    | 2 => .i32 (if isSigned k then (mem.load 2 p).signExtend 32 else (mem.load 2 p).zeroExtend 32)
    | _ => .i32 (mem.load 4 p)

/-- `store` -/
def storeAt (m : Model) (k : Kind) (mem : Memory) (p : Nat) (v : Reg) : Memory :=
  match v with
  | .i64 v => mem.store 8 p v
  | .i32 v =>
    match storeBytes m k with
    | 1 => mem.store 1 p (v.truncate 8)
    | 2 => mem.store 2 p (v.truncate 16)
    | _ => mem.store 4 p v

/-- The code of an lvalue: the object's address, and the memory its side effects leave. -/
abbrev Lvalue := Memory → Option (Nat × Memory)

/-- `compoundOp` -/
def compoundOp : Token.Kind → Option Token.Kind
  | .addAssign => some .add
  | .subAssign => some .sub
  | .mulAssign => some .mul
  | .quoAssign => some .quo
  | .remAssign => some .rem
  | .andAssign => some .and
  | .orAssign => some .or
  | .xorAssign => some .xor
  | .shlAssign => some .shl
  | .shrAssign => some .shr
  | _ => none

/-- `assign` of a compound assignment to an integer of type `a`, from an lvalue of type `b`: the value,
and the memory. -/
def assign (m : Model) (op : Token.Kind) (a b : Kind) (lhs rhs : Lvalue) (mem : Memory) : Option (Reg × Memory) := do
  let (slot, mem) ← lhs mem
  let (src, mem) ← rhs mem
  let v := loadAt m b mem src
  let op ← compoundOp op
  let l := loadAt m a mem slot
  let v ← arith op l (convert m v b a) a
  let v := convert m v a a
  some (v, storeAt m a mem slot v)

/-! ### What is asked of it -/

/-- An object of the type at an address has the value. -/
structure Holds (m : Model) (k : Kind) (mem : Memory) (p : Nat) (v : Int) : Prop where
  operand : Operand m k v
  bytes : mem.load (storeBytes m k) p = .ofInt _ v

/-- The value C++ has `E1 op= E2` store. -/
def cxxAssign (m : Model) (op : Token.Kind) (a b : Kind) (x y : Int) : Option Int :=
  ((compoundOp op).bind fun op => (cxxBinary m op a x b y).bind cxxValue).map (cxxConvert m a)

/-- Whatever the operands' code does and whatever values they have: where C++ defines the result, it is
what `E1` has in the end, and all else is as the operands' code leaves it, that of each run once. -/
def Right (m : Model) (op : Token.Kind) (a b : Kind) : Prop :=
  ∀ (lhs rhs : Lvalue) (mem mem₁ mem₂ : Memory) (slot src : Nat) (x y z : Int),
    lhs mem = some (slot, mem₁) → rhs mem₁ = some (src, mem₂) → Holds m a mem₂ slot x → Holds m b mem₂ src y →
      cxxAssign m op a b x y = some z →
        ∃ v, assign m op a b lhs rhs mem = some (v, mem₂.store (storeBytes m a) slot (.ofInt _ z))

/-! ### Where it does -/

/-- The right operand arrives as it is, up to the left one's width. -/
def operandKept (m : Model) (a b : Kind) : Bool := signKept m b || bits m a ≤ bits m b

/-- A quotient in the left operand's type is that in the common one: the common type has its width and
sign, or it has all values of the right operand. -/
def quotientKept (m : Model) (a b : Kind) : Bool :=
  bits m (common m a b) = bits m a && signed m (common m a b) = signed m a || fits m b a

/-- For `bool` a product, a disjunction, a shift to the right, and what has `bool` for its other operand too
and no carry. Else any shift to the left; one to the right of what has the sign it is taken to have;
quotients by a `bool`, or as `quotientKept` has them; and where the right operand arrives all others. -/
def kept (m : Model) (op : Token.Kind) (a b : Kind) : Bool :=
  if a = .bool then
    op = .mulAssign || op = .orAssign || op = .shrAssign ||
      b = .bool && (op = .quoAssign || op = .remAssign || op = .andAssign || op = .xorAssign)
  else match op with
    | .shlAssign => true
    | .shrAssign => signKept m a
    | .quoAssign | .remAssign => b = .bool || signKept m a && operandKept m a b && quotientKept m a b
    | _ => operandKept m a b

end Vcx.Compound
