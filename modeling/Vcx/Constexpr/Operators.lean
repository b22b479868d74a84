import Vcx.Constexpr.Memory

/-!
# Operators and conversions of the constant evaluator

The operators of `constexpr/eval.go` on values, where they read no object, and the conversions of casts.
-/

namespace Vcx.ConstEval
set_option autoImplicit false
open Vcx.Lib Vcx.Types
open Vcx.Constexpr (IntValue newBigInt evalIntBinary evalIntMinus PathStep Error)

/-- The machine's arithmetic on `float64`, by its bits. -/
structure Floats where
  add : BitVec 64 → BitVec 64 → BitVec 64
  sub : BitVec 64 → BitVec 64 → BitVec 64
  mul : BitVec 64 → BitVec 64 → BitVec 64
  quo : BitVec 64 → BitVec 64 → BitVec 64
  neg : BitVec 64 → BitVec 64
  eq : BitVec 64 → BitVec 64 → Bool
  lt : BitVec 64 → BitVec 64 → Bool
  le : BitVec 64 → BitVec 64 → Bool
  /-- The nearest value of an integer. -/
  ofInt : Int → BitVec 64
  /-- `int64(x)`. -/
  toInt : BitVec 64 → Int
  /-- `Float32bits(float32(x))`. -/
  toSingle : BitVec 64 → BitVec 32
  /-- `float64(Float32frombits(x))`. -/
  ofSingle : BitVec 32 → BitVec 64
  /-- `ParseFloat`. -/
  parse : String → Option (BitVec 64)

/-- What is the same in a whole evaluation and belongs to the target. -/
structure Target where
  model : Model
  hierarchy : Hierarchy
  floats : Floats

/-! ### Values -/

def Value.kind : Value → String
  | .void => "void"
  | .int _ => "int"
  | .float .. => "float"
  | .bool _ => "bool"
  | .nullptr => "nullptr"
  | .pointer .. => "pointer"
  | .reference .. => "reference"
  | .array .. => "array"
  | .record .. => "record"
  | .string .. => "string"

/-- `Type`. A record without a class has a type of its own, which is no one else's. -/
def Value.type : Value → Option Ty
  | .void => some (.basic .void)
  | .int v => some v.type
  | .float _ typ => some (typ.getD (.basic .double))
  | .bool _ => some (.basic .bool)
  | .nullptr => some (.basic .nullptr)
  | .pointer _ _ _ typ => some (typ.getD (.pointer (.basic .void)))
  | .reference _ _ typ => some (typ.getD (.lvalueReference (.basic .void)))
  | .array _ _ typ => typ
  | .record r _ _ => r.map Ty.record
  | .string _ typ => some typ

/-- `ToBool`. -/
def Value.toBool (f : Floats) : Value → Bool
  | .void | .nullptr => false
  | .int v => v.val ≠ 0
  | .float x _ => !f.eq x 0
  | .bool b => b
  | .pointer target .. | .reference target .. => target.isSome
  | .array .. | .record .. | .string .. => true

variable (T : Target)

/-- `NewInt`. -/
def newInt (v : Int) (typ : Option Ty) : Value := .int (newBigInt T.model T.hierarchy v typ)

def boolInt (b : Bool) : Int := if b then 1 else 0

/-- `NewString`. -/
def newString (s : List UInt8) : Value :=
  .string s (.array (.qualified { const := true } (.basic .char)) (s.length + 1) false)

def sizeOf_ (t : Ty) : Option Nat := sizeof T.model T.hierarchy (layoutInfo T.model T.hierarchy) t

def alignOf_ (t : Ty) : Option Nat := alignof T.model T.hierarchy (layoutInfo T.model T.hierarchy) t

/-! ### Types -/

/-- `IsBool`. -/
def isBool (t : Ty) : Bool :=
  match t.unqualify with
  | .basic .bool => true
  | _ => false

/-- `IsEnum`. -/
def isEnum (t : Ty) : Bool :=
  match t.unqualify with
  | .enum .. => true
  | _ => false

/-- `IsInteger`, the enumerations among them. -/
def isInteger (t : Ty) : Bool :=
  match t.unqualify with
  | .basic k => k.isInteger
  | .enum .. => true
  | _ => false

/-- `IsFloat`. -/
def isFloat (t : Ty) : Bool :=
  match t.unqualify with
  | .basic .float16 | .basic .float | .basic .double | .basic .longDouble => true
  | _ => false

def isArray : Ty → Bool
  | .array .. => true
  | _ => false

/-! ### Conversions -/

/-- `convertToType`: a cast's conversion. -/
def convertToType (v : Value) (target : Ty) : Value :=
  if isBool target then
    match v with
    | .int x => .bool (x.val ≠ 0)
    | .float x _ => .bool (!T.floats.eq x 0)
    | _ => v
  else if isInteger target || isEnum target then
    match v with
    | .int x => newInt T x.int64 (some target)
    | .float x _ => newInt T (T.floats.toInt x) (some target)
    | .bool b => newInt T (boolInt b) (some target)
    | _ => v
  else if isFloat target then
    match v with
    | .int x => .float (T.floats.ofInt x.val) (some target)
    | .float x _ => .float x (some target)
    | .bool b => .float (T.floats.ofInt (boolInt b)) (some target)
    | _ => v
  else v

/-- `bitCast`. -/
def bitCast (v : Value) (target : Option Ty) : Except Error Value :=
  match target with
  | none => .error (.nonConstexpr "__builtin_bit_cast to a type this evaluator cannot resolve")
  | some t =>
    let single := sizeOf_ T t = some 4
    let refused : Except Error Value :=
      .error (.nonConstexpr ("__builtin_bit_cast of a " ++ goType (some v) ++ " is not evaluated"))
    match v with
    | .float x _ =>
      if isInteger t then
        .ok (newInt T (wrap true 64 (if single then (T.floats.toSingle x).toNat else x.toNat)) (some t))
      else if isFloat t then .ok (.float x (some t))
      else refused
    | .int x =>
      -- `Uint64` leaves the sign out
      let bits : Int := x.val.natAbs % 2 ^ 64
      if isFloat t then
        .ok (.float (if single then T.floats.ofSingle (BitVec.ofInt 32 bits) else BitVec.ofInt 64 bits) (some t))
      else if isInteger t || isEnum t then .ok (newInt T x.int64 (some t))
      else refused
    | _ => refused

/-! ### Unary operators -/

/-- The operators of `evalUnary` that take a value. -/
def evalUnaryOp (op : Token.Kind) (v : Value) : Except Error Value :=
  match op with
  | .add => .ok v
  | .sub =>
    match v with
    | .int x => .ok (.int (evalIntMinus T.model T.hierarchy x))
    | .float x typ => .ok (.float (T.floats.neg x) (some (typ.getD (.basic .double))))
    | _ => .error (.ub ("unary - not supported on " ++ v.kind))
  | .not => .ok (.bool !v.toBool T.floats)
  | .tilde =>
    match v with
    | .int x => .ok (.int (newBigInt T.model T.hierarchy (-x.val - 1) (some x.type)))
    | _ => .error (.ub ("unary ~ not supported on " ++ v.kind))
  | _ => .error (.nonConstexpr "unsupported unary operator")

/-! ### Binary operators -/

/-- `evalFloatBinary`. -/
def evalFloatBinary (op : Token.Kind) (a b : BitVec 64) (typ : Option Ty) : Except Error Value :=
  match op with
  | .add => .ok (.float (T.floats.add a b) typ)
  | .sub => .ok (.float (T.floats.sub a b) typ)
  | .mul => .ok (.float (T.floats.mul a b) typ)
  | .quo =>
    if T.floats.eq b 0 then .error (.ub "floating-point division by zero") else .ok (.float (T.floats.quo a b) typ)
  | .eql => .ok (.bool (T.floats.eq a b))
  | .neq => .ok (.bool !T.floats.eq a b)
  | .lss => .ok (.bool (T.floats.lt a b))
  | .leq => .ok (.bool (T.floats.le a b))
  | .gtr => .ok (.bool (T.floats.lt b a))
  | .geq => .ok (.bool (T.floats.le b a))
  | .spaceship =>
    .ok (newInt T (if T.floats.lt a b then -1 else if T.floats.lt b a then 1 else 0) (some (.basic .int)))
  | _ => .error (.ub "binary op invalid on float")

/-- A value that `evalIntBinary` gives, which holds nothing. -/
def ofScalar : Constexpr.Value → Value
  | .int v => .int v
  | .bool b => .bool b
  | _ => .void

/-- The promotion of the boolean operands at the head of `evalBinaryOp`. Two booleans are compared as they are. -/
def promoteBool (op : Token.Kind) (v other : Value) : Value :=
  match v, other with
  | .bool b, .bool _ => if op = .eql ∨ op = .neq then v else newInt T (boolInt b) (some (.basic .int))
  | .bool b, _ => newInt T (boolInt b) (some (.basic .int))
  | _, _ => v

/-- What `evalBinaryOp` does with its promoted operands: it is left with `Equal` when it has no result of its own. -/
inductive Combined where
  | done (r : Except Error Value)
  | equal (negated : Bool)

/-- The number of a floating operand, an integer's nearest among them. -/
def floatOperand (v : Value) : BitVec 64 :=
  match v with
  | .float x _ => x
  | .int x => T.floats.ofInt x.int64
  | _ => T.floats.ofInt 0

/-- `evalBinaryOp` from the promoted operands on. -/
def combine (op : Token.Kind) (left right : Value) : Combined :=
  match left, right with
  | .pointer target offset path typ, .int k =>
    match op with
    | .add => .done (.ok (.pointer target (advance offset k.int64) path typ))
    | .sub => .done (.ok (.pointer target (advance offset (-k.int64)) path typ))
    | .eql => .equal false
    | .neq => .equal true
    | _ => .done (.error (.ub ("binary operator not applicable between " ++ left.kind ++ " and " ++ right.kind)))
  | .pointer target offset _ _, .pointer target' offset' _ _ =>
    match op with
    | .sub =>
      if target ≠ target' then .done (.error (.ub "pointer subtraction across different objects"))
      else .done (.ok (newInt T (advance offset (-offset')) (some (.basic .long))))
    | .eql => .equal false
    | .neq => .equal true
    | _ => .done (.error (.ub ("binary operator not applicable between " ++ left.kind ++ " and " ++ right.kind)))
  | .float x typ, _ => .done (evalFloatBinary T op x (floatOperand T right) (some (typ.getD (.basic .double))))
  | _, .float y typ => .done (evalFloatBinary T op (floatOperand T left) y (some (typ.getD (.basic .double))))
  | .int a, .int b => .done ((evalIntBinary T.model T.hierarchy op a b).map ofScalar)
  | _, _ =>
    match op with
    | .eql => .equal false
    | .neq => .equal true
    | _ => .done (.error (.ub ("binary operator not applicable between " ++ left.kind ++ " and " ++ right.kind)))

/-- The binary operator of a compound assignment. -/
def assignOp : Token.Kind → Option Token.Kind
  | .addAssign => some .add
  | .subAssign => some .sub
  | .mulAssign => some .mul
  | .quoAssign => some .quo
  | .remAssign => some .rem
  | .andAssign => some .and
  | .orAssign => some .or
  | .xorAssign => some .xor
  | .shlAssign => some .shl
  | .shrAssign => some .shr
  | _ => none

end Vcx.ConstEval
