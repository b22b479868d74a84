import Vcx.Constexpr.Arith

/-!
# Integer expressions

The types `checkExpr` records for expressions of integers, the C++ types and values of them, and
the code the lowering emits, run on registers of 32 and of 64 bits.
-/

namespace Vcx.IntExpr
set_option autoImplicit false
open Vcx.Lib Vcx.Types
open Vcx.Constexpr (signed bits highest promote common narrow isSignedKind cxxBinary cxxMinus)

/-! ### Expressions -/

/-- The length an integer literal's suffix asks for. -/
inductive Length
  | plain | l | ll | z
  deriving DecidableEq, Repr

/-- An integer literal. -/
structure Literal where
  decimal : Bool
  unsigned : Bool
  length : Length
  value : Nat
  deriving DecidableEq, Repr

inductive UnaryOp
  | add | sub | tilde
  deriving DecidableEq, Repr

inductive Expr
  | var (x : Nat)
  | lit (l : Literal)
  | unary (op : UnaryOp) (e : Expr)
  | not (e : Expr)
  | binary (op : Token.Kind) (l r : Expr)
  | land (l r : Expr)
  | lor (l r : Expr)
  deriving Repr

/-- `isComparison` -/
def isComparison (op : Token.Kind) : Bool := op ∈ [.eql, .neq, .lss, .leq, .gtr, .geq]

def isShift (op : Token.Kind) : Bool := op ∈ [.shl, .shr]

def isArith (op : Token.Kind) : Bool := op ∈ [.add, .sub, .mul, .quo, .rem, .and, .or, .xor]

/-! ### Recorded types -/

/-- `IntegerRank` -/
def integerRank : Kind → Nat
  | .bool => 1
  | .char | .sChar | .uChar | .char8 => 2
  | .short | .uShort => 3
  | .char16 => 4
  | .int | .uInt | .wChar | .char32 => 5
  | .long | .uLong => 6
  | .longLong | .uLongLong => 7
  | .int128 | .uInt128 => 8
  | _ => 0

/-- The promotion within `CommonType`. -/
def promoteRank (k : Kind) : Kind := if integerRank k < integerRank .int then .int else k

/-- `CommonType` of integers: two operands of one type are not promoted. -/
def commonType (a b : Kind) : Kind :=
  if a = b then a
  else
    let a := promoteRank a
    let b := promoteRank b
    if a = b then a
    else if isSignedKind a = isSignedKind b then (if integerRank b < integerRank a then a else b)
    else
      let (s, u) := if isSignedKind a then (a, b) else (b, a)
      if integerRank s ≤ integerRank u then u else s

/-- The type `parseIntegerLiteral` evaluates a literal in. -/
def Literal.evaluated (l : Literal) : Kind :=
  match l.unsigned || l.length = .z, l.length with
  | true, .plain => .uInt
  | true, .l | true, .z => .uLong
  | true, .ll => .uLongLong
  | false, .plain => .int
  | false, .ll => .longLong
  | false, _ => .long

/-- What `EvalInt` gives for a literal. -/
def Literal.constVal (m : Model) (l : Literal) : Int :=
  wrap true 64 (wrap (isSignedKind l.evaluated) (bits m l.evaluated) l.value)

/-- `integerLiteralType` -/
def integerLiteralType (l : Literal) (val : Int) : Kind :=
  let u64 := val % 2 ^ 64
  if l.unsigned then
    match l.length with
    | .ll => .uLongLong
    | .l => if u64 ≤ 0xFFFFFFFF then .uLong else .uLongLong
    | _ => if u64 ≤ 0xFFFFFFFF then .uInt else .uLongLong
  else
    match l.length with
    | .ll => .longLong
    | .l => if -2147483648 ≤ val ∧ val ≤ 2147483647 then .long else .longLong
    | _ =>
      if -2147483648 ≤ val ∧ val ≤ 2147483647 then .int
      else if !l.decimal ∧ u64 ≤ 0xFFFFFFFF then .uInt
      else .longLong

/-- The type `CheckExpr` records: `decls` gives the variables' types. -/
def typeOf (m : Model) (decls : Nat → Kind) : Expr → Kind
  | .var x => decls x
  | .lit l => integerLiteralType l (l.constVal m)
  | .unary _ e => typeOf m decls e
  | .not _ | .land _ _ | .lor _ _ => .bool
  | .binary op l r =>
    if isComparison op then .bool
    else if isShift op then commonType (typeOf m decls l) (typeOf m decls l)
    else commonType (typeOf m decls l) (typeOf m decls r)

/-! ### Lowered code -/

/-- A register of the IR. -/
inductive Reg
  | i32 (v : BitVec 32)
  | i64 (v : BitVec 64)
  deriving DecidableEq, Repr

/-- `isSigned` of the lowering: `char` and `wchar_t` are signed to it. -/
def isSigned (k : Kind) : Bool :=
  !(k ∈ [.uChar, .uShort, .uInt, .uLong, .uLongLong, .uInt128, .bool, .char8, .char16, .char32])

/-- `storeBytes` -/
def storeBytes (m : Model) (k : Kind) : Nat := (m.basicSize k).getD 4

/-- `intReg`: whether an integer is in a register of 64 bits. -/
def inI64 (m : Model) (k : Kind) : Bool := 4 < storeBytes m k

/-- `load` of a variable that holds `v`. -/
def load (m : Model) (k : Kind) (v : Int) : Reg :=
  if inI64 m k then .i64 (.ofInt 64 v)
  else match storeBytes m k with
    | 1 => .i32 (if isSigned k then (BitVec.ofInt 8 v).signExtend 32 else (BitVec.ofInt 8 v).zeroExtend 32)
    | 2 => .i32 (if isSigned k then (BitVec.ofInt 16 v).signExtend 32 else (BitVec.ofInt 16 v).zeroExtend 32)
    | _ => .i32 (.ofInt 32 v)

/-- `narrow` -/
def narrowTo (m : Model) (v : BitVec 32) (to_ : Kind) : BitVec 32 :=
  let bits := 8 * storeBytes m to_
  if 32 ≤ bits then v
  else if isSigned to_ then (v <<< (32 - bits)).sshiftRight (32 - bits)
  else v &&& BitVec.ofNat 32 (2 ^ bits - 1)

/-- `truthOf` -/
def truthOf : Reg → Bool
  | .i32 v => v ≠ 0
  | .i64 v => v ≠ 0

/-- `fromBool` -/
def fromBool (c : Bool) : Reg := .i32 (if c then 1 else 0)

/-- `convert` between integers. -/
def convert (m : Model) (v : Reg) (from_ to_ : Kind) : Reg :=
  if to_ = .bool ∧ from_ ≠ .bool then fromBool (truthOf v)
  else match v, inI64 m to_ with
    | .i32 v, false => .i32 (narrowTo m v to_)
    | .i32 v, true => .i64 (if isSigned from_ then v.signExtend 64 else v.zeroExtend 64)
    | .i64 v, true => .i64 v
    | .i64 v, false => .i32 (narrowTo m (v.truncate 32) to_)

/-- The comparisons of `cmpI32`, `cmpI64`. -/
def compareOp {w : Nat} (op : Token.Kind) (l r : BitVec w) (signed : Bool) : Option Bool :=
  match op with
  | .eql => some (l = r)
  | .neq => some (l ≠ r)
  | .lss => some (if signed then l.slt r else l.ult r)
  | .leq => some (if signed then l.sle r else l.ule r)
  | .gtr => some (if signed then r.slt l else r.ult l)
  | .geq => some (if signed then r.sle l else r.ule l)
  | _ => none

/-- The operators of `binaryI32`, `binaryI64`. A division that traps and a shift by the width or
more give nothing. -/
def arithOp {w : Nat} (op : Token.Kind) (l r : BitVec w) (signed : Bool) : Option (BitVec w) :=
  match op with
  | .add => some (l + r)
  | .sub => some (l - r)
  | .mul => some (l * r)
  | .quo =>
    if r = 0 ∨ signed ∧ l = BitVec.intMin w ∧ r = -1 then none
    else some (if signed then l.sdiv r else l / r)
  | .rem =>
    if r = 0 ∨ signed ∧ l = BitVec.intMin w ∧ r = -1 then none
    else some (if signed then l.srem r else l % r)
  | .and => some (l &&& r)
  | .or => some (l ||| r)
  | .xor => some (l ^^^ r)
  | .shl => if r.toNat < w then some (l <<< r.toNat) else none
  | .shr => if r.toNat < w then some (if signed then l.sshiftRight r.toNat else l >>> r.toNat) else none
  | _ => none

/-- `arith`: both operands are in registers of one width. -/
def arith (op : Token.Kind) (l r : Reg) (common : Kind) : Option Reg :=
  match l, r with
  | .i32 l, .i32 r => (arithOp op l r (isSigned common)).map .i32
  | .i64 l, .i64 r => (arithOp op l r (isSigned common)).map .i64
  | _, _ => none

/-- `compare` -/
def compare (op : Token.Kind) (l r : Reg) (common : Kind) : Option Bool :=
  match l, r with
  | .i32 l, .i32 r => compareOp op l r (isSigned common)
  | .i64 l, .i64 r => compareOp op l r (isSigned common)
  | _, _ => none

/-- `unary` -/
def unary (op : UnaryOp) (v : Reg) : Reg :=
  match op, v with
  | .add, v => v
  | .sub, .i32 v => .i32 (0 - v)
  | .sub, .i64 v => .i64 (0 - v)
  | .tilde, .i32 v => .i32 (~~~v)
  | .tilde, .i64 v => .i64 (~~~v)

/-- What the code for an expression leaves in a register, and what `truth` makes of it as a
condition: a comparison is not widened first. -/
structure Lowered where
  value : Option Reg
  cond : Option Bool

def Lowered.ofValue (v : Option Reg) : Lowered := ⟨v, v.map truthOf⟩

def Lowered.ofCond (c : Option Bool) : Lowered := ⟨c.map fromBool, c⟩

/-- `expr`, and `truth` beside it: `env` gives the variables' values. -/
def lower (m : Model) (decls : Nat → Kind) (env : Nat → Int) : Expr → Lowered
  | .var x => .ofValue (some (load m (decls x) (env x)))
  | .lit l =>
    .ofValue (some (if inI64 m (integerLiteralType l (l.constVal m)) then .i64 (.ofInt 64 (l.constVal m))
      else .i32 (.ofInt 32 (l.constVal m))))
  | .unary op e => .ofValue ((lower m decls env e).value.map (unary op))
  | .not e => .ofValue ((lower m decls env e).cond.map fun c => fromBool !c)
  | .binary op l r =>
    let lt := typeOf m decls l
    let rt := typeOf m decls r
    let common := if isComparison op then commonType lt rt else typeOf m decls (.binary op l r)
    let x := (lower m decls env l).value.map (convert m · lt common)
    let y := (lower m decls env r).value.map (convert m · rt common)
    if isComparison op then .ofCond (x.bind fun x => y.bind fun y => compare op x y common)
    else .ofValue (x.bind fun x => y.bind fun y => arith op x y common)
  | .land l r =>
    -- the right operand is run where the left one is true
    .ofValue ((lower m decls env l).cond.bind fun c =>
      if c then (lower m decls env r).cond.map fromBool else some (fromBool false))
  | .lor l r =>
    .ofValue ((lower m decls env l).cond.bind fun c =>
      if c then some (fromBool true) else (lower m decls env r).cond.map fromBool)

/-! ### C++ -/

/-- The type `std::size_t` is. -/
def sizeKind (m : Model) : Kind := if m.sizePtr = 4 then .uInt else if m.sizeLong = 8 then .uLong else .uLongLong

/-- The signed type of its width. -/
def ssizeKind (m : Model) : Kind := if m.sizePtr = 4 then .int else if m.sizeLong = 8 then .long else .longLong

/-- The types a literal may have. -/
def Literal.candidates (m : Model) (l : Literal) : List Kind :=
  match l.unsigned, l.length, l.decimal with
  | false, .plain, true => [.int, .long, .longLong]
  | false, .plain, false => [.int, .uInt, .long, .uLong, .longLong, .uLongLong]
  | true, .plain, _ => [.uInt, .uLong, .uLongLong]
  | false, .l, true => [.long, .longLong]
  | false, .l, false => [.long, .uLong, .longLong, .uLongLong]
  | true, .l, _ => [.uLong, .uLongLong]
  | false, .ll, true => [.longLong]
  | false, .ll, false => [.longLong, .uLongLong]
  | true, .ll, _ => [.uLongLong]
  | false, .z, true => [ssizeKind m]
  | false, .z, false => [ssizeKind m, sizeKind m]
  | true, .z, _ => [sizeKind m]

/-- The C++ type of a literal: the first that has its value. A literal no type has is none. -/
def Literal.cxxType (m : Model) (l : Literal) : Option Kind :=
  (l.candidates m).find? fun k => (l.value : Int) ≤ highest m k

/-- The C++ type of an expression. -/
def cxxTypeOf (m : Model) (decls : Nat → Kind) : Expr → Kind
  | .var x => decls x
  | .lit l => (l.cxxType m).getD .int
  | .unary _ e => promote m (cxxTypeOf m decls e)
  | .not _ | .land _ _ | .lor _ _ => .bool
  | .binary op l r =>
    if isComparison op then .bool
    else if isShift op then promote m (cxxTypeOf m decls l)
    else common m (cxxTypeOf m decls l) (cxxTypeOf m decls r)

/-- A `bool` as an integer. -/
def ofBool (b : Bool) : Int := if b then 1 else 0

def cxxValue : Constexpr.Result → Option Int
  | .int _ v => some v
  | .bool b => some (ofBool b)
  | .ordering _ => none

/-- Conversion of a value to an integer type. -/
def cxxConvert (m : Model) (k : Kind) (v : Int) : Int := if k = .bool then ofBool (v ≠ 0) else Constexpr.convert m k v

/-- The C++ value of an expression; none where it is undefined. -/
def cxxEval (m : Model) (decls : Nat → Kind) (env : Nat → Int) : Expr → Option Int
  | .var x => some (env x)
  | .lit l => some l.value
  | .unary op e =>
    let k := cxxTypeOf m decls e
    (cxxEval m decls env e).bind fun v =>
      match op with
      | .add => some v
      | .sub => (cxxMinus m k v).bind cxxValue
      | .tilde => some (Constexpr.convert m (promote m k) (-v - 1))
  | .not e => (cxxEval m decls env e).map fun v => ofBool (v = 0)
  | .binary op l r =>
    (cxxEval m decls env l).bind fun x => (cxxEval m decls env r).bind fun y =>
      (cxxBinary m op (cxxTypeOf m decls l) x (cxxTypeOf m decls r) y).bind cxxValue
  | .land l r =>
    (cxxEval m decls env l).bind fun x =>
      if x ≠ 0 then (cxxEval m decls env r).map fun y => ofBool (y ≠ 0) else some 0
  | .lor l r =>
    (cxxEval m decls env l).bind fun x =>
      if x ≠ 0 then some 1 else (cxxEval m decls env r).map fun y => ofBool (y ≠ 0)

/-- The integer types up to `long long`. -/
def isInt (k : Kind) : Bool := k.isInteger && !(k ∈ [.int128, .uInt128])

/-- The operators are those on integers, the variables are integers, and every literal has a type. -/
def Expr.wellFormed (m : Model) (decls : Nat → Kind) : Expr → Bool
  | .var x => isInt (decls x)
  | .lit l => (l.cxxType m).isSome
  | .unary _ e | .not e => e.wellFormed m decls
  | .binary op l r => (isArith op || isShift op || isComparison op) && l.wellFormed m decls && r.wellFormed m decls
  | .land l r | .lor l r => l.wellFormed m decls && r.wellFormed m decls

/-! ### Where they agree -/

/-- The literals whose value the type their suffix names has, `long` counted as `int`; of those with a
suffix `z` none where `std::size_t` is `unsigned long`, and where it is `unsigned long long` only what
is taken for a `long long` by its low 32 bits. -/
def Literal.typed (m : Model) (l : Literal) : Bool :=
  match l.unsigned, l.length with
  | false, .plain | false, .l => l.value < 2 ^ 31
  | true, .plain | true, .l => l.value < 2 ^ 32
  | false, .ll => l.value < 2 ^ 63
  | true, .ll => l.value < 2 ^ 64
  | false, .z => m.sizePtr = 4 || m.sizeLong = 4 && l.decimal && 2 ^ 31 ≤ l.value % 2 ^ 32
  | true, .z => m.sizePtr = 4

/-- `wchar_t` or `char32_t`, which `CommonType` does not promote. -/
def unpromoted (k : Kind) : Bool := k = .wChar || k = .char32

/-- A signed type of higher rank that has not all values of the unsigned one. -/
def outranks (m : Model) (s u : Kind) : Bool :=
  signed m s && !signed m u && integerRank u < integerRank s && 5 ≤ integerRank u && bits m s ≤ bits m u

/-- The operand types that `CommonType` has the C++ type of: no two narrow ones of one type, no
`wchar_t` or `char32_t` beside what does not outrank it, no `long long` beside an `unsigned long` of
its width, nor any such pair. -/
def commonKept (m : Model) (a b : Kind) : Bool :=
  if a = b then !narrow a
  else !((unpromoted a || unpromoted b) && integerRank a ≤ 5 && integerRank b ≤ 5 && b ≠ .uInt) &&
    !outranks m a b && !outranks m b a

/-- Every literal is typed by its suffix, no operand of a unary operator or left operand of a shift is
of a narrow type, and the operands of every other arithmetic operator are of types `commonKept`. -/
def typesKept (m : Model) (decls : Nat → Kind) : Expr → Bool
  | .var _ => true
  | .lit l => l.typed m
  | .unary _ e => !narrow (cxxTypeOf m decls e) && typesKept m decls e
  | .not e => typesKept m decls e
  | .land l r | .lor l r => typesKept m decls l && typesKept m decls r
  | .binary op l r =>
    typesKept m decls l && typesKept m decls r &&
      (if isComparison op then true
        else if isShift op then !narrow (cxxTypeOf m decls l)
        else commonKept m (cxxTypeOf m decls l) (cxxTypeOf m decls r))

/-- The type is signed to the lowering if it is. -/
def signKept (m : Model) (k : Kind) : Bool := isSigned k = signed m k

/-- The operand types of a comparison: one type, or a common type of the C++ one's width and sign. -/
def comparedKept (m : Model) (a b : Kind) : Bool :=
  a = b || bits m (commonType a b) = bits m (common m a b) && isSigned (commonType a b) = signed m (common m a b)

/-- The variables are signed to the lowering if they are, no literal with a suffix `z` has more than 32
bits, and the operands of comparisons are of types `comparedKept`. -/
def valuesKept (m : Model) (decls : Nat → Kind) : Expr → Bool
  | .var x => signKept m (decls x)
  | .lit l => l.length ≠ .z || l.value < 2 ^ 32
  | .unary _ e | .not e => valuesKept m decls e
  | .land l r | .lor l r => valuesKept m decls l && valuesKept m decls r
  | .binary op l r =>
    valuesKept m decls l && valuesKept m decls r &&
      (!isComparison op || comparedKept m (cxxTypeOf m decls l) (cxxTypeOf m decls r))

/-- The recorded type of an expression and of all its parts is the C++ one. -/
def typesRight (m : Model) (decls : Nat → Kind) : Expr → Prop
  | .var x => typeOf m decls (.var x) = cxxTypeOf m decls (.var x)
  | .lit l => typeOf m decls (.lit l) = cxxTypeOf m decls (.lit l)
  | .unary op e => typeOf m decls (.unary op e) = cxxTypeOf m decls (.unary op e) ∧ typesRight m decls e
  | .not e => typeOf m decls (.not e) = cxxTypeOf m decls (.not e) ∧ typesRight m decls e
  | .binary op l r =>
    typeOf m decls (.binary op l r) = cxxTypeOf m decls (.binary op l r) ∧ typesRight m decls l ∧ typesRight m decls r
  | .land l r => typeOf m decls (.land l r) = cxxTypeOf m decls (.land l r) ∧ typesRight m decls l ∧ typesRight m decls r
  | .lor l r => typeOf m decls (.lor l r) = cxxTypeOf m decls (.lor l r) ∧ typesRight m decls l ∧ typesRight m decls r

/-- The register that holds a value of a type. -/
def held (m : Model) (k : Kind) (v : Int) : Reg := if inI64 m k then .i64 (.ofInt 64 v) else .i32 (.ofInt 32 v)

end Vcx.IntExpr
