import Vcx.Lib.Lexicographic
import Vcx.Lower.BitFieldSound

/-!
# Defaulted comparisons

`lower/compare.go`. The body of a defaulted `operator==` or `operator<=>` compares one
subobject after the other and leaves at the first that differs: a chain of blocks, each with
one test, here the list of the tests. A subobject of class type is compared by its class's
own operator, any other by a load of its declared type from both objects.

What the operators of the classes of subobjects do, and how the target compares
floating-point numbers, is left open (`Env`).
-/

namespace Vcx.Comparison
set_option autoImplicit false
open Vcx.Lib Vcx.Types
open Vcx.Lower (isSigned signedKind)

/-- The two operators that can be defaulted. -/
inductive Op where
  | equality | spaceship
  deriving DecidableEq, Repr

def Op.name : Op → String
  | .equality => "operator=="
  | .spaceship => "operator<=>"

/-- The target's comparison of floating-point numbers of a width in bytes. -/
structure Floats where
  order : (n : Nat) → BitVec (8 * n) → BitVec (8 * n) → Order
  swap : ∀ n x y, order n y x = (order n x y).swap

/-- What the code of a comparison runs in: the target's floating-point numbers, what the operators of
other classes answer for the objects at two addresses, and where an object's virtual bases are. An
operator is a class and the position of one of its methods, or what else its overload resolution finds. -/
structure Env where
  floats : Floats
  equal : Nat → Option Nat → Memory → Nat → Nat → Bool
  order : Nat → Option Nat → Memory → Nat → Nat → Order
  virtualBase : Memory → Nat → Nat → Nat

/-- The ordering classes' value for an outcome, one signed byte, in a register. -/
def word : Order → BitVec 32
  | .less => -1
  | .equal => 0
  | .greater => 1
  | .unordered => -128

/-! ### Registers -/

/-- The register types. -/
inductive RegType where
  | none | i32 | i64 | i128 | f32 | f64 | ptr
  deriving DecidableEq, Repr

variable (m : Model) (h : Hierarchy)

/-- A value in a register. -/
inductive Reg where
  | i32 (x : BitVec 32)
  | i64 (x : BitVec 64)
  | i128 (x : BitVec 128)
  | f32 (x : BitVec (8 * 4))
  | f64 (x : BitVec (8 * 8))
  | ptr (x : BitVec (8 * m.sizePtr))

/-- `intReg`. -/
def intReg (k : Kind) : RegType :=
  match m.basicSize k with
  | some n => if 8 < n then .i128 else if 4 < n then .i64 else .i32
  | none => .i32

/-- `regType` of a fundamental type. -/
def basicReg : Kind → RegType
  | .void => .none
  | .float => .f32
  | .double | .longDouble => .f64
  | k => intReg m k

/-- `regType`. -/
def regType (t : Ty) : RegType :=
  match t.unqualify with
  | .basic k => basicReg m k
  | .enum _ (some k) _ => basicReg m k
  | .enum _ none _ => .i32
  | .memberPointer cls elem =>
    if memberPointerSize m h cls elem = 4 then .i32 else if elem.isFunc then .ptr else .i64
  | .pointer _ | .array .. | .func .. | .blockPointer _ | .lvalueReference _ | .rvalueReference _ | .record _ => .ptr
  | .qualified .. | .dependent _ => .none

/-- `storeBytes`. -/
def storeBytes (t : Ty) : Nat := (sizeof m h (layoutInfo m h) t).getD 4

/-- `load` of a scalar. -/
def load (mem : Memory) (src : Nat) (t : Ty) : Reg m :=
  match regType m h t with
  | .i128 => .i128 (mem.load 16 src)
  | .i64 => .i64 (mem.load 8 src)
  | .f32 => .f32 (mem.load 4 src)
  | .f64 => .f64 (mem.load 8 src)
  | .ptr => .ptr (mem.load m.sizePtr src)
  | .i32 | .none =>
    match storeBytes m h t with
    | 1 => .i32 (if isSigned t then (mem.load 1 src).signExtend 32 else (mem.load 1 src).setWidth 32)
    | 2 => .i32 (if isSigned t then (mem.load 2 src).signExtend 32 else (mem.load 2 src).setWidth 32)
    | _ => .i32 (mem.load 4 src)

variable {m} in
/-- `scalarEqual`: no answer where there is no case for the registers. -/
def scalarEqual (floats : Floats) (l r : Reg m) : Option Bool :=
  match l, r with
  | .i32 x, .i32 y => some (x == y)
  | .i64 x, .i64 y => some (x == y)
  | .f64 x, .f64 y => some (floats.order 8 x y = .equal)
  | .f32 x, .f32 y => some (floats.order 4 x y = .equal)
  | .ptr x, .ptr y => some (x == y)
  | _, _ => none

/-- The selects at the end of `threeWay`. -/
def select (less greater equal : Bool) : BitVec 32 :=
  let v : BitVec 32 := if equal then 0 else -128
  let v := if greater then 1 else v
  if less then -1 else v

/-- The selects for two integers. -/
def selectInt {w : Nat} (signed : Bool) (x y : BitVec w) : BitVec 32 :=
  if signed then select (x.slt y) (y.slt x) (x == y) else select (x.ult y) (y.ult x) (x == y)

/-- The selects for two floating-point numbers. -/
def selectFloat (floats : Floats) {n : Nat} (x y : BitVec (8 * n)) : BitVec 32 :=
  select (floats.order n x y = .less) (floats.order n y x = .less) (floats.order n x y = .equal)

variable {m} in
/-- `threeWay`: no answer where there is no case for the registers. -/
def threeWay (floats : Floats) (l r : Reg m) (common : Ty) : Option (BitVec 32) :=
  match l, r with
  | .i32 x, .i32 y => some (selectInt (isSigned common) x y)
  | .i64 x, .i64 y => some (selectInt (isSigned common) x y)
  | .f64 x, .f64 y => some (selectFloat floats x y)
  | .f32 x, .f32 y => some (selectFloat floats x y)
  | .ptr x, .ptr y => some (selectInt false x y)
  | _, _ => none

/-! ### The chain of tests -/

/-- One test of the two objects: by the `i`th method of the class of the subobjects at an offset, or of
the scalars there. -/
inductive Test where
  | call (c i off : Nat)
  | scalar (t : Ty) (off : Nat)
  deriving Repr

/-- `comparisonOf`: the first method of that name with one parameter, or two for a friend or static one,
that has a symbol (`declaredFor`). -/
def comparisonOf (declared : Nat → Nat → Bool) (c : Nat) (op : Op) : Option Nat :=
  ((h.record c).methods.zipIdx.find? fun (f, i) =>
    f.name == op.name && f.func.any (fun sig => sig.params.length == if f.friend || f.static then 2 else 1) &&
      declared c i).map Prod.snd

/-- `sizeAlign`'s size: never nothing. -/
def elemSize (t : Ty) : Nat :=
  match sizeof m h (layoutInfo m h) t with
  | some n => if n = 0 then 1 else n
  | none => 1

variable (declared : Nat → Nat → Bool) (op : Op)

/-- `compareSubobject` on what is no array; nothing is where an error is reported. -/
def compareLeaf (t : Ty) (off : Nat) : Option Test :=
  match t.asRecord with
  | some c => (comparisonOf h declared c op).map fun i => .call c i off
  | none => if regType m h t = .i128 then none else some (.scalar t off)

/-- `compareSubobject`. -/
def compareSubobject : Ty → Nat → Option (List Test)
  | .array elem len _, off =>
    ((List.range len).mapM fun i => compareSubobject elem (off + i * elemSize m h elem)).map List.flatten
  | .qualified _ (.array elem len _), off =>
    ((List.range len).mapM fun i => compareSubobject elem (off + i * elemSize m h elem)).map List.flatten
  | t, off => (compareLeaf m h declared op t off).map fun test => [test]

variable (r : Nat) (info : RecordInfo)

/-- The turn of the `i`th base in `defaultedComparison`. -/
def baseTests (b : BaseSpec × Nat) : Option (List Test) :=
  if b.1.virtual then some [] else compareSubobject m h declared op b.1.type (info.baseOffsets.getD b.2 0)

/-- The turn of the `i`th field. -/
def fieldTests (f : Field × Nat) : Option (List Test) :=
  compareSubobject m h declared op f.1.type (info.fieldOffsets.getD f.2 0)

/-- `defaultedComparison`: the tests of the bases and of the fields. -/
def defaultedComparison : Option (List Test) :=
  ((h.record r).bases.zipIdx.mapM (baseTests m h declared op info)).bind fun bases =>
    ((h.record r).fields.zipIdx.mapM (fieldTests m h declared op info)).map fun fields => bases.flatten ++ fields.flatten

section

variable (env : Env) (mem : Memory) (this other : Nat)

/-- Whether a test of `==` goes on. -/
def Test.agrees : Test → Bool
  | .call c i off => env.equal c (some i) mem (this + off) (other + off)
  | .scalar t off => (scalarEqual env.floats (load m h mem (this + off) t) (load m h mem (other + off) t)).getD false

/-- The ordering a test of `<=>` finds. -/
def Test.order : Test → BitVec 32
  | .call c i off => word (env.order c (some i) mem (this + off) (other + off))
  | .scalar t off => (threeWay env.floats (load m h mem (this + off) t) (load m h mem (other + off) t) t).getD 0

/-- The chain for `==`. -/
def runEquality : List Test → Bool
  | [] => true
  | test :: rest => if test.agrees m h env mem this other then runEquality rest else false

/-- The chain for `<=>`: what decided went through the byte `__order`. -/
def runSpaceship : List Test → BitVec 32
  | [] => 0
  | test :: rest =>
    let order := test.order m h env mem this other
    if order = 0 then runSpaceship rest else (order.setWidth 8).signExtend 32

end

/-! ### What a defaulted comparison compares -/

/-- The `n` bits from the bit address `p` on, as a number. -/
def bitsAt (mem : Memory) (p : Nat) : Nat → Nat
  | 0 => 0
  | n + 1 => (mem.bit (p + n)).toNat * 2 ^ n + bitsAt mem p n

/-- The same, in two's complement when it is signed. -/
def intAt (mem : Memory) (p n : Nat) (signed : Bool) : Int :=
  if signed && mem.bit (p + (n - 1)) && n != 0 then bitsAt mem p n - (2 ^ n : Nat) else bitsAt mem p n

/-- How two integers compare. -/
def orderInt (x y : Int) : Order := if x < y then .less else if y < x then .greater else .equal

/-- What is in the bytes of a scalar: an integer of so many bits, a floating-point number of so many bytes,
or nothing that matters. -/
inductive Held where
  | int (bits : Nat) (signed : Bool)
  | float (bytes : Nat)
  | nothing
  deriving DecidableEq, Repr

/-- A fundamental type's values. The lowering has `long double` in a `double`. -/
def heldBasic : Kind → Held
  | .float16 => .float 2
  | .float => .float 4
  | .double | .longDouble => .float 8
  | .nullptr => .nothing
  | k => .int (8 * (m.basicSize k).getD 0) (signedKind m k)

/-- A scalar type's values. A pointer is an address, and so is a pointer to member function in the
lowering; a pointer to a data member is an offset. -/
def held (t : Ty) : Held :=
  match t.unqualify with
  | .basic k => heldBasic m k
  | .enum _ (some k) _ => heldBasic m k
  | .enum _ none _ => .int (8 * m.sizeInt) true
  | .memberPointer cls elem =>
    if elem.isFunc then .int (8 * m.sizePtr) false else .int (8 * memberPointerSize m h cls elem) true
  | _ => .int (8 * m.sizePtr) false

/-- The comparison of two scalars at two addresses. -/
def Held.order (env : Env) (mem : Memory) (x y : Nat) : Held → Order
  | .int n signed => orderInt (intAt mem (8 * x) n signed) (intAt mem (8 * y) n signed)
  | .float n => env.floats.order n (mem.load n x) (mem.load n y)
  | .nothing => .equal

/-- Where a subobject is: at an offset, or the virtual base of a class, wherever the object has it. -/
inductive Place where
  | fixed (off : Nat)
  | shared (c : Nat)
  deriving DecidableEq, Repr

def Place.address (env : Env) (mem : Memory) (object : Nat) : Place → Nat
  | .fixed off => object + off
  | .shared c => env.virtualBase mem object c

/-- A subobject that is compared: an object of a class, a scalar, or a bit-field's own bits. -/
inductive Part where
  | object (c : Nat) (place : Place)
  | scalar (t : Ty) (off : Nat)
  | bits (t : Ty) (lo width : Nat)
  deriving Repr

/-- The elements of a subobject, in the order of their addresses. -/
def leaves : Ty → Nat → List (Ty × Nat)
  | .array elem len _, off => (List.range len).flatMap fun i => leaves elem (off + i * elemSize m h elem)
  | .qualified _ (.array elem len _), off => (List.range len).flatMap fun i => leaves elem (off + i * elemSize m h elem)
  | t, off => [(t, off)]

def leafPart (t : Ty) (off : Nat) : Part :=
  match t.asRecord with
  | some c => .object c (.fixed off)
  | none => .scalar t off

/-- What a base-specifier puts in the list of subobjects. -/
def baseParts (b : BaseSpec) (off : Nat) : List Part :=
  match b.cls with
  | some c => [.object c (if b.virtual then .shared c else .fixed off)]
  | none => []

/-- What a member puts there: unnamed bit-fields are no members, and a bit-field wider than its type
has the type's bits. -/
def fieldParts (f : Field) (off : Nat) (bitOff : Int) : List Part :=
  if f.bitField then
    if f.name = "" then []
    else [.bits f.type (8 * off + bitOff).toNat (min f.width (8 * (sizeof m h (layoutInfo m h) f.type).getD 0))]
  else (leaves m h f.type off).map fun (t, o) => leafPart t o

/-- The bases and then the members, arrays element by element. -/
def parts : List Part :=
  (h.record r).bases.zipIdx.flatMap (fun (b, i) => baseParts b (info.baseOffsets.getD i 0)) ++
    (h.record r).fields.zipIdx.flatMap fun (f, i) =>
      fieldParts m h f (info.fieldOffsets.getD i 0) (info.bitOffsets.getD i 0)

section

variable (resolved : Nat → Option Nat) (env : Env) (mem : Memory) (this other : Nat)

/-- How `<=>` compares two subobjects; of a class, by the operator overload resolution finds. -/
def Part.order : Part → Order
  | .object c place => env.order c (resolved c) mem (place.address env mem this) (place.address env mem other)
  | .scalar t off => (held m h t).order env mem (this + off) (other + off)
  | .bits t lo width =>
    orderInt (intAt mem (8 * this + lo) width (Lower.signedType m t)) (intAt mem (8 * other + lo) width (Lower.signedType m t))

/-- Whether `==` has two subobjects equal. -/
def Part.agrees : Part → Bool
  | .object c place => env.equal c (resolved c) mem (place.address env mem this) (place.address env mem other)
  | part => part.order m h resolved env mem this other = .equal

/-- The outcome of the first part whose outcome is not `equal`. -/
def firstDifference (ps : List Part) : Order :=
  ((ps.map (Part.order m h resolved env mem this other)).find? (· != .equal)).getD .equal

end

/-- **The synthesised operator does what the standard says**: for all objects, whatever the operators of
the classes of subobjects answer. -/
def Right (resolved : Nat → Option Nat) (tests : List Test) : Prop :=
  ∀ (env : Env) (mem : Memory) (this other : Nat),
    match op with
    | .equality => runEquality m h env mem this other tests =
        (parts m h r info).all (Part.agrees m h resolved env mem this other)
    | .spaceship => runSpaceship m h env mem this other tests =
        word (firstDifference m h resolved env mem this other (parts m h r info))

end Vcx.Comparison
