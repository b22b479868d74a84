import Vcx.Lib.Wrap
import Vcx.Types.Layout

/-!
# Values of the constant evaluator

`constexpr/value.go` and the storage of `constexpr/object.go`. An integer is held with its
width and signedness beside its type, and is reduced to them whenever one is made.
-/

namespace Vcx.Constexpr
set_option autoImplicit false
open Vcx.Lib Vcx.Types

/-- `types.IsSigned` of a fundamental type. Plain `char` and `wchar_t` are not among them. -/
def isSignedKind : Kind → Bool
  | .sChar | .short | .int | .long | .longLong | .int128 | .float16 | .float | .double | .longDouble => true
  | _ => false

/-- `types.IsSigned`. -/
def isSigned (t : Ty) : Bool :=
  match t.unqualify with
  | .enum _ (some k) _ => isSignedKind k
  | .enum _ none _ => true
  | .basic k => isSignedKind k
  | _ => false

structure IntValue where
  val : Int
  bitWidth : Nat
  isSigned : Bool
  typ : Option Ty

/-- `Type`: a value without one is an `int` or an `unsigned`. -/
def IntValue.type (i : IntValue) : Ty :=
  match i.typ with
  | some t => t
  | none => if i.isSigned then .basic .int else .basic .uInt

/-- `normalize`: masking leaves the remainder by `2 ^ bitWidth`, the top bit makes it negative. -/
def IntValue.normalize (i : IntValue) : IntValue :=
  if i.bitWidth = 0 then i else { i with val := wrap i.isSigned i.bitWidth i.val }

/-- `Int64`, the low 64 bits. -/
def IntValue.int64 (i : IntValue) : Int := wrap true 64 i.val

/-- The width `NewInt` and `NewBigInt` give a type: 32 bits unless its size is known. -/
def widthOf (m : Model) (h : Hierarchy) (typ : Option Ty) : Nat :=
  match typ.bind (sizeof m h (layoutInfo m h)) with
  | some n => if 0 < n then 8 * n else 32
  | none => 32

/-- `NewBigInt`; `NewInt` is the same for an `int64`. -/
def newBigInt (m : Model) (h : Hierarchy) (bi : Int) (typ : Option Ty) : IntValue :=
  ({ val := bi, bitWidth := widthOf m h typ, isSigned := (typ.map isSigned).getD true, typ } : IntValue).normalize

inductive PathStep where
  | index (i : Int)
  | field (name : String)
  | base (name : String)
  deriving DecidableEq, Repr

/-- A `Value`; a value that is missing is Go's `nil`. A floating value is its bits. -/
inductive Value where
  | void
  | int (v : IntValue)
  | float (bits : BitVec 64) (typ : Option Ty)
  | bool (b : Bool)
  | nullptr
  | pointer (target : Option Nat) (offset : Int) (path : List PathStep) (typ : Option Ty)
  | reference (target : Option Nat) (path : List PathStep) (typ : Option Ty)
  | array (elements : List (Option Value)) (elemType : Ty)
  | record (r : Option Nat) (fields bases : List (String × Option Value)) (activeUnionField : String)
  | string (val : String) (typ : Ty)

/-- The sentinel errors, with what is said about them. -/
inductive Error where
  | ub (msg : String)
  | uninitializedMemory (msg : String)
  | inactiveUnionMember (msg : String)
  | arrayOutOfBounds (msg : String)
  | danglingPointer (msg : String)
  | nullPointer
  | constMutation (msg : String)
  | nonConstexpr (msg : String)
  | other (msg : String)
  deriving DecidableEq, Repr

end Vcx.Constexpr
