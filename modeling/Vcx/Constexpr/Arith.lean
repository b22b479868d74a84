import Vcx.Constexpr.IntBinary

/-!
# Integer arithmetic as C++ has it

What C++ prescribes for a binary operator on two integers: promotions, the usual arithmetic
conversions, and the operator in the common type; and exactly when `evalIntBinary` computes
it.
-/

namespace Vcx.Constexpr
set_option autoImplicit false
open Vcx.Lib Vcx.Types

/-! ### Types -/

/-- Whether a kind is signed on the target. -/
def signed (m : Model) : Kind → Bool
  | .char => m.charSigned
  | .wChar => isSignedKind m.wCharKind
  | k => isSignedKind k

/-- The width of a kind. -/
def bits (m : Model) (k : Kind) : Nat := 8 * (m.basicSize k).getD 0

/-- The values of a kind. -/
def lowest (m : Model) (k : Kind) : Int := if signed m k then -2 ^ (bits m k - 1) else 0

def highest (m : Model) (k : Kind) : Int :=
  if k = .bool then 1 else if signed m k then 2 ^ (bits m k - 1) - 1 else 2 ^ bits m k - 1

/-- All values of `k` are values of `t`. -/
def fits (m : Model) (k t : Kind) : Bool := lowest m t ≤ lowest m k && highest m k ≤ highest m t

/-- The kinds integral promotion applies to. -/
def narrow : Kind → Bool
  | .bool | .char | .sChar | .uChar | .char8 | .char16 | .char32 | .wChar | .short | .uShort => true
  | _ => false

/-- Integral promotion: the first of these types that has all the values. -/
def promote (m : Model) (k : Kind) : Kind :=
  if narrow k then ([.int, .uInt, .long, .uLong, .longLong, .uLongLong].find? (fits m k)).getD k else k

/-- The conversion rank of a promoted type. -/
def rank : Kind → Nat
  | .long | .uLong => 1
  | .longLong | .uLongLong => 2
  | .int128 | .uInt128 => 3
  | _ => 0

def toUnsigned : Kind → Kind
  | .int => .uInt
  | .long => .uLong
  | .longLong => .uLongLong
  | .int128 => .uInt128
  | k => k

/-- The common type of two promoted ones, the first signed and the second not. -/
def commonMixed (m : Model) (s u : Kind) : Kind :=
  if rank s ≤ rank u then u else if fits m u s then s else toUnsigned s

/-- The usual arithmetic conversions, on promoted types. -/
def commonPromoted (m : Model) (a b : Kind) : Kind :=
  if a = b then a
  else if signed m a = signed m b then (if rank a < rank b then b else a)
  else if signed m a then commonMixed m a b else commonMixed m b a

def common (m : Model) (a b : Kind) : Kind := commonPromoted m (promote m a) (promote m b)

/-! ### Values -/

/-- What an expression gives: an integer of a type, a `bool`, or a `std::strong_ordering`. -/
inductive Result where
  | int (k : Kind) (v : Int)
  | bool (b : Bool)
  | ordering (o : Ordering)
  deriving DecidableEq, Repr

/-- Conversion to an integer type. -/
def convert (m : Model) (k : Kind) (v : Int) : Int := wrap (signed m k) (bits m k) v

/-- An arithmetic result: one that a signed type does not have is undefined. -/
def arith (m : Model) (k : Kind) (v : Int) : Option Result :=
  if signed m k ∧ ¬ InRange true (bits m k) v then none else some (.int k (convert m k v))

/-- The C++ result of `a op b`; none where it is undefined. -/
def cxxBinary (m : Model) (op : Token.Kind) (ka : Kind) (va : Int) (kb : Kind) (vb : Int) : Option Result :=
  let t := common m ka kb
  let x := convert m t va
  let y := convert m t vb
  match op with
  | .add => arith m t (x + y)
  | .sub => arith m t (x - y)
  | .mul => arith m t (x * y)
  | .quo => if y = 0 then none else arith m t (x.tdiv y)
  | .rem =>
    if y = 0 ∨ signed m t ∧ ¬ InRange true (bits m t) (x.tdiv y) then none else some (.int t (x.tmod y))
  | .and => some (.int t (convert m t (x.land y)))
  | .or => some (.int t (convert m t (x.lor y)))
  | .xor => some (.int t (convert m t (x.xor y)))
  | .shl =>
    if vb < 0 ∨ bits m (promote m ka) ≤ vb then none
    else some (.int (promote m ka) (convert m (promote m ka) (va * 2 ^ vb.toNat)))
  | .shr =>
    if vb < 0 ∨ bits m (promote m ka) ≤ vb then none else some (.int (promote m ka) (va / 2 ^ vb.toNat))
  | .eql => some (.bool (x = y))
  | .neq => some (.bool (x ≠ y))
  | .lss => some (.bool (x < y))
  | .leq => some (.bool (x ≤ y))
  | .gtr => some (.bool (y < x))
  | .geq => some (.bool (y ≤ x))
  | .spaceship => some (.ordering (compare x y))
  | _ => none

/-- The C++ result of `-v`. -/
def cxxMinus (m : Model) (k : Kind) (v : Int) : Option Result := arith m (promote m k) (-v)

/-- The binary operators on integers. -/
def intOps : List Token.Kind :=
  [.add, .sub, .mul, .quo, .rem, .and, .or, .xor, .shl, .shr, .eql, .neq, .lss, .leq, .gtr, .geq, .spaceship]

/-! ### What is promised -/

/-- The operand of a type and a value of it. -/
def operand (m : Model) (h : Hierarchy) (k : Kind) (v : Int) : IntValue := newBigInt m h v (some (.basic k))

/-- The evaluator gives what C++ prescribes: an error where that is undefined, else the value,
as one of its type. -/
def Prescribed (m : Model) (h : Hierarchy) (code : Except Error Value) : Option Result → Prop
  | none => ∃ e, code = .error e
  | some (.int k v) => code = .ok (.int (operand m h k v))
  | some (.bool b) => code = .ok (.bool b)
  | some (.ordering _) => False

/-- An operand: an integral type and one of its values. -/
structure Operand (m : Model) (k : Kind) (v : Int) : Prop where
  integral : k.isInteger = true
  low : lowest m k ≤ v
  high : v ≤ highest m k

/-! ### When it is kept -/

/-- The evaluator's `IsSigned` takes `char` and `wchar_t` for unsigned: where they are not,
their negative values are lost before any operator sees them. -/
def Kept (k : Kind) (v : Int) : Prop := v < 0 → isSignedKind k = true

/-- The left operand has the result's type already, and is signed no more than the right one. -/
def Typed (m : Model) (ka kb : Kind) : Prop :=
  ka = common m ka kb ∧ (signed m ka = true → isSignedKind kb = true)

/-- The inputs `evalIntBinary` is right on. -/
def Computed (m : Model) (op : Token.Kind) (ka : Kind) (va : Int) (kb : Kind) (vb : Int) : Prop :=
  let t := common m ka kb
  let W : Int := 2 ^ bits m t
  match op with
  | .add => Typed m ka kb ∧ (signed m t = true → InRange true (bits m t) (va + vb))
  | .sub => Typed m ka kb ∧ (signed m t = true → InRange true (bits m t) (va - vb))
  | .mul => Typed m ka kb ∧ (signed m t = true → InRange true (bits m t) (va * vb))
  | .quo => vb = 0 ∨ Typed m ka kb ∧ (signed m t = true → InRange true (bits m t) (va.tdiv vb)) ∧
      (signed m t = false → vb < 0 → va < -vb ∨ vb = -1 ∧ va = W - 1)
  | .rem => vb = 0 ∨ Typed m ka kb ∧ (signed m t = true → InRange true (bits m t) (va.tdiv vb)) ∧
      (signed m t = false → vb < 0 → va < -vb ∨ W + vb ≤ va ∧ vb ∣ W)
  | .and | .or | .xor => Typed m ka kb
  | .shl | .shr =>
    if vb < 0 ∨ bits m (promote m ka) ≤ vb then wrap true 64 vb < 0 ∨ bits m ka ≤ wrap true 64 vb
    else promote m ka = ka ∧ (signed m ka = true → isSignedKind kb = true) ∧ bits m kb ≤ bits m ka
  | .eql | .neq => signed m t = false → va < 0 ∨ vb < 0 → va % W ≠ vb % W
  | .lss | .geq => signed m t = false → (va < 0 → va % W < vb % W) ∧ (vb < 0 → vb % W ≤ va % W)
  | .leq | .gtr => signed m t = false → (va < 0 → va % W ≤ vb % W) ∧ (vb < 0 → vb % W < va % W)
  | _ => False

end Vcx.Constexpr
