import Vcx.Lib.Memory
import Vcx.Types.BitField

/-!
# Bit-field lowering

`lower/bitfield.go`. A bit-field is read by loading its unit and shifting the field up to
the register's top and down again, and written by masking it into the unit. The code runs on
the `ir` package's registers: its loads, stores and bitwise operations are those of
`BitVec`, and a shift by a constant is what it is documented to be as long as the constant
is a bit position of the register. What it is otherwise is left open (`Shifts`).
-/

namespace Vcx.Lower
set_option autoImplicit false
open Vcx.Lib Vcx.Types

/-- Shifts of a `W`-bit register by a constant. -/
structure Shifts (W : Nat) where
  shl : BitVec W → Int → BitVec W
  ushr : BitVec W → Int → BitVec W
  sshr : BitVec W → Int → BitVec W
  shl_eq : ∀ x (n : Nat), n < W → shl x n = x <<< n
  ushr_eq : ∀ x (n : Nat), n < W → ushr x n = x >>> n
  sshr_eq : ∀ x (n : Nat), n < W → sshr x n = x.sshiftRight n

/-- The two integer registers bit-fields are worked on in. -/
structure Ir where
  i32 : Shifts 32
  i64 : Shifts 64

/-- The integer register types. -/
inductive RegType where
  | i32 | i64 | i128
  deriving DecidableEq, Repr

/-- A value in a register; a comparison's result is one bit. -/
inductive Value where
  | i1 (b : Bool)
  | i32 (x : BitVec 32)
  | i64 (x : BitVec 64)
  | i128 (x : BitVec 128)
  deriving DecidableEq, Repr

/-- `intReg`: the register an integer of this size is held in. -/
def intReg (size : Option Nat) : RegType :=
  match size with
  | some n => if 8 < n then .i128 else if 4 < n then .i64 else .i32
  | none => .i32

/-- `regType` of an integral or enumeration type. -/
def regType (m : Model) (t : Ty) : RegType :=
  match t.unqualify with
  | .basic k => intReg (m.basicSize k)
  | .enum _ (some k) _ => intReg (m.basicSize k)
  | _ => .i32

/-- The integer kinds `isSigned` takes for unsigned. -/
def unsignedKinds : List Kind :=
  [.uChar, .uShort, .uInt, .uLong, .uLongLong, .uInt128, .bool, .char8, .char16, .char32]

/-- `isSigned`. -/
def isSigned (t : Ty) : Bool :=
  match t.unqualify with
  | .basic k => !unsignedKinds.contains k
  | .enum _ (some k) _ => !unsignedKinds.contains k
  | _ => true

/-- `bitField`: a bit-field's place within its storage unit. -/
structure BitField where
  unitBytes : Nat
  bitOff : Int
  width : Nat
  signed : Bool
  deriving DecidableEq, Repr

/-- The `i`th member of `r` as a bit-field, behind the offset of its unit. -/
def bitFieldAt (m : Model) (h : Hierarchy) (r i : Nat) : Option (Nat × BitField) :=
  match m.bitField h r i, (h.record r).fields[i]? with
  | some (unitOff, unitBytes, bitOff), some f =>
    some (unitOff, { unitBytes, bitOff, width := f.width, signed := isSigned f.type })
  | _, _ => none

/-- Go's `x << uint64(n)` on 64 bits: a count that is negative or too large leaves nothing. -/
def goShl (x : BitVec 64) (n : Int) : BitVec 64 := if 0 ≤ n ∧ n < 64 then x <<< n.toNat else 0

/-- `mask`: the field's bits in the unit. -/
def BitField.mask (bf : BitField) : BitVec 64 := goShl (goShl 1 bf.width - 1) bf.bitOff

section

variable {W : Nat} (sh : Shifts W) (bf : BitField)

/-- The field of a unit, shifted up to the top of the register and down again. -/
def BitField.extract (unit : BitVec W) : BitVec W :=
  let v := sh.shl unit (W - bf.bitOff - bf.width)
  if bf.signed then sh.sshr v (W - bf.width) else sh.ushr v (W - bf.width)

/-- The unit's other bits kept, the value's low bits put in place. -/
def BitField.insert (old val : BitVec W) : BitVec W :=
  (old &&& (~~~ bf.mask).setWidth W) ||| (sh.shl val bf.bitOff &&& bf.mask.setWidth W)

end

/-- How many bytes the code accesses for a unit: all sizes but 1, 2 and 8 go through a load
of four bytes. -/
def BitField.accessBytes (bf : BitField) : Nat :=
  match bf.unitBytes with
  | 1 => 1
  | 2 => 2
  | 8 => 8
  | _ => 4

/-- `ULoad8`, `ULoad16` or `Load` into a register of `W` bits. -/
def loadUnit (W : Nat) (mem : Memory) (n unit : Nat) : BitVec W := (mem.load n unit).setWidth W

/-- `Store8`, `Store16` or `Store` from a register. -/
def storeUnit {W : Nat} (mem : Memory) (n unit : Nat) (x : BitVec W) : Memory := mem.store n unit (x.setWidth (8 * n))

/-- `bitFieldLoad`, for an expression held in `reg`. -/
def bitFieldLoad (ir : Ir) (bf : BitField) (reg : RegType) (mem : Memory) (unit : Nat) : Value :=
  if bf.unitBytes = 8 then .i64 (bf.extract ir.i64 (loadUnit 64 mem 8 unit))
  else
    let v := bf.extract ir.i32 (loadUnit 32 mem bf.accessBytes unit)
    if reg = .i64 then .i64 (if bf.signed then v.signExtend 64 else v.setWidth 64) else .i32 v

/-- The operand of a store, in the 64-bit register; `bitFieldStore` returns without a store
where it has no case. -/
def Value.toI64 : Value → Option (BitVec 64)
  | .i64 x => some x
  | .i32 x => some (x.signExtend 64)
  | .i1 b => some ((BitVec.ofBool b).setWidth 64)
  | .i128 _ => none

/-- The operand of a store, in the 32-bit register. -/
def Value.toI32 : Value → Option (BitVec 32)
  | .i32 x => some x
  | .i64 x => some (x.setWidth 32)
  | .i1 b => some ((BitVec.ofBool b).setWidth 32)
  | .i128 _ => none

/-- `bitFieldStore`. -/
def bitFieldStore (ir : Ir) (bf : BitField) (v : Value) (mem : Memory) (unit : Nat) : Memory :=
  if bf.unitBytes = 8 then
    match v.toI64 with
    | none => mem
    | some val => storeUnit mem 8 unit (bf.insert ir.i64 (loadUnit 64 mem 8 unit) val)
  else
    match v.toI32 with
    | none => mem
    | some val => storeUnit mem bf.accessBytes unit (bf.insert ir.i32 (loadUnit 32 mem bf.accessBytes unit) val)

/-! ### Bits -/

variable {W : Nat} {sh : Shifts W} {bf : BitField}

/-- The field lies in the bytes that are accessed for its unit. -/
structure BitField.Window (bf : BitField) : Prop where
  start : 0 ≤ bf.bitOff
  stop : bf.bitOff + bf.width ≤ 8 * bf.accessBytes

/-- The ones of a mask, before they are put in place. -/
theorem ones_getLsbD (w q : Nat) : (goShl 1 w - 1).getLsbD q = decide (q < 64 ∧ q < w) := by
  unfold goShl
  by_cases small : w < 64
  · rw [if_pos (by omega), Int.toNat_natCast]
    have pow : 2 ^ w < 2 ^ 64 := Nat.pow_lt_pow_right (by omega) small
    have pos : 0 < 2 ^ w := Nat.two_pow_pos w
    have one : ((1 : BitVec 64) <<< w).toNat = 2 ^ w := by
      rw [BitVec.toNat_shiftLeft, Nat.shiftLeft_eq]
      simp only [BitVec.ofNat_eq_ofNat, BitVec.toNat_ofNat]
      rw [Nat.mod_eq_of_lt (by omega), Nat.one_mul]
    have ones : ((1 : BitVec 64) <<< w - 1).toNat = 2 ^ w - 1 := by
      rw [BitVec.toNat_sub, one]
      simp only [BitVec.ofNat_eq_ofNat, BitVec.toNat_ofNat]
      omega
    rw [BitVec.getLsbD, ones, Nat.testBit_two_pow_sub_one]
    exact decide_eq_decide.2 (by omega)
  · rw [if_neg (by omega)]
    have ones : (0 - 1 : BitVec 64) = BitVec.allOnes 64 := by decide
    rw [ones, BitVec.getLsbD_allOnes]
    exact decide_eq_decide.2 (by omega)

theorem mask_getLsbD {o p : Nat} (start : bf.bitOff = o) (small : o < 64) (lt : p < 64) :
    bf.mask.getLsbD p = decide (o ≤ p ∧ p < o + bf.width) := by
  rw [BitField.mask, goShl, if_pos (by omega), start, Int.toNat_natCast, BitVec.getLsbD_shiftLeft, ones_getLsbD,
    decide_eq_true lt, Bool.true_and]
  by_cases low : p < o
  · simp [low]
  · rw [decide_eq_false low, Bool.not_false, Bool.true_and]
    exact decide_eq_decide.2 (by omega)

/-- A field that starts outside the unit has no mask. -/
theorem mask_of_neg (neg : bf.bitOff < 0) : bf.mask = 0 := by
  rw [BitField.mask, goShl, if_neg (by omega)]

/-- **What is in a unit after `insert`**: the value's bits in the field, the old ones around it. -/
theorem insert_getLsbD {o : Nat} (start : bf.bitOff = o) (small : o < W) (wide : W ≤ 64) (old val : BitVec W) {p : Nat}
    (lt : p < W) : (bf.insert sh old val).getLsbD p =
      if o ≤ p ∧ p < o + bf.width then val.getLsbD (p - o) else old.getLsbD p := by
  have mask := mask_getLsbD start (by omega) (show p < 64 by omega)
  rw [BitField.insert, start, sh.shl_eq val o small, BitVec.getLsbD_or, BitVec.getLsbD_and, BitVec.getLsbD_and,
    BitVec.getLsbD_setWidth, BitVec.getLsbD_setWidth, BitVec.getLsbD_not, BitVec.getLsbD_shiftLeft, mask,
    decide_eq_true lt, decide_eq_true (show p < 64 by omega)]
  by_cases inside : o ≤ p ∧ p < o + bf.width
  · rw [if_pos inside, decide_eq_true inside, decide_eq_false (show ¬ p < o by omega)]
    simp
  · rw [if_neg inside, decide_eq_false inside]
    simp

/-- **What `extract` finds**: the field's bits, and above them its sign or zeros. -/
theorem extract_getLsbD {o : Nat} (start : bf.bitOff = o) (some : 0 < bf.width) (stop : o + bf.width ≤ W) (x : BitVec W)
    {k : Nat} (lt : k < W) : (bf.extract sh x).getLsbD k =
      if k < bf.width then x.getLsbD (o + k) else bf.signed && x.getLsbD (o + bf.width - 1) := by
  have up : (W : Int) - bf.bitOff - bf.width = ((W - o - bf.width : Nat) : Int) := by omega
  have down : (W : Int) - bf.width = ((W - bf.width : Nat) : Int) := by omega
  rw [BitField.extract, up, down, sh.shl_eq x _ (by omega)]
  generalize hv : x <<< (W - o - bf.width) = v
  have bit : ∀ j, j < W → v.getLsbD j = (decide (W - o - bf.width ≤ j) && x.getLsbD (j - (W - o - bf.width))) := by
    intro j hj
    rw [← hv, BitVec.getLsbD_shiftLeft, decide_eq_true hj]
    by_cases low : j < W - o - bf.width
    · rw [decide_eq_true low, decide_eq_false (Nat.not_le_of_lt low)]
      rfl
    · rw [decide_eq_false low, decide_eq_true (Nat.le_of_not_lt low)]
      rfl
  cases bf.signed with
  | false =>
    rw [if_neg (by simp), sh.ushr_eq v _ (by omega), BitVec.getLsbD_ushiftRight, Bool.false_and]
    split
    · rw [bit _ (by omega), decide_eq_true (by omega), Bool.true_and]
      congr 1
      omega
    · exact BitVec.getLsbD_of_ge v _ (by omega)
  | true =>
    rw [if_pos rfl, sh.sshr_eq v _ (by omega), BitVec.getLsbD_sshiftRight, decide_eq_false (show ¬ W ≤ k by omega),
      Bool.not_false, Bool.true_and, Bool.true_and]
    split
    · rename_i inside
      rw [if_pos (show k < bf.width by omega), bit _ (by omega), decide_eq_true (by omega), Bool.true_and]
      congr 1
      omega
    · rename_i above
      rw [if_neg (show ¬ k < bf.width by omega), BitVec.msb_eq_getLsbD_last, bit _ (by omega), decide_eq_true (by omega),
        Bool.true_and]
      congr 1
      omega

/-- `x` cut or extended to `w` bits and back, as a field of that width holds it. -/
def reduce (signed : Bool) (w : Nat) (x : BitVec W) : BitVec W :=
  if signed then (x.signExtend w).signExtend W else (x.setWidth w).setWidth W

theorem reduce_getLsbD (signed : Bool) {w : Nat} (some : 0 < w) (le : w ≤ W) (x : BitVec W) {k : Nat} (lt : k < W) :
    (reduce signed w x).getLsbD k = if k < w then x.getLsbD k else signed && x.getLsbD (w - 1) := by
  unfold reduce
  cases signed with
  | false =>
    rw [if_neg (by simp), BitVec.getLsbD_setWidth, BitVec.getLsbD_setWidth, decide_eq_true lt, Bool.true_and,
      Bool.false_and]
    split
    · rename_i inside
      rw [decide_eq_true inside, Bool.true_and]
    · rename_i above
      rw [decide_eq_false above, Bool.false_and]
  | true =>
    rw [if_pos rfl, BitVec.signExtend_eq_setWidth_of_le x le, BitVec.getLsbD_signExtend, decide_eq_true lt, Bool.true_and,
      Bool.true_and, BitVec.getLsbD_setWidth, BitVec.msb_eq_getLsbD_last, BitVec.getLsbD_setWidth]
    split
    · rename_i inside
      rw [decide_eq_true inside, Bool.true_and]
    · rw [decide_eq_true (by omega), Bool.true_and]

end Vcx.Lower
