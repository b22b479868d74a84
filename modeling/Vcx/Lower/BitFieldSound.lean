import Vcx.Lower.BitField

/-!
# A bit-field keeps what is stored in it

Storing into a bit-field and reading it back gives the value cut to the field's width, and
nothing else in memory changes, exactly when the field lies in the bytes accessed for its
unit and the register and the signedness chosen are the type's (`preserves_iff`). Which
bit-fields of which classes that is follows from their layout (`bitField_roundTrips_iff`).
-/

namespace Vcx.Lower
set_option autoImplicit false
open Vcx.Lib Vcx.Types

/-- Whether a kind is signed on the target. -/
def signedKind (m : Model) (k : Kind) : Bool :=
  match k with
  | .char => m.charSigned
  | .wChar => !unsignedKinds.contains m.wCharKind
  | k => !unsignedKinds.contains k

/-- Whether an integral or enumeration type is signed on the target. -/
def signedType (m : Model) (t : Ty) : Bool :=
  match t.unqualify with
  | .basic k => signedKind m k
  | .enum _ (some k) _ => signedKind m k
  | _ => true

def RegType.bits : RegType → Nat
  | .i32 => 32
  | .i64 => 64
  | .i128 => 128

/-- A value of a type held in `reg`; one of type `bool` may be a comparison's result. -/
def Operand (reg : RegType) (bool : Bool) : Value → Prop
  | .i1 _ => reg = .i32 ∧ bool = true
  | .i32 _ => reg = .i32
  | .i64 _ => reg = .i64
  | .i128 _ => reg = .i128

/-- The value modulo `2 ^ w`, sign- or zero-extended to its register. -/
def expected (signed : Bool) (w : Nat) : Value → Value
  | .i1 b => .i32 (reduce signed w ((BitVec.ofBool b).setWidth 32))
  | .i32 x => .i32 (reduce signed w x)
  | .i64 x => .i64 (reduce signed w x)
  | .i128 x => .i128 (reduce signed w x)

/-- A store of `v` into the field of an object of `size` bytes at `base`, and a load after it. -/
structure Preserves (ir : Ir) (bf : BitField) (reg : RegType) (signed : Bool) (unitOff size : Nat) (mem : Memory)
    (base : Nat) (v : Value) : Prop where
  value : bitFieldLoad ir bf reg (bitFieldStore ir bf v mem (base + unitOff)) (base + unitOff) = expected signed bf.width v
  object : ∀ p : Nat, 8 * base ≤ p → p < 8 * (base + size) →
    ¬ (8 * (base + unitOff) + bf.bitOff ≤ p ∧ p < 8 * (base + unitOff) + bf.bitOff + bf.width) →
    (bitFieldStore ir bf v mem (base + unitOff)).bit p = mem.bit p
  outside : ∀ a, ¬ (base ≤ a ∧ a < base + size) → bitFieldStore ir bf v mem (base + unitOff) a = mem a

/-- What a bit-field's place must be for that. -/
structure BitField.Fits (bf : BitField) (reg : RegType) (signed : Bool) (unitOff size : Nat) : Prop where
  held : reg ≠ .i128
  window : bf.Window
  register : bf.unitBytes = 8 → reg = .i64
  sign : bf.signed = signed ∨ reg.bits ≤ bf.width
  inside : 8 * unitOff + bf.bitOff + bf.width ≤ 8 * size

/-! ### One unit -/

section

variable {W n : Nat} {sh : Shifts W} {bf : BitField}

theorem loadUnit_getLsbD (mem : Memory) (unit : Nat) {k : Nat} (lt : k < W) :
    (loadUnit W mem n unit).getLsbD k = (decide (k < 8 * n) && mem.bit (8 * unit + k)) := by
  rw [loadUnit, BitVec.getLsbD_setWidth, Memory.load_getLsbD, decide_eq_true lt, Bool.true_and]

theorem storeUnit_bit (mem : Memory) (unit p : Nat) (x : BitVec W) :
    (storeUnit mem n unit x).bit p =
      if 8 * unit ≤ p ∧ p < 8 * (unit + n) then x.getLsbD (p - 8 * unit) else mem.bit p := by
  rw [storeUnit, Memory.store_bit]
  split
  · rw [BitVec.getLsbD_setWidth, decide_eq_true (by omega), Bool.true_and]
  · rfl

/-- What is loaded after a store is what was stored, cut to the size of the access. -/
theorem load_storeUnit (mem : Memory) (unit : Nat) (x : BitVec W) {k : Nat} (lt : k < W) :
    (loadUnit W (storeUnit mem n unit x) n unit).getLsbD k = (decide (k < 8 * n) && x.getLsbD k) := by
  rw [loadUnit_getLsbD _ _ lt]
  by_cases inside : k < 8 * n
  · rw [storeUnit_bit, if_pos (by omega), Nat.add_sub_cancel_left]
  · rw [decide_eq_false inside, Bool.false_and, Bool.false_and]

/-- The memory after a store into the field. -/
theorem insert_bit {o : Nat} (start : bf.bitOff = o) (some : 0 < bf.width) (stop : o + bf.width ≤ 8 * n) (le : 8 * n ≤ W)
    (wide : W ≤ 64) (mem : Memory) (unit p : Nat) (val : BitVec W) :
    (storeUnit mem n unit (bf.insert sh (loadUnit W mem n unit) val)).bit p =
      if 8 * unit + o ≤ p ∧ p < 8 * unit + o + bf.width then val.getLsbD (p - (8 * unit + o)) else mem.bit p := by
  rw [storeUnit_bit]
  by_cases access : 8 * unit ≤ p ∧ p < 8 * (unit + n)
  · have lt : p - 8 * unit < W := by omega
    rw [if_pos access, insert_getLsbD start (by omega) wide _ _ lt, loadUnit_getLsbD _ _ lt]
    by_cases field : 8 * unit + o ≤ p ∧ p < 8 * unit + o + bf.width
    · rw [if_pos (by omega), if_pos field, Nat.sub_sub]
    · rw [if_neg (by omega), if_neg field, decide_eq_true (by omega), Bool.true_and]
      congr 1
      omega
  · rw [if_neg access, if_neg (by omega)]

/-- **A field read back after a store.** -/
theorem extract_insert {o : Nat} (start : bf.bitOff = o) (some : 0 < bf.width) (stop : o + bf.width ≤ 8 * n)
    (le : 8 * n ≤ W) (wide : W ≤ 64) (mem : Memory) (unit : Nat) (val : BitVec W) :
    bf.extract sh (loadUnit W (storeUnit mem n unit (bf.insert sh (loadUnit W mem n unit) val)) n unit) =
      reduce bf.signed bf.width val := by
  have bit : ∀ j < bf.width, (loadUnit W (storeUnit mem n unit (bf.insert sh (loadUnit W mem n unit) val)) n unit).getLsbD
      (o + j) = val.getLsbD j := by
    intro j hj
    rw [load_storeUnit _ _ _ (by omega), insert_getLsbD start (by omega) wide _ _ (by omega), if_pos (by omega),
      decide_eq_true (by omega), Bool.true_and, Nat.add_sub_cancel_left]
  apply BitVec.eq_of_getLsbD_eq
  intro k lt
  rw [extract_getLsbD start some (by omega) _ lt, reduce_getLsbD _ some (by omega) _ lt]
  split
  · rename_i inside
    exact bit k inside
  · rw [Nat.add_sub_assoc some, bit (bf.width - 1) (by omega)]

end

/-! ### Where it works -/

variable {bf : BitField} {reg : RegType} {ir : Ir}

theorem accessBytes_eq : bf.accessBytes =
    if bf.unitBytes = 1 then 1 else if bf.unitBytes = 2 then 2 else if bf.unitBytes = 8 then 8 else 4 := by
  unfold BitField.accessBytes
  split <;> simp_all

theorem accessBytes_le (narrow : bf.unitBytes ≠ 8) : bf.accessBytes ≤ 4 := by
  rw [accessBytes_eq]
  split_ifs <;> omega

theorem accessBytes_eight (wide : bf.unitBytes = 8) : bf.accessBytes = 8 := by
  rw [accessBytes_eq, wide]
  rfl

/-- Widening a field that was read in the narrow register. -/
theorem widen_reduce (signed : Bool) {w : Nat} (some : 0 < w) (le : w ≤ 32) (x : BitVec 64) :
    (if signed then (reduce signed w (x.setWidth 32)).signExtend 64 else (reduce signed w (x.setWidth 32)).setWidth 64) =
      reduce signed w x := by
  apply BitVec.eq_of_getLsbD_eq
  intro k lt
  rw [reduce_getLsbD signed some (by omega) x lt]
  have low : ∀ j, j < w → (x.setWidth 32).getLsbD j = x.getLsbD j := by
    intro j hj
    rw [BitVec.getLsbD_setWidth, decide_eq_true (by omega), Bool.true_and]
  have bit : ∀ j, j < 32 → (reduce signed w (x.setWidth 32)).getLsbD j =
      if j < w then x.getLsbD j else signed && x.getLsbD (w - 1) := by
    intro j hj
    rw [reduce_getLsbD signed some le _ hj, low (w - 1) (by omega)]
    split
    · rename_i inside
      rw [low j inside]
    · rfl
  cases signed with
  | false =>
    rw [if_neg (by simp), BitVec.getLsbD_setWidth, decide_eq_true lt, Bool.true_and]
    by_cases narrow : k < 32
    · rw [bit k narrow]
    · rw [BitVec.getLsbD_of_ge _ _ (by omega), if_neg (by omega), Bool.false_and]
  | true =>
    rw [if_pos rfl, BitVec.getLsbD_signExtend, decide_eq_true lt, Bool.true_and]
    split
    · rename_i narrow
      exact bit k narrow
    · rw [BitVec.msb_eq_getLsbD_last, bit 31 (by omega), if_neg (show ¬ k < w by omega)]
      split
      · rename_i full
        rw [show w - 1 = 31 by omega]
        rfl
      · rfl

/-- **A value read back after a store**, in a field that lies in the bytes accessed. -/
theorem load_store {bool : Bool} (window : bf.Window) (some : 0 < bf.width) (held : reg ≠ .i128)
    (register : bf.unitBytes = 8 → reg = .i64) (mem : Memory) (unit : Nat) {v : Value} (operand : Operand reg bool v) :
    bitFieldLoad ir bf reg (bitFieldStore ir bf v mem unit) unit = expected bf.signed bf.width v := by
  obtain ⟨o, start⟩ := Int.eq_ofNat_of_zero_le window.start
  have stop := window.stop
  rw [start] at stop
  by_cases wide : bf.unitBytes = 8
  · rw [accessBytes_eight wide] at stop
    have reg64 := register wide
    rw [bitFieldLoad, bitFieldStore, if_pos wide, if_pos wide]
    cases v with
    | i64 x => exact congrArg Value.i64 (extract_insert start some (by omega) (by omega) (by omega) mem unit x)
    | i1 b => cases reg64.symm.trans operand.1
    | i32 x => cases reg64.symm.trans operand
    | i128 x => exact absurd operand held
  · have le := accessBytes_le wide
    have narrow : ∀ val : BitVec 32, bf.extract ir.i32 (loadUnit 32 (storeUnit mem bf.accessBytes unit
        (bf.insert ir.i32 (loadUnit 32 mem bf.accessBytes unit) val)) bf.accessBytes unit) =
          reduce bf.signed bf.width val := by
      intro val
      exact extract_insert start some (by omega) (by omega) (by omega) mem unit val
    rw [bitFieldLoad, bitFieldStore, if_neg wide, if_neg wide]
    cases v with
    | i64 x =>
      have reg64 : reg = .i64 := operand
      simp only [Value.toI32, narrow, reg64, if_true]
      exact congrArg Value.i64 (widen_reduce bf.signed some (by omega) x)
    | i1 b =>
      have reg32 : reg = .i32 := operand.1
      simp only [Value.toI32, narrow, reg32, reduceCtorEq, if_false]
      rfl
    | i32 x =>
      have reg32 : reg = .i32 := operand
      simp only [Value.toI32, narrow, reg32, reduceCtorEq, if_false]
      rfl
    | i128 x => exact absurd operand held

/-- A store changes the field's bits only. -/
theorem store_bit_of_outside (window : bf.Window) (some : 0 < bf.width) (mem : Memory) (unit : Nat) (v : Value) {p : Nat}
    (out : ¬ (8 * unit + bf.bitOff ≤ p ∧ p < 8 * unit + bf.bitOff + bf.width)) :
    (bitFieldStore ir bf v mem unit).bit p = mem.bit p := by
  obtain ⟨o, start⟩ := Int.eq_ofNat_of_zero_le window.start
  have stop := window.stop
  rw [start] at stop out
  by_cases wide : bf.unitBytes = 8
  · rw [accessBytes_eight wide] at stop
    rw [bitFieldStore, if_pos wide]
    cases v.toI64 with
    | none => rfl
    | some val =>
      simp only
      rw [insert_bit start some (by omega) (by omega) (by omega), if_neg (by omega)]
  · have le := accessBytes_le wide
    rw [bitFieldStore, if_neg wide]
    cases v.toI32 with
    | none => rfl
    | some val =>
      simp only
      rw [insert_bit start some (by omega) (by omega) (by omega), if_neg (by omega)]

/-! ### Where it does not -/

/-- The bits of a value. -/
def Value.bit : Value → Nat → Bool
  | .i1 b, k => (BitVec.ofBool b).getLsbD k
  | .i32 x, k => x.getLsbD k
  | .i64 x, k => x.getLsbD k
  | .i128 x, k => x.getLsbD k

/-- The value of a register with one bit set. -/
def RegType.single (reg : RegType) (k : Nat) : Value :=
  match reg with
  | .i32 => .i32 (BitVec.twoPow 32 k)
  | .i64 => .i64 (BitVec.twoPow 64 k)
  | .i128 => .i128 (BitVec.twoPow 128 k)

theorem single_operand (reg : RegType) (bool : Bool) (k : Nat) : Operand reg bool (reg.single k) := by
  cases reg <;> rfl

/-- Registers on which a shift by a count out of range leaves nothing. -/
def zeroShifts (W : Nat) : Shifts W where
  shl x n := if 0 ≤ n ∧ n < W then x <<< n.toNat else 0
  ushr x n := if 0 ≤ n ∧ n < W then x >>> n.toNat else 0
  sshr x n := if 0 ≤ n ∧ n < W then x.sshiftRight n.toNat else 0
  shl_eq x n lt := by rw [if_pos (by omega), Int.toNat_natCast]
  ushr_eq x n lt := by rw [if_pos (by omega), Int.toNat_natCast]
  sshr_eq x n lt := by rw [if_pos (by omega), Int.toNat_natCast]

def zeroIr : Ir := ⟨zeroShifts 32, zeroShifts 64⟩

/-- Memory without a bit set. -/
def zeroMemory : Memory := fun _ => 0

theorem reduce_low (signed : Bool) {W w k : Nat} (x : BitVec W) (low : k < w) (lt : k < W) :
    (reduce signed w x).getLsbD k = x.getLsbD k := by
  unfold reduce
  cases signed with
  | false =>
    rw [if_neg (by simp), BitVec.getLsbD_setWidth, BitVec.getLsbD_setWidth, decide_eq_true lt, decide_eq_true low]
    rfl
  | true =>
    rw [if_pos rfl, BitVec.getLsbD_signExtend, BitVec.getLsbD_signExtend, if_pos low, if_pos lt, decide_eq_true lt,
      decide_eq_true low]
    rfl

/-- The bit that is set comes back from a field that has it. -/
theorem expected_single (signed : Bool) {w k : Nat} (low : k < w) (lt : k < reg.bits) :
    (expected signed w (reg.single k)).bit k = true := by
  have bit : ∀ W, k < W → (reduce signed w (BitVec.twoPow W k)).getLsbD k = true := by
    intro W lt
    rw [reduce_low signed _ low lt, BitVec.getLsbD_twoPow, decide_eq_true lt]
    simp
  cases reg with
  | i32 => exact bit 32 lt
  | i64 => exact bit 64 lt
  | i128 => exact bit 128 lt

/-- Above a narrow field whose top bit is set is its sign. -/
theorem expected_sign (signed : Bool) {w : Nat} (some : 0 < w) (narrow : w < reg.bits) :
    (expected signed w (reg.single (w - 1))).bit w = signed := by
  have bit : ∀ W, w < W → (reduce signed w (BitVec.twoPow W (w - 1))).getLsbD w = signed := by
    intro W lt
    rw [reduce_getLsbD signed some (by omega) _ lt, if_neg (by omega), BitVec.getLsbD_twoPow,
      decide_eq_true (show w - 1 < W by omega)]
    simp
  cases reg with
  | i32 => exact bit 32 narrow
  | i64 => exact bit 64 narrow
  | i128 => exact bit 128 narrow

section

variable {W n : Nat}

theorem loadUnit_zero (unit : Nat) : loadUnit W zeroMemory n unit = 0 := by
  apply BitVec.eq_of_getLsbD_eq
  intro k lt
  rw [loadUnit_getLsbD _ _ lt]
  simp [Memory.bit, zeroMemory]

/-- A field that starts below the unit or ends above the register is lost. -/
theorem extract_insert_lost (out : bf.bitOff < 0 ∨ (W : Int) < bf.bitOff + bf.width) (unit : Nat) (val : BitVec W) :
    bf.extract (zeroShifts W) (loadUnit W (storeUnit zeroMemory n unit (bf.insert (zeroShifts W)
      (loadUnit W zeroMemory n unit) val)) n unit) = 0 := by
  have shifted : (zeroShifts W).shl (loadUnit W (storeUnit zeroMemory n unit (bf.insert (zeroShifts W)
      (loadUnit W zeroMemory n unit) val)) n unit) (W - bf.bitOff - bf.width) = 0 := by
    rcases out with neg | far
    · have none : bf.insert (zeroShifts W) (loadUnit W zeroMemory n unit) val = 0 := by
        rw [BitField.insert, mask_of_neg neg, loadUnit_zero]
        simp
      have empty : loadUnit W (storeUnit zeroMemory n unit (0 : BitVec W)) n unit = 0 := by
        apply BitVec.eq_of_getLsbD_eq
        intro k lt
        rw [load_storeUnit _ _ _ lt]
        simp
      rw [none, empty]
      simp only [zeroShifts]
      split <;> simp
    · simp only [zeroShifts]
      rw [if_neg (by omega)]
  rw [BitField.extract, shifted]
  simp only [zeroShifts]
  split <;> split <;> simp

/-- The top bit of a field that ends above the bytes accessed is not loaded. -/
theorem extract_cut {sh : Shifts W} {o : Nat} (start : bf.bitOff = o) (some : 0 < bf.width) (stop : o + bf.width ≤ W)
    (beyond : 8 * n < o + bf.width) (mem : Memory) (unit : Nat) :
    (bf.extract sh (loadUnit W mem n unit)).getLsbD (bf.width - 1) = false := by
  rw [extract_getLsbD start some stop _ (by omega), if_pos (by omega), loadUnit_getLsbD _ _ (by omega),
    decide_eq_false (by omega), Bool.false_and]

end

/-- What is read through the narrow register has its bits. -/
theorem bitFieldLoad_bit (narrow : bf.unitBytes ≠ 8) (mem : Memory) (unit : Nat) {k : Nat} (lt : k < 32) :
    (bitFieldLoad ir bf reg mem unit).bit k = (bf.extract ir.i32 (loadUnit 32 mem bf.accessBytes unit)).getLsbD k := by
  rw [bitFieldLoad, if_neg narrow]
  by_cases wide : reg = .i64
  · simp only [wide, if_true, Value.bit]
    split
    · rw [BitVec.getLsbD_signExtend, if_pos lt, decide_eq_true (by omega), Bool.true_and]
    · rw [BitVec.getLsbD_setWidth, decide_eq_true (by omega), Bool.true_and]
  · simp only [wide, if_false, Value.bit]

/-- Where every value is kept, the field lies in the bytes accessed. -/
theorem window_of_kept {signed : Bool} (some : 0 < bf.width) (register : bf.unitBytes = 8 → reg = .i64)
    (held : reg ≠ .i128) {unit : Nat} (kept : ∀ k, bitFieldLoad zeroIr bf reg
      (bitFieldStore zeroIr bf (reg.single k) zeroMemory unit) unit = expected signed bf.width (reg.single k)) :
    bf.Window := by
  by_contra bad
  have positive : 0 < reg.bits := by
    cases reg <;> decide
  have lowest : (expected signed bf.width (reg.single 0)).bit 0 = true := expected_single signed some positive
  rw [← kept 0] at lowest
  by_cases wide : bf.unitBytes = 8
  · have out : bf.bitOff < 0 ∨ ((64 : Nat) : Int) < bf.bitOff + bf.width := by
      by_contra inside
      exact bad ⟨by omega, by rw [accessBytes_eight wide]; omega⟩
    rw [bitFieldLoad, bitFieldStore, if_pos wide, if_pos wide, register wide] at lowest
    simp only [RegType.single, Value.toI64, zeroIr, extract_insert_lost out, Value.bit] at lowest
    simp at lowest
  · have le := accessBytes_le wide
    have toI32 : ∀ k, ∃ val, (reg.single k).toI32 = Option.some val := by
      intro k
      cases reg with
      | i32 => exact ⟨_, rfl⟩
      | i64 => exact ⟨_, rfl⟩
      | i128 => exact absurd rfl held
    by_cases out : bf.bitOff < 0 ∨ ((32 : Nat) : Int) < bf.bitOff + bf.width
    · obtain ⟨val, eq⟩ := toI32 0
      rw [bitFieldLoad_bit wide _ _ (by omega), bitFieldStore, if_neg wide, eq] at lowest
      simp only [zeroIr, extract_insert_lost out] at lowest
      simp at lowest
    · obtain ⟨o, start⟩ := Int.eq_ofNat_of_zero_le (show 0 ≤ bf.bitOff by omega)
      have beyond : 8 * bf.accessBytes < o + bf.width := by
        by_contra inside
        exact bad ⟨by omega, by omega⟩
      have top : (expected signed bf.width (reg.single (bf.width - 1))).bit (bf.width - 1) = true := by
        refine expected_single signed (by omega) ?_
        cases reg <;> simp only [RegType.bits] <;> omega
      rw [← kept (bf.width - 1), bitFieldLoad_bit wide _ _ (by omega), extract_cut start some (by omega) beyond] at top
      cases top

/-- A field as wide as the register holds every value, whatever its sign. -/
theorem expected_wide {bool : Bool} (signed signed' : Bool) {w : Nat} (wide : reg.bits ≤ w) {v : Value}
    (operand : Operand reg bool v) : expected signed w v = expected signed' w v := by
  have id : ∀ (s : Bool) (W : Nat) (x : BitVec W), W ≤ w → reduce s w x = x := by
    intro s W x le
    apply BitVec.eq_of_getLsbD_eq
    intro k lt
    exact reduce_low s x (by omega) lt
  have same : ∀ (W : Nat) (x : BitVec W), W ≤ reg.bits → reduce signed w x = reduce signed' w x := by
    intro W x le
    rw [id signed W x (by omega), id signed' W x (by omega)]
  cases v with
  | i1 b => exact congrArg Value.i32 (same 32 _ (by rw [operand.1]; exact Nat.le_refl _))
  | i32 x => exact congrArg Value.i32 (same 32 x (by rw [show reg = .i32 from operand]; exact Nat.le_refl _))
  | i64 x => exact congrArg Value.i64 (same 64 x (by rw [show reg = .i64 from operand]; exact Nat.le_refl _))
  | i128 x => exact congrArg Value.i128 (same 128 x (by rw [show reg = .i128 from operand]; exact Nat.le_refl _))

/-- **A field that fits keeps what is stored in it**, and only its bits change. -/
theorem BitField.Fits.preserves {signed bool : Bool} {unitOff size : Nat} (fits : bf.Fits reg signed unitOff size)
    (some : 0 < bf.width) (mem : Memory) (base : Nat) {v : Value} (operand : Operand reg bool v) :
    Preserves ir bf reg signed unitOff size mem base v where
  value := by
    rw [load_store fits.window some fits.held fits.register mem _ operand]
    rcases fits.sign with same | wide
    · rw [same]
    · exact expected_wide bf.signed signed wide operand
  object p _ _ out := store_bit_of_outside fits.window some mem _ v (by push_cast; exact out)
  outside a out := by
    have start := fits.window.start
    have inside := fits.inside
    apply Memory.eq_of_bit
    intro k lt
    exact store_bit_of_outside fits.window some mem _ v (by omega)

theorem store_top (window : bf.Window) (some : 0 < bf.width) (register : bf.unitBytes = 8 → reg = .i64)
    (held : reg ≠ .i128) (mem : Memory) (unit : Nat) {p : Nat} (top : (p : Int) + 1 = 8 * unit + bf.bitOff + bf.width) :
    (bitFieldStore ir bf (reg.single (bf.width - 1)) mem unit).bit p = true := by
  obtain ⟨o, start⟩ := Int.eq_ofNat_of_zero_le window.start
  have stop := window.stop
  rw [start] at stop top
  have set : ∀ W, bf.width ≤ W → (BitVec.twoPow W (bf.width - 1)).getLsbD (bf.width - 1) = true := by
    intro W le
    rw [BitVec.getLsbD_twoPow, decide_eq_true (show bf.width - 1 < W by omega)]
    simp
  have place : p - (8 * unit + o) = bf.width - 1 := by omega
  by_cases wide : bf.unitBytes = 8
  · rw [accessBytes_eight wide] at stop
    rw [bitFieldStore, if_pos wide, register wide]
    simp only [RegType.single, Value.toI64]
    rw [insert_bit start some (by omega) (by omega) (by omega), if_pos (by omega), place]
    exact set 64 (by omega)
  · have le := accessBytes_le wide
    rw [bitFieldStore, if_neg wide]
    cases reg with
    | i32 =>
      simp only [RegType.single, Value.toI32]
      rw [insert_bit start some (by omega) (by omega) (by omega), if_pos (by omega), place]
      exact set 32 (by omega)
    | i64 =>
      simp only [RegType.single, Value.toI32]
      rw [insert_bit start some (by omega) (by omega) (by omega), if_pos (by omega), place, BitVec.getLsbD_setWidth,
        decide_eq_true (by omega), Bool.true_and]
      exact set 64 (by omega)
    | i128 => exact absurd rfl held

/-- **Stores into a bit-field are read back and disturb nothing exactly when it fits.** -/
theorem preserves_iff {signed bool : Bool} {unitOff size : Nat} (some : 0 < bf.width) :
    (∀ ir mem base v, Operand reg bool v → Preserves ir bf reg signed unitOff size mem base v) ↔
      bf.Fits reg signed unitOff size := by
  refine ⟨fun all => ?_, fun fits ir mem base v operand => fits.preserves some mem base operand⟩
  have kept := fun k => (all zeroIr zeroMemory 0 (reg.single k) (single_operand reg bool k)).value
  have held : reg ≠ .i128 := by
    rintro rfl
    have := kept 0
    rw [bitFieldLoad] at this
    split at this <;> simp [RegType.single, expected] at this
  have register : bf.unitBytes = 8 → reg = .i64 := by
    intro wide
    have := kept 0
    rw [bitFieldLoad, if_pos wide] at this
    cases reg with
    | i64 => rfl
    | i32 => simp [RegType.single, expected] at this
    | i128 => exact absurd rfl held
  have window := window_of_kept some register held kept
  have start := window.start
  have stop := window.stop
  refine ⟨held, window, register, ?_, ?_⟩
  · by_contra bad
    have wrong := kept (bf.width - 1)
    rw [load_store window some held register _ _ (single_operand reg bool _)] at wrong
    have bits := congrArg (fun v => Value.bit v bf.width) wrong
    simp only [expected_sign _ some (show bf.width < reg.bits by omega)] at bits
    exact bad (.inl bits)
  · by_contra beyond
    obtain ⟨p, top⟩ := Int.eq_ofNat_of_zero_le (show 0 ≤ 8 * (unitOff : Int) + bf.bitOff + bf.width - 1 by omega)
    have byte := (all zeroIr zeroMemory 0 (reg.single (bf.width - 1)) (single_operand reg bool _)).outside (p / 8) (by omega)
    have set : (bitFieldStore zeroIr bf (reg.single (bf.width - 1)) zeroMemory (0 + unitOff)).bit p = true :=
      store_top window some register held zeroMemory _ (by push_cast; omega)
    rw [Memory.bit, byte] at set
    simp [zeroMemory] at set

end Vcx.Lower
