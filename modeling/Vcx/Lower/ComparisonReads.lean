import Vcx.Lower.Comparison

/-!
# What a comparison reads

Integers compare as their bits do from the highest down, a negative number's highest bit the
other way round. So a chain of tests and a list of subobjects both decide by a list of
questions (`Key`): a bit of the two objects, a floating-point number in them, an operator
of a class. `runSpaceship_eq`, `firstDifference_eq` and the two lemmas for `==` say so.
-/

namespace Vcx.Comparison
set_option autoImplicit false
open Vcx.Lib Vcx.Types
open Vcx.Lower (isSigned signedKind)

/-- What one question of a comparison is about: a bit of the objects, the floating-point number of so many
bytes at an offset, or the subobjects a class's operator is called for. -/
inductive Key where
  | bit (p : Nat)
  | float (n off : Nat)
  | call (c : Nat) (o : Option Nat) (place : Place)
  deriving DecidableEq, Repr

/-- The bits from `p` on, the highest first; the highest of a signed number counts the other way. -/
def bitKeys (p : Nat) : Nat → Bool → List (Key × Bool)
  | 0, _ => []
  | n + 1, signed => (.bit (p + n), signed) :: bitKeys p n false

def Held.keys (off : Nat) : Held → List (Key × Bool)
  | .int n signed => bitKeys (8 * off) n signed
  | .float n => [(.float n off, false)]
  | .nothing => []

variable (m : Model) (h : Hierarchy)

/-- What `load` has in the register, and `threeWay` compares. -/
def loaded (t : Ty) : Held :=
  match regType m h t with
  | .i128 => .nothing
  | .i64 => .int 64 (isSigned t)
  | .f32 => .float 4
  | .f64 => .float 8
  | .ptr => .int (8 * m.sizePtr) false
  | .i32 | .none =>
    match storeBytes m h t with
    | 1 => .int 8 (isSigned t)
    | 2 => .int 16 (isSigned t)
    | _ => .int 32 (isSigned t)

def Test.keys : Test → List (Key × Bool)
  | .call c i off => [(.call c (some i) (.fixed off), false)]
  | .scalar t off => (loaded m h t).keys off

def Part.keys (resolved : Nat → Option Nat) : Part → List (Key × Bool)
  | .object c place => [(.call c (resolved c) place, false)]
  | .scalar t off => (held m h t).keys off
  | .bits t lo width => bitKeys lo width (Lower.signedType m t)

/-- How two bits compare. -/
def orderBit (x y : Bool) : Order := if x = y then .equal else if y then .less else .greater

/-- The answers for two objects. -/
def answers (op : Op) (env : Env) (mem : Memory) (this other : Nat) : Key → Order
  | .bit p => orderBit (mem.bit (8 * this + p)) (mem.bit (8 * other + p))
  | .float n off => env.floats.order n (mem.load n (this + off)) (mem.load n (other + off))
  | .call c o place =>
    let x := place.address env mem this
    let y := place.address env mem other
    match op with
    | .equality => if env.equal c o mem x y then .equal else .less
    | .spaceship => env.order c o mem x y

/-! ### Integers -/

@[simp] theorem orderInt_eq_equal {x y : Int} : orderInt x y = .equal ↔ x = y := by
  unfold orderInt
  split
  · simp
    omega
  split
  · simp
    omega
  · simp
    omega

theorem orderInt_of_lt {x y : Int} (lt : x < y) : orderInt x y = .less := if_pos lt

theorem orderInt_of_gt {x y : Int} (gt : y < x) : orderInt x y = .greater := by
  rw [orderInt, if_neg (by omega), if_pos gt]

theorem orderInt_add_left (z x y : Int) : orderInt (z + x) (z + y) = orderInt x y := by
  simp [orderInt]

theorem bitsAt_lt (mem : Memory) (p n : Nat) : bitsAt mem p n < 2 ^ n := by
  induction n with
  | zero => simp [bitsAt]
  | succ n ih =>
    have := Bool.toNat_le (mem.bit (p + n))
    have := Nat.mul_le_mul_right (2 ^ n) this
    rw [bitsAt, Nat.pow_succ]
    omega

theorem bitsAt_testBit (mem : Memory) (p n k : Nat) :
    (bitsAt mem p n).testBit k = (decide (k < n) && mem.bit (p + k)) := by
  induction n with
  | zero => simp [bitsAt]
  | succ n ih =>
    rw [bitsAt, Nat.mul_comm, Nat.testBit_two_pow_mul_add _ (bitsAt_lt mem p n), ih]
    rcases Nat.lt_trichotomy k n with lt | rfl | gt
    · rw [if_pos lt, decide_eq_true lt, decide_eq_true (by omega)]
    · rw [if_neg (by omega), Nat.sub_self, decide_eq_true (by omega)]
      cases mem.bit (p + k) <;> rfl
    · rw [if_neg (by omega), decide_eq_false (by omega), Bool.false_and]
      obtain ⟨d, rfl⟩ : ∃ d, k = n + (d + 1) := ⟨k - n - 1, by omega⟩
      rw [Nat.add_sub_cancel_left]
      cases mem.bit (p + n) <;> simp [Nat.testBit_succ]

/-- The bytes a load reads, as a number. -/
theorem load_toNat (mem : Memory) (n a : Nat) : (mem.load n a).toNat = bitsAt mem (8 * a) (8 * n) := by
  apply Nat.eq_of_testBit_eq
  intro k
  rw [bitsAt_testBit, ← Memory.load_getLsbD]
  rfl

/-- The bytes a load reads, in two's complement. -/
theorem load_toInt (mem : Memory) (n a : Nat) : (mem.load n a).toInt = intAt mem (8 * a) (8 * n) true := by
  rw [BitVec.toInt_eq_msb_cond, load_toNat, intAt, BitVec.msb_eq_getLsbD_last, Memory.load_getLsbD]
  by_cases none : n = 0
  · subst none
    simp [bitsAt]
  · have some : 8 * n - 1 < 8 * n := by omega
    simp [some, show 8 * n ≠ 0 by omega]

/-- Unsigned numbers compare as their bits do. -/
theorem lex_unsigned (mem : Memory) (x y p n : Nat) (v : Key → Order)
    (bits : ∀ k, v (.bit k) = orderBit (mem.bit (x + k)) (mem.bit (y + k))) :
    lex v (bitKeys p n false) = orderInt (bitsAt mem (x + p) n) (bitsAt mem (y + p) n) := by
  induction n with
  | zero => rfl
  | succ n ih =>
    have := bitsAt_lt mem (x + p) n
    have := bitsAt_lt mem (y + p) n
    rw [bitKeys, lex, bits, ih, bitsAt, bitsAt, Nat.add_assoc x p n, Nat.add_assoc y p n, Nat.cast_add, Nat.cast_add]
    generalize 2 ^ n = top at *
    cases mem.bit (x + (p + n)) <;> cases mem.bit (y + (p + n))
    · exact (orderInt_add_left _ _ _).symm
    · exact (orderInt_of_lt (by simp; omega)).symm
    · exact (orderInt_of_gt (by simp; omega)).symm
    · exact (orderInt_add_left _ _ _).symm

/-- So do signed ones, the highest bit turned round. -/
theorem lex_int (mem : Memory) (x y p n : Nat) (signed : Bool) (v : Key → Order)
    (bits : ∀ k, v (.bit k) = orderBit (mem.bit (x + k)) (mem.bit (y + k))) :
    lex v (bitKeys p n signed) = orderInt (intAt mem (x + p) n signed) (intAt mem (y + p) n signed) := by
  cases signed with
  | false => simpa [intAt] using lex_unsigned mem x y p n v bits
  | true =>
    cases n with
    | zero => simp [bitKeys, lex, intAt, bitsAt, orderInt]
    | succ n =>
      have := bitsAt_lt mem (x + p) n
      have := bitsAt_lt mem (y + p) n
      rw [bitKeys, lex, bits, lex_unsigned mem x y p n v bits, intAt, intAt, bitsAt, bitsAt, Nat.add_sub_cancel,
        Nat.add_assoc x p n, Nat.add_assoc y p n, Nat.pow_succ]
      generalize 2 ^ n = top at *
      cases mem.bit (x + (p + n)) <;> cases mem.bit (y + (p + n))
      · simp [orderBit]
      · exact (orderInt_of_gt (by simp; omega)).symm
      · exact (orderInt_of_lt (by simp; omega)).symm
      · simp [orderBit, orderInt]

/-! ### Words -/

theorem word_inj {o o' : Order} : word o = word o' ↔ o = o' := by
  cases o <;> cases o' <;> decide

theorem word_eq_zero {o : Order} : word o = 0 ↔ o = .equal := by
  cases o <;> decide

/-- An ordering comes through its byte. -/
theorem word_byte (o : Order) : ((word o).setWidth 8).signExtend 32 = word o := by
  cases o <;> decide

theorem select_eq (o : Order) : select (o = .less) (o = .greater) (o = .equal) = word o := by
  cases o <;> rfl

theorem select_orderInt (x y : Int) : select (x < y) (y < x) (x = y) = word (orderInt x y) := by
  unfold orderInt select
  rcases Int.lt_trichotomy x y with lt | rfl | gt
  · simp [lt, word]
  · simp [word]
  · simp [gt, show ¬ x < y by omega, word]

/-- The number in a register. -/
def number {w : Nat} (signed : Bool) (x : BitVec w) : Int := if signed then x.toInt else x.toNat

theorem number_inj {w : Nat} {signed : Bool} {x y : BitVec w} : number signed x = number signed y ↔ x = y := by
  cases signed with
  | false => simp [number, BitVec.toNat_inj]
  | true => simp [number, BitVec.toInt_inj]

theorem selectInt_eq {w : Nat} (signed : Bool) (x y : BitVec w) :
    selectInt signed x y = word (orderInt (number signed x) (number signed y)) := by
  have same : (x == y) = decide (number signed x = number signed y) := by
    rw [beq_eq_decide]
    exact decide_eq_decide.2 number_inj.symm
  rw [← select_orderInt, ← same]
  cases signed with
  | false => simp [selectInt, number, BitVec.ult]
  | true => simp [selectInt, number, BitVec.slt]

theorem selectFloat_eq (floats : Floats) {n : Nat} (x y : BitVec (8 * n)) :
    selectFloat floats x y = word (floats.order n x y) := by
  rw [← select_eq, selectFloat, floats.swap n x y]
  cases floats.order n x y <;> rfl

/-! ### Scalars -/

/-- Two registers that hold what `loaded` says of two addresses. -/
theorem number_load (mem : Memory) (n a : Nat) (signed : Bool) :
    number signed (mem.load n a) = intAt mem (8 * a) (8 * n) signed := by
  cases signed with
  | false => simp [number, load_toNat, intAt]
  | true => exact load_toInt mem n a

theorem number_extend (mem : Memory) {n : Nat} (a : Nat) (signed : Bool) (le : 8 * n ≤ 32) :
    number signed (if signed then (mem.load n a).signExtend 32 else (mem.load n a).setWidth 32) =
      intAt mem (8 * a) (8 * n) signed := by
  rw [← number_load]
  cases signed with
  | false =>
    have := Nat.pow_le_pow_right (n := 2) (by decide) le
    have := (mem.load n a).isLt
    simp only [number, Bool.false_eq_true, if_false, BitVec.toNat_setWidth]
    rw [Nat.mod_eq_of_lt (by omega)]
  | true =>
    simp only [number, if_true]
    exact BitVec.toInt_signExtend_of_le le

variable {m h}

/-- The outcome for two registers is that of what was loaded. -/
theorem threeWay_load (env : Env) (mem : Memory) (x y : Nat) {t : Ty} (handled : regType m h t ≠ .i128) :
    threeWay env.floats (load m h mem x t) (load m h mem y t) t = some (word ((loaded m h t).order env mem x y)) := by
  have word32 : threeWay env.floats
      (match storeBytes m h t with
        | 1 => Reg.i32 (if isSigned t then (mem.load 1 x).signExtend 32 else (mem.load 1 x).setWidth 32)
        | 2 => .i32 (if isSigned t then (mem.load 2 x).signExtend 32 else (mem.load 2 x).setWidth 32)
        | _ => .i32 (mem.load 4 x) : Reg m)
      (match storeBytes m h t with
        | 1 => Reg.i32 (if isSigned t then (mem.load 1 y).signExtend 32 else (mem.load 1 y).setWidth 32)
        | 2 => .i32 (if isSigned t then (mem.load 2 y).signExtend 32 else (mem.load 2 y).setWidth 32)
        | _ => .i32 (mem.load 4 y)) t =
      some (word ((match storeBytes m h t with
        | 1 => Held.int 8 (isSigned t)
        | 2 => .int 16 (isSigned t)
        | _ => .int 32 (isSigned t)).order env mem x y)) := by
    split
    · rw [threeWay, selectInt_eq, number_extend _ _ _ (by decide), number_extend _ _ _ (by decide)]
      rfl
    · rw [threeWay, selectInt_eq, number_extend _ _ _ (by decide), number_extend _ _ _ (by decide)]
      rfl
    · rw [threeWay, selectInt_eq]
      exact congrArg (some ∘ word) (congrArg₂ orderInt (number_load mem 4 x _) (number_load mem 4 y _))
  unfold load loaded
  cases reg : regType m h t with
  | i128 => exact absurd reg handled
  | i64 =>
    simp only [threeWay, selectInt_eq]
    exact congrArg (some ∘ word) (congrArg₂ orderInt (number_load mem 8 x _) (number_load mem 8 y _))
  | f32 => exact congrArg some (selectFloat_eq env.floats _ _)
  | f64 => exact congrArg some (selectFloat_eq env.floats _ _)
  | ptr =>
    simp only [threeWay, selectInt_eq, number_load]
    rfl
  | i32 => exact word32
  | none => exact word32

theorem scalarEqual_eq (floats : Floats) (l r : Reg m) (t : Ty) :
    scalarEqual floats l r = (threeWay floats l r t).map fun order => decide (order = 0) := by
  have ints : ∀ {w : Nat} (signed : Bool) (x y : BitVec w), (x == y) = decide (selectInt signed x y = 0) := by
    intro w signed x y
    rw [beq_eq_decide]
    apply decide_eq_decide.2
    rw [selectInt_eq, word_eq_zero, orderInt_eq_equal, number_inj]
  have nums : ∀ {n : Nat} (x y : BitVec (8 * n)), decide (floats.order n x y = .equal) = decide (selectFloat floats x y = 0) := by
    intro n x y
    apply decide_eq_decide.2
    rw [selectFloat_eq, word_eq_zero]
  cases l <;> cases r <;> first
    | exact congrArg some (ints _ _ _)
    | exact congrArg some (nums _ _)
    | rfl

section

variable (env : Env) (mem : Memory) (this other : Nat)

/-- A scalar's outcome is the first difference in its bits. -/
theorem Held.order_eq (op : Op) (off : Nat) (held : Held) :
    held.order env mem (this + off) (other + off) = lex (answers op env mem this other) (held.keys off) := by
  cases held with
  | int n signed =>
    rw [Held.keys, lex_int mem (8 * this) (8 * other) _ _ _ _ fun _ => rfl, ← Nat.mul_add, ← Nat.mul_add]
    rfl
  | float n =>
    rw [Held.keys, lex, lex]
    split
    · assumption
    · rfl
  | nothing => rfl

/-- A test that the code has a case for. -/
def Test.Handled (m : Model) (h : Hierarchy) : Test → Prop
  | .call _ _ _ => True
  | .scalar t _ => regType m h t ≠ .i128

theorem Test.order_eq {test : Test} (handled : test.Handled m h) : test.order m h env mem this other =
    word (lex (answers .spaceship env mem this other) (test.keys m h)) := by
  cases test with
  | call c i off =>
    rw [Test.order, Test.keys, lex, lex]
    split
    · rename_i same
      exact congrArg word same
    · rfl
  | scalar t off =>
    rw [Test.order, Test.keys, threeWay_load env mem _ _ handled, ← Held.order_eq]
    rfl

theorem Test.agrees_eq {test : Test} (handled : test.Handled m h) : test.agrees m h env mem this other =
    allEqual (answers .equality env mem this other) (test.keys m h) := by
  rw [Bool.eq_iff_iff, allEqual_iff]
  cases test with
  | call c i off =>
    rw [Test.agrees, Test.keys, lex_eq_equal_iff]
    cases same : env.equal c (some i) mem (this + off) (other + off) <;> simp [answers, Place.address, same]
  | scalar t off =>
    rw [Test.agrees, Test.keys, scalarEqual_eq _ _ _ t, threeWay_load env mem _ _ handled, ← Held.order_eq, Option.map_some,
      Option.getD_some, decide_eq_true_iff, word_eq_zero]

/-- **The chain for `<=>`** gives the first difference in what its tests read. -/
theorem runSpaceship_eq {tests : List Test} (handled : ∀ test ∈ tests, test.Handled m h) :
    runSpaceship m h env mem this other tests =
      word (lex (answers .spaceship env mem this other) (tests.flatMap (Test.keys m h))) := by
  induction tests with
  | nil => rfl
  | cons test rest ih =>
    rw [List.forall_mem_cons] at handled
    rw [runSpaceship, List.flatMap_cons, lex_append, Test.order_eq env mem this other handled.1, ih handled.2]
    simp only [word_eq_zero, word_byte]
    split <;> rfl

/-- **The chain for `==`** has the objects equal when its tests read the same. -/
theorem runEquality_eq {tests : List Test} (handled : ∀ test ∈ tests, test.Handled m h) :
    runEquality m h env mem this other tests =
      allEqual (answers .equality env mem this other) (tests.flatMap (Test.keys m h)) := by
  induction tests with
  | nil => rfl
  | cons test rest ih =>
    rw [List.forall_mem_cons] at handled
    rw [runEquality, List.flatMap_cons, allEqual, List.all_append, Test.agrees_eq env mem this other handled.1, ih handled.2]
    unfold allEqual
    cases (test.keys m h).all fun q => decide (answers .equality env mem this other q.1 = .equal) <;> rfl

variable (resolved : Nat → Option Nat)

theorem Part.order_eq (part : Part) : part.order m h resolved env mem this other =
    lex (answers .spaceship env mem this other) (part.keys m h resolved) := by
  cases part with
  | object c place =>
    rw [Part.order, Part.keys, lex, lex]
    split
    · assumption
    · rfl
  | scalar t off => exact Held.order_eq env mem this other _ off _
  | bits t lo width => exact (lex_int mem (8 * this) (8 * other) _ _ _ _ fun _ => rfl).symm

theorem Part.agrees_eq (part : Part) : part.agrees m h resolved env mem this other =
    allEqual (answers .equality env mem this other) (part.keys m h resolved) := by
  rw [Bool.eq_iff_iff, allEqual_iff]
  cases part with
  | object c place =>
    rw [Part.agrees, Part.keys, lex_eq_equal_iff]
    cases same : env.equal c (resolved c) mem (place.address env mem this) (place.address env mem other) <;>
      simp [answers, same]
  | scalar t off =>
    show decide ((held m h t).order env mem (this + off) (other + off) = .equal) = true ↔ _
    rw [Held.order_eq env mem this other .equality, decide_eq_true_iff]
    rfl
  | bits t lo width =>
    rw [Part.keys, lex_int mem (8 * this) (8 * other) _ _ _ _ fun _ => rfl]
    exact decide_eq_true_iff

theorem firstDifference_eq (ps : List Part) : firstDifference m h resolved env mem this other ps =
    lex (answers .spaceship env mem this other) (ps.flatMap (Part.keys m h resolved)) := by
  induction ps with
  | nil => rfl
  | cons part rest ih =>
    rw [List.flatMap_cons, lex_append, ← Part.order_eq, ← ih, firstDifference, List.map_cons, List.find?_cons]
    by_cases same : part.order m h resolved env mem this other = .equal
    · simp [same, firstDifference]
    · have found : (part.order m h resolved env mem this other != .equal) = true := by simpa using same
      simp [same, found]

theorem all_agrees_eq (ps : List Part) : ps.all (Part.agrees m h resolved env mem this other) =
    allEqual (answers .equality env mem this other) (ps.flatMap (Part.keys m h resolved)) := by
  rw [allEqual, List.all_flatMap]
  congr 1
  funext part
  exact Part.agrees_eq env mem this other resolved part

end

end Vcx.Comparison
