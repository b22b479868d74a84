import Vcx.Constexpr.IntBinary

/-!
# The preprocessor's arithmetic

`apply` of the `#if` evaluator: machine words of 64 bits with a flag for the unsigned ones.
What it computes is compared with `constexpr`'s `evalIntBinary`, which works on unbounded
integers and never converts an operand: on one signed and one unsigned operand they agree only
where the negative number happens to give the same result as its unsigned reading.
-/

namespace Vcx.Preprocessor
set_option autoImplicit false
open Vcx.Lib Vcx.Types Vcx.Constexpr

/-- `value`: an `intmax_t` or a `uintmax_t`. -/
structure Word where
  u : BitVec 64
  unsigned : Bool := false
  deriving DecidableEq, Repr

/-- `i`. -/
def Word.i (v : Word) : Int := v.u.toInt

/-- `usual`: both operands unsigned when one is. -/
def usual (a b : Word) : Word × Word × Bool :=
  let un := a.unsigned || b.unsigned
  ({ a with unsigned := un }, { b with unsigned := un }, un)

def boolean (t : Bool) : Word := if t then { u := 1 } else { u := 0 }

/-- The operators of `apply` after the operands are converted, with what it reports. -/
def applyUsual (op : Token.Kind) (a b : Word) (un : Bool) : Word × Option String :=
  match op with
  | .add => ({ u := a.u + b.u, unsigned := un }, none)
  | .sub => ({ u := a.u - b.u, unsigned := un }, none)
  | .mul => ({ u := a.u * b.u, unsigned := un }, none)
  | .quo =>
    if b.u = 0 then ({ u := 0 }, some "division by zero in preprocessor expression")
    else if un then ({ u := a.u / b.u, unsigned := true }, none)
    else ({ u := a.u.sdiv b.u }, none)
  | .rem =>
    if b.u = 0 then ({ u := 0 }, some "division by zero in preprocessor expression")
    else if un then ({ u := a.u % b.u, unsigned := true }, none)
    else ({ u := a.u.srem b.u }, none)
  | .and => ({ u := a.u &&& b.u, unsigned := un }, none)
  | .or => ({ u := a.u ||| b.u, unsigned := un }, none)
  | .xor => ({ u := a.u ^^^ b.u, unsigned := un }, none)
  | .eql => (boolean (a.u = b.u), none)
  | .neq => (boolean (a.u ≠ b.u), none)
  | .lss => (boolean (if un then a.u < b.u else a.i < b.i), none)
  | .gtr => (boolean (if un then b.u < a.u else b.i < a.i), none)
  | .leq => (boolean (if un then a.u ≤ b.u else a.i ≤ b.i), none)
  | .geq => (boolean (if un then b.u ≤ a.u else b.i ≤ a.i), none)
  | _ => ({ u := 0 }, some "is not valid in a preprocessor expression")

/-- `apply`. A shift converts nothing: the left operand's type wins. -/
def apply (op : Token.Kind) (a b : Word) : Word × Option String :=
  let n := (b.u &&& 63).toNat
  match op with
  | .shl => ({ u := a.u <<< n, unsigned := a.unsigned }, none)
  | .shr => if a.unsigned then ({ u := a.u >>> n, unsigned := true }, none) else ({ u := a.u.sshiftRight n }, none)
  | op => applyUsual op (usual a b).1 (usual a b).2.1 (usual a b).2.2

/-! ### What is compared -/

/-- The number a word stands for. -/
def Word.number (v : Word) : Int := if v.unsigned then v.u.toNat else v.u.toInt

/-- The operand of `evalIntBinary` that stands for it. -/
def Word.intValue (v : Word) (typ : Option Ty) : IntValue :=
  { val := v.number, bitWidth := 64, isSigned := !v.unsigned, typ }

/-- The number a constant stands for. -/
def number : Constexpr.Value → Option Int
  | .int v => some v.val
  | .bool b => some (if b then 1 else 0)
  | _ => none

/-- The operators both evaluators have. -/
def shared : List Token.Kind :=
  [.add, .sub, .mul, .quo, .rem, .and, .or, .xor, .shl, .shr, .eql, .neq, .lss, .leq, .gtr, .geq]

/-- The evaluators agree on `a op b`: a constant of the one is the other's, and neither
divides by zero. -/
structure Agree (m : Model) (h : Hierarchy) (op : Token.Kind) (a b : Word) (ta tb : Option Ty) : Prop where
  value : ∀ v, evalIntBinary m h op (a.intValue ta) (b.intValue tb) = .ok v →
    (apply op a b).2 = none ∧ number v = some (apply op a b).1.number
  zero : op = .quo ∨ op = .rem → b.u = 0 →
    (∃ e, evalIntBinary m h op (a.intValue ta) (b.intValue tb) = .error e) ∧ (apply op a b).2.isSome = true

/-- A signed word with its top bit set. -/
def Word.negative (v : Word) : Bool := !v.unsigned && v.u.msb

/-- The inputs they agree on. Only one signed and one unsigned operand can make a difference:
for a shift, an unsigned count and a negative result; else a negative operand, whose word is
then at least `2 ^ 63`. -/
def SameReading (op : Token.Kind) (a b : Word) : Prop :=
  let A := a.u.toNat
  let B := b.u.toNat
  let left := a.negative = true ∧ b.unsigned = true
  let right := a.unsigned = true ∧ b.negative = true
  match op with
  | .shl => b.unsigned = true → a.unsigned = false → B < 64 → a.u.getLsbD (63 - B) = false
  | .shr => b.unsigned = true → B < 64 → a.negative = false
  | .quo => (left → B = 0 ∨ B = 1 ∨ A < B) ∧ (right → A < 2 ^ 64 - B ∨ B = 2 ^ 64 - 1 ∧ A = 2 ^ 64 - 1)
  | .rem => (left → B = 0 ∨ B ∣ A ∧ B ∣ 2 ^ 64 ∨ A < B) ∧ (right → A < 2 ^ 64 - B ∨ B ≤ A ∧ 2 ^ 64 - B ∣ 2 ^ 64)
  | .eql | .neq => left ∨ right → A ≠ B
  | .lss | .geq => (left → A < B) ∧ (right → B ≤ A)
  | .leq | .gtr => (left → A ≤ B) ∧ (right → B < A)
  | _ => True

/-! ### Words and their numbers -/

theorem Word.number_inRange (v : Word) : InRange (!v.unsigned) 64 v.number := by
  have := v.u.isLt
  unfold InRange Word.number
  cases v.unsigned with
  | true => simp only [Bool.not_true, Bool.false_eq_true, if_false, if_true]; omega
  | false =>
    have := BitVec.toInt_lt (x := v.u)
    have := BitVec.le_toInt (x := v.u)
    simp only [Bool.not_false, Bool.false_eq_true, if_false, if_true]
    omega

theorem Word.number_emod (v : Word) : v.number % 2 ^ 64 = v.u.toNat := by
  have := v.u.isLt
  unfold Word.number
  rw [BitVec.toInt_eq_toNat_cond]
  split
  · omega
  split <;> omega

/-- A word's number is its bits, reduced to its type. -/
theorem Word.number_eq_wrap (v : Word) : v.number = wrap (!v.unsigned) 64 v.u.toNat := by
  refine v.number_inRange.unique (by decide) (wrap_inRange _ (by decide) _) ?_
  rw [wrap_emod, v.number_emod]
  have := v.u.isLt
  omega

theorem Word.number_eq_zero {v : Word} : v.number = 0 ↔ v.u = 0 := by
  have range := v.number_emod
  have lt := v.u.isLt
  constructor
  · intro zero
    rw [zero] at range
    apply BitVec.eq_of_toNat_eq
    show v.u.toNat = 0
    omega
  · intro zero
    simp [Word.number, zero]

theorem Word.number_of_unsigned {v : Word} (un : v.unsigned = true) : v.number = v.u.toNat := by
  simp [Word.number, un]

theorem Word.number_of_not_negative {v : Word} (pos : v.negative = false) : v.number = v.u.toNat := by
  unfold Word.number
  split
  · rfl
  · rename_i un
    have : v.u.msb = false := by simpa [Word.negative, un] using pos
    rw [BitVec.toInt_eq_msb_cond, this]
    rfl

theorem Word.number_of_negative {v : Word} (neg : v.negative = true) :
    v.number = -(2 ^ 64 - v.u.toNat : Int) ∧ 2 ^ 63 ≤ v.u.toNat := by
  have ⟨un, msb⟩ : v.unsigned = false ∧ v.u.msb = true := by simpa [Word.negative] using neg
  have := BitVec.msb_eq_true_iff_two_mul_ge.1 msb
  refine ⟨?_, by omega⟩
  rw [Word.number, if_neg (by simp [un]), BitVec.toInt_eq_msb_cond, msb]
  simp only [if_true]
  omega

/-! ### Results -/

section

variable {m : Model} {h : Hierarchy} {op : Token.Kind} {a b : Word} {ta tb : Option Ty}

/-- The operands' numbers, where none is converted to another. -/
theorem number_intResult (res : Int) :
    number (intResult (a.intValue ta) (b.intValue tb) res) =
      some (wrap (!(a.unsigned || b.unsigned)) 64 res) := by
  simp [intResult, number, IntValue.normalize, Word.intValue, Bool.not_or]

attribute [local simp] evalIntBinary apply applyUsual SameReading

/-- Neither evaluator divides by zero, so only constants are left to compare. -/
theorem agree_iff_value : Agree m h op a b ta tb ↔
    ∀ v, evalIntBinary m h op (a.intValue ta) (b.intValue tb) = .ok v →
      (apply op a b).2 = none ∧ number v = some (apply op a b).1.number := by
  refine ⟨Agree.value, fun value => ⟨value, ?_⟩⟩
  have val : (b.intValue tb).val = b.number := rfl
  rintro (rfl | rfl) zero
  · simp [evalIntBinary, val, Word.number_eq_zero.2 zero, apply, applyUsual, usual, zero]
  · simp [evalIntBinary, val, Word.number_eq_zero.2 zero, apply, applyUsual, usual, zero]

/-- An operator with a result of the operands' common type. -/
theorem agree_iff_emod {n : Int} {x : BitVec 64}
    (left : evalIntBinary m h op (a.intValue ta) (b.intValue tb) = .ok (intResult (a.intValue ta) (b.intValue tb) n))
    (right : apply op a b = ({ u := x, unsigned := a.unsigned || b.unsigned }, none)) :
    Agree m h op a b ta tb ↔ n % 2 ^ 64 = x.toNat := by
  have lt := x.isLt
  rw [agree_iff_value, left, right]
  simp only [Except.ok.injEq, forall_eq', number_intResult, Option.some.injEq, true_and]
  rw [Word.number_eq_wrap, wrap_eq_wrap_iff]
  show n % 2 ^ 64 = (x.toNat : Int) % 2 ^ 64 ↔ _
  constructor <;> intro same <;> omega

/-- A comparison. -/
theorem agree_iff_bool {l r : Bool}
    (left : evalIntBinary m h op (a.intValue ta) (b.intValue tb) = .ok (.bool l))
    (right : apply op a b = (boolean r, none)) : Agree m h op a b ta tb ↔ l = r := by
  rw [agree_iff_value, left, right]
  simp only [Except.ok.injEq, forall_eq', true_and]
  cases l <;> cases r <;> simp [number, boolean, Word.number]

theorem number_emod_congr (v : Word) : v.number % 2 ^ 64 = (v.u.toNat : Int) % 2 ^ 64 := by
  have := v.number_emod
  have := v.u.isLt
  omega

theorem agree_add : Agree m h .add a b ta tb := by
  rw [agree_iff_emod (n := a.number + b.number) (x := a.u + b.u) rfl rfl, Int.add_emod, a.number_emod, b.number_emod,
    BitVec.toNat_add]
  norm_cast

theorem agree_sub : Agree m h .sub a b ta tb := by
  rw [agree_iff_emod (n := a.number - b.number) (x := a.u - b.u) rfl rfl, Int.sub_emod, a.number_emod, b.number_emod,
    BitVec.toNat_sub]
  have := b.u.isLt
  omega

theorem agree_mul : Agree m h .mul a b ta tb := by
  rw [agree_iff_emod (n := a.number * b.number) (x := a.u * b.u) rfl rfl, Int.mul_emod, a.number_emod, b.number_emod,
    BitVec.toNat_mul]
  norm_cast

theorem agree_and : Agree m h .and a b ta tb := by
  rw [agree_iff_emod (n := a.number.land b.number) (x := a.u &&& b.u) rfl rfl,
    land_emod_congr (number_emod_congr a) (number_emod_congr b), BitVec.toNat_and]
  show ((a.u.toNat &&& b.u.toNat : Nat) : Int) % 2 ^ 64 = _
  have := Nat.and_lt_two_pow (n := 64) a.u.toNat b.u.isLt
  omega

theorem agree_or : Agree m h .or a b ta tb := by
  rw [agree_iff_emod (n := a.number.lor b.number) (x := a.u ||| b.u) rfl rfl,
    lor_emod_congr (number_emod_congr a) (number_emod_congr b), BitVec.toNat_or]
  show ((a.u.toNat ||| b.u.toNat : Nat) : Int) % 2 ^ 64 = _
  have := Nat.or_lt_two_pow a.u.isLt b.u.isLt
  omega

theorem agree_xor : Agree m h .xor a b ta tb := by
  rw [agree_iff_emod (n := a.number.xor b.number) (x := a.u ^^^ b.u) rfl rfl,
    xor_emod_congr (number_emod_congr a) (number_emod_congr b), BitVec.toNat_xor]
  show ((a.u.toNat ^^^ b.u.toNat : Nat) : Int) % 2 ^ 64 = _
  have := Nat.xor_lt_two_pow a.u.isLt b.u.isLt
  omega

theorem negative_eq_false_of_unsigned {v : Word} (un : v.unsigned = true) : v.negative = false := by
  simp [Word.negative, un]

theorem mixed_cases (un : (a.unsigned || b.unsigned) = true) :
    (a.negative = true ∧ b.unsigned = true) ∨ (a.unsigned = true ∧ b.negative = true) ∨
      (a.negative = false ∧ b.negative = false) := by
  cases ua : a.unsigned <;> cases ub : b.unsigned <;> cases na : a.negative <;> cases nb : b.negative <;>
    simp_all [Word.negative]

theorem agree_zero (m : Model) (h : Hierarchy) (ta tb : Option Ty) (division : op = .quo ∨ op = .rem)
    (zero : b.u = 0#64) :
    Agree m h op a b ta tb ∧ SameReading op a b := by
  have val : (b.intValue tb).val = b.number := rfl
  have neg : b.negative = false := by simp [Word.negative, zero]
  constructor
  · rw [agree_iff_value]
    rcases division with rfl | rfl
    · simp [evalIntBinary, val, Word.number_eq_zero.2 zero]
    · simp [evalIntBinary, val, Word.number_eq_zero.2 zero]
  · rcases division with rfl | rfl
    · simp [SameReading, neg, zero]
    · simp [SameReading, neg, zero]

theorem toNat_pos (nonzero : ¬ b.u = 0#64) : 0 < b.u.toNat :=
  Nat.pos_of_ne_zero fun eq => nonzero (BitVec.eq_of_toNat_eq (by simpa using eq))

theorem agree_quo : Agree m h .quo a b ta tb ↔ SameReading .quo a b := by
  by_cases zero : b.u = 0#64
  · obtain ⟨agree, same⟩ := agree_zero m h ta tb (.inl rfl) zero
    exact iff_of_true agree same
  have val : (b.intValue tb).val = b.number := rfl
  have nonzero : b.number ≠ 0 := fun eq => zero (Word.number_eq_zero.1 eq)
  have left : evalIntBinary m h .quo (a.intValue ta) (b.intValue tb) =
      .ok (intResult (a.intValue ta) (b.intValue tb) (a.number.tdiv b.number)) := by
    simp [evalIntBinary, val, nonzero]
    rfl
  have ltA := a.u.isLt
  have ltB := b.u.isLt
  have posB := toNat_pos zero
  cases un : a.unsigned || b.unsigned with
  | false =>
    obtain ⟨ua, ub⟩ : a.unsigned = false ∧ b.unsigned = false := by simpa using un
    have right : apply .quo a b = ({ u := a.u.sdiv b.u, unsigned := a.unsigned || b.unsigned }, none) := by
      simp [apply, applyUsual, usual, zero, ua, ub]
    rw [agree_iff_emod left right]
    have word := Word.number_emod { u := a.u.sdiv b.u }
    have : (a.number.tdiv b.number) % 2 ^ 64 = (a.u.sdiv b.u).toNat := by
      rw [← word]
      simp only [Word.number, ua, ub, Bool.false_eq_true, if_false, BitVec.toInt_sdiv]
      exact (Int.bmod_emod ..).symm
    exact iff_of_true this (by simp [SameReading, ua, ub])
  | true =>
    have right : apply .quo a b = ({ u := a.u / b.u, unsigned := a.unsigned || b.unsigned }, none) := by
      simp [apply, applyUsual, usual, zero, un]
    rw [agree_iff_emod left right, BitVec.toNat_udiv]
    rcases mixed_cases un with ⟨neg, ub⟩ | ⟨ua, neg⟩ | ⟨na, nb⟩
    · obtain ⟨num, high⟩ := Word.number_of_negative neg
      have key := neg_tdiv_emod_iff (H := 2 ^ 63) (W := 2 ^ 64) (n := 2 ^ 64 - a.u.toNat) (b := b.u.toNat)
        (by norm_num) (by omega) (by omega) (by omega) (by omega)
      rw [num, Word.number_of_unsigned ub]
      rw [show (2 ^ 64 - (2 ^ 64 - (a.u.toNat : Int))) = a.u.toNat by omega] at key
      rw [Int.natCast_ediv, key]
      simp only [SameReading, neg, ub, negative_eq_false_of_unsigned ub, Bool.false_eq_true, and_false, and_true,
        true_implies, false_implies]
      omega
    · obtain ⟨num, high⟩ := Word.number_of_negative neg
      have key := tdiv_neg_emod_iff (H := 2 ^ 63) (W := 2 ^ 64) (n := 2 ^ 64 - b.u.toNat) (a := a.u.toNat)
        (by norm_num) (by omega) (by omega) (by omega) (by omega)
      rw [num, Word.number_of_unsigned ua]
      rw [show (2 ^ 64 - (2 ^ 64 - (b.u.toNat : Int))) = b.u.toNat by omega] at key
      rw [Int.natCast_ediv, key]
      simp only [SameReading, neg, ua, negative_eq_false_of_unsigned ua, Bool.false_eq_true, false_and, and_true,
        true_and, true_implies, false_implies]
      omega
    · rw [Word.number_of_not_negative na, Word.number_of_not_negative nb]
      have small : a.u.toNat / b.u.toNat < 2 ^ 64 := Nat.lt_of_le_of_lt (Nat.div_le_self ..) ltA
      have : ((a.u.toNat : Int).tdiv b.u.toNat) % 2 ^ 64 = ((a.u.toNat / b.u.toNat : Nat) : Int) := by
        rw [← Int.ofNat_tdiv]
        exact Int.emod_eq_of_lt (Int.natCast_nonneg _) (by exact_mod_cast small)
      exact iff_of_true this (by simp [SameReading, na, nb])

theorem agree_rem : Agree m h .rem a b ta tb ↔ SameReading .rem a b := by
  by_cases zero : b.u = 0#64
  · obtain ⟨agree, same⟩ := agree_zero m h ta tb (.inr rfl) zero
    exact iff_of_true agree same
  have val : (b.intValue tb).val = b.number := rfl
  have nonzero : b.number ≠ 0 := fun eq => zero (Word.number_eq_zero.1 eq)
  have left : evalIntBinary m h .rem (a.intValue ta) (b.intValue tb) =
      .ok (intResult (a.intValue ta) (b.intValue tb) (a.number.tmod b.number)) := by
    simp [evalIntBinary, val, nonzero]
    rfl
  have ltA := a.u.isLt
  have ltB := b.u.isLt
  have posB := toNat_pos zero
  cases un : a.unsigned || b.unsigned with
  | false =>
    obtain ⟨ua, ub⟩ : a.unsigned = false ∧ b.unsigned = false := by simpa using un
    have right : apply .rem a b = ({ u := a.u.srem b.u, unsigned := a.unsigned || b.unsigned }, none) := by
      simp [apply, applyUsual, usual, zero, ua, ub]
    rw [agree_iff_emod left right]
    have word := Word.number_emod { u := a.u.srem b.u }
    have : (a.number.tmod b.number) % 2 ^ 64 = (a.u.srem b.u).toNat := by
      rw [← word]
      simp only [Word.number, ua, ub, Bool.false_eq_true, if_false, BitVec.toInt_srem]
    exact iff_of_true this (by simp [SameReading, ua, ub])
  | true =>
    have right : apply .rem a b = ({ u := a.u % b.u, unsigned := a.unsigned || b.unsigned }, none) := by
      simp [apply, applyUsual, usual, zero, un]
    rw [agree_iff_emod left right, BitVec.toNat_umod]
    rcases mixed_cases un with ⟨neg, ub⟩ | ⟨ua, neg⟩ | ⟨na, nb⟩
    · obtain ⟨num, high⟩ := Word.number_of_negative neg
      have key := neg_tmod_emod_iff (H := 2 ^ 63) (W := 2 ^ 64) (n := 2 ^ 64 - a.u.toNat) (b := b.u.toNat)
        (by norm_num) (by omega) (by omega) (by omega) (by omega)
      rw [num, Word.number_of_unsigned ub]
      rw [show (2 ^ 64 - (2 ^ 64 - (a.u.toNat : Int))) = a.u.toNat by omega] at key
      rw [Int.natCast_emod, key]
      have divides : (b.u.toNat : Int) ∣ 2 ^ 64 - a.u.toNat ∧ (b.u.toNat : Int) ∣ 2 ^ 64 ↔
          b.u.toNat ∣ a.u.toNat ∧ b.u.toNat ∣ 2 ^ 64 := by
        constructor
        · rintro ⟨first, second⟩
          have := Int.dvd_sub second first
          rw [show (2 ^ 64 - (2 ^ 64 - (a.u.toNat : Int))) = a.u.toNat by omega] at this
          exact ⟨by exact_mod_cast this, by exact_mod_cast second⟩
        · rintro ⟨first, second⟩
          have second' : (b.u.toNat : Int) ∣ 2 ^ 64 := by exact_mod_cast second
          exact ⟨Int.dvd_sub second' (by exact_mod_cast first), second'⟩
      rw [divides]
      simp only [SameReading, neg, ub, negative_eq_false_of_unsigned ub, Bool.false_eq_true, and_false, and_true,
        true_implies, false_implies]
      omega
    · obtain ⟨num, high⟩ := Word.number_of_negative neg
      have key := tmod_neg_emod_iff (H := 2 ^ 63) (W := 2 ^ 64) (n := 2 ^ 64 - b.u.toNat) (a := a.u.toNat)
        (by norm_num) (by omega) (by omega) (by omega) (by omega)
      rw [num, Word.number_of_unsigned ua]
      rw [show (2 ^ 64 - (2 ^ 64 - (b.u.toNat : Int))) = b.u.toNat by omega] at key
      rw [Int.natCast_emod, key]
      have divides : (2 ^ 64 - b.u.toNat : Int) ∣ 2 ^ 64 ↔ 2 ^ 64 - b.u.toNat ∣ 2 ^ 64 := by
        rw [show (2 ^ 64 - b.u.toNat : Int) = ((2 ^ 64 - b.u.toNat : Nat) : Int) by omega]
        exact_mod_cast Iff.rfl
      rw [divides]
      simp only [SameReading, neg, ua, negative_eq_false_of_unsigned ua, Bool.false_eq_true, false_and, and_true,
        true_and, true_implies, false_implies]
      omega
    · rw [Word.number_of_not_negative na, Word.number_of_not_negative nb]
      have small : a.u.toNat % b.u.toNat < 2 ^ 64 := Nat.lt_of_le_of_lt (Nat.mod_le ..) ltA
      have : ((a.u.toNat : Int).tmod b.u.toNat) % 2 ^ 64 = ((a.u.toNat % b.u.toNat : Nat) : Int) := by
        rw [← Int.ofNat_tmod]
        exact Int.emod_eq_of_lt (Int.natCast_nonneg _) (by exact_mod_cast small)
      exact iff_of_true this (by simp [SameReading, na, nb])

/-- A comparison of numbers is compared with one of words, or of numbers where none is
unsigned. -/
theorem compare_iff {p : Int → Int → Prop} [DecidableRel p] {q : Bool}
    (signed : a.unsigned = false → b.unsigned = false → q = decide (p a.number b.number))
    (words : (a.unsigned || b.unsigned) = true → q = decide (p a.u.toNat b.u.toNat)) :
    decide (p a.number b.number) = q ↔
      ((a.negative = true ∧ b.unsigned = true) ∨ (a.unsigned = true ∧ b.negative = true) →
        (p a.number b.number ↔ p a.u.toNat b.u.toNat)) := by
  cases un : a.unsigned || b.unsigned with
  | false =>
    obtain ⟨ua, ub⟩ : a.unsigned = false ∧ b.unsigned = false := by simpa using un
    simp [signed ua ub, ua, ub]
  | true =>
    rw [words un, decide_eq_decide]
    rcases mixed_cases un with left | right | ⟨na, nb⟩
    · simp [left]
    · simp [right]
    · simp [na, nb, Word.number_of_not_negative na, Word.number_of_not_negative nb]

theorem Word.number_of_signed {v : Word} (un : v.unsigned = false) : v.number = v.i := by
  simp [Word.number, un, Word.i]

/-- The order of a negative number and an unsigned one: the number as it is and its word are
in the same relation exactly where `l` or `r` says so of the words. -/
theorem agree_order {p : Int → Int → Prop} [DecidableRel p] {l r : Nat → Nat → Prop} {q : Bool}
    (constant : evalIntBinary m h op (a.intValue ta) (b.intValue tb) = .ok (.bool (decide (p a.number b.number))))
    (word : apply op a b = (boolean q, none))
    (signed : a.unsigned = false → b.unsigned = false → q = decide (p a.number b.number))
    (words : (a.unsigned || b.unsigned) = true → q = decide (p a.u.toNat b.u.toNat))
    (left : ∀ x y : Nat, x < 2 ^ 64 → ((p (x - 2 ^ 64) y ↔ p x y) ↔ l x y))
    (right : ∀ x y : Nat, y < 2 ^ 64 → ((p x (y - 2 ^ 64) ↔ p x y) ↔ r x y)) :
    Agree m h op a b ta tb ↔
      (a.negative = true ∧ b.unsigned = true → l a.u.toNat b.u.toNat) ∧
        (a.unsigned = true ∧ b.negative = true → r a.u.toNat b.u.toNat) := by
  rw [agree_iff_bool constant word, compare_iff signed words]
  rw [← left _ _ a.u.isLt, ← right _ _ b.u.isLt]
  have number : ∀ v : Word, v.negative = true → v.number = v.u.toNat - 2 ^ 64 := by
    intro v neg
    have := (Word.number_of_negative neg).1
    omega
  constructor
  · intro same
    refine ⟨fun mixed => ?_, fun mixed => ?_⟩
    · have := same (.inl mixed)
      rwa [number a mixed.1, Word.number_of_unsigned mixed.2] at this
    · have := same (.inr mixed)
      rwa [number b mixed.2, Word.number_of_unsigned mixed.1] at this
  · rintro ⟨onLeft, onRight⟩ (mixed | mixed)
    · rw [number a mixed.1, Word.number_of_unsigned mixed.2]
      exact onLeft mixed
    · rw [number b mixed.2, Word.number_of_unsigned mixed.1]
      exact onRight mixed

theorem agree_lss : Agree m h .lss a b ta tb ↔ SameReading .lss a b := by
  refine agree_order (p := (· < ·)) (l := (· < ·)) (r := fun x y => y ≤ x) rfl rfl ?_ ?_ ?_ ?_
  · intro ua ub
    simp [usual, ua, ub, Word.number_of_signed, Word.i]
  · intro un
    simp [usual, un, BitVec.lt_def]
  · intro x y lt
    omega
  · intro x y lt
    omega

theorem agree_gtr : Agree m h .gtr a b ta tb ↔ SameReading .gtr a b := by
  refine agree_order (p := fun x y => y < x) (l := (· ≤ ·)) (r := fun x y => y < x) rfl rfl ?_ ?_ ?_ ?_
  · intro ua ub
    simp [usual, ua, ub, Word.number_of_signed, Word.i]
  · intro un
    simp [usual, un, BitVec.lt_def]
  · intro x y lt
    omega
  · intro x y lt
    omega

theorem agree_leq : Agree m h .leq a b ta tb ↔ SameReading .leq a b := by
  refine agree_order (p := (· ≤ ·)) (l := (· ≤ ·)) (r := fun x y => y < x) rfl rfl ?_ ?_ ?_ ?_
  · intro ua ub
    simp [usual, ua, ub, Word.number_of_signed, Word.i]
  · intro un
    simp [usual, un, BitVec.le_def]
  · intro x y lt
    omega
  · intro x y lt
    omega

theorem agree_geq : Agree m h .geq a b ta tb ↔ SameReading .geq a b := by
  refine agree_order (p := fun x y => y ≤ x) (l := (· < ·)) (r := fun x y => y ≤ x) rfl rfl ?_ ?_ ?_ ?_
  · intro ua ub
    simp [usual, ua, ub, Word.number_of_signed, Word.i]
  · intro un
    simp [usual, un, BitVec.le_def]
  · intro x y lt
    omega
  · intro x y lt
    omega

/-- Words of one signedness are equal exactly when their numbers are. -/
theorem u_eq_iff (ua : a.unsigned = false) (ub : b.unsigned = false) : a.u = b.u ↔ a.number = b.number := by
  simp [Word.number, ua, ub, BitVec.toInt_inj]

theorem agree_eql : Agree m h .eql a b ta tb ↔ SameReading .eql a b := by
  have order : Agree m h .eql a b ta tb ↔ _ :=
    agree_order (p := (· = ·)) (l := (· ≠ ·)) (r := (· ≠ ·)) rfl rfl ?_ ?_ (by intros; omega) (by intros; omega)
  · rw [order, ← or_imp]
    rfl
  · intro ua ub
    exact decide_eq_decide.2 (u_eq_iff ua ub)
  · intro _
    exact decide_eq_decide.2 (by rw [Int.natCast_inj, BitVec.toNat_inj]; rfl)

theorem agree_neq : Agree m h .neq a b ta tb ↔ SameReading .neq a b := by
  have order : Agree m h .neq a b ta tb ↔ _ :=
    agree_order (p := (· ≠ ·)) (l := (· ≠ ·)) (r := (· ≠ ·)) rfl rfl ?_ ?_ (by intros; omega) (by intros; omega)
  · rw [order, ← or_imp]
    rfl
  · intro ua ub
    exact decide_eq_decide.2 (not_congr (u_eq_iff ua ub))
  · intro _
    exact decide_eq_decide.2 (not_congr (by rw [Int.natCast_inj, BitVec.toNat_inj]; rfl))

/-- The shift count `constexpr` reads is within the width exactly when the word is below 64. -/
theorem int64_intValue (b : Word) (tb : Option Ty) : ¬ ((b.intValue tb).int64 < 0 ∨ ((64 : Nat) : Int) ≤ (b.intValue tb).int64) ↔ b.u.toNat < 64 := by
  have lt := b.u.isLt
  have mod := b.number_emod
  show ¬ (wrap true 64 b.number < 0 ∨ ((64 : Nat) : Int) ≤ wrap true 64 b.number) ↔ b.u.toNat < 64
  unfold wrap
  rw [mod]
  simp only [Bool.true_and, decide_eq_true_eq]
  split <;> omega

theorem int64_toNat (small : b.u.toNat < 64) : (b.intValue tb).int64.toNat = b.u.toNat := by
  have mod := b.number_emod
  show (wrap true 64 b.number).toNat = b.u.toNat
  unfold wrap
  rw [mod]
  simp only [Bool.true_and, decide_eq_true_eq]
  split <;> omega

/-- The count `apply` takes is the same then. -/
theorem count_eq (small : b.u.toNat < 64) : (b.u &&& 63).toNat = b.u.toNat := by
  rw [BitVec.toNat_and]
  show b.u.toNat &&& 63 = b.u.toNat
  rw [Nat.and_two_pow_sub_one_eq_mod b.u.toNat 6]
  omega

/-- A shift out of range is no constant. -/
theorem agree_shift_large (shift : op = .shl ∨ op = .shr) (large : ¬ b.u.toNat < 64) :
    Agree m h op a b ta tb := by
  rw [agree_iff_value]
  have out := not_not.1 (mt (int64_intValue b tb).1 large)
  have width : (a.intValue ta).bitWidth = 64 := rfl
  rcases shift with rfl | rfl
  · rw [evalIntBinary, width, if_pos out]
    simp
  · rw [evalIntBinary, width, if_pos out]
    simp

theorem wrap_signed_eq_iff {w : Nat} {x : Int} : wrap false w x = wrap true w x ↔ x % 2 ^ w < 2 ^ (w - 1) := by
  have := two_pow_pos' w
  rw [wrap_unsigned, wrap]
  simp only [Bool.true_and, decide_eq_true_eq]
  split <;> omega

theorem agree_shl : Agree m h .shl a b ta tb ↔ SameReading .shl a b := by
  by_cases small : b.u.toNat < 64
  · have within := (int64_intValue b tb).2 small
    have width : (a.intValue ta).bitWidth = 64 := rfl
    have val : (a.intValue ta).val = a.number := rfl
    have reads : (a.number * 2 ^ b.u.toNat) % 2 ^ 64 = ((a.u <<< b.u.toNat).toNat : Int) := by
      rw [BitVec.toNat_shiftLeft, Nat.shiftLeft_eq, Int.mul_emod, number_emod_congr a, ← Int.mul_emod]
      norm_cast
    rw [agree_iff_value, evalIntBinary, width, if_neg within, int64_toNat small, val]
    simp only [Except.ok.injEq, forall_eq', number_intResult, apply, count_eq small, Option.some.injEq, true_and]
    rw [Word.number_eq_wrap { u := a.u <<< b.u.toNat, unsigned := a.unsigned }]
    rw [← reads, wrap_congr (Int.emod_emod_of_dvd _ (dvd_refl _))]
    cases ua : a.unsigned <;> cases ub : b.unsigned
    · simp [SameReading, ub]
    · rw [show (!(false || true)) = false from rfl, show (!false) = true from rfl, wrap_signed_eq_iff, reads]
      have top : (a.u <<< b.u.toNat).msb = a.u.getLsbD (63 - b.u.toNat) := by
        rw [BitVec.msb_eq_getLsbD_last, BitVec.getLsbD_shiftLeft]
        simp
        omega
      have := BitVec.msb_eq_false_iff_two_mul_lt (x := a.u <<< b.u.toNat)
      rw [top] at this
      simp only [SameReading, ua, ub, small, true_implies, this]
      omega
    · simp [SameReading, ua]
    · simp [SameReading, ua]
  · refine iff_of_true (agree_shift_large (.inl rfl) small) ?_
    intro _ _ below
    exact absurd below small

theorem agree_shr : Agree m h .shr a b ta tb ↔ SameReading .shr a b := by
  by_cases small : b.u.toNat < 64
  · have within := (int64_intValue b tb).2 small
    have width : (a.intValue ta).bitWidth = 64 := rfl
    have val : (a.intValue ta).val = a.number := rfl
    rw [agree_iff_value, evalIntBinary, width, if_neg within, int64_toNat small, val]
    simp only [Except.ok.injEq, forall_eq', number_intResult, apply, count_eq small]
    have pos := two_pow_pos' b.u.toNat
    cases ua : a.unsigned with
    | true =>
      have quotient : a.number / 2 ^ b.u.toNat = ((a.u >>> b.u.toNat).toNat : Int) := by
        rw [Word.number_of_unsigned ua, BitVec.toNat_ushiftRight, Nat.shiftRight_eq_div_pow]
        norm_cast
      refine iff_of_true ?_ (by simp [SameReading, negative_eq_false_of_unsigned ua])
      rw [if_pos rfl, quotient, Word.number_eq_wrap { u := a.u >>> b.u.toNat, unsigned := true }]
      exact ⟨rfl, rfl⟩
    | false =>
      have shifted : (Word.mk (a.u.sshiftRight b.u.toNat) false).number = a.number / 2 ^ b.u.toNat := by
        rw [Word.number_of_signed rfl, Word.number_of_signed ua]
        show (a.u.sshiftRight b.u.toNat).toInt = a.u.toInt / 2 ^ b.u.toNat
        rw [BitVec.toInt_sshiftRight, Int.shiftRight_eq_div_pow]
        norm_cast
      have range := Word.number_inRange { u := a.u.sshiftRight b.u.toNat }
      rw [if_neg (by simp), shifted]
      rw [shifted] at range
      cases ub : b.unsigned with
      | false =>
        refine iff_of_true ⟨rfl, ?_⟩ (by simp [SameReading, ub])
        rw [show (!(false || false)) = (!false) from rfl, wrap_of_inRange (by decide) range]
      | true =>
        have sign : a.negative = false ↔ 0 ≤ a.number := by
          constructor
          · intro pos
            rw [Word.number_of_not_negative pos]
            exact Int.natCast_nonneg _
          · intro nonneg
            by_contra neg
            have := Word.number_of_negative (by simpa using neg)
            have := a.u.isLt
            omega
        have quotient : 0 ≤ a.number / 2 ^ b.u.toNat ↔ 0 ≤ a.number := Int.ediv_nonneg_iff_of_pos pos
        simp only [SameReading, ub, small, true_implies, sign, ← quotient, true_and, Option.some.injEq]
        rw [show (!(false || true)) = false from rfl, wrap_eq_self_iff (by decide)]
        simp only [InRange, Bool.not_false, if_true, Bool.false_eq_true, if_false] at range ⊢
        omega
  · refine iff_of_true (agree_shift_large (.inr rfl) small) ?_
    intro _ below
    exact absurd below small

end

/-- **Where the two evaluators agree.** -/
theorem agree_iff_sameReading (m : Model) (h : Hierarchy) {op : Token.Kind} (both : op ∈ shared) (a b : Word)
    (ta tb : Option Ty) : Agree m h op a b ta tb ↔ SameReading op a b := by
  simp only [shared, List.mem_cons, List.not_mem_nil, or_false] at both
  rcases both with rfl | rfl | rfl | rfl | rfl | rfl | rfl | rfl | rfl | rfl | rfl | rfl | rfl | rfl | rfl | rfl
  · exact iff_of_true agree_add trivial
  · exact iff_of_true agree_sub trivial
  · exact iff_of_true agree_mul trivial
  · exact agree_quo
  · exact agree_rem
  · exact iff_of_true agree_and trivial
  · exact iff_of_true agree_or trivial
  · exact iff_of_true agree_xor trivial
  · exact agree_shl
  · exact agree_shr
  · exact agree_eql
  · exact agree_neq
  · exact agree_lss
  · exact agree_leq
  · exact agree_gtr
  · exact agree_geq

/-- `-1 / 1u` is `2 ^ 64 - 1` for both, on x86-64 Linux. -/
theorem agree_minusOne : Agree lp64 (.ofRecords [] (by decide)) .quo { u := -1 } { u := 1, unsigned := true } none none :=
  (agree_iff_sameReading _ _ (by decide) _ _ _ _).2 (by unfold SameReading; decide)

/-- `-1 < 0u` holds for `constexpr` and not for `#if`. -/
theorem minusOne_lss_disagree : ¬ ∀ (m : Model) (h : Hierarchy) (op : Token.Kind) (a b : Word) (ta tb : Option Ty),
    op ∈ shared → Agree m h op a b ta tb := by
  intro all
  have agree := all lp64 (.ofRecords [] (by decide)) .lss { u := -1 } { u := 0, unsigned := true } none none (by decide)
  obtain ⟨-, same⟩ := agree.value _ rfl
  revert same
  decide

end Vcx.Preprocessor
