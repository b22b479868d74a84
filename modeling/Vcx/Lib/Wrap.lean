import Mathlib.Data.Int.Bitwise
import Mathlib.Data.Int.ModEq
import Mathlib.Tactic.Linarith
import Mathlib.Tactic.Ring

/-!
# Integers of a width

An integer reduced to `w` bits, read as signed or unsigned. A signed number taken for an
unsigned one grows by `2 ^ w`, and the second half of the module says which quotients,
remainders and comparisons come out the same with the number as it is and with the number so
grown.
-/

namespace Vcx.Lib
set_option autoImplicit false

/-- The integer of `w` bits congruent to `x`. -/
def wrap (signed : Bool) (w : Nat) (x : Int) : Int :=
  if signed && 2 ^ (w - 1) ≤ x % 2 ^ w then x % 2 ^ w - 2 ^ w else x % 2 ^ w

/-- The integers of `w` bits. -/
def InRange (signed : Bool) (w : Nat) (x : Int) : Prop :=
  if signed then -2 ^ (w - 1) ≤ x ∧ x < 2 ^ (w - 1) else 0 ≤ x ∧ x < 2 ^ w

instance (signed : Bool) (w : Nat) (x : Int) : Decidable (InRange signed w x) := by
  unfold InRange
  infer_instance

variable {signed : Bool} {w : Nat} {x y : Int}

theorem two_pow_pos' (w : Nat) : (0 : Int) < 2 ^ w := Int.pow_pos (by decide)

theorem two_pow_double (some : 0 < w) : (2 : Int) ^ w = 2 * 2 ^ (w - 1) := by
  obtain ⟨v, rfl⟩ := Nat.exists_eq_succ_of_ne_zero some.ne'
  simp [pow_succ, mul_comm]

theorem two_pow_le {v w : Nat} (le : v ≤ w) : (2 : Int) ^ v ≤ 2 ^ w := by
  exact_mod_cast Nat.pow_le_pow_right (by decide) le

theorem wrap_emod (signed : Bool) (w : Nat) (x : Int) : wrap signed w x % 2 ^ w = x % 2 ^ w := by
  unfold wrap
  split <;> simp

theorem wrap_inRange (signed : Bool) (some : 0 < w) (x : Int) : InRange signed w (wrap signed w x) := by
  have double := two_pow_double some
  have low := Int.emod_nonneg x (two_pow_pos' w).ne'
  have high := Int.emod_lt_of_pos x (two_pow_pos' w)
  unfold wrap InRange
  cases signed with
  | false => exact ⟨low, high⟩
  | true =>
    simp only [Bool.true_and, decide_eq_true_eq, if_true]
    split <;> omega

/-- Numbers of one width that are congruent are one. -/
theorem InRange.unique (some : 0 < w) (hx : InRange signed w x) (hy : InRange signed w y)
    (same : x % 2 ^ w = y % 2 ^ w) : x = y := by
  have double := two_pow_double some
  have multiple : (2 : Int) ^ w ∣ x - y := Int.dvd_of_emod_eq_zero (Int.emod_eq_emod_iff_emod_sub_eq_zero.1 same)
  have bound : |x - y| < 2 ^ w := by
    rw [abs_lt]
    unfold InRange at hx hy
    cases signed <;> simp only [Bool.false_eq_true, if_false, if_true] at hx hy <;> omega
  have := Int.eq_zero_of_abs_lt_dvd multiple bound
  omega

theorem wrap_of_inRange (some : 0 < w) (h : InRange signed w x) : wrap signed w x = x :=
  (wrap_inRange signed some x).unique some h (wrap_emod signed w x)

theorem wrap_congr (same : x % 2 ^ w = y % 2 ^ w) : wrap signed w x = wrap signed w y := by
  unfold wrap
  rw [same]

theorem wrap_eq_wrap_iff : wrap signed w x = wrap signed w y ↔ x % 2 ^ w = y % 2 ^ w := by
  refine ⟨fun h => ?_, wrap_congr⟩
  rw [← wrap_emod signed, h, wrap_emod]

theorem wrap_eq_self_iff (some : 0 < w) : wrap signed w x = x ↔ InRange signed w x := by
  refine ⟨fun h => ?_, wrap_of_inRange some⟩
  rw [← h]
  exact wrap_inRange signed some x

theorem wrap_unsigned (w : Nat) (x : Int) : wrap false w x = x % 2 ^ w := by simp [wrap]

/-! ### Bits -/

/-- The bits of a number below `w` are those of its remainder. -/
theorem testBit_emod (x : Int) {w i : Nat} (lt : i < w) : (x % 2 ^ w).toNat.testBit i = x.testBit i := by
  cases x with
  | ofNat n =>
    have : (Int.ofNat n % 2 ^ w).toNat = n % 2 ^ w := by
      rw [Int.ofNat_eq_natCast]
      norm_cast
    rw [this, Nat.testBit_mod_two_pow]
    simp [lt, Int.testBit]
  | negSucc n =>
    have small : n % 2 ^ w < 2 ^ w := Nat.mod_lt _ (Nat.two_pow_pos w)
    have : (Int.negSucc n % 2 ^ w).toNat = 2 ^ w - (n % 2 ^ w + 1) := by
      rw [Int.negSucc_emod _ (two_pow_pos' w)]
      have cast : ((n % 2 ^ w : Nat) : Int) = (n : Int) % 2 ^ w := by norm_cast
      have pow : ((2 ^ w : Nat) : Int) = 2 ^ w := by norm_cast
      omega
    rw [this, Nat.testBit_two_pow_sub_succ small, Nat.testBit_mod_two_pow]
    simp [lt, Int.testBit]

theorem emod_eq_iff_testBit : x % 2 ^ w = y % 2 ^ w ↔ ∀ i < w, x.testBit i = y.testBit i := by
  constructor
  · intro same i lt
    rw [← testBit_emod x lt, ← testBit_emod y lt, same]
  · intro bits
    have lowX := Int.emod_nonneg x (two_pow_pos' w).ne'
    have lowY := Int.emod_nonneg y (two_pow_pos' w).ne'
    have highX := Int.emod_lt_of_pos x (two_pow_pos' w)
    have highY := Int.emod_lt_of_pos y (two_pow_pos' w)
    have pow : ((2 ^ w : Nat) : Int) = 2 ^ w := by norm_cast
    have same : (x % 2 ^ w).toNat = (y % 2 ^ w).toNat := by
      apply Nat.eq_of_testBit_eq
      intro i
      rcases lt_or_ge i w with lt | ge
      · rw [testBit_emod x lt, testBit_emod y lt, bits i lt]
      · have big : 2 ^ w ≤ 2 ^ i := Nat.pow_le_pow_right (by decide) ge
        rw [Nat.testBit_lt_two_pow (by omega), Nat.testBit_lt_two_pow (by omega)]
    omega

/-- The bitwise operators act on the remainders. -/
theorem land_emod_congr {x' y' : Int} (hx : x % 2 ^ w = x' % 2 ^ w) (hy : y % 2 ^ w = y' % 2 ^ w) :
    x.land y % 2 ^ w = x'.land y' % 2 ^ w := by
  rw [emod_eq_iff_testBit] at hx hy ⊢
  intro i lt
  rw [Int.testBit_land, Int.testBit_land, hx i lt, hy i lt]

theorem lor_emod_congr {x' y' : Int} (hx : x % 2 ^ w = x' % 2 ^ w) (hy : y % 2 ^ w = y' % 2 ^ w) :
    x.lor y % 2 ^ w = x'.lor y' % 2 ^ w := by
  rw [emod_eq_iff_testBit] at hx hy ⊢
  intro i lt
  rw [Int.testBit_lor, Int.testBit_lor, hx i lt, hy i lt]

theorem xor_emod_congr {x' y' : Int} (hx : x % 2 ^ w = x' % 2 ^ w) (hy : y % 2 ^ w = y' % 2 ^ w) :
    x.xor y % 2 ^ w = x'.xor y' % 2 ^ w := by
  rw [emod_eq_iff_testBit] at hx hy ⊢
  intro i lt
  rw [Int.testBit_lxor, Int.testBit_lxor, hx i lt, hy i lt]

/-! ### A negative number taken for an unsigned one

`W` is twice `H`; the negative number is at least `-H`, so that its unsigned reading is at
least `H`. -/

section

variable {H W a b n : Int}

theorem emod_neg (pos : 0 < n) (le : n ≤ W) : -n % W = W - n := by
  rcases le.eq_or_lt with rfl | lt
  · simp
  · rw [← Int.add_emod_right, Int.emod_eq_of_lt] <;> omega

/-- A negative dividend. -/
theorem neg_tdiv_emod_iff (double : W = 2 * H) (pos : 0 < n) (le : n ≤ H) (posB : 0 < b) (ltB : b < W) :
    (-n).tdiv b % W = (W - n) / b ↔ b = 1 ∨ W - n < b := by
  rw [Int.neg_tdiv, Int.tdiv_eq_ediv_of_nonneg pos.le]
  have quot := Int.mul_ediv_add_emod n b
  have rem := Int.emod_nonneg n posB.ne'
  have remLt := Int.emod_lt_of_pos n posB
  have nonneg : 0 ≤ n / b := Int.ediv_nonneg pos.le posB.le
  constructor
  · intro same
    by_contra other
    obtain ⟨ne, ge⟩ := not_or.1 other
    have two : 2 ≤ b := by omega
    -- the unsigned quotient is between 1 and W / 2
    have one : 1 ≤ (W - n) / b := Int.le_ediv_of_mul_le posB (by omega)
    have half : (W - n) / b < H := Int.ediv_lt_of_lt_mul posB (by nlinarith)
    rcases nonneg.eq_or_lt with zero | some
    · rw [← zero] at same
      simp at same
      omega
    · have small : n / b ≤ H := by nlinarith
      rw [emod_neg some (by omega)] at same
      omega
  · rintro (rfl | lt)
    · simp only [Int.ediv_one]
      exact emod_neg pos (by omega)
    · rw [Int.ediv_eq_zero_of_lt pos.le (by omega), Int.ediv_eq_zero_of_lt (by omega) lt]
      simp

/-- A negative divisor. -/
theorem tdiv_neg_emod_iff (double : W = 2 * H) (pos : 0 < n) (le : n ≤ H) (nonneg : 0 ≤ a) (ltA : a < W) :
    a.tdiv (-n) % W = a / (W - n) ↔ a < n ∨ n = 1 ∧ a = W - 1 := by
  rw [Int.tdiv_neg, Int.tdiv_eq_ediv_of_nonneg nonneg]
  have quot := Int.mul_ediv_add_emod a n
  have rem := Int.emod_nonneg a pos.ne'
  have remLt := Int.emod_lt_of_pos a pos
  have quotNonneg : 0 ≤ a / n := Int.ediv_nonneg nonneg pos.le
  rcases lt_or_ge a n with small | large
  · rw [Int.ediv_eq_zero_of_lt nonneg small, Int.ediv_eq_zero_of_lt nonneg (by omega)]
    simp [small]
  · have some : 1 ≤ a / n := Int.le_ediv_of_mul_le pos (by omega)
    have leA : a / n ≤ a := Int.ediv_le_self n nonneg
    rw [emod_neg (by omega) (by omega)]
    have atMost : a / (W - n) ≤ 1 := by
      have : a / (W - n) < 2 := Int.ediv_lt_of_lt_mul (by omega) (by omega)
      omega
    constructor
    · intro same
      right
      have all : a / n = W - 1 := by omega
      have eq : a = W - 1 := by omega
      refine ⟨?_, eq⟩
      by_contra other
      have : 2 ≤ n := by omega
      nlinarith
    · rintro (bad | ⟨rfl, rfl⟩)
      · omega
      · rw [Int.ediv_self (by omega)]
        simp

/-- A negative dividend's remainder. -/
theorem neg_tmod_emod_iff (double : W = 2 * H) (pos : 0 < n) (le : n ≤ H) (posB : 0 < b) (ltB : b < W) :
    (-n).tmod b % W = (W - n) % b ↔ b ∣ n ∧ b ∣ W ∨ W - n < b := by
  rw [Int.neg_tmod, Int.tmod_eq_emod_of_nonneg pos.le]
  have rem := Int.emod_nonneg n posB.ne'
  have remLt := Int.emod_lt_of_pos n posB
  have other := Int.emod_lt_of_pos (W - n) posB
  rcases rem.eq_or_lt with zero | some
  · have divides : b ∣ n := Int.dvd_of_emod_eq_zero zero.symm
    have leB := Int.le_of_dvd pos divides
    have small : ¬ W - n < b := by omega
    rw [← zero, Int.sub_emod, ← zero]
    simp only [neg_zero, Int.zero_emod, sub_zero, divides, true_and, small, or_false]
    rw [Int.emod_emod_of_dvd _ (dvd_refl b), eq_comm, Int.dvd_iff_emod_eq_zero]
  · have divides : ¬ b ∣ n := fun d => by
      have := Int.emod_eq_zero_of_dvd d
      omega
    simp only [divides, false_and, false_or]
    rw [emod_neg some (by omega)]
    constructor
    · intro same
      by_contra ge
      -- the divisor is then at most `H`, while the signed remainder is above it
      rcases lt_or_ge n b with lt | geB
      · rw [Int.emod_eq_of_lt pos.le lt] at same
        omega
      · omega
    · intro lt
      rw [Int.emod_eq_of_lt pos.le (by omega), Int.emod_eq_of_lt (by omega) lt]

/-- The remainder by a negative divisor. -/
theorem tmod_neg_emod_iff (double : W = 2 * H) (pos : 0 < n) (le : n ≤ H) (nonneg : 0 ≤ a) (ltA : a < W) :
    a.tmod (-n) % W = a % (W - n) ↔ a < n ∨ W - n ≤ a ∧ n ∣ W := by
  rw [Int.tmod_neg, Int.tmod_eq_emod_of_nonneg nonneg]
  have rem := Int.emod_nonneg a pos.ne'
  have remLt := Int.emod_lt_of_pos a pos
  rw [Int.emod_eq_of_lt rem (by omega)]
  rcases lt_or_ge a (W - n) with small | large
  · rw [Int.emod_eq_of_lt nonneg small]
    constructor
    · intro same
      left
      omega
    · rintro (lt | ⟨bad, -⟩)
      · exact Int.emod_eq_of_lt nonneg lt
      · omega
  · have reduced : a % (W - n) = a - (W - n) := by
      rw [← Int.sub_emod_right, Int.emod_eq_of_lt] <;> omega
    have notSmall : ¬ a < n := by omega
    simp only [reduced, notSmall, false_or, large, true_and]
    constructor
    · intro same
      have divides : n ∣ a - a % n := Int.dvd_self_sub_emod
      rw [same] at divides
      have : W = (a - (a - (W - n))) + n := by omega
      rw [this]
      exact Int.dvd_add divides (Int.dvd_refl n)
    · intro divides
      have multiple : n ∣ W - n := Int.dvd_sub divides (Int.dvd_refl n)
      calc a % n = (a - (W - n)) % n := (Int.emod_eq_emod_iff_emod_sub_eq_zero.2 (by
            rw [show a - (a - (W - n)) = W - n by omega]
            exact Int.emod_eq_zero_of_dvd multiple))
        _ = a - (W - n) := Int.emod_eq_of_lt (by omega) (by omega)

end

end Vcx.Lib
