import Mathlib.Data.BitVec
import Vcx.Lib.Wrap

/-!
# Integers in machine words

A word of `w` bits that holds an integer. The ring operations, the bitwise ones and the left shift of
words are those of the integers whatever the sign; the quotient, the right shift, the order and the
extension to a wider word are those of the integers in range, each in the form for its sign.
-/

namespace Vcx.Lib
set_option autoImplicit false

variable {w v : Nat} {x y : Int} {signed : Bool}

theorem ofInt_eq_iff : BitVec.ofInt w x = BitVec.ofInt w y ↔ x % 2 ^ w = y % 2 ^ w := by
  have modX := Int.emod_nonneg x (two_pow_pos' w).ne'
  have modY := Int.emod_nonneg y (two_pow_pos' w).ne'
  rw [← BitVec.toNat_inj, BitVec.toNat_ofInt, BitVec.toNat_ofInt]
  push_cast
  constructor
  · intro same
    rw [← Int.toNat_of_nonneg modX, same, Int.toNat_of_nonneg modY]
  · intro same
    rw [same]

theorem ofInt_wrap (signed : Bool) (w : Nat) (x : Int) : BitVec.ofInt w (wrap signed w x) = BitVec.ofInt w x :=
  ofInt_eq_iff.2 (wrap_emod signed w x)

theorem ofInt_inj_of_inRange (some : 0 < w) (hx : InRange signed w x) (hy : InRange signed w y) :
    BitVec.ofInt w x = BitVec.ofInt w y ↔ x = y := by
  refine ⟨fun same => hx.unique some hy (ofInt_eq_iff.1 same), fun same => same ▸ rfl⟩

/-- A number of fewer bits is in range of more, of any sign it has. -/
theorem InRange.widen (le : v ≤ w) (hx : InRange signed v x) : InRange signed w x := by
  have small := two_pow_le (show v - 1 ≤ w - 1 by omega)
  have large := two_pow_le le
  unfold InRange at hx ⊢
  split_ifs at hx ⊢ <;> constructor <;> linarith [hx.1, hx.2]

theorem toInt_ofInt_of_inRange (some : 0 < w) (hx : InRange true w x) : (BitVec.ofInt w x).toInt = x := by
  have range : -2 ^ (w - 1) ≤ x ∧ x < 2 ^ (w - 1) := hx
  exact BitVec.toInt_ofInt_eq_self some range.1 range.2

theorem toNat_ofInt_of_inRange (hx : InRange false w x) : ((BitVec.ofInt w x).toNat : Int) = x := by
  have range : 0 ≤ x ∧ x < 2 ^ w := hx
  rw [BitVec.toNat_ofInt]
  push_cast
  rw [Int.emod_eq_of_lt range.1 range.2, Int.toNat_of_nonneg range.1]

theorem ofInt_sub : BitVec.ofInt w (x - y) = BitVec.ofInt w x - BitVec.ofInt w y := by
  rw [Int.sub_eq_add_neg, BitVec.ofInt_add, BitVec.ofInt_neg, BitVec.sub_eq_add_neg]

theorem ofInt_not : BitVec.ofInt w (-x - 1) = ~~~BitVec.ofInt w x := by
  rw [BitVec.not_eq_neg_add, ofInt_sub, BitVec.ofInt_neg]
  rfl

/-! ### Bits -/

theorem getLsbD_ofInt (i : Nat) : (BitVec.ofInt w x).getLsbD i = (decide (i < w) && x.testBit i) := by
  by_cases lt : i < w
  · have bit := testBit_emod x lt
    rw [← BitVec.testBit_toNat, BitVec.toNat_ofInt]
    push_cast
    simpa [lt] using bit
  · simp [lt, BitVec.getLsbD_of_ge _ _ (Nat.le_of_not_lt lt)]

theorem ofInt_land : BitVec.ofInt w (x.land y) = BitVec.ofInt w x &&& BitVec.ofInt w y := by
  apply BitVec.eq_of_getLsbD_eq
  intro i lt
  rw [BitVec.getLsbD_and, getLsbD_ofInt, getLsbD_ofInt, getLsbD_ofInt, Int.testBit_land]
  simp [lt]

theorem ofInt_lor : BitVec.ofInt w (x.lor y) = BitVec.ofInt w x ||| BitVec.ofInt w y := by
  apply BitVec.eq_of_getLsbD_eq
  intro i lt
  rw [BitVec.getLsbD_or, getLsbD_ofInt, getLsbD_ofInt, getLsbD_ofInt, Int.testBit_lor]
  simp [lt]

theorem ofInt_xor : BitVec.ofInt w (x.xor y) = BitVec.ofInt w x ^^^ BitVec.ofInt w y := by
  apply BitVec.eq_of_getLsbD_eq
  intro i lt
  rw [BitVec.getLsbD_xor, getLsbD_ofInt, getLsbD_ofInt, getLsbD_ofInt, Int.testBit_lxor]
  simp [lt]

theorem ofInt_shl (x : Int) (n : Nat) : BitVec.ofInt w (x * 2 ^ n) = BitVec.ofInt w x <<< n := by
  rw [BitVec.shiftLeft_eq_mul_twoPow, BitVec.ofInt_mul]
  congr 1
  apply BitVec.eq_of_toNat_eq
  rw [BitVec.toNat_twoPow, BitVec.toNat_ofInt]
  norm_cast

/-! ### Division -/

theorem ofInt_eq_zero_iff (some : 0 < w) (hx : InRange signed w x) : BitVec.ofInt w x = 0 ↔ x = 0 := by
  have zero : InRange signed w 0 := by
    have pos := two_pow_pos' (w - 1)
    have pos' := two_pow_pos' w
    unfold InRange
    split_ifs <;> constructor <;> linarith
  rw [← ofInt_inj_of_inRange some hx zero]
  simp

/-- A remainder is no larger than what is divided. -/
theorem InRange.tmod (hx : InRange signed w x) (y : Int) : InRange signed w (x.tmod y) := by
  have size : (x.tmod y).natAbs ≤ x.natAbs := by
    rw [Int.natAbs_tmod]
    exact Nat.mod_le _ _
  unfold InRange at hx ⊢
  split_ifs at hx ⊢
  · rcases Int.le_total 0 x with nonneg | neg
    · have := Int.tmod_nonneg y nonneg
      omega
    · have := Int.tmod_nonneg y (show 0 ≤ -x by omega)
      rw [Int.neg_tmod] at this
      omega
  · have := Int.tmod_nonneg y hx.1
    omega

/-- Where the quotient is in range, it is not that of the least number by `-1`. -/
theorem not_overflow (some : 0 < w) (hx : InRange true w x) (hy : InRange true w y)
    (hq : InRange true w (x.tdiv y)) : ¬ (BitVec.ofInt w x = BitVec.intMin w ∧ BitVec.ofInt w y = -1) := by
  rintro ⟨least, one⟩
  have one' : y = -1 := by
    have minus : (-1 : BitVec w) = BitVec.ofInt w (-1) := by rw [BitVec.ofInt_neg]; rfl
    have range : InRange true w (-1) := by
      have pos := two_pow_pos' (w - 1)
      simp only [InRange, if_true]
      constructor <;> linarith
    exact (ofInt_inj_of_inRange some hy range).1 (one.trans minus)
  have least' : x = -2 ^ (w - 1) := by
    have value := congrArg BitVec.toInt least
    rw [toInt_ofInt_of_inRange some hx, BitVec.toInt_intMin_of_pos some] at value
    exact value
  have range : -2 ^ (w - 1) ≤ x.tdiv y ∧ x.tdiv y < 2 ^ (w - 1) := hq
  rw [one', Int.tdiv_neg, Int.tdiv_one, least', neg_neg] at range
  exact lt_irrefl _ range.2

theorem ofInt_tdiv (some : 0 < w) (hx : InRange true w x) (hy : InRange true w y) :
    BitVec.ofInt w (x.tdiv y) = (BitVec.ofInt w x).sdiv (BitVec.ofInt w y) := by
  rw [← BitVec.toInt_inj, BitVec.toInt_sdiv, toInt_ofInt_of_inRange some hx, toInt_ofInt_of_inRange some hy,
    BitVec.toInt_ofInt]

theorem ofInt_tmod (some : 0 < w) (hx : InRange true w x) (hy : InRange true w y) :
    BitVec.ofInt w (x.tmod y) = (BitVec.ofInt w x).srem (BitVec.ofInt w y) := by
  have same := BitVec.toInt_srem (BitVec.ofInt w x) (BitVec.ofInt w y)
  rw [toInt_ofInt_of_inRange some hx, toInt_ofInt_of_inRange some hy] at same
  rw [← same, BitVec.ofInt_toInt]

/-- A natural number and the word of it. -/
theorem exists_nat (hx : InRange false w x) : ∃ n : Nat, n < 2 ^ w ∧ x = n ∧ BitVec.ofInt w x = BitVec.ofNat w n := by
  have range : 0 ≤ x ∧ x < 2 ^ w := hx
  obtain ⟨n, rfl⟩ := Int.eq_ofNat_of_zero_le range.1
  refine ⟨n, by exact_mod_cast range.2, rfl, ?_⟩
  rw [BitVec.ofInt_natCast]

theorem ofInt_udiv (hx : InRange false w x) (hy : InRange false w y) :
    BitVec.ofInt w (x.tdiv y) = BitVec.ofInt w x / BitVec.ofInt w y := by
  obtain ⟨a, ltA, rfl, wordA⟩ := exists_nat hx
  obtain ⟨b, ltB, rfl, wordB⟩ := exists_nat hy
  rw [wordA, wordB, ← Int.ofNat_tdiv, BitVec.ofInt_natCast]
  apply BitVec.eq_of_toNat_eq
  rw [BitVec.toNat_udiv, BitVec.toNat_ofNat, BitVec.toNat_ofNat, BitVec.toNat_ofNat, Nat.mod_eq_of_lt ltA,
    Nat.mod_eq_of_lt ltB, Nat.mod_eq_of_lt ((Nat.div_le_self a b).trans_lt ltA)]

theorem ofInt_umod (hx : InRange false w x) (hy : InRange false w y) :
    BitVec.ofInt w (x.tmod y) = BitVec.ofInt w x % BitVec.ofInt w y := by
  obtain ⟨a, ltA, rfl, wordA⟩ := exists_nat hx
  obtain ⟨b, ltB, rfl, wordB⟩ := exists_nat hy
  rw [wordA, wordB, ← Int.ofNat_tmod, BitVec.ofInt_natCast]
  apply BitVec.eq_of_toNat_eq
  rw [BitVec.toNat_umod, BitVec.toNat_ofNat, BitVec.toNat_ofNat, BitVec.toNat_ofNat, Nat.mod_eq_of_lt ltA,
    Nat.mod_eq_of_lt ltB, Nat.mod_eq_of_lt ((Nat.mod_le a b).trans_lt ltA)]

/-! ### Right shifts and order -/

theorem ofInt_sshr (some : 0 < w) (hx : InRange true w x) (n : Nat) :
    BitVec.ofInt w (x / 2 ^ n) = (BitVec.ofInt w x).sshiftRight n := by
  have value : ((BitVec.ofInt w x).sshiftRight n).toInt = x / 2 ^ n := by
    rw [BitVec.toInt_sshiftRight, toInt_ofInt_of_inRange some hx, Int.shiftRight_eq_div_pow]
    push_cast
    rfl
  rw [← value, BitVec.ofInt_toInt]

theorem ofInt_ushr (hx : InRange false w x) (n : Nat) : BitVec.ofInt w (x / 2 ^ n) = BitVec.ofInt w x >>> n := by
  obtain ⟨a, lt, rfl, word⟩ := exists_nat hx
  have quotient : (a : Int) / 2 ^ n = ((a / 2 ^ n : Nat) : Int) := by push_cast; rfl
  rw [word, quotient, BitVec.ofInt_natCast]
  apply BitVec.eq_of_toNat_eq
  rw [BitVec.toNat_ushiftRight, BitVec.toNat_ofNat, BitVec.toNat_ofNat, Nat.mod_eq_of_lt lt,
    Nat.mod_eq_of_lt ((Nat.div_le_self a _).trans_lt lt), Nat.shiftRight_eq_div_pow]

/-- A number shifted right is between it and `0`, or `-1`. -/
theorem InRange.ediv (hx : InRange signed w x) (n : Nat) : InRange signed w (x / 2 ^ n) := by
  have pow : (1 : Int) ≤ 2 ^ n := two_pow_pos' n
  have between : (0 ≤ x → 0 ≤ x / 2 ^ n ∧ x / 2 ^ n ≤ x) ∧ (x < 0 → x ≤ x / 2 ^ n ∧ x / 2 ^ n < 0) := by
    refine ⟨fun nonneg => ⟨Int.ediv_nonneg nonneg (by omega), Int.ediv_le_self _ nonneg⟩, fun neg => ⟨?_, ?_⟩⟩
    · apply Int.le_ediv_of_mul_le (by omega)
      nlinarith
    · exact Int.ediv_neg_of_neg_of_pos neg (by omega)
  unfold InRange at hx ⊢
  split_ifs at hx ⊢
  · rcases Int.lt_or_le x 0 with neg | nonneg
    · have := between.2 neg
      omega
    · have := between.1 nonneg
      omega
  · have := between.1 hx.1
    omega

theorem slt_ofInt (some : 0 < w) (hx : InRange true w x) (hy : InRange true w y) :
    (BitVec.ofInt w x).slt (BitVec.ofInt w y) = decide (x < y) := by
  rw [BitVec.slt_eq_decide, toInt_ofInt_of_inRange some hx, toInt_ofInt_of_inRange some hy]

theorem sle_ofInt (some : 0 < w) (hx : InRange true w x) (hy : InRange true w y) :
    (BitVec.ofInt w x).sle (BitVec.ofInt w y) = decide (x ≤ y) := by
  rw [BitVec.sle_eq_decide, toInt_ofInt_of_inRange some hx, toInt_ofInt_of_inRange some hy]

theorem ult_ofInt (hx : InRange false w x) (hy : InRange false w y) :
    (BitVec.ofInt w x).ult (BitVec.ofInt w y) = decide (x < y) := by
  have valueX := toNat_ofInt_of_inRange hx
  have valueY := toNat_ofInt_of_inRange hy
  rw [BitVec.ult_eq_decide, decide_eq_decide]
  omega

theorem ule_ofInt (hx : InRange false w x) (hy : InRange false w y) :
    (BitVec.ofInt w x).ule (BitVec.ofInt w y) = decide (x ≤ y) := by
  have valueX := toNat_ofInt_of_inRange hx
  have valueY := toNat_ofInt_of_inRange hy
  rw [BitVec.ule_eq_decide, decide_eq_decide]
  omega

/-! ### Extension and truncation -/

theorem signExtend_ofInt (some : 0 < v) (hx : InRange true v x) : (BitVec.ofInt v x).signExtend w = BitVec.ofInt w x := by
  rw [BitVec.signExtend, toInt_ofInt_of_inRange some hx]

theorem zeroExtend_ofInt (hx : InRange false v x) : (BitVec.ofInt v x).zeroExtend w = BitVec.ofInt w x := by
  obtain ⟨a, lt, rfl, word⟩ := exists_nat hx
  rw [word, BitVec.ofInt_natCast]
  apply BitVec.eq_of_toNat_eq
  simp [BitVec.toNat_setWidth, Nat.mod_eq_of_lt lt]

theorem truncate_ofInt (le : v ≤ w) (x : Int) : (BitVec.ofInt w x).truncate v = BitVec.ofInt v x := by
  apply BitVec.eq_of_getLsbD_eq
  intro i lt
  rw [BitVec.truncate_eq_setWidth, BitVec.getLsbD_setWidth, getLsbD_ofInt, getLsbD_ofInt]
  simp [lt, lt.trans_le le]

/-- The low `v` bits, the highest of them repeated: shifted to the top and back. -/
theorem shl_sshr_ofInt (some : 0 < v) (le : v ≤ w) (x : Int) :
    (BitVec.ofInt w x <<< (w - v)).sshiftRight (w - v) = BitVec.ofInt w (wrap true v x) := by
  have pos := two_pow_pos' (w - v)
  have split : (2 : Int) ^ w = 2 ^ v * 2 ^ (w - v) := by rw [← pow_add, Nat.add_sub_cancel' le]
  have half : (2 : Int) ^ (w - 1) = 2 ^ (v - 1) * 2 ^ (w - v) := by rw [← pow_add]; congr 1; omega
  have shifted : BitVec.ofInt w x <<< (w - v) = BitVec.ofInt w (wrap true v x * 2 ^ (w - v)) := by
    rw [← ofInt_shl, ofInt_eq_iff, split, Int.mul_comm x, Int.mul_comm (wrap true v x), Int.mul_comm (2 ^ v),
      Int.mul_emod_mul_of_pos _ _ pos, Int.mul_emod_mul_of_pos _ _ pos, wrap_emod]
  have range : -2 ^ (v - 1) ≤ wrap true v x ∧ wrap true v x < 2 ^ (v - 1) := wrap_inRange true some x
  have widened : InRange true w (wrap true v x * 2 ^ (w - v)) := by
    simp only [InRange, if_true, half]
    constructor <;> nlinarith [range.1, range.2]
  rw [shifted, ← ofInt_sshr (some.trans_le le) widened, Int.mul_ediv_cancel _ pos.ne']

/-- The low `v` bits, by a mask. -/
theorem and_mask_ofInt (v w : Nat) (x : Int) :
    BitVec.ofInt w x &&& BitVec.ofNat w (2 ^ v - 1) = BitVec.ofInt w (wrap false v x) := by
  obtain ⟨n, lt, eq, -⟩ := exists_nat (show InRange false v (x % 2 ^ v) from
    ⟨Int.emod_nonneg x (two_pow_pos' v).ne', Int.emod_lt_of_pos x (two_pow_pos' v)⟩)
  rw [wrap_unsigned, eq, BitVec.ofInt_natCast]
  apply BitVec.eq_of_getLsbD_eq
  intro i ltI
  rw [BitVec.getLsbD_and, getLsbD_ofInt, BitVec.getLsbD_ofNat, BitVec.getLsbD_ofNat, Nat.testBit_two_pow_sub_one]
  by_cases low : i < v
  · have bit := testBit_emod x low
    rw [eq, Int.toNat_natCast] at bit
    simp [ltI, low, bit]
  · have zero : n.testBit i = false :=
      Nat.testBit_lt_two_pow (lt.trans_le (Nat.pow_le_pow_right (by decide) (Nat.le_of_not_lt low)))
    simp [low, zero]

end Vcx.Lib
