import Vcx.Constexpr.Arith

/-!
# When constants are computed right

The types of `Arith` have their values in one another as C++ says, and `evalIntBinary` gives
what C++ prescribes exactly on the inputs of `Computed`.
-/

namespace Vcx.Constexpr
set_option autoImplicit false
open Vcx.Lib Vcx.Types

variable {m : Model}

/-! ### Types -/

/-- The promoted types. -/
def wideKinds : List Kind := [.int, .uInt, .long, .uLong, .longLong, .uLongLong, .int128, .uInt128]

/-- A promoted type is one of the wide ones and has all the values; an unsigned one comes from
an unsigned type. -/
structure Promotes (m : Model) (k p : Kind) : Prop where
  wide : p ∈ wideKinds
  width : bits m k ≤ bits m p
  values : fits m k p = true
  unsigned : signed m p = false → signed m k = false

theorem bits_narrow (sizes : m.Sizes) {k : Kind} (narrow_ : narrow k = true) : bits m k ≤ 32 := by
  have hs := sizes.short
  have hi := sizes.int
  cases k
  case wChar => rcases sizes.wChar with kind | kind | kind <;> simp [bits, Model.basicSize, Model.plainSize, kind, hi, hs]
  all_goals first
    | exact absurd narrow_ Bool.false_ne_true
    | simp [bits, Model.basicSize, Model.plainSize, hs]

theorem fits_int (sizes : m.Sizes) {k : Kind} (narrow_ : narrow k = true) (signs : signed m k = true) : fits m k .int = true := by
  have le := bits_narrow sizes narrow_
  have int : bits m .int = 32 := by simp [bits, Model.basicSize, Model.plainSize, sizes.int]
  have small := two_pow_le (show bits m k - 1 ≤ 31 by omega)
  have signsInt : signed m .int = true := rfl
  simp only [fits, lowest, highest, signs, signsInt, int, if_true, Bool.and_eq_true, decide_eq_true_eq]
  refine ⟨neg_le_neg small, ?_⟩
  split
  · decide
  · exact Int.sub_le_sub_right small 1

theorem fits_uInt (sizes : m.Sizes) {k : Kind} (narrow_ : narrow k = true) (signs : signed m k = false) : fits m k .uInt = true := by
  have int : bits m .uInt = 32 := by simp [bits, Model.basicSize, Model.plainSize, sizes.int]
  have large := two_pow_le (bits_narrow sizes narrow_)
  have signsInt : signed m .uInt = false := rfl
  simp only [fits, lowest, highest, signs, signsInt, int, Bool.false_eq_true, if_false, Bool.and_eq_true, decide_eq_true_eq]
  refine ⟨le_rfl, ?_⟩
  split
  · decide
  · exact Int.sub_le_sub_right large 1

theorem promote_promotes (sizes : m.Sizes) {k : Kind} (integral : k.isInteger = true) : Promotes m k (promote m k) := by
  cases narrow_ : narrow k with
  | false =>
    have kept : promote m k = k := by simp [promote, narrow_]
    have itself : fits m k k = true := by simp [fits]
    have wide : ∀ k, narrow k = false → k.isInteger = true → k ∈ wideKinds := by
      intro k
      cases k <;> decide
    rw [kept]
    exact ⟨wide k narrow_ integral, le_rfl, itself, id⟩
  | true =>
    have le := bits_narrow sizes narrow_
    cases fit : fits m k .int with
    | true =>
      have int : bits m .int = 32 := by simp [bits, Model.basicSize, Model.plainSize, sizes.int]
      have is : promote m k = .int := by simp [promote, narrow_, fit]
      rw [is]
      exact ⟨by decide, int ▸ le, fit, fun unsigned => by cases unsigned⟩
    | false =>
      have signs : signed m k = false := by
        cases signs : signed m k with
        | false => rfl
        | true => exact absurd (fits_int sizes narrow_ signs) (by simp [fit])
      have int : bits m .uInt = 32 := by simp [bits, Model.basicSize, Model.plainSize, sizes.int]
      have fitU := fits_uInt sizes narrow_ signs
      have is : promote m k = .uInt := by simp [promote, narrow_, fit, fitU]
      rw [is]
      exact ⟨by decide, int ▸ le, fitU, fun _ => signs⟩

/-- The common type of two promoted ones is no narrower than either; it has their values if it
is signed, and one of them is unsigned if it is not. -/
structure Common (m : Model) (a b t : Kind) : Prop where
  wide : t ∈ wideKinds
  left : bits m a ≤ bits m t
  right : bits m b ≤ bits m t
  values : signed m t = true → fits m a t = true ∧ fits m b t = true
  unsigned : signed m t = false → signed m a = false ∨ signed m b = false

/-- The width of a wide type goes by its rank. -/
theorem bits_wide (sizes : m.Sizes) {k : Kind} (wide : k ∈ wideKinds) :
    bits m k = if rank k = 0 then 32 else if rank k = 1 then 8 * m.sizeLong else if rank k = 2 then 64 else 128 := by
  simp only [wideKinds, List.mem_cons, List.not_mem_nil, or_false] at wide
  rcases wide with rfl | rfl | rfl | rfl | rfl | rfl | rfl | rfl <;>
    simp [bits, rank, Model.basicSize, Model.plainSize, sizes.int, sizes.longLong]

theorem bits_mono (sizes : m.Sizes) {a b : Kind} (wideA : a ∈ wideKinds) (wideB : b ∈ wideKinds) (le : rank a ≤ rank b) :
    bits m a ≤ bits m b := by
  have long := sizes.long
  rw [bits_wide sizes wideA, bits_wide sizes wideB]
  split_ifs <;> omega

theorem bits_pos (sizes : m.Sizes) {k : Kind} (wide : k ∈ wideKinds) : 0 < bits m k := by
  have long := sizes.long
  rw [bits_wide sizes wide]
  split_ifs <;> omega

theorem ne_bool_of_wide {k : Kind} (wide : k ∈ wideKinds) : k ≠ .bool := by
  rintro rfl
  simp [wideKinds] at wide

/-- A wide type has the values of a narrower one of its signedness. -/
theorem fits_of_bits {a b : Kind} (wideA : a ∈ wideKinds) (wideB : b ∈ wideKinds) (same : signed m a = signed m b)
    (le : bits m a ≤ bits m b) : fits m a b = true := by
  have small := two_pow_le (show bits m a - 1 ≤ bits m b - 1 by omega)
  have large := two_pow_le le
  simp only [fits, lowest, highest, ne_bool_of_wide wideA, ne_bool_of_wide wideB, if_false, same, Bool.and_eq_true,
    decide_eq_true_eq]
  split_ifs <;> omega

theorem toUnsigned_wide {k : Kind} (wide : k ∈ wideKinds) :
    toUnsigned k ∈ wideKinds ∧ rank (toUnsigned k) = rank k ∧ signed m (toUnsigned k) = false := by
  simp only [wideKinds, List.mem_cons, List.not_mem_nil, or_false] at wide
  rcases wide with rfl | rfl | rfl | rfl | rfl | rfl | rfl | rfl <;>
    simp [toUnsigned, rank, signed, isSignedKind, wideKinds]

theorem commonMixed_common (sizes : m.Sizes) {s u : Kind} (wideS : s ∈ wideKinds) (wideU : u ∈ wideKinds)
    (signedS : signed m s = true) (unsignedU : signed m u = false) : Common m s u (commonMixed m s u) := by
  unfold commonMixed
  split
  · rename_i le
    exact ⟨wideU, bits_mono sizes wideS wideU le, le_rfl, fun h => by simp [unsignedU] at h, fun _ => .inr unsignedU⟩
  · rename_i lt
    have le := bits_mono sizes wideU wideS (by omega)
    split
    · rename_i values
      exact ⟨wideS, le_rfl, le, fun _ => ⟨fits_of_bits wideS wideS rfl le_rfl, values⟩, fun h => by simp [signedS] at h⟩
    · obtain ⟨wide, sameRank, unsigned⟩ := toUnsigned_wide (m := m) wideS
      have same := bits_mono sizes wideS wide sameRank.ge
      exact ⟨wide, same, le.trans same, fun h => by simp [unsigned] at h, fun _ => .inr unsignedU⟩

theorem Common.symm {a b t : Kind} (c : Common m a b t) : Common m b a t :=
  ⟨c.wide, c.right, c.left, fun h => (c.values h).symm, fun h => (c.unsigned h).symm⟩

theorem commonPromoted_common (sizes : m.Sizes) {a b : Kind} (wideA : a ∈ wideKinds) (wideB : b ∈ wideKinds) :
    Common m a b (commonPromoted m a b) := by
  unfold commonPromoted
  split_ifs with eq same lt signedA
  · subst eq
    exact ⟨wideA, le_rfl, le_rfl, fun _ => ⟨fits_of_bits wideA wideA rfl le_rfl, fits_of_bits wideA wideA rfl le_rfl⟩,
      fun h => .inl h⟩
  · have le := bits_mono sizes wideA wideB lt.le
    exact ⟨wideB, le, le_rfl, fun _ => ⟨fits_of_bits wideA wideB same le, fits_of_bits wideB wideB rfl le_rfl⟩,
      fun h => .inr h⟩
  · have le := bits_mono sizes wideB wideA (by omega)
    exact ⟨wideA, le_rfl, le, fun _ => ⟨fits_of_bits wideA wideA rfl le_rfl, fits_of_bits wideB wideA same.symm le⟩,
      fun h => .inl h⟩
  · have unsignedB : signed m b = false := by
      cases signs : signed m b with
      | false => rfl
      | true => exact absurd (signedA.trans signs.symm) same
    exact commonMixed_common sizes wideA wideB signedA unsignedB
  · have unsignedA : signed m a = false := by simpa using signedA
    have signedB : signed m b = true := by
      cases signs : signed m b with
      | true => rfl
      | false => exact absurd (unsignedA.trans signs.symm) same
    exact (commonMixed_common sizes wideB wideA signedB unsignedA).symm

/-- The same of any two integral types and their common type. -/
theorem common_common (sizes : m.Sizes) {a b : Kind} (integralA : a.isInteger = true) (integralB : b.isInteger = true) :
    Common m a b (common m a b) := by
  have pa := promote_promotes sizes integralA
  have pb := promote_promotes sizes integralB
  have c := commonPromoted_common sizes pa.wide pb.wide
  refine ⟨c.wide, pa.width.trans c.left, pb.width.trans c.right, ?_, ?_⟩
  · intro signedT
    have ⟨va, vb⟩ := c.values signedT
    have va' := pa.values
    have vb' := pb.values
    simp only [fits, Bool.and_eq_true, decide_eq_true_eq] at va vb va' vb' ⊢
    exact ⟨⟨va.1.trans va'.1, va'.2.trans va.2⟩, vb.1.trans vb'.1, vb'.2.trans vb.2⟩
  · intro unsignedT
    exact (c.unsigned unsignedT).imp pa.unsigned pb.unsigned

/-! ### Operands -/

section

variable {h : Hierarchy} {k ka kb t : Kind} {v va vb : Int}

theorem signed_wide (wide : k ∈ wideKinds) : signed m k = isSignedKind k := by
  simp only [wideKinds, List.mem_cons, List.not_mem_nil, or_false] at wide
  rcases wide with rfl | rfl | rfl | rfl | rfl | rfl | rfl | rfl <;> rfl

/-- Only `char` and `wchar_t` can be signed without the evaluator knowing. -/
theorem signed_of_isSignedKind (s : isSignedKind k = true) : signed m k = true := by
  cases k <;> simp_all [signed, isSignedKind]

theorem basicSize_integral (sizes : m.Sizes) (integral : k.isInteger = true) : ∃ n, m.basicSize k = some n ∧ 0 < n := by
  have known : (m.basicSize k).isSome = true := by
    cases k
    case wChar => rcases sizes.wChar with kind | kind | kind <;> simp [Model.basicSize, Model.plainSize, kind]
    all_goals first
      | rfl
      | cases integral
  obtain ⟨n, size⟩ := Option.isSome_iff_exists.1 known
  exact ⟨n, size, sizes.basicSize_pos size⟩

theorem bits_pos_of_integral (sizes : m.Sizes) (integral : k.isInteger = true) : 8 ≤ bits m k := by
  obtain ⟨n, size, pos⟩ := basicSize_integral sizes integral
  simp only [bits, size, Option.getD_some]
  omega

theorem operand_eq (sizes : m.Sizes) (integral : k.isInteger = true) (v : Int) : operand m h k v =
    { val := wrap (isSignedKind k) (bits m k) v, bitWidth := bits m k, isSigned := isSignedKind k,
      typ := some (.basic k) } := by
  obtain ⟨n, size, pos⟩ := basicSize_integral sizes integral
  have width : widthOf m h (some (.basic k)) = bits m k := by
    simp [widthOf, sizeof, size, pos, bits]
  have nonzero := bits_pos_of_integral sizes integral
  simp only [operand, newBigInt, width, IntValue.normalize, Option.map_some, Option.getD_some]
  rw [if_neg (by omega)]
  rfl

theorem Operand.inRange (sizes : m.Sizes) (op : Operand m k v) : InRange (signed m k) (bits m k) v := by
  have low := op.low
  have high := op.high
  have width := bits_pos_of_integral sizes op.integral
  have one := two_pow_le (show 1 ≤ bits m k by omega)
  unfold lowest at low
  unfold highest at high
  unfold InRange
  cases bool : decide (k = .bool) with
  | true =>
    obtain rfl : k = .bool := by simpa using bool
    simp only [signed, isSignedKind, Bool.false_eq_true, if_false, if_true] at low high ⊢
    omega
  | false =>
    have other : k ≠ .bool := by simpa using bool
    simp only [other, if_false] at high
    split_ifs at low high ⊢ <;> omega

/-- The operand holds its value. -/
theorem operand_val (sizes : m.Sizes) (op : Operand m k v) (kept : Kept k v) : (operand m h k v).val = v := by
  have width := bits_pos_of_integral sizes op.integral
  have range := op.inRange sizes
  rw [operand_eq sizes op.integral]
  refine wrap_of_inRange (by omega) ?_
  cases s : isSignedKind k with
  | true => rwa [signed_of_isSignedKind s] at range
  | false =>
    have nonneg : 0 ≤ v := by
      by_contra neg
      have := kept (by omega)
      simp [s] at this
    have double := two_pow_double (show 0 < bits m k by omega)
    have pos := two_pow_pos' (bits m k - 1)
    unfold InRange at range ⊢
    simp only [Bool.false_eq_true, if_false]
    split at range <;> omega

/-- The result has the type `t` exactly when the left operand has it, and the right one is
neither wider nor, for a signed type, unsigned. -/
theorem intResult_iff (sizes : m.Sizes) (integralA : ka.isInteger = true) (integralB : kb.isInteger = true)
    (integral : t.isInteger = true) {x y : Int} :
    intResult (operand m h ka va) (operand m h kb vb) x = .int (operand m h t y) ↔
      ka = t ∧ bits m kb ≤ bits m t ∧ (isSignedKind t = true → isSignedKind kb = true) ∧
        x % 2 ^ bits m t = y % 2 ^ bits m t := by
  have width := bits_pos_of_integral sizes integralA
  have maxPos : max (bits m ka) (bits m kb) ≠ 0 := by omega
  rw [operand_eq sizes integralA, operand_eq sizes integralB, operand_eq sizes integral]
  simp only [intResult, IntValue.normalize, maxPos, if_false, IntValue.type, Value.int.injEq, IntValue.mk.injEq,
    Option.some.injEq, Ty.basic.injEq]
  constructor
  · rintro ⟨value, wide, sign, rfl⟩
    have le : bits m kb ≤ bits m ka := by omega
    rw [sign, wide] at value
    refine ⟨rfl, le, ?_, wrap_eq_wrap_iff.1 value⟩
    intro s
    simpa [s] using sign
  · rintro ⟨rfl, le, sign, value⟩
    have both : (isSignedKind ka && isSignedKind kb) = isSignedKind ka := by
      cases s : isSignedKind ka with
      | false => rfl
      | true => simp [sign s]
    rw [both, show max (bits m ka) (bits m kb) = bits m ka by omega]
    exact ⟨wrap_congr value, rfl, rfl, rfl⟩

theorem isInteger_wide (wide : k ∈ wideKinds) : k.isInteger = true := by
  simp only [wideKinds, List.mem_cons, List.not_mem_nil, or_false] at wide
  rcases wide with rfl | rfl | rfl | rfl | rfl | rfl | rfl | rfl <;> rfl

theorem convert_of_fits (sizes : m.Sizes) (wide : t ∈ wideKinds) (op : Operand m k v) (values : fits m k t = true) :
    convert m t v = v := by
  simp only [fits, Bool.and_eq_true, decide_eq_true_eq] at values
  refine wrap_of_inRange (bits_pos sizes wide) ?_
  have low := values.1.trans op.low
  have high := op.high.trans values.2
  unfold lowest at low
  unfold highest at high
  rw [if_neg (ne_bool_of_wide wide)] at high
  unfold InRange
  split_ifs at low high ⊢ <;> omega

end

/-! ### Results in the common type -/

section

variable {h : Hierarchy} {ka kb : Kind} {va vb : Int}

theorem convert_emod (t : Kind) (v : Int) : convert m t v % 2 ^ bits m t = v % 2 ^ bits m t := wrap_emod ..

theorem convert_typed (sizes : m.Sizes) (opA : Operand m ka va) (typed : Typed m ka kb) : convert m (common m ka kb) va = va := by
  have range := opA.inRange sizes
  have width := bits_pos_of_integral sizes opA.integral
  rw [← typed.1]
  exact wrap_of_inRange (by omega) range

variable (sizes : m.Sizes) (opA : Operand m ka va) (opB : Operand m kb vb)

include sizes opA opB

theorem convert_common (signedT : signed m (common m ka kb) = true) :
    convert m (common m ka kb) va = va ∧ convert m (common m ka kb) vb = vb := by
  have c := common_common sizes opA.integral opB.integral
  obtain ⟨fitsA, fitsB⟩ := c.values signedT
  exact ⟨convert_of_fits sizes c.wide opA fitsA, convert_of_fits sizes c.wide opB fitsB⟩

theorem result_common {x y : Int} :
    intResult (operand m h ka va) (operand m h kb vb) x = .int (operand m h (common m ka kb) y) ↔
      Typed m ka kb ∧ x % 2 ^ bits m (common m ka kb) = y % 2 ^ bits m (common m ka kb) := by
  have c := common_common sizes opA.integral opB.integral
  rw [intResult_iff sizes opA.integral opB.integral (isInteger_wide c.wide)]
  have signs := signed_wide (m := m) c.wide
  constructor
  · rintro ⟨eq, -, sign, value⟩
    refine ⟨⟨eq, fun s => sign ?_⟩, value⟩
    rw [← signs, ← eq]
    exact s
  · rintro ⟨⟨eq, sign⟩, value⟩
    refine ⟨eq, c.right, fun s => sign ?_, value⟩
    rw [eq, signs]
    exact s

attribute [local simp] evalIntBinary cxxBinary Computed

/-- An operator that overflows: `x` is what the evaluator computes and `z` what C++ does. -/
theorem prescribed_arith {x z : Int} :
    Prescribed m h (.ok (intResult (operand m h ka va) (operand m h kb vb) x)) (arith m (common m ka kb) z) ↔
      Typed m ka kb ∧ (signed m (common m ka kb) = true → InRange true (bits m (common m ka kb)) z) ∧
        x % 2 ^ bits m (common m ka kb) = z % 2 ^ bits m (common m ka kb) := by
  unfold arith
  split
  · rename_i undefined
    constructor
    · rintro ⟨e, bad⟩
      cases bad
    · rintro ⟨-, range, -⟩
      exact absurd (range undefined.1) undefined.2
  · rename_i defined
    simp only [Prescribed, Except.ok.injEq]
    rw [result_common sizes opA opB, convert_emod]
    constructor
    · rintro ⟨typed, value⟩
      refine ⟨typed, fun s => ?_, value⟩
      by_contra out
      exact defined ⟨s, out⟩
    · rintro ⟨typed, -, value⟩
      exact ⟨typed, value⟩

/-- `+`, `-` and `*`: the evaluator computes modulo the width what C++ does. -/
theorem prescribed_ring (f : Int → Int → Int)
    (congr : ∀ {W x y x' y' : Int}, x % W = x' % W → y % W = y' % W → f x y % W = f x' y' % W) :
    Prescribed m h (.ok (intResult (operand m h ka va) (operand m h kb vb) (f va vb)))
        (arith m (common m ka kb) (f (convert m (common m ka kb) va) (convert m (common m ka kb) vb))) ↔
      Typed m ka kb ∧ (signed m (common m ka kb) = true → InRange true (bits m (common m ka kb)) (f va vb)) := by
  rw [prescribed_arith sizes opA opB]
  have value := congr (convert_emod (m := m) (common m ka kb) va) (convert_emod (common m ka kb) vb)
  constructor
  · rintro ⟨typed, range, -⟩
    refine ⟨typed, fun s => ?_⟩
    obtain ⟨eqA, eqB⟩ := convert_common sizes opA opB s
    have := range s
    rwa [eqA, eqB] at this
  · rintro ⟨typed, range⟩
    refine ⟨typed, fun s => ?_, value.symm⟩
    obtain ⟨eqA, eqB⟩ := convert_common sizes opA opB s
    rw [eqA, eqB]
    exact range s

/-- `&`, `|` and `^`. -/
theorem prescribed_bitwise (f : Int → Int → Int)
    (congr : ∀ {w : Nat} {x y x' y' : Int}, x % 2 ^ w = x' % 2 ^ w → y % 2 ^ w = y' % 2 ^ w →
      f x y % 2 ^ w = f x' y' % 2 ^ w) :
    Prescribed m h (.ok (intResult (operand m h ka va) (operand m h kb vb) (f va vb)))
        (some (.int (common m ka kb) (convert m (common m ka kb)
          (f (convert m (common m ka kb) va) (convert m (common m ka kb) vb))))) ↔ Typed m ka kb := by
  simp only [Prescribed, Except.ok.injEq]
  rw [result_common sizes opA opB, convert_emod]
  have value := congr (convert_emod (m := m) (common m ka kb) va) (convert_emod (common m ka kb) vb)
  exact and_iff_left value.symm

/-- A value is within the width of the common type, whatever that one's signedness. -/
theorem bounds_common :
    (-2 ^ (bits m (common m ka kb) - 1) ≤ va ∧ va < 2 ^ bits m (common m ka kb)) ∧
      (-2 ^ (bits m (common m ka kb) - 1) ≤ vb ∧ vb < 2 ^ bits m (common m ka kb)) := by
  have c := common_common sizes opA.integral opB.integral
  have of : ∀ {k : Kind} {v : Int}, Operand m k v → bits m k ≤ bits m (common m ka kb) →
      -2 ^ (bits m (common m ka kb) - 1) ≤ v ∧ v < 2 ^ bits m (common m ka kb) := by
    intro k v op le
    have width := bits_pos_of_integral sizes op.integral
    have range := op.inRange sizes
    have half := two_pow_le (show bits m k - 1 ≤ bits m (common m ka kb) - 1 by omega)
    have full := two_pow_le le
    have double := two_pow_double (show 0 < bits m k by omega)
    have pos := two_pow_pos' (bits m (common m ka kb) - 1)
    have posK := two_pow_pos' (bits m k - 1)
    unfold InRange at range
    split at range <;> omega
  exact ⟨of opA c.left, of opB c.right⟩

/-- What an unsigned common type makes of the operands. -/
theorem convert_unsigned (unsignedT : signed m (common m ka kb) = false) :
    convert m (common m ka kb) va = (if va < 0 then va + 2 ^ bits m (common m ka kb) else va) ∧
      convert m (common m ka kb) vb = (if vb < 0 then vb + 2 ^ bits m (common m ka kb) else vb) ∧
        (0 ≤ va ∨ 0 ≤ vb) := by
  have c := common_common sizes opA.integral opB.integral
  obtain ⟨⟨lowA, highA⟩, lowB, highB⟩ := bounds_common sizes opA opB
  have double := two_pow_double (bits_pos sizes c.wide)
  have pos := two_pow_pos' (bits m (common m ka kb) - 1)
  have of : ∀ v : Int, -2 ^ (bits m (common m ka kb) - 1) ≤ v → v < 2 ^ bits m (common m ka kb) →
      convert m (common m ka kb) v = if v < 0 then v + 2 ^ bits m (common m ka kb) else v := by
    intro v low high
    rw [convert, unsignedT, wrap_unsigned]
    split
    · rw [← Int.add_emod_right, Int.emod_eq_of_lt] <;> omega
    · exact Int.emod_eq_of_lt (by omega) high
  refine ⟨of va lowA highA, of vb lowB highB, ?_⟩
  have nonneg : ∀ {k : Kind} {v : Int}, Operand m k v → signed m k = false → 0 ≤ v := by
    intro k v op u
    have := op.low
    rwa [lowest, u, if_neg (by simp)] at this
  exact (c.unsigned unsignedT).imp (nonneg opA) (nonneg opB)

theorem convert_eq_zero : convert m (common m ka kb) vb = 0 ↔ vb = 0 := by
  cases signs : signed m (common m ka kb) with
  | true => rw [(convert_common sizes opA opB signs).2]
  | false =>
    have c := common_common sizes opA.integral opB.integral
    have double := two_pow_double (bits_pos sizes c.wide)
    have pos := two_pow_pos' (bits m (common m ka kb) - 1)
    obtain ⟨-, lowB, highB⟩ := bounds_common sizes opA opB
    rw [(convert_unsigned sizes opA opB signs).2.1]
    split <;> omega

theorem negative_divisor (unsignedT : signed m (common m ka kb) = false) (neg : vb < 0) :
    0 ≤ va ∧ convert m (common m ka kb) vb = 2 ^ bits m (common m ka kb) - -vb ∧
      -vb ≤ 2 ^ (bits m (common m ka kb) - 1) := by
  obtain ⟨-, lowB, -⟩ := bounds_common sizes opA opB
  obtain ⟨-, eq, nonneg⟩ := convert_unsigned sizes opA opB unsignedT
  rw [if_pos neg] at eq
  refine ⟨?_, by omega, by omega⟩
  omega

theorem quotient_iff :
    va.tdiv vb % 2 ^ bits m (common m ka kb) = va.tdiv (convert m (common m ka kb) vb) % 2 ^ bits m (common m ka kb) ↔
      (signed m (common m ka kb) = false → vb < 0 → va < -vb ∨ vb = -1 ∧ va = 2 ^ bits m (common m ka kb) - 1) := by
  cases signs : signed m (common m ka kb) with
  | true =>
    rw [(convert_common sizes opA opB signs).2]
    simp
  | false =>
    rcases lt_or_ge vb 0 with neg | pos
    · have c := common_common sizes opA.integral opB.integral
      have double := two_pow_double (bits_pos sizes c.wide)
      obtain ⟨⟨-, highA⟩, -⟩ := bounds_common sizes opA opB
      obtain ⟨nonneg, eq, small⟩ := negative_divisor sizes opA opB signs neg
      have key := tdiv_neg_emod_iff double (show 0 < -vb by omega) small nonneg highA
      rw [neg_neg] at key
      have divisor : 0 < 2 ^ bits m (common m ka kb) - -vb := by omega
      have quotient : va.tdiv (2 ^ bits m (common m ka kb) - -vb) % 2 ^ bits m (common m ka kb) =
          va / (2 ^ bits m (common m ka kb) - -vb) := by
        rw [Int.tdiv_eq_ediv_of_nonneg nonneg]
        exact Int.emod_eq_of_lt (Int.ediv_nonneg nonneg divisor.le) ((Int.ediv_le_self _ nonneg).trans_lt highA)
      rw [eq, quotient, key]
      simp only [true_implies, neg]
      omega
    · have eq := (convert_unsigned sizes opA opB signs).2.1
      rw [if_neg (by omega)] at eq
      rw [eq]
      simp [show ¬ vb < 0 by omega]

theorem remainder_iff :
    va.tmod vb % 2 ^ bits m (common m ka kb) = va.tmod (convert m (common m ka kb) vb) % 2 ^ bits m (common m ka kb) ↔
      (signed m (common m ka kb) = false → vb < 0 →
        va < -vb ∨ 2 ^ bits m (common m ka kb) + vb ≤ va ∧ vb ∣ 2 ^ bits m (common m ka kb)) := by
  cases signs : signed m (common m ka kb) with
  | true =>
    rw [(convert_common sizes opA opB signs).2]
    simp
  | false =>
    rcases lt_or_ge vb 0 with neg | pos
    · have c := common_common sizes opA.integral opB.integral
      have double := two_pow_double (bits_pos sizes c.wide)
      obtain ⟨⟨-, highA⟩, -⟩ := bounds_common sizes opA opB
      obtain ⟨nonneg, eq, small⟩ := negative_divisor sizes opA opB signs neg
      have key := tmod_neg_emod_iff double (show 0 < -vb by omega) small nonneg highA
      rw [neg_neg] at key
      have divisor : 0 < 2 ^ bits m (common m ka kb) - -vb := by omega
      have remainder : va.tmod (2 ^ bits m (common m ka kb) - -vb) % 2 ^ bits m (common m ka kb) =
          va % (2 ^ bits m (common m ka kb) - -vb) := by
        rw [Int.tmod_eq_emod_of_nonneg nonneg]
        have := Int.emod_nonneg va divisor.ne'
        have := Int.emod_lt_of_pos va divisor
        exact Int.emod_eq_of_lt (by omega) (by omega)
      rw [eq, remainder, key, Int.neg_dvd]
      simp only [true_implies, neg]
      rw [show (2 : Int) ^ bits m (common m ka kb) - -vb = 2 ^ bits m (common m ka kb) + vb by omega]
    · have eq := (convert_unsigned sizes opA opB signs).2.1
      rw [if_neg (by omega)] at eq
      rw [eq]
      simp [show ¬ vb < 0 by omega]

variable (keptA : Kept ka va) (keptB : Kept kb vb)

include keptA keptB

theorem prescribed_quo : Prescribed m h (evalIntBinary m h .quo (operand m h ka va) (operand m h kb vb))
    (cxxBinary m .quo ka va kb vb) ↔ Computed m .quo ka va kb vb := by
  have valA := operand_val (h := h) sizes opA keptA
  have valB := operand_val (h := h) sizes opB keptB
  have zero := convert_eq_zero sizes opA opB
  simp only [evalIntBinary, cxxBinary, Computed, valA, valB]
  by_cases none : vb = 0
  · rw [if_pos none, if_pos (zero.2 none)]
    exact iff_of_true ⟨_, rfl⟩ (.inl none)
  · rw [if_neg none, if_neg (mt zero.1 none), prescribed_arith sizes opA opB]
    simp only [none, false_or]
    refine and_congr_right fun typed => ?_
    rw [convert_typed sizes opA typed, quotient_iff sizes opA opB]
    refine and_congr_left fun _ => ?_
    refine forall_congr' fun s => ?_
    rw [(convert_common sizes opA opB s).2]

theorem prescribed_rem : Prescribed m h (evalIntBinary m h .rem (operand m h ka va) (operand m h kb vb))
    (cxxBinary m .rem ka va kb vb) ↔ Computed m .rem ka va kb vb := by
  have valA := operand_val (h := h) sizes opA keptA
  have valB := operand_val (h := h) sizes opB keptB
  have zero := convert_eq_zero sizes opA opB
  simp only [evalIntBinary, cxxBinary, Computed, valA, valB]
  by_cases none : vb = 0
  · rw [if_pos none, if_pos (.inl (zero.2 none))]
    exact iff_of_true ⟨_, rfl⟩ (.inl none)
  · rw [if_neg none]
    simp only [none, false_or, mt zero.1 none]
    split
    · rename_i undefined
      obtain ⟨s, out⟩ := undefined
      obtain ⟨eqA, eqB⟩ := convert_common sizes opA opB s
      rw [eqA, eqB] at out
      refine iff_of_false ?_ fun computed => out (computed.2.1 s)
      rintro ⟨e, bad⟩
      cases bad
    · rename_i defined
      simp only [Prescribed, Except.ok.injEq]
      rw [result_common sizes opA opB]
      refine and_congr_right fun typed => ?_
      rw [convert_typed sizes opA typed, remainder_iff sizes opA opB]
      refine (and_iff_right fun s => ?_).symm
      obtain ⟨eqA, eqB⟩ := convert_common sizes opA opB s
      by_contra out
      refine defined ⟨s, ?_⟩
      rwa [eqA, eqB]

omit keptA in
theorem prescribed_shift (f : Int → Nat → Int) (y : Int) (msg : Error)
    (value : f va vb.toNat % 2 ^ bits m (promote m ka) = y % 2 ^ bits m (promote m ka)) :
    Prescribed m h
        (if (operand m h kb vb).int64 < 0 ∨ ((operand m h ka va).bitWidth : Int) ≤ (operand m h kb vb).int64 then .error msg
          else .ok (intResult (operand m h ka va) (operand m h kb vb) (f va (operand m h kb vb).int64.toNat)))
        (if vb < 0 ∨ bits m (promote m ka) ≤ vb then none else some (.int (promote m ka) y)) ↔
      Computed m .shl ka va kb vb := by
  have p := promote_promotes sizes opA.integral
  have widthA := bits_pos_of_integral sizes opA.integral
  have count : (operand m h kb vb).int64 = wrap true 64 vb := by
    rw [IntValue.int64, operand_val sizes opB keptB]
  have width : (operand m h ka va).bitWidth = bits m ka := by rw [operand_eq sizes opA.integral]
  have large : bits m (promote m ka) ≤ 128 := by
    have := sizes.long
    rw [bits_wide sizes p.wide]
    split_ifs <;> omega
  simp only [Computed, count, width]
  by_cases out : vb < 0 ∨ (bits m (promote m ka) : Int) ≤ vb
  · -- the code has to report an error
    rw [if_pos out, if_pos out]
    by_cases reported : wrap true 64 vb < 0 ∨ (bits m ka : Int) ≤ wrap true 64 vb
    · rw [if_pos reported]
      exact iff_of_true ⟨msg, rfl⟩ reported
    · rw [if_neg reported]
      refine iff_of_false ?_ reported
      rintro ⟨e, bad⟩
      cases bad
  · rw [if_neg out, if_neg out]
    have same : wrap true 64 vb = vb := wrap_of_inRange (by decide) (by
      unfold InRange
      simp only [if_true]
      omega)
    have signs := signed_wide (m := m) p.wide
    rw [same]
    simp only [Prescribed]
    by_cases reported : vb < 0 ∨ (bits m ka : Int) ≤ vb
    · rw [if_pos reported]
      refine iff_of_false (by simp) ?_
      rintro ⟨eq, -, -⟩
      rw [eq] at out
      exact out reported
    · rw [if_neg reported, Except.ok.injEq, intResult_iff sizes opA.integral opB.integral (isInteger_wide p.wide)]
      constructor
      · rintro ⟨eq, le, sign, -⟩
        refine ⟨eq.symm, fun s => sign ?_, ?_⟩
        · rw [← signs, ← eq]
          exact s
        · rwa [← eq] at le
      · rintro ⟨eq, sign, le⟩
        refine ⟨eq.symm, ?_, fun s => sign ?_, value⟩
        · rwa [eq]
        · rwa [← eq, signs]

theorem prescribed_compare {p : Int → Int → Prop} [DecidableRel p] {cond : Prop}
    (mixed : ∀ W : Int, 0 < W → -W ≤ va → va < W → -W ≤ vb → vb < W → 0 ≤ va ∨ 0 ≤ vb →
      va % W = (if va < 0 then va + W else va) → vb % W = (if vb < 0 then vb + W else vb) →
      W = 2 ^ bits m (common m ka kb) → ((p va vb ↔ p (va % W) (vb % W)) ↔ cond)) :
    Prescribed m h (.ok (.bool (decide (p (operand m h ka va).val (operand m h kb vb).val))))
        (some (.bool (decide (p (convert m (common m ka kb) va) (convert m (common m ka kb) vb))))) ↔
      (signed m (common m ka kb) = false → cond) := by
  rw [operand_val sizes opA keptA, operand_val sizes opB keptB]
  simp only [Prescribed, Except.ok.injEq, Value.bool.injEq, decide_eq_decide]
  cases signs : signed m (common m ka kb) with
  | true =>
    obtain ⟨eqA, eqB⟩ := convert_common sizes opA opB signs
    rw [eqA, eqB]
    simp
  | false =>
    have c := common_common sizes opA.integral opB.integral
    have double := two_pow_double (bits_pos sizes c.wide)
    have pos := two_pow_pos' (bits m (common m ka kb) - 1)
    obtain ⟨⟨lowA, highA⟩, lowB, highB⟩ := bounds_common sizes opA opB
    obtain ⟨eqA, eqB, nonneg⟩ := convert_unsigned sizes opA opB signs
    have modA : convert m (common m ka kb) va = va % 2 ^ bits m (common m ka kb) := by
      rw [convert, signs, wrap_unsigned]
    have modB : convert m (common m ka kb) vb = vb % 2 ^ bits m (common m ka kb) := by
      rw [convert, signs, wrap_unsigned]
    rw [modA] at eqA ⊢
    rw [modB] at eqB ⊢
    rw [mixed (2 ^ bits m (common m ka kb)) (by omega) (by omega) highA (by omega) highB nonneg eqA eqB rfl]
    simp

end

variable {h : Hierarchy} {ka kb : Kind} {va vb : Int}

theorem prescribed_iff_computed (sizes : m.Sizes) (h : Hierarchy) {op : Token.Kind} (known : op ∈ intOps)
    (opA : Operand m ka va) (opB : Operand m kb vb) (keptA : Kept ka va) (keptB : Kept kb vb) :
    Prescribed m h (evalIntBinary m h op (operand m h ka va) (operand m h kb vb)) (cxxBinary m op ka va kb vb) ↔
      Computed m op ka va kb vb := by
  have valA := operand_val (h := h) sizes opA keptA
  have valB := operand_val (h := h) sizes opB keptB
  simp only [intOps, List.mem_cons, List.not_mem_nil, or_false] at known
  rcases known with rfl | rfl | rfl | rfl | rfl | rfl | rfl | rfl | rfl | rfl | rfl | rfl | rfl | rfl | rfl | rfl | rfl
  · simp only [evalIntBinary, valA, valB]
    exact prescribed_ring sizes opA opB (· + ·) Int.ModEq.add
  · simp only [evalIntBinary, valA, valB]
    exact prescribed_ring sizes opA opB (· - ·) Int.ModEq.sub
  · simp only [evalIntBinary, valA, valB]
    exact prescribed_ring sizes opA opB (· * ·) Int.ModEq.mul
  · exact prescribed_quo sizes opA opB keptA keptB
  · exact prescribed_rem sizes opA opB keptA keptB
  · simp only [evalIntBinary, valA, valB]
    exact prescribed_bitwise sizes opA opB Int.land land_emod_congr
  · simp only [evalIntBinary, valA, valB]
    exact prescribed_bitwise sizes opA opB Int.lor lor_emod_congr
  · simp only [evalIntBinary, valA, valB]
    exact prescribed_bitwise sizes opA opB Int.xor xor_emod_congr
  · simp only [evalIntBinary, valA]
    exact prescribed_shift sizes opA opB keptB (fun x n => x * 2 ^ n) _ _ (convert_emod ..).symm
  · simp only [evalIntBinary, valA]
    exact prescribed_shift sizes opA opB keptB (fun x n => x / 2 ^ n) _ _ rfl
  · refine prescribed_compare (p := (· = ·)) sizes opA opB keptA keptB ?_
    rintro W pos lowA highA lowB highB nonneg modA modB rfl
    rw [modA, modB]
    split_ifs <;> omega
  · refine prescribed_compare (p := (· ≠ ·)) sizes opA opB keptA keptB ?_
    rintro W pos lowA highA lowB highB nonneg modA modB rfl
    rw [modA, modB]
    split_ifs <;> omega
  · refine prescribed_compare (p := (· < ·)) sizes opA opB keptA keptB ?_
    rintro W pos lowA highA lowB highB nonneg modA modB rfl
    rw [modA, modB]
    split_ifs <;> omega
  · refine prescribed_compare (p := (· ≤ ·)) sizes opA opB keptA keptB ?_
    rintro W pos lowA highA lowB highB nonneg modA modB rfl
    rw [modA, modB]
    split_ifs <;> omega
  · refine prescribed_compare (p := fun x y => y < x) sizes opA opB keptA keptB ?_
    rintro W pos lowA highA lowB highB nonneg modA modB rfl
    rw [modA, modB]
    split_ifs <;> omega
  · refine prescribed_compare (p := fun x y => y ≤ x) sizes opA opB keptA keptB ?_
    rintro W pos lowA highA lowB highB nonneg modA modB rfl
    rw [modA, modB]
    split_ifs <;> omega
  · exact iff_of_false id id

/-- Unary minus: of a type that is not promoted, and of any value but a signed type's lowest. -/
theorem prescribed_minus (sizes : m.Sizes) (h : Hierarchy) (opA : Operand m ka va) :
    Prescribed m h (.ok (.int (evalIntMinus m h (operand m h ka va)))) (cxxMinus m ka va) ↔
      promote m ka = ka ∧ (signed m ka = true → va ≠ lowest m ka) := by
  have p := promote_promotes sizes opA.integral
  have width := bits_pos_of_integral sizes opA.integral
  have range := opA.inRange sizes
  have half := two_pow_pos' (bits m ka - 1)
  have code : evalIntMinus m h (operand m h ka va) = operand m h ka (-(operand m h ka va).val) := by
    rw [evalIntMinus, operand_eq sizes opA.integral va]
    rfl
  unfold cxxMinus arith
  rw [code]
  split
  · rename_i undefined
    refine iff_of_false ?_ ?_
    · rintro ⟨e, bad⟩
      cases bad
    · rintro ⟨eq, ok⟩
      rw [eq] at undefined
      have ne := ok undefined.1
      have out := undefined.2
      rw [lowest, if_pos undefined.1] at ne
      rw [undefined.1] at range
      unfold InRange at range out
      simp only [if_true] at range out
      omega
  · rename_i defined
    simp only [Prescribed, Except.ok.injEq, Value.int.injEq]
    constructor
    · intro same
      rw [operand_eq sizes opA.integral, operand_eq sizes (isInteger_wide p.wide)] at same
      have eq : ka = promote m ka := by simpa using congrArg IntValue.typ same
      refine ⟨eq.symm, fun s bad => defined ?_⟩
      rw [← eq, lowest, if_pos s] at *
      refine ⟨s, ?_⟩
      unfold InRange
      simp only [if_true]
      omega
    · rintro ⟨eq, -⟩
      have wide : ka ∈ wideKinds := eq ▸ p.wide
      have stored : (operand m h ka va).val = va := by
        rw [operand_eq sizes opA.integral]
        rw [signed_wide wide] at range
        exact wrap_of_inRange (by omega) range
      rw [stored, eq, operand_eq sizes opA.integral, operand_eq sizes opA.integral]
      have value : wrap (isSignedKind ka) (bits m ka) (-va) = wrap (isSignedKind ka) (bits m ka) (convert m ka (-va)) :=
        wrap_congr (convert_emod ka (-va)).symm
      rw [value]

/-- **Which integer constants are computed as C++ prescribes.** For the binary operators the
operands' values have to be held to begin with. -/
theorem evalIntBinary_prescribed_iff (supported : m.Supported) (h : Hierarchy) (opA : Operand m ka va)
    (opB : Operand m kb vb) :
    (∀ op ∈ intOps, Kept ka va → Kept kb vb →
      (Prescribed m h (evalIntBinary m h op (operand m h ka va) (operand m h kb vb)) (cxxBinary m op ka va kb vb) ↔
        Computed m op ka va kb vb)) ∧
    (Prescribed m h (.ok (.int (evalIntMinus m h (operand m h ka va)))) (cxxMinus m ka va) ↔
      promote m ka = ka ∧ (signed m ka = true → va ≠ lowest m ka)) :=
  ⟨fun _ known keptA keptB => prescribed_iff_computed supported.sizes h known opA opB keptA keptB,
    prescribed_minus supported.sizes h opA⟩

/-- `7 + -2` of two `int`s, on x86-64 Linux. -/
theorem sum_prescribed : Prescribed lp64 (.ofRecords [] (by decide))
    (evalIntBinary lp64 (.ofRecords [] (by decide)) .add (operand lp64 (.ofRecords [] (by decide)) .int 7)
      (operand lp64 (.ofRecords [] (by decide)) .int (-2))) (cxxBinary lp64 .add .int 7 .int (-2)) := by
  have seven : Operand lp64 .int 7 := ⟨rfl, by decide, by decide⟩
  have minusTwo : Operand lp64 .int (-2) := ⟨rfl, by decide, by decide⟩
  refine ((evalIntBinary_prescribed_iff lp64_supported (.ofRecords [] (by decide)) seven minusTwo).1 .add (by decide)
    (fun _ => rfl) (fun _ => rfl)).2 ?_
  exact ⟨⟨by decide, fun _ => rfl⟩, fun _ => by decide⟩

/-- `-1 < 0u` is false: both operands are `unsigned`. -/
theorem minusOne_lss_wrong : ¬ ∀ (m : Model) (h : Hierarchy) (op : Token.Kind) (ka kb : Kind) (va vb : Int), m.Supported →
    op ∈ intOps → Operand m ka va → Operand m kb vb →
    Prescribed m h (evalIntBinary m h op (operand m h ka va) (operand m h kb vb)) (cxxBinary m op ka va kb vb) := by
  intro all
  have prescribed := all lp64 (.ofRecords [] (by decide)) .lss .int .uInt (-1) 0 lp64_supported (by decide)
    ⟨rfl, by decide, by decide⟩ ⟨rfl, by decide, by decide⟩
  have cxx : cxxBinary lp64 .lss .int (-1) .uInt 0 = some (.bool false) := by decide
  rw [cxx] at prescribed
  have code : evalIntBinary lp64 (.ofRecords [] (by decide)) .lss (operand lp64 (.ofRecords [] (by decide)) .int (-1))
      (operand lp64 (.ofRecords [] (by decide)) .uInt 0) = .ok (.bool true) := rfl
  cases code.symm.trans prescribed

end Vcx.Constexpr
