import Vcx.Lower.IntExprTypes

/-!
# When integer expressions keep their meaning

Where the recorded types are the C++ ones, and with the signs and comparisons of `valuesKept`, every
subexpression's code leaves the C++ value in the register form `held` of its type, and every conversion
takes one such form to another.
-/

namespace Vcx.IntExpr
set_option autoImplicit false
open Vcx.Lib Vcx.Types
open Vcx.Constexpr (signed bits lowest highest promote common narrow isSignedKind Operand wideKinds)

variable {m : Model} {decls : Nat → Kind}

/-! ### Registers -/

theorem isInteger_of_isInt {k : Kind} (int : isInt k = true) : k.isInteger = true := by
  simp only [isInt, Bool.and_eq_true] at int
  exact int.1

theorem bits_table : ∀ c ∈ [true, false], ∀ w ∈ [Kind.int, .uInt, .uShort], ∀ l ∈ [4, 8], ∀ k ∈ intKinds,
    bits { lp64 with charSigned := c, wCharKind := w, sizeLong := l } k ∈ [8, 16, 32, 64] := by
  decide

theorem bits_cases (sizes : m.Sizes) {k : Kind} (int : isInt k = true) :
    bits m k = 8 ∨ bits m k = 16 ∨ bits m k = 32 ∨ bits m k = 64 := by
  obtain ⟨c, memC, w, memW, l, memL, eq⟩ := core_eq sizes
  rw [bits_core sizes int, eq]
  simpa using bits_table c memC w memW l memL k (mem_intKinds.2 int)

theorem storeBytes_bits (sizes : m.Sizes) {k : Kind} (int : isInt k = true) : 8 * storeBytes m k = bits m k := by
  obtain ⟨n, size, pos⟩ := Constexpr.basicSize_integral sizes (isInteger_of_isInt int)
  simp [storeBytes, bits, size]

theorem inI64_iff (sizes : m.Sizes) {k : Kind} (int : isInt k = true) : inI64 m k = true ↔ bits m k = 64 := by
  have bytes := storeBytes_bits sizes int
  have width := bits_cases sizes int
  simp only [inI64, decide_eq_true_eq]
  omega

theorem bits_le_of_small (sizes : m.Sizes) {k : Kind} (int : isInt k = true) (small : inI64 m k = false) : bits m k ≤ 32 := by
  have width := bits_cases sizes int
  have wide := inI64_iff sizes int
  have : bits m k ≠ 64 := fun eq => by simp [wide.2 eq] at small
  omega

/-- The width of the register a type is held in. -/
def regBits (m : Model) (k : Kind) : Nat := if inI64 m k then 64 else 32

theorem regBits_pos (k : Kind) : 0 < regBits m k := by
  unfold regBits
  split <;> decide

theorem bits_le_regBits (sizes : m.Sizes) {k : Kind} (int : isInt k = true) : bits m k ≤ regBits m k := by
  unfold regBits
  split_ifs with large
  · exact ((inI64_iff sizes int).1 large).le
  · exact bits_le_of_small sizes int (Bool.eq_false_iff.2 large)

/-- A value is in range of the register it is held in, with the sign of its type. -/
theorem Operand.word (sizes : m.Sizes) {k : Kind} {v : Int} (int : isInt k = true) (op : Operand m k v) :
    InRange (signed m k) (regBits m k) v :=
  (op.inRange sizes).widen (bits_le_regBits sizes int)

theorem truthOf_held (sizes : m.Sizes) {k : Kind} {v : Int} (int : isInt k = true) (op : Operand m k v) :
    truthOf (held m k v) = decide (v ≠ 0) := by
  have range := Operand.word sizes int op
  cases large : inI64 m k <;>
    simp only [regBits, held, large, Bool.false_eq_true, if_false, if_true] at range ⊢ <;>
    exact decide_eq_decide.2 (not_congr (ofInt_eq_zero_iff (by decide) range))

theorem fromBool_held (b : Bool) : fromBool b = held m .bool (ofBool b) := by
  cases b <;> rfl

theorem load_held (sizes : m.Sizes) {k : Kind} {v : Int} (int : isInt k = true) (op : Operand m k v)
    (kept : signKept m k = true) : load m k v = held m k v := by
  have bytes := storeBytes_bits sizes int
  have range := op.inRange sizes
  simp only [signKept, decide_eq_true_eq] at kept
  rw [← kept] at range
  cases large : inI64 m k
  · have small := bits_le_of_small sizes int large
    simp only [load, held, large, Bool.false_eq_true, if_false]
    rcases bits_cases sizes int with width | width | width | width
    · rw [width] at range
      rw [show storeBytes m k = 1 by omega]
      cases sign : isSigned k <;> rw [sign] at range
      · simp only [Bool.false_eq_true, if_false, zeroExtend_ofInt range]
      · simp only [if_true, signExtend_ofInt (by decide) range]
    · rw [width] at range
      rw [show storeBytes m k = 2 by omega]
      cases sign : isSigned k <;> rw [sign] at range
      · simp only [Bool.false_eq_true, if_false, zeroExtend_ofInt range]
      · simp only [if_true, signExtend_ofInt (by decide) range]
    · rw [show storeBytes m k = 4 by omega]
      rfl
    · omega
  · simp only [load, held, large, if_true]

theorem narrowTo_ofInt (sizes : m.Sizes) {k : Kind} (int : isInt k = true) (small : inI64 m k = false) (v : Int) :
    narrowTo m (.ofInt 32 v) k = .ofInt 32 (wrap (isSigned k) (bits m k) v) := by
  have width := bits_cases sizes int
  have le := bits_le_of_small sizes int small
  simp only [narrowTo, storeBytes_bits sizes int]
  by_cases full : 32 ≤ bits m k
  · rw [if_pos full, show bits m k = 32 by omega, ofInt_wrap]
  · rw [if_neg full]
    cases isSigned k
    · exact and_mask_ofInt _ _ _
    · exact shl_sshr_ofInt (by omega) le _

/-- What the lowering makes of a value it converts. -/
def converted (m : Model) (k : Kind) (v : Int) : Int :=
  if k = .bool then ofBool (v ≠ 0) else wrap (isSigned k) (bits m k) v

/-- A conversion takes one register form to another. -/
theorem convert_held (sizes : m.Sizes) {a b : Kind} {v : Int} (intA : isInt a = true) (intB : isInt b = true)
    (op : Operand m a v) (kept : signKept m a = true) : convert m (held m a v) a b = held m b (converted m b v) := by
  have range := Operand.word sizes intA op
  simp only [signKept, decide_eq_true_eq] at kept
  unfold convert converted
  by_cases bool : b = .bool
  · subst bool
    by_cases same : a = .bool
    · subst same
      have low := op.low
      have high := op.high
      simp only [lowest, highest, signed, isSignedKind, Bool.false_eq_true, if_false, if_true] at low high
      have small : inI64 m .bool = false := rfl
      simp only [held, small, Bool.false_eq_true, if_false, if_true, ne_eq, not_true_eq_false, and_false,
        narrowTo_ofInt sizes intB small]
      obtain rfl | rfl : v = 0 ∨ v = 1 := by omega
      · simp [wrap, isSigned, bits, Model.basicSize, Model.plainSize, ofBool]
      · simp [wrap, isSigned, bits, Model.basicSize, Model.plainSize, ofBool]
    · rw [if_pos ⟨rfl, same⟩, if_pos rfl, truthOf_held sizes intA op, fromBool_held]
  · rw [if_neg (fun h => bool h.1), if_neg bool]
    have wideB := inI64_iff sizes intB
    cases largeA : inI64 m a <;> cases largeB : inI64 m b <;>
      simp only [held, regBits, largeA, largeB, Bool.false_eq_true, if_false, if_true] at range ⊢
    · rw [narrowTo_ofInt sizes intB largeB]
    · rw [wideB.1 largeB, ofInt_wrap]
      cases sign : isSigned a <;> rw [← kept, sign] at range
      · rw [if_neg (by decide), zeroExtend_ofInt range]
      · rw [if_pos rfl, signExtend_ofInt (by decide) range]
    · rw [truncate_ofInt (by decide), narrowTo_ofInt sizes intB largeB]
    · rw [wideB.1 largeB, ofInt_wrap]

/-! ### Operators -/

/-- An operator of one width takes one register form to another. -/
theorem arith_held {op : Token.Kind} {k : Kind} {x y z : Int}
    (result : arithOp op (.ofInt (regBits m k) x) (.ofInt (regBits m k) y) (isSigned k) = some (.ofInt (regBits m k) z)) :
    arith op (held m k x) (held m k y) k = some (held m k z) := by
  revert result
  unfold regBits held
  cases inI64 m k
  · intro result
    exact congrArg (Option.map Reg.i32) result
  · intro result
    exact congrArg (Option.map Reg.i64) result

theorem compare_held {op : Token.Kind} {k : Kind} {x y : Int} :
    compare op (held m k x) (held m k y) k = compareOp op (.ofInt (regBits m k) x) (.ofInt (regBits m k) y) (isSigned k) := by
  unfold regBits held
  cases inI64 m k <;> rfl

theorem unary_held (op : UnaryOp) (k : Kind) (x : Int) :
    unary op (held m k x) = held m k (match op with | .add => x | .sub => -x | .tilde => -x - 1) := by
  unfold held
  cases op <;> cases inI64 m k <;> simp [unary, ofInt_not, BitVec.ofInt_neg]

section

variable {w : Nat} {x y : Int} {s : Bool}

attribute [local simp] arithOp compareOp

/-- Both side conditions are the quotient's. -/
theorem arithOp_division (some : 0 < w) (hx : InRange s w x) (hy : InRange s w y) (nonzero : y ≠ 0)
    (quotient : s = true → InRange true w (x.tdiv y)) :
    arithOp .quo (BitVec.ofInt w x) (BitVec.ofInt w y) s = Option.some (BitVec.ofInt w (x.tdiv y)) ∧
      arithOp .rem (BitVec.ofInt w x) (BitVec.ofInt w y) s = Option.some (BitVec.ofInt w (x.tmod y)) := by
  have traps : ¬ (BitVec.ofInt w y = 0 ∨ s = true ∧ BitVec.ofInt w x = BitVec.intMin w ∧ BitVec.ofInt w y = -1) := by
    rintro (zero | ⟨rfl, least⟩)
    · exact nonzero ((ofInt_eq_zero_iff some hy).1 zero)
    · exact not_overflow some hx hy (quotient rfl) least
  simp only [arithOp]
  rw [if_neg traps, if_neg traps]
  cases s
  · exact ⟨by rw [ofInt_udiv hx hy]; rfl, by rw [ofInt_umod hx hy]; rfl⟩
  · exact ⟨by rw [ofInt_tdiv some hx hy]; rfl, by rw [ofInt_tmod some hx hy]; rfl⟩

theorem arithOp_shift (some : 0 < w) (hx : InRange s w x) (low : 0 ≤ y) (high : y < w) :
    arithOp .shl (BitVec.ofInt w x) (BitVec.ofInt w y) s = Option.some (BitVec.ofInt w (x * 2 ^ y.toNat)) ∧
      arithOp .shr (BitVec.ofInt w x) (BitVec.ofInt w y) s = Option.some (BitVec.ofInt w (x / 2 ^ y.toNat)) := by
  have ltPow : (w : Int) < 2 ^ w := by exact_mod_cast Nat.lt_two_pow_self
  obtain ⟨n, lt, rfl, word⟩ := exists_nat (show InRange false w y from ⟨low, high.trans ltPow⟩)
  have count : (BitVec.ofInt w (n : Int)).toNat = n := by rw [word, BitVec.toNat_ofNat, Nat.mod_eq_of_lt lt]
  simp only [arithOp, count, Int.toNat_natCast]
  rw [if_pos (by exact_mod_cast high), if_pos (by exact_mod_cast high), ofInt_shl]
  refine ⟨rfl, ?_⟩
  cases s
  · rw [ofInt_ushr hx]
    rfl
  · rw [ofInt_sshr some hx]
    rfl

theorem compareOp_ofInt (some : 0 < w) (hx : InRange s w x) (hy : InRange s w y) (op : Token.Kind) :
    compareOp op (BitVec.ofInt w x) (BitVec.ofInt w y) s =
      match op with
      | .eql => Option.some (decide (x = y))
      | .neq => Option.some (decide (x ≠ y))
      | .lss => Option.some (decide (x < y))
      | .leq => Option.some (decide (x ≤ y))
      | .gtr => Option.some (decide (y < x))
      | .geq => Option.some (decide (y ≤ x))
      | _ => none := by
  have same := ofInt_inj_of_inRange some hx hy
  cases s
  · cases op <;> simp [compareOp, same, ult_ofInt hx hy, ule_ofInt hx hy, ult_ofInt hy hx, ule_ofInt hy hx]
  · cases op <;> simp [compareOp, same, slt_ofInt some hx hy, sle_ofInt some hx hy, slt_ofInt some hy hx, sle_ofInt some hy hx]

end

theorem wide_of_not_narrow {k : Kind} (int : isInt k = true) (wide : narrow k = false) : k ∈ wideKinds := by
  cases k
  all_goals first
    | decide
    | exact absurd int (by decide)
    | exact absurd wide (by decide)

theorem regBits_wide (sizes : m.Sizes) {k : Kind} (int : isInt k = true) (wide : k ∈ wideKinds) : regBits m k = bits m k := by
  have width := bits_cases sizes int
  have width' := Constexpr.bits_wide sizes wide
  have large := inI64_iff sizes int
  have long := sizes.long
  unfold regBits
  split_ifs with h
  · exact (large.1 h).symm
  · have := mt large.2 h
    split_ifs at width' <;> omega

theorem signKept_wide {k : Kind} (wide : k ∈ wideKinds) : signKept m k = true := by
  simp only [wideKinds, List.mem_cons, List.not_mem_nil, or_false] at wide
  rcases wide with rfl | rfl | rfl | rfl | rfl | rfl | rfl | rfl <;> rfl

theorem signKept_bool : signKept m .bool = true := rfl

theorem Operand.of_inRange {k : Kind} {v : Int} (wide : k ∈ wideKinds) (range : InRange (signed m k) (bits m k) v) :
    Operand m k v := by
  have notBool := Constexpr.ne_bool_of_wide wide
  unfold InRange at range
  refine ⟨Constexpr.isInteger_wide wide, ?_, ?_⟩
  · unfold lowest
    split_ifs at range ⊢
    · exact range.1
    · exact range.1
  · unfold highest
    rw [if_neg notBool]
    split_ifs at range ⊢ <;> omega

theorem Operand.of_bool (b : Bool) : Operand m .bool (ofBool b) := by
  cases b <;> exact ⟨rfl, by simp [lowest, signed, isSignedKind, ofBool], by simp [highest, ofBool]⟩

theorem converted_wide {k : Kind} (wide : k ∈ wideKinds) (v : Int) : converted m k v = Constexpr.convert m k v := by
  have kept := signKept_wide (m := m) wide
  simp only [signKept, decide_eq_true_eq] at kept
  unfold converted Constexpr.convert
  rw [if_neg (Constexpr.ne_bool_of_wide wide), kept]

theorem converted_kept {k : Kind} (kept : signKept m k = true) (v : Int) : converted m k v = cxxConvert m k v := by
  simp only [signKept, decide_eq_true_eq] at kept
  unfold converted cxxConvert Constexpr.convert
  rw [kept]

theorem arith_some {k : Kind} {v : Int} {r : Constexpr.Result} (eq : Constexpr.arith m k v = some r) :
    r = .int k (Constexpr.convert m k v) ∧ (signed m k = true → InRange true (bits m k) v) := by
  unfold Constexpr.arith at eq
  split_ifs at eq with undefined
  · cases eq
    refine ⟨rfl, fun signedK => ?_⟩
    by_contra out
    exact undefined ⟨signedK, out⟩

/-- An arithmetic operator on the registers of the common type gives C++'s result, where that is defined. -/
theorem arithOp_common {op : Token.Kind} {a b t : Kind} {va vb x y : Int} {r : Constexpr.Result}
    (pos : 0 < bits m t) (kind : isArith op = true) (eqT : t = common m a b)
    (eqX : x = Constexpr.convert m t va) (eqY : y = Constexpr.convert m t vb)
    (eq : Constexpr.cxxBinary m op a va b vb = some r) :
    ∃ z, r = .int t z ∧ InRange (signed m t) (bits m t) z ∧
      arithOp op (.ofInt (bits m t) x) (.ofInt (bits m t) y) (signed m t) = some (.ofInt (bits m t) z) := by
  have rangeX : InRange (signed m t) (bits m t) x := eqX ▸ wrap_inRange _ pos va
  have rangeY : InRange (signed m t) (bits m t) y := eqY ▸ wrap_inRange _ pos vb
  have range (z : Int) : InRange (signed m t) (bits m t) (Constexpr.convert m t z) := wrap_inRange _ pos z
  have word (z : Int) : BitVec.ofInt (bits m t) (Constexpr.convert m t z) = BitVec.ofInt (bits m t) z := ofInt_wrap ..
  simp only [isArith, List.mem_cons, List.not_mem_nil, or_false, decide_eq_true_eq] at kind
  rcases kind with rfl | rfl | rfl | rfl | rfl | rfl | rfl | rfl <;>
    simp only [Constexpr.cxxBinary, ← eqT, ← eqX, ← eqY] at eq
  · obtain ⟨rfl, -⟩ := arith_some eq
    exact ⟨_, rfl, range _, by rw [word, BitVec.ofInt_add]; rfl⟩
  · obtain ⟨rfl, -⟩ := arith_some eq
    exact ⟨_, rfl, range _, by rw [word, ofInt_sub]; rfl⟩
  · obtain ⟨rfl, -⟩ := arith_some eq
    exact ⟨_, rfl, range _, by rw [word, BitVec.ofInt_mul]; rfl⟩
  · split_ifs at eq with zero
    obtain ⟨rfl, quotient⟩ := arith_some eq
    exact ⟨_, rfl, range _, by rw [word]; exact (arithOp_division pos rangeX rangeY zero quotient).1⟩
  · split_ifs at eq with undefined
    cases eq
    refine ⟨_, rfl, rangeX.tmod y, ?_⟩
    apply And.right
    apply arithOp_division pos rangeX rangeY (fun zero => undefined (.inl zero))
    intro signedT
    by_contra out
    exact undefined (.inr ⟨signedT, out⟩)
  · cases eq
    exact ⟨_, rfl, range _, by rw [word, ofInt_land]; rfl⟩
  · cases eq
    exact ⟨_, rfl, range _, by rw [word, ofInt_lor]; rfl⟩
  · cases eq
    exact ⟨_, rfl, range _, by rw [word, ofInt_xor]; rfl⟩

/-- So does a shift on those of the left operand's type. -/
theorem arithOp_shifted (sizes : m.Sizes) {op : Token.Kind} {a b : Kind} {va vb y : Int} {r : Constexpr.Result}
    (int : isInt a = true) (wide : narrow a = false) (kind : isShift op = true) (opA : Operand m a va)
    (eqY : y = Constexpr.convert m a vb) (eq : Constexpr.cxxBinary m op a va b vb = some r) :
    ∃ z, r = .int a z ∧ InRange (signed m a) (bits m a) z ∧
      arithOp op (.ofInt (bits m a) va) (.ofInt (bits m a) y) (signed m a) = some (.ofInt (bits m a) z) := by
  have self : promote m a = a := ((promote_eq_iff sizes int).2 wide).symm
  have width := bits_cases sizes int
  have pos : 0 < bits m a := by omega
  have range := opA.inRange sizes
  have word : BitVec.ofInt (bits m a) y = BitVec.ofInt (bits m a) vb := eqY ▸ ofInt_wrap ..
  rw [word]
  simp only [isShift, List.mem_cons, List.not_mem_nil, or_false, decide_eq_true_eq] at kind
  rcases kind with rfl | rfl <;> simp only [Constexpr.cxxBinary, self] at eq <;> split_ifs at eq with undefined <;> cases eq <;>
    push Not at undefined
  · refine ⟨_, rfl, wrap_inRange _ pos _, ?_⟩
    rw [Constexpr.convert, ofInt_wrap]
    exact (arithOp_shift pos range undefined.1 undefined.2).1
  · refine ⟨_, rfl, ?_, (arithOp_shift pos range undefined.1 undefined.2).2⟩
    exact range.ediv _

/-- A value keeps itself in the common type of its own. -/
theorem convert_common_self (sizes : m.Sizes) {k : Kind} {v : Int} (int : isInt k = true) (op : Operand m k v) :
    Constexpr.convert m (common m k k) v = v := by
  have integral := isInteger_of_isInt int
  have c := Constexpr.common_common sizes integral integral
  have pos := Constexpr.bits_pos sizes c.wide
  cases sign : signed m (common m k k)
  · have unsigned : signed m k = false := (c.unsigned sign).elim id id
    have range := op.inRange sizes
    rw [unsigned] at range
    refine wrap_of_inRange pos ?_
    rw [sign]
    exact range.widen c.left
  · exact Constexpr.convert_of_fits sizes c.wide op (c.values sign).1

theorem commonType_int : ∀ a ∈ intKinds, ∀ b ∈ intKinds, isInt (commonType a b) = true ∧ (a ≠ b → commonType a b ≠ .bool) := by
  decide

/-- The type that a comparison takes place in, and what its operands are there: the values of C++'s
common type, in range of a register with the sign the lowering compares them by. -/
structure Compared (m : Model) (a b : Kind) (v : Int) : Prop where
  value : converted m (commonType a b) v = Constexpr.convert m (common m a b) v
  range : InRange (isSigned (commonType a b)) (regBits m (commonType a b)) (converted m (commonType a b) v)

theorem compared_self (sizes : m.Sizes) {k : Kind} {v : Int} (int : isInt k = true) (kept : signKept m k = true)
    (op : Operand m k v) : Compared m k k v := by
  have type : commonType k k = k := if_pos rfl
  have same : converted m k v = v := by
    have range := op.inRange sizes
    have width := bits_cases sizes int
    rw [converted_kept kept]
    unfold cxxConvert
    split_ifs with bool
    · subst bool
      have low := op.low
      have high := op.high
      simp only [lowest, highest, signed, isSignedKind, Bool.false_eq_true, if_false, if_true] at low high
      obtain rfl | rfl : v = 0 ∨ v = 1 := by omega
      · rfl
      · rfl
    · exact wrap_of_inRange (by omega) range
  constructor
  · rw [type, same, convert_common_self sizes int op]
  · rw [type, same]
    simp only [signKept, decide_eq_true_eq] at kept
    rw [kept]
    exact Operand.word sizes int op

theorem compared_common (sizes : m.Sizes) {a b : Kind} (intA : isInt a = true) (intB : isInt b = true) (ne : a ≠ b)
    (kept : comparedKept m a b = true) (v : Int) : Compared m a b v := by
  have int := commonType_int a (mem_intKinds.2 intA) b (mem_intKinds.2 intB)
  simp only [comparedKept, Bool.or_eq_true, Bool.and_eq_true, decide_eq_true_eq, ne, false_or] at kept
  have width := bits_cases sizes int.1
  have value : converted m (commonType a b) v = Constexpr.convert m (common m a b) v := by
    unfold converted Constexpr.convert
    rw [if_neg (int.2 ne), kept.1, kept.2]
  refine ⟨value, ?_⟩
  unfold converted
  rw [if_neg (int.2 ne)]
  exact (wrap_inRange _ (by omega) v).widen (bits_le_regBits sizes int.1)

theorem compared_both (sizes : m.Sizes) {a b : Kind} {va vb : Int} (intA : isInt a = true) (intB : isInt b = true)
    (signKeptA : signKept m a = true) (kept : comparedKept m a b = true) (opA : Operand m a va) (opB : Operand m b vb) :
    Compared m a b va ∧ Compared m a b vb := by
  by_cases same : a = b
  · subst same
    exact ⟨compared_self sizes intA signKeptA opA, compared_self sizes intA signKeptA opB⟩
  · exact ⟨compared_common sizes intA intB same kept va, compared_common sizes intA intB same kept vb⟩

theorem compare_cxx {op : Token.Kind} {a b : Kind} {va vb : Int} {r : Constexpr.Result} (kind : isComparison op = true)
    (left : Compared m a b va) (right : Compared m a b vb) (eq : Constexpr.cxxBinary m op a va b vb = some r) :
    ∃ c, r = .bool c ∧ compare op (held m (commonType a b) (converted m (commonType a b) va))
      (held m (commonType a b) (converted m (commonType a b) vb)) (commonType a b) = some c := by
  rw [compare_held, compareOp_ofInt (regBits_pos _) left.range right.range, left.value, right.value]
  simp only [isComparison, List.mem_cons, List.not_mem_nil, or_false, decide_eq_true_eq] at kind
  rcases kind with rfl | rfl | rfl | rfl | rfl | rfl <;> simp only [Constexpr.cxxBinary, Option.some.injEq] at eq <;>
    exact ⟨_, eq.symm, rfl⟩

/-! ### Expressions -/

/-- What the code of an expression leaves, of type `k` and value `v`. -/
structure Leaves (m : Model) (code : Lowered) (k : Kind) (v : Int) : Prop where
  operand : Operand m k v
  value : code.value = some (held m k v)
  cond : code.cond = some (decide (v ≠ 0))

theorem Leaves.ofValue (sizes : m.Sizes) {k : Kind} {v : Int} (int : isInt k = true) (op : Operand m k v) :
    Leaves m (.ofValue (some (held m k v))) k v :=
  ⟨op, rfl, congrArg some (truthOf_held sizes int op)⟩

theorem ofBool_ne_zero (c : Bool) : decide (ofBool c ≠ 0) = c := by
  cases c <;> rfl

theorem Leaves.ofTruth (c : Bool) : Leaves m (.ofValue (some (fromBool c))) .bool (ofBool c) := by
  refine ⟨Operand.of_bool c, congrArg some (fromBool_held c), ?_⟩
  cases c <;> rfl

theorem Leaves.ofCond (c : Bool) : Leaves m (.ofCond (some c)) .bool (ofBool c) :=
  ⟨Operand.of_bool c, congrArg some (fromBool_held c), congrArg some (ofBool_ne_zero c).symm⟩

theorem signKept_typeOf (sizes : m.Sizes) {e : Expr} (wf : e.wellFormed m decls = true)
    (types : typesKept m decls e = true) (values : valuesKept m decls e = true) :
    signKept m (cxxTypeOf m decls e) = true := by
  cases e with
  | var x => exact values
  | lit l => exact signKept_wide (literal_wide wf).2
  | unary op e =>
    exact signKept_wide (Constexpr.promote_promotes sizes (isInteger_of_isInt (cxxTypeOf_int sizes (e := e) wf))).wide
  | not e => rfl
  | land l r => rfl
  | lor l r => rfl
  | binary op l r =>
    simp only [Expr.wellFormed, Bool.and_eq_true] at wf
    have intL := isInteger_of_isInt (cxxTypeOf_int sizes wf.1.2)
    have intR := isInteger_of_isInt (cxxTypeOf_int sizes wf.2)
    simp only [cxxTypeOf]
    split_ifs
    · rfl
    · exact signKept_wide (Constexpr.promote_promotes sizes intL).wide
    · exact signKept_wide (Constexpr.common_common sizes intL intR).wide

variable {env : Nat → Int}

/-- What an expression leaves, with what is known of its type. -/
structure Sound (m : Model) (decls : Nat → Kind) (env : Nat → Int) (e : Expr) (v : Int) : Prop where
  int : isInt (cxxTypeOf m decls e) = true
  kept : signKept m (cxxTypeOf m decls e) = true
  recorded : typeOf m decls e = cxxTypeOf m decls e
  leaves : Leaves m (lower m decls env e) (cxxTypeOf m decls e) v

theorem Sound.converted (sizes : m.Sizes) {e : Expr} {v : Int} (sound : Sound m decls env e v) {k : Kind}
    (int : isInt k = true) :
    (lower m decls env e).value.map (convert m · (typeOf m decls e) k) = some (held m k (converted m k v)) := by
  rw [sound.leaves.value, sound.recorded, Option.map_some, convert_held sizes sound.int int sound.leaves.operand sound.kept]

theorem Sound.of_leaves (sizes : m.Sizes) {e : Expr} {v : Int} (wf : e.wellFormed m decls = true)
    (types : typesKept m decls e = true) (values : valuesKept m decls e = true)
    (leaves : Leaves m (lower m decls env e) (cxxTypeOf m decls e) v) : Sound m decls env e v :=
  ⟨cxxTypeOf_int sizes wf, signKept_typeOf sizes wf types values, ((typesRight_iff_typesKept sizes wf).2 types).here, leaves⟩

attribute [local simp] lower valuesKept

theorem held_congr {k : Kind} {x y : Int} (same : x % 2 ^ 64 = y % 2 ^ 64) : held m k x = held m k y := by
  have low : x % 2 ^ 32 = y % 2 ^ 32 := by omega
  unfold held
  rw [ofInt_eq_iff.2 same, ofInt_eq_iff.2 low]

theorem held_convert (sizes : m.Sizes) {k : Kind} (int : isInt k = true) (wide : k ∈ wideKinds) (z : Int) :
    held m k (Constexpr.convert m k z) = held m k z := by
  have width := regBits_wide sizes int wide
  have word : BitVec.ofInt (bits m k) (Constexpr.convert m k z) = BitVec.ofInt (bits m k) z := ofInt_wrap ..
  unfold regBits at width
  unfold held
  split_ifs at width ⊢ <;> rw [← width] at word <;> rw [word]

/-- A literal of the right type has its value, but for a long one with a suffix `z`. -/
theorem constVal_emod (sizes : m.Sizes) {l : Literal} (types : l.typed m = true)
    (values : valuesKept m decls (.lit l) = true) : l.constVal m % 2 ^ 64 = l.value % 2 ^ 64 := by
  have long := sizes.long
  have signedVal := constVal_signed sizes (l := l)
  have unsignedVal := constVal_unsigned sizes (l := l)
  have pow := two_pow_le (show 32 ≤ 8 * m.sizeLong by omega)
  have pow' := two_pow_le (show 31 ≤ 8 * m.sizeLong - 1 by omega)
  have self (w : Nat) (pos : 0 < w) (lt : (l.value : Int) < 2 ^ (w - 1)) : wrap true w l.value = l.value := by
    have nonneg := two_pow_pos' (w - 1)
    exact wrap_of_inRange pos ⟨by omega, lt⟩
  rw [bits_evaluated sizes, isSignedKind_evaluated] at signedVal unsignedVal
  generalize l.constVal m = val at *
  obtain ⟨d, u, len, v⟩ := l
  cases u <;> cases len <;>
    simp only [Bool.not_true, Bool.not_false, Bool.true_and, Bool.false_and, ne_eq, reduceCtorEq, not_false_eq_true,
      not_true_eq_false, decide_true, decide_false, forall_const, Bool.false_eq_true, false_implies, valuesKept,
      Literal.typed, Bool.true_or, Bool.false_or, decide_eq_true_eq] at signedVal unsignedVal types values self ⊢
  case false.plain => rw [signedVal, self 32 (by decide) (by omega)]
  case false.l => rw [signedVal, self _ (by omega) (by omega)]
  case false.ll => rw [signedVal, self 64 (by decide) (by omega)]
  case true.plain => omega
  case true.ll => exact unsignedVal
  all_goals
    rw [unsignedVal, Int.emod_eq_of_lt (by omega) (by omega), Int.emod_eq_of_lt (by omega) (by omega)]

theorem literal_leaves (sizes : m.Sizes) {l : Literal} (some : (l.cxxType m).isSome = true)
    (types : l.typed m = true) (values : valuesKept m decls (.lit l) = true) :
    Leaves m (lower m decls env (.lit l)) (cxxTypeOf m decls (.lit l)) l.value := by
  have wide := literal_wide some
  have kind := (literalType_eq_iff sizes some).2 types
  have op : Operand m ((l.cxxType m).getD .int) l.value := by
    refine ⟨isInteger_of_isInt wide.1, ?_, (cxxType_mem some).2⟩
    have pos := two_pow_pos' (bits m ((l.cxxType m).getD .int) - 1)
    unfold lowest
    split_ifs <;> omega
  have value : lower m decls env (.lit l) = .ofValue (Option.some (held m ((l.cxxType m).getD .int) l.value)) := by
    rw [← held_congr (constVal_emod sizes types values)]
    simp only [lower, kind]
    rfl
  rw [value]
  exact .ofValue sizes wide.1 op

theorem unary_leaves (sizes : m.Sizes) {op : UnaryOp} {e : Expr} {v w : Int} (sound : Sound m decls env e v)
    (wide : narrow (cxxTypeOf m decls e) = false) (eq : cxxEval m decls env e = some v)
    (eqW : cxxEval m decls env (.unary op e) = some w) :
    Leaves m (lower m decls env (.unary op e)) (cxxTypeOf m decls (.unary op e)) w := by
  have int := sound.int
  have leaves := sound.leaves
  have type : cxxTypeOf m decls (.unary op e) = cxxTypeOf m decls e := ((promote_eq_iff sizes int).2 wide).symm
  have self := ((promote_eq_iff sizes int).2 wide).symm
  rw [type]
  simp only [cxxEval, eq, Option.bind_some] at eqW
  simp only [lower, leaves.value, Option.map_some]
  generalize cxxTypeOf m decls e = k at *
  have mem := wide_of_not_narrow int wide
  have pos := Constexpr.bits_pos sizes mem
  have range (z : Int) : Operand m k (Constexpr.convert m k z) := Operand.of_inRange mem (wrap_inRange _ pos z)
  rw [unary_held]
  cases op with
  | add =>
    cases eqW
    exact .ofValue sizes int leaves.operand
  | sub =>
    obtain ⟨r, minus, value⟩ := Option.bind_eq_some_iff.1 eqW
    rw [Constexpr.cxxMinus, self] at minus
    obtain ⟨rfl, -⟩ := arith_some minus
    cases value
    rw [← held_convert sizes int mem]
    exact .ofValue sizes int (range _)
  | tilde =>
    rw [self] at eqW
    cases eqW
    rw [← held_convert sizes int mem]
    exact .ofValue sizes int (range _)

theorem comparison_leaves (sizes : m.Sizes) {op : Token.Kind} {l r : Expr} {x y v : Int}
    (left : Sound m decls env l x) (right : Sound m decls env r y) (comparison : isComparison op = true)
    (kept : comparedKept m (cxxTypeOf m decls l) (cxxTypeOf m decls r) = true)
    (eq : (Constexpr.cxxBinary m op (cxxTypeOf m decls l) x (cxxTypeOf m decls r) y).bind cxxValue = some v) :
    Leaves m (lower m decls env (.binary op l r)) (cxxTypeOf m decls (.binary op l r)) v := by
  have int := (commonType_int _ (mem_intKinds.2 left.int) _ (mem_intKinds.2 right.int)).1
  obtain ⟨res, computed, value⟩ := Option.bind_eq_some_iff.1 eq
  obtain ⟨comparedL, comparedR⟩ :=
    compared_both sizes left.int right.int left.kept kept left.leaves.operand right.leaves.operand
  obtain ⟨c, rfl, is⟩ := compare_cxx comparison comparedL comparedR computed
  cases value
  rw [← left.recorded, ← right.recorded] at int is
  simp only [lower, cxxTypeOf, comparison, if_true]
  rw [left.converted sizes int, right.converted sizes int]
  simp only [Option.bind_some, is]
  exact .ofCond c

theorem arithmetic_leaves (sizes : m.Sizes) {op : Token.Kind} {l r : Expr} {x y v : Int} {t : Kind}
    (left : Sound m decls env l x) (right : Sound m decls env r y) (comparison : isComparison op = false)
    (recorded : typeOf m decls (.binary op l r) = t) (int : isInt t = true) (wide : t ∈ wideKinds)
    (range : InRange (signed m t) (bits m t) v)
    (is : arithOp op (.ofInt (bits m t) (Constexpr.convert m t x)) (.ofInt (bits m t) (Constexpr.convert m t y)) (signed m t) =
      some (.ofInt (bits m t) v)) :
    Leaves m (lower m decls env (.binary op l r)) t v := by
  have sign := signKept_wide (m := m) wide
  simp only [signKept, decide_eq_true_eq] at sign
  rw [← regBits_wide sizes int wide, ← sign, ← converted_wide wide, ← converted_wide wide] at is
  have value := arith_held is
  simp only [lower, comparison, Bool.false_eq_true, if_false, recorded]
  rw [left.converted sizes int, right.converted sizes int]
  simp only [Option.bind_some, value]
  exact .ofValue sizes int (Operand.of_inRange wide range)

theorem binary_leaves (sizes : m.Sizes) {op : Token.Kind} {l r : Expr} {x y v : Int}
    (left : Sound m decls env l x) (right : Sound m decls env r y)
    (recorded : typeOf m decls (.binary op l r) = cxxTypeOf m decls (.binary op l r))
    (known : (isArith op || isShift op || isComparison op) = true)
    (types : typesKept m decls (.binary op l r) = true) (values : valuesKept m decls (.binary op l r) = true)
    (eq : (Constexpr.cxxBinary m op (cxxTypeOf m decls l) x (cxxTypeOf m decls r) y).bind cxxValue = some v) :
    Leaves m (lower m decls env (.binary op l r)) (cxxTypeOf m decls (.binary op l r)) v := by
  cases comparison : isComparison op with
  | true =>
    simp only [valuesKept, Bool.and_eq_true, Bool.or_eq_true, Bool.not_eq_true', comparison, Bool.true_eq_false,
      false_or] at values
    exact comparison_leaves sizes left right comparison values.2 eq
  | false =>
    obtain ⟨res, computed, value⟩ := Option.bind_eq_some_iff.1 eq
    simp only [comparison, Bool.or_false, Bool.or_eq_true] at known
    cases shift : isShift op with
    | true =>
      simp only [typesKept, comparison, shift, Bool.false_eq_true, if_false, if_true, Bool.and_eq_true,
        Bool.not_eq_true'] at types
      have self := ((promote_eq_iff sizes left.int).2 types.2).symm
      have type : cxxTypeOf m decls (.binary op l r) = cxxTypeOf m decls l := by
        simp [cxxTypeOf, comparison, shift, self]
      rw [type] at recorded ⊢
      have wide := wide_of_not_narrow left.int types.2
      obtain ⟨z, rfl, range, is⟩ := arithOp_shifted sizes left.int types.2 shift left.leaves.operand rfl computed
      cases value
      have kept : Constexpr.convert m (cxxTypeOf m decls l) x = x :=
        wrap_of_inRange (Constexpr.bits_pos sizes wide) (left.leaves.operand.inRange sizes)
      rw [← kept] at is
      exact arithmetic_leaves sizes left right comparison recorded left.int wide range is
    | false =>
      have arithmetic : isArith op = true := by simpa [shift] using known
      have type : cxxTypeOf m decls (.binary op l r) = common m (cxxTypeOf m decls l) (cxxTypeOf m decls r) := by
        simp [cxxTypeOf, comparison, shift]
      rw [type] at recorded ⊢
      have int := common_int sizes left.int right.int
      have wide := (Constexpr.common_common sizes (isInteger_of_isInt left.int) (isInteger_of_isInt right.int)).wide
      obtain ⟨z, rfl, range, is⟩ := arithOp_common (Constexpr.bits_pos sizes wide) arithmetic rfl rfl rfl computed
      cases value
      exact arithmetic_leaves sizes left right comparison recorded int wide range is

/-- The code of every subexpression leaves its C++ value, in the register form of its type. -/
theorem lower_sound (sizes : m.Sizes) (inRange : ∀ x, lowest m (decls x) ≤ env x ∧ env x ≤ highest m (decls x))
    {e : Expr} (wf : e.wellFormed m decls = true) (types : typesKept m decls e = true)
    (values : valuesKept m decls e = true) {v : Int} (eq : cxxEval m decls env e = some v) : Sound m decls env e v := by
  induction e generalizing v with
  | var x =>
    cases eq
    have op : Operand m (decls x) (env x) := ⟨isInteger_of_isInt wf, (inRange x).1, (inRange x).2⟩
    apply Sound.of_leaves sizes wf types values
    simp only [lower, load_held sizes wf op values]
    exact .ofValue sizes wf op
  | lit l =>
    cases eq
    exact .of_leaves sizes wf types values (literal_leaves sizes wf types values)
  | unary op e ih =>
    obtain ⟨u, eqU, -⟩ := Option.bind_eq_some_iff.1 eq
    have parts := types
    simp only [typesKept, Bool.and_eq_true, Bool.not_eq_true'] at parts
    exact .of_leaves sizes wf types values (unary_leaves sizes (ih wf parts.2 values eqU) parts.1 eqU eq)
  | not e ih =>
    obtain ⟨u, eqU, rfl⟩ := Option.map_eq_some_iff.1 eq
    apply Sound.of_leaves sizes wf types values
    have leaves := (ih wf types values eqU).leaves
    simp only [lower, leaves.cond, Option.map_some]
    have negated : (!decide (u ≠ 0)) = decide (u = 0) := by simp
    rw [negated]
    exact .ofTruth _
  | land l r ihL ihR =>
    obtain ⟨x, eqX, rest⟩ := Option.bind_eq_some_iff.1 eq
    have parts := wf
    simp only [Expr.wellFormed, Bool.and_eq_true] at parts
    have kept := types
    have kept' := values
    simp only [typesKept, valuesKept, Bool.and_eq_true] at kept kept'
    apply Sound.of_leaves sizes wf types values
    have left := (ihL parts.1 kept.1 kept'.1 eqX).leaves
    simp only [lower, left.cond, Option.bind_some]
    by_cases zero : x = 0
    · rw [if_neg (by simpa using zero)] at rest
      cases rest
      rw [if_neg (by simpa using zero)]
      exact .ofTruth false
    · rw [if_pos zero] at rest
      obtain ⟨y, eqY, rfl⟩ := Option.map_eq_some_iff.1 rest
      rw [if_pos (by simpa using zero), (ihR parts.2 kept.2 kept'.2 eqY).leaves.cond]
      exact .ofTruth _
  | lor l r ihL ihR =>
    obtain ⟨x, eqX, rest⟩ := Option.bind_eq_some_iff.1 eq
    have parts := wf
    simp only [Expr.wellFormed, Bool.and_eq_true] at parts
    have kept := types
    have kept' := values
    simp only [typesKept, valuesKept, Bool.and_eq_true] at kept kept'
    apply Sound.of_leaves sizes wf types values
    have left := (ihL parts.1 kept.1 kept'.1 eqX).leaves
    simp only [lower, left.cond, Option.bind_some]
    by_cases zero : x = 0
    · rw [if_neg (by simpa using zero)] at rest
      obtain ⟨y, eqY, rfl⟩ := Option.map_eq_some_iff.1 rest
      rw [if_neg (by simpa using zero), (ihR parts.2 kept.2 kept'.2 eqY).leaves.cond]
      exact .ofTruth _
    · rw [if_pos zero] at rest
      cases rest
      rw [if_pos (by simpa using zero)]
      exact .ofTruth true
  | binary op l r ihL ihR =>
    obtain ⟨x, eqX, rest⟩ := Option.bind_eq_some_iff.1 eq
    obtain ⟨y, eqY, computed⟩ := Option.bind_eq_some_iff.1 rest
    have parts := wf
    simp only [Expr.wellFormed, Bool.and_eq_true] at parts
    have kept := types
    have kept' := values
    simp only [typesKept, valuesKept, Bool.and_eq_true] at kept kept'
    have left := ihL parts.1.2 kept.1.1 kept'.1.1 eqX
    have right := ihR parts.2 kept.1.2 kept'.1.2 eqY
    have recorded := ((typesRight_iff_typesKept sizes wf).2 types).here
    exact .of_leaves sizes wf types values (binary_leaves sizes left right recorded parts.1.1 types values computed)

/-- **Typing and lowering keep the meaning of integer expressions on the types they are right on**: the
types recorded for an expression and its parts are the C++ ones exactly where `typesKept` holds; there,
with the signs and comparisons of `valuesKept`, the code computes the C++ value for every assignment
that has one, in the form of any type it is converted to that is signed to the lowering if it is. -/
theorem integers_preserved (supported : m.Supported) {e : Expr} (wf : e.wellFormed m decls = true) :
    (typesRight m decls e ↔ typesKept m decls e = true) ∧
      (typesKept m decls e = true → valuesKept m decls e = true →
        ∀ env : Nat → Int, (∀ x, lowest m (decls x) ≤ env x ∧ env x ≤ highest m (decls x)) →
          ∀ v, cxxEval m decls env e = some v → ∀ k, isInt k = true → signKept m k = true →
            (lower m decls env e).value.map (convert m · (typeOf m decls e) k) = some (held m k (cxxConvert m k v))) := by
  refine ⟨typesRight_iff_typesKept supported.sizes wf, ?_⟩
  intro types values env inRange v eq k int kept
  have sound := lower_sound supported.sizes inRange wf types values eq
  rw [sound.converted supported.sizes int, converted_kept kept]

/-- `(a + 3) * -b < c || a`, of an `int`, a `long` and a `short`. -/
def mixed : Expr :=
  .lor (.binary .lss (.binary .mul (.binary .add (.var 0) (.lit ⟨true, false, .plain, 3⟩)) (.unary .sub (.var 1))) (.var 2)) (.var 0)

def mixedTypes : Nat → Kind
  | 0 => .int
  | 1 => .long
  | _ => .short

theorem mixed_preserved : (lower lp64 mixedTypes (fun _ => 1) mixed).value.map (convert lp64 · .bool .longLong) =
    some (held lp64 .longLong 1) := by
  have inRange : ∀ x, lowest lp64 (mixedTypes x) ≤ 1 ∧ 1 ≤ highest lp64 (mixedTypes x)
    | 0 => by decide
    | 1 => by decide
    | _ + 2 => show lowest lp64 .short ≤ 1 ∧ 1 ≤ highest lp64 .short by decide
  have wf : mixed.wellFormed lp64 mixedTypes = true := by decide
  exact (integers_preserved lp64_supported wf).2 (by decide) (by decide) (fun _ => 1) inRange 1 (by decide) .longLong rfl rfl

/-- `~x` of an `unsigned char` that is `1` is `4294967294` as a `long long`: its type is recorded as
`unsigned char`, and the register extended without its sign. -/
theorem complement_wrong : ¬ ∀ (m : Model) (decls : Nat → Kind) (e : Expr), m.Supported → e.wellFormed m decls = true →
    typesRight m decls e ∧
      ∀ env : Nat → Int, (∀ x, lowest m (decls x) ≤ env x ∧ env x ≤ highest m (decls x)) →
        ∀ v, cxxEval m decls env e = some v → ∀ k, isInt k = true →
          (lower m decls env e).value.map (convert m · (typeOf m decls e) k) = some (held m k (cxxConvert m k v)) := by
  intro all
  have wrong := (all lp64 (fun _ => .uChar) (.unary .tilde (.var 0)) lp64_supported (by decide)).2 (fun _ => 1)
    (fun _ => by decide) (-2) (by decide) .longLong rfl
  exact absurd wrong (by decide)

end Vcx.IntExpr
