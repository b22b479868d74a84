import Mathlib.Tactic.FinCases
import Vcx.Lower.IntConvert

/-!
# When conversions and operators keep the register form

A conversion leaves the value it widens or narrows, with the signs the lowering takes the types to have;
where those are not the types' own the value is another, which tables over the models find. From both
follows which conversions and operators take the register forms of all values to that of C++'s result.
-/

namespace Vcx.IntConvert
set_option autoImplicit false
open Vcx.Lib Vcx.Types Vcx.IntExpr
open Vcx.Constexpr (signed bits lowest highest promote common narrow Operand cxxBinary wideKinds)

variable {m : Model}

/-! ### Registers -/

/-- Only `char` and `wchar_t` are signed to the lowering and unsigned. -/
theorem not_signKept (sizes : m.Sizes) {k : Kind} (int : isInt k = true) (lost : signKept m k = false) :
    isSigned k = true ∧ signed m k = false ∧ inI64 m k = false := by
  unfold signKept at lost
  cases k with
  | char =>
    refine ⟨rfl, ?_, rfl⟩
    cases sign : signed m .char with
    | false => rfl
    | true => simp [isSigned, sign] at lost
  | wChar =>
    refine ⟨rfl, ?_, ?_⟩
    · cases sign : signed m .wChar with
      | false => rfl
      | true => simp [isSigned, sign] at lost
    · obtain eq | eq | eq := sizes.wChar <;>
        simp [inI64, storeBytes, Model.basicSize, Model.plainSize, eq, sizes.int, sizes.short]
  | invalid | void | nullptr | auto | decltypeAuto => cases int
  | _ => simp [isSigned, signed, Constexpr.isSignedKind] at lost

theorem extended_kept {k : Kind} (kept : signKept m k = true) (v : Int) : extended m k v = v :=
  if_pos (.inl kept)

/-- A register of 32 bits widens to its `extended` value. -/
theorem widen_held (sizes : m.Sizes) {k : Kind} {v : Int} (int : isInt k = true) (op : Operand m k v)
    (small : inI64 m k = false) :
    (if isSigned k then (BitVec.ofInt 32 v).signExtend 64 else (BitVec.ofInt 32 v).zeroExtend 64) =
      BitVec.ofInt 64 (extended m k v) := by
  have word := Operand.word sizes int op
  simp only [regBits, small, Bool.false_eq_true, if_false] at word
  cases kept : signKept m k with
  | true =>
    rw [extended_kept kept]
    simp only [signKept, decide_eq_true_eq] at kept
    rw [← kept] at word
    cases sign : isSigned k <;> rw [sign] at word
    · rw [if_neg Bool.false_ne_true, zeroExtend_ofInt word]
    · rw [if_pos rfl, signExtend_ofInt (by decide) word]
  | false =>
    obtain ⟨sign, unsigned, -⟩ := not_signKept sizes int kept
    simp only [InRange, unsigned, Bool.false_eq_true, if_false] at word
    obtain ⟨low, high⟩ := word
    have same : BitVec.ofInt 32 v = BitVec.ofInt 32 (extended m k v) := by
      rw [ofInt_eq_iff, extended, kept]
      split <;> omega
    have range : InRange true 32 (extended m k v) := by
      simp only [InRange, if_true, extended, kept, Bool.false_eq_true, false_or]
      split <;> omega
    rw [sign, same, if_pos rfl, signExtend_ofInt (by decide) range]

theorem extended_emod (k : Kind) (v : Int) {w : Nat} (le : w ≤ 32) : extended m k v % 2 ^ w = v % 2 ^ w := by
  unfold extended
  split
  · rfl
  · have multiple : (2 : Int) ^ w ∣ 2 ^ 32 := pow_dvd_pow 2 le
    exact Int.emod_eq_emod_iff_emod_sub_eq_zero.2 (Int.emod_eq_zero_of_dvd (by simpa using multiple))

/-- A change of width takes one register form to another. -/
theorem resize_held (sizes : m.Sizes) {a b : Kind} {v : Int} (intA : isInt a = true) (intB : isInt b = true)
    (op : Operand m a v) :
    resize m (held m a v) (isSigned a) b = held m b (wrap (isSigned b) (bits m b) (extended m a v)) := by
  have wideB := inI64_iff sizes intB
  cases largeA : inI64 m a <;> cases largeB : inI64 m b <;>
    simp only [resize, held, largeA, largeB, Bool.false_eq_true, if_false, if_true]
  · have le := bits_le_of_small sizes intB largeB
    rw [narrowTo_ofInt sizes intB largeB, wrap_congr (extended_emod a v le)]
  · rw [wideB.1 largeB, ofInt_wrap, widen_held sizes intA op largeA]
  · have le := bits_le_of_small sizes intB largeB
    rw [truncate_ofInt (by decide), narrowTo_ofInt sizes intB largeB, wrap_congr (extended_emod a v le)]
  · have kept : signKept m a = true := by
      by_contra lost
      have := (not_signKept sizes intA (Bool.eq_false_iff.2 lost)).2.2
      rw [largeA] at this
      cases this
    rw [wideB.1 largeB, ofInt_wrap, extended_kept kept]

/-! ### Conversions -/

theorem extended_eq (sizes : m.Sizes) {k : Kind} {v : Int} (int : isInt k = true) (op : Operand m k v)
    (kept : wideWChar m k = false) : extended m k v = v := by
  cases sign : signKept m k with
  | true => exact extended_kept sign v
  | false =>
    obtain ⟨-, unsigned, small⟩ := not_signKept sizes int sign
    have le := bits_le_of_small sizes int small
    have width := bits_cases sizes int
    have range := op.inRange sizes
    simp only [wideWChar, sign, Bool.not_false, Bool.true_and, decide_eq_false_iff_not] at kept
    simp only [InRange, unsigned, Bool.false_eq_true, if_false] at range
    have power : (2 : Int) ^ bits m k ≤ 2 ^ 16 := two_pow_le (by omega)
    exact if_pos (.inr (by omega))

theorem wrap_bool {v : Int} (op : Operand m .bool v) : wrap (isSigned .bool) (bits m .bool) v = ofBool (v ≠ 0) := by
  have low := op.low
  have high := op.high
  simp only [lowest, highest, signed, Constexpr.isSignedKind, Bool.false_eq_true, if_false, if_true] at low high
  obtain rfl | rfl : v = 0 ∨ v = 1 := by omega
  · simp [wrap, isSigned, ofBool]
  · simp [wrap, isSigned, bits, Model.basicSize, Model.plainSize, ofBool]

theorem wrap_of_lowerHalf {w : Nat} {v : Int} (sign : Bool) (some : 0 < w) (low : 0 ≤ v) (high : v < 2 ^ (w - 1)) :
    wrap sign w v = v := by
  have double := two_pow_double some
  apply wrap_of_inRange some
  unfold InRange
  split <;> omega

/-- What arrives at the type is C++'s value. -/
theorem held_wrap (sizes : m.Sizes) {a b : Kind} {v : Int} (intB : isInt b = true)
    (op : Operand m a v) (notBool : b ≠ .bool)
    (narrowKept : signKept m b = true ∨ bits m b = 32 ∨ inLowerHalf m a b = true)
    (wideKept : bits m b = 64 → extended m a v = v) :
    held m b (wrap (isSigned b) (bits m b) (extended m a v)) = held m b (cxxConvert m b v) := by
  have width := bits_cases sizes intB
  have large := inI64_iff sizes intB
  have same : extended m a v % 2 ^ bits m b = v % 2 ^ bits m b := by
    by_cases full : bits m b = 64
    · rw [wideKept full]
    · exact extended_emod a v (by omega)
  rw [cxxConvert, if_neg notBool, Constexpr.convert, wrap_congr same]
  obtain kept | full | half := narrowKept
  · simp only [signKept, decide_eq_true_eq] at kept
    rw [kept]
  · have small : inI64 m b = false := Bool.eq_false_iff.2 (fun h => by have := large.1 h; omega)
    simp only [held, small, Bool.false_eq_true, if_false, full, ofInt_wrap]
  · simp only [inLowerHalf, Bool.and_eq_true, Bool.not_eq_true', decide_eq_true_eq] at half
    have low := op.low
    have high := op.high
    simp only [lowest, half.1, Bool.false_eq_true, if_false] at low
    rw [wrap_of_lowerHalf _ (by omega) low (high.trans_lt half.2), wrap_of_lowerHalf _ (by omega) low (high.trans_lt half.2)]

theorem convert_right (sizes : m.Sizes) {a b : IntType} {v : Int} (intA : isInt a.kind = true) (intB : isInt b.kind = true)
    (kept : (Operation.convert a b).kept m = true) (op : Operand m a.kind v) :
    convertType m (held m a.kind v) a b = held m b.kind (cxxConvert m b.kind v) := by
  unfold convertType
  by_cases test : b.isBool = true ∧ ¬ a.isBool = true
  · have bool : b.kind = .bool := by
      have := test.1
      simp only [IntType.isBool, decide_eq_true_eq] at this
      rw [this]
      rfl
    rw [if_pos test, truthOf_held sizes intA op, fromBool_held, bool, cxxConvert, if_pos rfl]
  · rw [if_neg test, resize_held sizes intA intB op]
    by_cases bool : b.kind = .bool
    · -- the value is a `bool` already
      have already : a.kind = .bool := by
        cases b with
        | basic k =>
          change k = .bool at bool
          subst bool
          have : a.isBool = true := by simpa [IntType.isBool] using test
          simp only [IntType.isBool, decide_eq_true_eq] at this
          rw [this]
          rfl
        | enum k =>
          change k = .bool at bool
          subst bool
          simpa [Operation.kept] using kept
      rw [already] at op ⊢
      rw [bool, extended_kept signKept_bool, wrap_bool op, cxxConvert, if_pos rfl]
    · have ne : b ≠ .enum .bool := fun eq => bool (eq ▸ rfl)
      simp only [Operation.kept, ne, if_false, Bool.and_eq_true, Bool.or_eq_true, Bool.not_eq_true', Bool.and_eq_false_iff,
        decide_eq_true_eq, decide_eq_false_iff_not, or_assoc] at kept
      exact held_wrap sizes intB op bool kept.1 fun full =>
        extended_eq sizes intA op (kept.2.resolve_right (not_not.2 full))

/-! ### Operators -/

theorem convert_operand (sizes : m.Sizes) {a : IntType} {t : Kind} {v : Int} (intA : isInt a.kind = true)
    (intT : isInt t = true) (wide : t ∈ wideKinds) (kept : bits m t = 64 → extended m a.kind v = v)
    (op : Operand m a.kind v) :
    convertType m (held m a.kind v) a (.basic t) = held m t (Constexpr.convert m t v) := by
  have notBool := Constexpr.ne_bool_of_wide wide
  have untested : ¬ ((IntType.basic t).isBool = true ∧ ¬ a.isBool = true) := by
    rintro ⟨test, -⟩
    simp only [IntType.isBool, IntType.basic.injEq, decide_eq_true_eq] at test
    exact notBool test
  have same : cxxConvert m t v = Constexpr.convert m t v := if_neg notBool
  rw [convertType, if_neg untested, IntType.kind_basic, resize_held sizes intA intT op, ← same]
  exact held_wrap sizes intT op notBool (.inl (signKept_wide wide)) kept

theorem promote_bits_table : ∀ c ∈ [true, false], ∀ w ∈ [Kind.int, .uInt, .uShort], ∀ l ∈ [4, 8], ∀ k ∈ intKinds,
    let core := { lp64 with charSigned := c, wCharKind := w, sizeLong := l }
    wideWChar core k = true → bits core (promote core k) = 32 := by
  decide

theorem wideWChar_core (sizes : m.Sizes) {k : Kind} (int : isInt k = true) : wideWChar m k = wideWChar (core m) k := by
  unfold wideWChar signKept
  rw [signed_core, bits_core sizes int]

/-- Promotion widens no `wchar_t` to 64 bits. -/
theorem promote_kept (sizes : m.Sizes) {k : Kind} {v : Int} (int : isInt k = true) (operand : Operand m k v)
    (full : bits m (promote m k) = 64) : extended m k v = v := by
  obtain ⟨c, memC, w, memW, l, memL, eq⟩ := core_eq sizes
  have table := promote_bits_table c memC w memW l memL k (mem_intKinds.2 int)
  simp only [← eq] at table
  rw [← wideWChar_core sizes int, ← promote_core sizes int, ← bits_core sizes (promote_int int)] at table
  apply extended_eq sizes int operand
  by_contra wide
  rw [table (Bool.eq_true_of_not_eq_false wide)] at full
  cases full

theorem unary_right (sizes : m.Sizes) (op : UnaryOp) (t : IntType) (int : isInt t.kind = true) :
    (Operation.unary op t).Right m := by
  intro v w operand eq
  have promotes := Constexpr.promote_promotes sizes (isInteger_of_isInt int)
  have intP := promote_int (m := m) int
  rw [convert_operand sizes int intP promotes.wide (promote_kept sizes int operand) operand,
    Constexpr.convert_of_fits sizes promotes.wide operand promotes.values, unary_held]
  cases op with
  | add =>
    cases eq
    rfl
  | sub =>
    obtain ⟨r, result, value⟩ := Option.bind_eq_some_iff.1 eq
    obtain ⟨rfl, -⟩ := arith_some result
    cases value
    exact (held_convert sizes intP promotes.wide _).symm
  | tilde =>
    cases eq
    exact (held_convert sizes intP promotes.wide _).symm

theorem not_right (sizes : m.Sizes) (t : IntType) (int : isInt t.kind = true) : (Operation.not t).Right m := by
  intro v operand
  rw [lowerNot, truthOf_held sizes int operand]
  have same : (!decide (v ≠ 0)) = decide (v = 0) := by simp
  rw [same]
  exact fromBool_held _

/-- The operators on the registers of their operands' common type. -/
theorem operate_right (sizes : m.Sizes) {op : Token.Kind} {a b : Kind} {x y z : Int} (mem : op ∈ operators)
    (intA : isInt a = true) (intB : isInt b = true) (operandA : Operand m a x)
    (eq : (cxxBinary m op a x b y).bind cxxValue = some z) :
    operate op (held m (operandType m op a b) (Constexpr.convert m (operandType m op a b) x))
      (held m (operandType m op a b) (Constexpr.convert m (operandType m op a b) y)) (operandType m op a b) =
        some (held m (resultType m op a b) z) := by
  obtain ⟨r, result, value⟩ := Option.bind_eq_some_iff.1 eq
  by_cases shift : isShift op = true
  · have promotes := Constexpr.promote_promotes sizes (isInteger_of_isInt intA)
    have intP := promote_int (m := m) intA
    have wide : narrow (promote m a) = false := by
      have := promotes.wide
      simp only [wideKinds, List.mem_cons, List.not_mem_nil, or_false] at this
      obtain eq | eq | eq | eq | eq | eq | eq | eq := this <;> rw [eq] <;> rfl
    have self : promote m (promote m a) = promote m a := ((promote_eq_iff sizes intP).2 wide).symm
    have notCompare : isComparison op = false := by
      simp only [isShift, List.mem_cons, List.not_mem_nil, or_false, decide_eq_true_eq] at shift
      obtain rfl | rfl := shift <;> rfl
    have kept : Constexpr.convert m (promote m a) x = x :=
      Constexpr.convert_of_fits sizes promotes.wide operandA promotes.values
    have operandP : Operand m (promote m a) x := by
      have range : InRange (signed m (promote m a)) (bits m (promote m a)) x := by
        rw [← kept]
        exact wrap_inRange _ (Constexpr.bits_pos sizes promotes.wide) x
      exact Operand.of_inRange promotes.wide range
    have promoted : cxxBinary m op (promote m a) x b y = some r := by
      rw [← result]
      simp only [isShift, List.mem_cons, List.not_mem_nil, or_false, decide_eq_true_eq] at shift
      obtain rfl | rfl := shift <;> simp only [cxxBinary, self]
    obtain ⟨w, rfl, -, code⟩ := arithOp_shifted sizes intP wide shift operandP rfl promoted
    cases value
    have type : operandType m op a b = promote m a := if_pos shift
    have kept' : signKept m (promote m a) = true := signKept_wide promotes.wide
    simp only [signKept, decide_eq_true_eq] at kept'
    rw [operate, resultType, notCompare, if_neg Bool.false_ne_true, if_neg Bool.false_ne_true, type, kept]
    exact arith_held (by rw [regBits_wide sizes intP promotes.wide, kept']; exact code)
  · have c := Constexpr.common_common sizes (isInteger_of_isInt intA) (isInteger_of_isInt intB)
    have intT := common_int sizes intA intB
    have pos := Constexpr.bits_pos sizes c.wide
    have width := regBits_wide sizes intT c.wide
    have type : operandType m op a b = common m a b := if_neg shift
    have sign : isSigned (common m a b) = signed m (common m a b) := by
      have := signKept_wide (m := m) c.wide
      simpa only [signKept, decide_eq_true_eq] using this
    rw [operate, resultType, type]
    by_cases comparison : isComparison op = true
    · have rangeX : InRange (signed m (common m a b)) (bits m (common m a b)) (Constexpr.convert m (common m a b) x) :=
        wrap_inRange _ pos x
      have rangeY : InRange (signed m (common m a b)) (bits m (common m a b)) (Constexpr.convert m (common m a b) y) :=
        wrap_inRange _ pos y
      rw [if_pos comparison, if_pos comparison, compare_held, width, sign, compareOp_ofInt pos rangeX rangeY]
      simp only [isComparison, List.mem_cons, List.not_mem_nil, or_false, decide_eq_true_eq] at comparison
      obtain rfl | rfl | rfl | rfl | rfl | rfl := comparison <;> cases result <;> cases value <;>
        exact congrArg some (fromBool_held _)
    · have kind : isArith op = true := by
        simp only [operators, List.mem_cons, List.not_mem_nil, or_false] at mem
        obtain rfl | rfl | rfl | rfl | rfl | rfl | rfl | rfl | rfl | rfl | rfl | rfl | rfl | rfl | rfl | rfl := mem
        all_goals first
          | rfl
          | exact absurd rfl shift
          | exact absurd rfl comparison
      obtain ⟨w, rfl, -, code⟩ := arithOp_common pos kind rfl rfl rfl result
      cases value
      rw [if_neg comparison, if_neg comparison]
      exact arith_held (by rw [width, sign]; exact code)

theorem binary_right (sizes : m.Sizes) {op : Token.Kind} {a b : IntType} (mem : op ∈ operators)
    (intA : isInt a.kind = true) (intB : isInt b.kind = true) (kept : (Operation.binary op a b).kept m = true) :
    (Operation.binary op a b).Right m := by
  intro x y z operandA operandB eq
  simp only [Operation.kept, Bool.or_eq_true, Bool.not_eq_true', Bool.or_eq_false_iff, decide_eq_true_eq, or_assoc] at kept
  rw [operands, ← operate_right sizes mem intA intB operandA eq]
  by_cases shift : isShift op = true
  · have type : operandType m op a.kind b.kind = promote m a.kind := if_pos shift
    have promotes := Constexpr.promote_promotes sizes (isInteger_of_isInt intA)
    have intP := promote_int (m := m) intA
    -- a count that is out of range of the width is undefined
    have count : y < bits m (promote m a.kind) := by
      simp only [isShift, List.mem_cons, List.not_mem_nil, or_false, decide_eq_true_eq] at shift
      obtain rfl | rfl := shift <;> simp only [cxxBinary] at eq <;> split_ifs at eq with undefined <;>
        first
          | exact lt_of_not_ge (not_or.1 undefined).2
          | cases eq
    rw [type, convert_operand sizes intA intP promotes.wide (promote_kept sizes intA operandA) operandA,
      convert_operand sizes intB intP promotes.wide (fun full => if_pos (.inr (by omega))) operandB]
    rfl
  · have type : operandType m op a.kind b.kind = common m a.kind b.kind := if_neg shift
    have c := Constexpr.common_common sizes (isInteger_of_isInt intA) (isInteger_of_isInt intB)
    have intT := common_int sizes intA intB
    have kept := kept.resolve_left shift
    rw [type, convert_operand sizes intA intT c.wide (fun full => extended_eq sizes intA operandA (kept.resolve_left (not_not.2 full)).1) operandA,
      convert_operand sizes intB intT c.wide (fun full => extended_eq sizes intB operandB (kept.resolve_left (not_not.2 full)).2) operandB]
    rfl

/-! ### Scoped enumerations -/

/-- The value a scoped enumeration is compared as. -/
theorem convert_sameEnum (sizes : m.Sizes) {k : Kind} {v : Int} (int : isInt k = true) (op : Operand m k v) :
    convertType m (held m k v) (.enum k) (.enum k) = held m k (wrap (isSigned k) (bits m k) v) := by
  have width := bits_cases sizes int
  have large := inI64_iff sizes int
  have same : extended m k v % 2 ^ bits m k = v % 2 ^ bits m k := by
    by_cases full : bits m k = 64
    · rw [extended_eq sizes int op (by simp [wideWChar, full])]
    · exact extended_emod k v (by omega)
  rw [convertType, if_neg (by simp [IntType.isBool]), IntType.kind_enum, resize_held sizes int int op, wrap_congr same]

theorem sameEnum_right (sizes : m.Sizes) {op : Token.Kind} {k : Kind} (comparison : isComparison op = true)
    (int : isInt k = true) (kept : (Operation.sameEnum op k).kept m = true) : (Operation.sameEnum op k).Right m := by
  intro x y z operandX operandY eq
  have width := bits_cases sizes int
  have pos : 0 < bits m k := by omega
  have range (v : Int) : InRange (isSigned k) (regBits m k) (wrap (isSigned k) (bits m k) v) :=
    (wrap_inRange _ pos v).widen (bits_le_regBits sizes int)
  have same : wrap (isSigned k) (bits m k) x = wrap (isSigned k) (bits m k) y ↔ x = y := by
    rw [wrap_eq_wrap_iff]
    exact ⟨(operandX.inRange sizes).unique pos (operandY.inRange sizes), fun eq => by rw [eq]⟩
  have self {v : Int} (operand : Operand m k v) (sign : signKept m k = true) : wrap (isSigned k) (bits m k) v = v := by
    simp only [signKept, decide_eq_true_eq] at sign
    rw [sign]
    exact wrap_of_inRange pos (operand.inRange sizes)
  rw [operands, IntType.kind_enum, convert_sameEnum sizes int operandX, convert_sameEnum sizes int operandY, operate, if_pos comparison,
    compare_held, compareOp_ofInt (regBits_pos _) (range x) (range y)]
  simp only [Operation.kept, Bool.or_eq_true, decide_eq_true_eq] at kept
  simp only [isComparison, List.mem_cons, List.not_mem_nil, or_false, decide_eq_true_eq] at comparison
  obtain rfl | rfl | rfl | rfl | rfl | rfl := comparison <;>
    simp only [cxxBinary, Option.bind_some, cxxValue, Option.some.injEq, convert_common_self sizes int operandX,
      convert_common_self sizes int operandY] at eq <;> subst eq
  · simp only [same]
    exact congrArg some (fromBool_held _)
  · simp only [ne_eq, same]
    exact congrArg some (fromBool_held _)
  all_goals
    have sign : signKept m k = true := by simpa using kept
    simp only [self operandX sign, self operandY sign]
    exact congrArg some (fromBool_held _)

/-! ### Where they go wrong -/

theorem core_sizes (sizes : m.Sizes) : (core m).Sizes := by
  have base := lp64_supported.sizes
  exact ⟨base.ptr, base.short, base.int, sizes.long, base.longLong, base.float, base.double, base.longDouble,
    base.longDoubleAlign, sizes.wChar, base.ms⟩

theorem storeBytes_core (sizes : m.Sizes) {k : Kind} (int : isInt k = true) : storeBytes m k = storeBytes (core m) k := by
  unfold storeBytes
  rw [basicSize_core sizes int]

theorem inI64_core (sizes : m.Sizes) {k : Kind} (int : isInt k = true) : inI64 m k = inI64 (core m) k := by
  unfold inI64
  rw [storeBytes_core sizes int]

theorem held_core (sizes : m.Sizes) {k : Kind} (int : isInt k = true) (v : Int) : held m k v = held (core m) k v := by
  unfold held
  rw [inI64_core sizes int]

theorem narrowTo_core (sizes : m.Sizes) {k : Kind} (int : isInt k = true) (v : BitVec 32) :
    narrowTo m v k = narrowTo (core m) v k := by
  unfold narrowTo
  rw [storeBytes_core sizes int]

theorem resize_core (sizes : m.Sizes) {k : Kind} (int : isInt k = true) (v : Reg) (sign : Bool) :
    resize m v sign k = resize (core m) v sign k := by
  unfold resize
  rw [inI64_core sizes int]
  cases v <;> cases inI64 (core m) k <;> simp only [narrowTo_core sizes int]

theorem convertType_core (sizes : m.Sizes) {b : IntType} (int : isInt b.kind = true) (v : Reg) (a : IntType) :
    convertType m v a b = convertType (core m) v a b := by
  unfold convertType
  rw [resize_core sizes int]

theorem convert_core (sizes : m.Sizes) {k : Kind} (int : isInt k = true) (v : Int) :
    Constexpr.convert m k v = Constexpr.convert (core m) k v := by
  unfold Constexpr.convert
  rw [signed_core, bits_core sizes int]

theorem cxxConvert_core (sizes : m.Sizes) {k : Kind} (int : isInt k = true) (v : Int) :
    cxxConvert m k v = cxxConvert (core m) k v := by
  unfold cxxConvert
  rw [convert_core sizes int]

theorem arith_core (sizes : m.Sizes) {k : Kind} (int : isInt k = true) (v : Int) :
    Constexpr.arith m k v = Constexpr.arith (core m) k v := by
  unfold Constexpr.arith
  rw [signed_core, bits_core sizes int, convert_core sizes int]

theorem cxxBinary_core (sizes : m.Sizes) (op : Token.Kind) {a b : Kind} (intA : isInt a = true) (intB : isInt b = true)
    (x y : Int) : cxxBinary m op a x b y = cxxBinary (core m) op a x b y := by
  have intT := common_int (core_sizes sizes) intA intB
  have intP := promote_int (m := core m) intA
  unfold cxxBinary
  simp only [common_core sizes intA intB, promote_core sizes intA, convert_core sizes intT, convert_core sizes intP,
    arith_core sizes intT, signed_core (m := m), bits_core sizes intT, bits_core sizes intP]

theorem operand_core (sizes : m.Sizes) {k : Kind} {v : Int} (int : isInt k = true) : Operand m k v ↔ Operand (core m) k v := by
  constructor <;> rintro ⟨integral, low, high⟩
  · exact ⟨integral, lowest_core sizes int ▸ low, highest_core sizes int ▸ high⟩
  · exact ⟨integral, lowest_core sizes int ▸ low, highest_core sizes int ▸ high⟩

/-! #### Conversions -/

def intTypes : List IntType := intKinds.map .basic ++ intKinds.map .enum

theorem mem_intTypes {t : IntType} : t ∈ intTypes ↔ isInt t.kind = true := by
  cases t <;> simp [intTypes, mem_intKinds]

/-- A value that is converted wrong where any is. -/
def strayValue (m : Model) (a b : IntType) : Int :=
  if b = .enum .bool then 2
  else if signed m a.kind then -1
  else if bits m b.kind = 64 then 2 ^ 31
  else 2 ^ (bits m b.kind - 1)

def straysAt (m : Model) (a b : IntType) (v : Int) : Bool :=
  lowest m a.kind ≤ v && v ≤ highest m a.kind && convertType m (held m a.kind v) a b ≠ held m b.kind (cxxConvert m b.kind v)

theorem convert_table : ∀ c ∈ [true, false], ∀ w ∈ [Kind.int, .uInt, .uShort], ∀ l ∈ [4, 8],
    ∀ a ∈ intTypes, ∀ b ∈ intTypes,
      let core := { lp64 with charSigned := c, wCharKind := w, sizeLong := l }
      (Operation.convert a b).kept core = false → straysAt core a b (strayValue core a b) = true := by
  -- The cores are checked apart.
  intro c memC w memW l memL
  fin_cases memC <;> fin_cases memW <;> fin_cases memL <;> decide +kernel

/-! #### Operators -/

/-- Operands of an unsigned `wchar_t` of 32 bits, at `left`, and of a type of 64 bits that make an operator
wrong. -/
def strayOperands (op : Token.Kind) (sign left : Bool) : Int × Int :=
  let y : Int :=
    match op with
    | .mul => 1
    | .quo => if left then 1 else 2 ^ 31
    | .rem => if left then 2 ^ 62 else 2 ^ 31 + 2
    | .and => 2 ^ 32
    | .eql | .neq => 2 ^ 31
    | .lss | .leq | .gtr | .geq => if sign then 0 else 2 ^ 32
    | _ => 0
  if left then (2 ^ 31, y) else (y, if op = .rem then 2 ^ 31 + 1 else 2 ^ 31)

/-- At two operands the code leaves something else than the C++ value. -/
def wrongAt (m : Model) (op : Token.Kind) (a b t : IntType) (result : Kind) (v : Int × Int) : Bool :=
  lowest m a.kind ≤ v.1 && v.1 ≤ highest m a.kind && lowest m b.kind ≤ v.2 && v.2 ≤ highest m b.kind &&
    match (cxxBinary m op a.kind v.1 b.kind v.2).bind cxxValue with
    | none => false
    | some z => operands m op a b t v.1 v.2 ≠ some (held m result z)

def binaryWrongAt (m : Model) (op : Token.Kind) (a b : Kind) (v : Int × Int) : Bool :=
  wrongAt m op (.basic a) (.basic b) (.basic (operandType m op a b)) (resultType m op a b) v

def sameEnumWrongAt (m : Model) (op : Token.Kind) (k : Kind) (v : Int × Int) : Bool :=
  wrongAt m op (.enum k) (.enum k) (.enum k) .bool v

theorem wideWChar_table : ∀ c ∈ [true, false], ∀ w ∈ [Kind.int, .uInt, .uShort], ∀ l ∈ [4, 8], ∀ k ∈ intKinds,
    wideWChar { lp64 with charSigned := c, wCharKind := w, sizeLong := l } k = true → k = .wChar ∧ w = .uInt := by
  decide

theorem binary_table : ∀ c ∈ [true, false], ∀ l ∈ [4, 8], ∀ k ∈ intKinds, ∀ op ∈ operators,
    let core := { lp64 with charSigned := c, wCharKind := .uInt, sizeLong := l }
    isShift op = false →
      (bits core (common core .wChar k) = 64 →
        binaryWrongAt core op .wChar k (strayOperands op (signed core (common core .wChar k)) true) = true) ∧
      (bits core (common core k .wChar) = 64 →
        binaryWrongAt core op k .wChar (strayOperands op (signed core (common core k .wChar)) false) = true) := by
  intro c memC l memL
  fin_cases memC <;> fin_cases memL <;> decide +kernel

theorem sameEnum_table : ∀ c ∈ [true, false], ∀ w ∈ [Kind.int, .uInt, .uShort], ∀ l ∈ [4, 8], ∀ k ∈ intKinds,
    ∀ op ∈ [Token.Kind.lss, .leq, .gtr, .geq],
      let core := { lp64 with charSigned := c, wCharKind := w, sizeLong := l }
      signKept core k = false → sameEnumWrongAt core op k (0, 2 ^ (bits core k - 1)) = true := by
  decide +kernel

theorem wrongAt_core (sizes : m.Sizes) (op : Token.Kind) {a b t : IntType} {result : Kind} (intA : isInt a.kind = true)
    (intB : isInt b.kind = true) (intT : isInt t.kind = true) (intR : isInt result = true) (v : Int × Int) :
    wrongAt m op a b t result v = wrongAt (core m) op a b t result v := by
  unfold wrongAt operands
  simp only [lowest_core sizes intA, lowest_core sizes intB, highest_core sizes intA, highest_core sizes intB,
    cxxBinary_core sizes op intA intB, held_core sizes intA, held_core sizes intB, held_core sizes intR,
    convertType_core sizes intT]

theorem not_right_of_wrongAt {op : Token.Kind} {a b t : IntType} {result : Kind} {v : Int × Int}
    (intA : isInt a.kind = true) (intB : isInt b.kind = true) (wrong : wrongAt m op a b t result v = true) :
    ¬ ∀ x y z, Operand m a.kind x → Operand m b.kind y → (cxxBinary m op a.kind x b.kind y).bind cxxValue = some z →
      operands m op a b t x y = some (held m result z) := by
  intro right
  simp only [wrongAt, Bool.and_eq_true, decide_eq_true_eq, and_assoc] at wrong
  obtain ⟨lowA, highA, lowB, highB, wrong⟩ := wrong
  split at wrong
  · cases wrong
  · rename_i z value
    have := right v.1 v.2 z ⟨isInteger_of_isInt intA, lowA, highA⟩ ⟨isInteger_of_isInt intB, lowB, highB⟩ value
    simp [this] at wrong

theorem resultType_int (sizes : m.Sizes) (op : Token.Kind) {a b : Kind} (intA : isInt a = true) (intB : isInt b = true) :
    isInt (operandType m op a b) = true ∧ isInt (resultType m op a b) = true := by
  have intT : isInt (operandType m op a b) = true := by
    unfold operandType
    split
    · exact promote_int intA
    · exact common_int sizes intA intB
  refine ⟨intT, ?_⟩
  unfold resultType
  split
  · rfl
  · exact intT

theorem operandType_core (sizes : m.Sizes) (op : Token.Kind) {a b : Kind} (intA : isInt a = true) (intB : isInt b = true) :
    operandType m op a b = operandType (core m) op a b := by
  unfold operandType
  rw [promote_core sizes intA, common_core sizes intA intB]

theorem binaryWrongAt_core (sizes : m.Sizes) (op : Token.Kind) {a b : Kind} (intA : isInt a = true) (intB : isInt b = true)
    (v : Int × Int) : binaryWrongAt m op a b v = binaryWrongAt (core m) op a b v := by
  have ints := resultType_int sizes op intA intB
  have type := operandType_core sizes op intA intB
  have result : resultType m op a b = resultType (core m) op a b := by
    unfold resultType
    rw [type]
  unfold binaryWrongAt
  rw [wrongAt_core sizes op (a := .basic a) (b := .basic b) (t := .basic (operandType m op a b)) intA intB
    ints.1 ints.2, type, result]

theorem Operation.Right.of_kind (sizes : m.Sizes) {op : Token.Kind} {a b : IntType} (intA : isInt a.kind = true)
    (intB : isInt b.kind = true) (right : (Operation.binary op a b).Right m) :
    (Operation.binary op (.basic a.kind) (.basic b.kind)).Right m := by
  have wide : operandType m op a.kind b.kind ≠ .bool := by
    unfold operandType
    split
    · exact Constexpr.ne_bool_of_wide (Constexpr.promote_promotes sizes (isInteger_of_isInt intA)).wide
    · exact Constexpr.ne_bool_of_wide (Constexpr.common_common sizes (isInteger_of_isInt intA) (isInteger_of_isInt intB)).wide
  have same (v : Reg) (t : IntType) : convertType m v (.basic t.kind) (.basic (operandType m op a.kind b.kind)) =
      convertType m v t (.basic (operandType m op a.kind b.kind)) := by
    have untested : (IntType.basic (operandType m op a.kind b.kind)).isBool = false := by simp [IntType.isBool, wide]
    simp only [convertType, untested, Bool.false_eq_true, false_and, if_false, IntType.kind_basic]
  intro x y z operandA operandB eq
  have := right x y z operandA operandB eq
  simp only [operands, IntType.kind_basic, same] at this ⊢
  exact this

/-! ### All of them -/

theorem signKept_core (k : Kind) : signKept m k = signKept (core m) k := by
  unfold signKept
  rw [signed_core]

theorem convert_kept (sizes : m.Sizes) {a b : IntType} (intA : isInt a.kind = true) (intB : isInt b.kind = true)
    (right : (Operation.convert a b).Right m) : (Operation.convert a b).kept m = true := by
  obtain ⟨c, memC, w, memW, l, memL, eq⟩ := core_eq sizes
  have same : (Operation.convert a b).kept m = (Operation.convert a b).kept (core m) := by
    unfold Operation.kept inLowerHalf wideWChar
    simp only [signKept_core (m := m), signed_core (m := m), bits_core sizes intA, bits_core sizes intB,
      highest_core sizes intA]
  by_contra lost
  rw [same, eq] at lost
  have strays := convert_table c memC w memW l memL a (mem_intTypes.2 intA) b (mem_intTypes.2 intB) (Bool.eq_false_iff.2 lost)
  rw [← eq] at strays
  simp only [straysAt, Bool.and_eq_true, decide_eq_true_eq] at strays
  obtain ⟨⟨low, high⟩, wrong⟩ := strays
  apply wrong
  rw [← convertType_core sizes intB, ← held_core sizes intA, ← held_core sizes intB, ← cxxConvert_core sizes intB]
  exact right _ ((operand_core sizes intA).2 ⟨isInteger_of_isInt intA, low, high⟩)

theorem binary_kept (sizes : m.Sizes) {op : Token.Kind} {a b : IntType} (mem : op ∈ operators)
    (intA : isInt a.kind = true) (intB : isInt b.kind = true) (right : (Operation.binary op a b).Right m) :
    (Operation.binary op a b).kept m = true := by
  obtain ⟨c, memC, w, memW, l, memL, eq⟩ := core_eq sizes
  by_contra lost
  simp only [Operation.kept, Bool.or_eq_true, Bool.not_eq_true', Bool.or_eq_false_iff, decide_eq_true_eq, not_or, not_not,
    Bool.not_eq_true, not_and, Bool.not_eq_false] at lost
  obtain ⟨⟨notShift, full⟩, wide⟩ := lost
  have isWChar {k : Kind} (int : isInt k = true) (wide : wideWChar m k = true) : k = .wChar ∧ w = .uInt := by
    rw [wideWChar_core sizes int, eq] at wide
    exact wideWChar_table c memC w memW l memL k (mem_intKinds.2 int) wide
  rw [common_core sizes intA intB, bits_core sizes (common_int (core_sizes sizes) intA intB)] at full
  have noneWrong (v : Int × Int) : binaryWrongAt (core m) op a.kind b.kind v ≠ true := by
    rw [← binaryWrongAt_core sizes op intA intB]
    exact fun wrong => not_right_of_wrongAt (a := .basic a.kind) (b := .basic b.kind) intA intB wrong
      (right.of_kind sizes intA intB)
  rw [eq] at full noneWrong
  by_cases left : wideWChar m a.kind = true
  · obtain ⟨kind, rfl⟩ := isWChar intA left
    rw [kind] at full noneWrong
    exact noneWrong _ ((binary_table c memC l memL _ (mem_intKinds.2 intB) op mem notShift).1 full)
  · obtain ⟨kind, rfl⟩ := isWChar intB (wide (Bool.eq_false_iff.2 left))
    rw [kind] at full noneWrong
    exact noneWrong _ ((binary_table c memC l memL _ (mem_intKinds.2 intA) op mem notShift).2 full)

theorem sameEnum_kept (sizes : m.Sizes) {op : Token.Kind} {k : Kind} (comparison : isComparison op = true)
    (int : isInt k = true) (right : (Operation.sameEnum op k).Right m) : (Operation.sameEnum op k).kept m = true := by
  obtain ⟨c, memC, w, memW, l, memL, eq⟩ := core_eq sizes
  by_contra lost
  simp only [Operation.kept, Bool.or_eq_true, decide_eq_true_eq, not_or, Bool.not_eq_true, signKept_core (m := m)] at lost
  obtain ⟨⟨notEql, notNeq⟩, sign⟩ := lost
  have mem : op ∈ [Token.Kind.lss, .leq, .gtr, .geq] := by
    simp only [isComparison, List.mem_cons, List.not_mem_nil, or_false, decide_eq_true_eq] at comparison ⊢
    tauto
  rw [eq] at sign
  have wrong := sameEnum_table c memC w memW l memL k (mem_intKinds.2 int) op mem sign
  rw [← eq, sameEnumWrongAt, ← wrongAt_core sizes op (a := .enum k) (b := .enum k) (t := .enum k) int int int rfl] at wrong
  exact not_right_of_wrongAt (a := .enum k) (b := .enum k) int int wrong right

/-- **A conversion or an operator leaves the register form of C++'s value, of all values, just where
`kept` says so.** -/
theorem operation_right_iff (supported : m.Supported) {o : Operation} (wf : o.wellFormed = true) :
    o.Right m ↔ o.kept m = true := by
  have sizes := supported.sizes
  cases o with
  | convert a b =>
    simp only [Operation.wellFormed, Bool.and_eq_true] at wf
    exact ⟨convert_kept sizes wf.1 wf.2, fun kept v operand => convert_right sizes wf.1 wf.2 kept operand⟩
  | unary op t => exact iff_of_true (unary_right sizes op t wf) rfl
  | not t => exact iff_of_true (not_right sizes t wf) rfl
  | binary op a b =>
    simp only [Operation.wellFormed, Bool.and_eq_true, decide_eq_true_eq] at wf
    exact ⟨binary_kept sizes wf.1.1 wf.1.2 wf.2, binary_right sizes wf.1.1 wf.1.2 wf.2⟩
  | sameEnum op k =>
    simp only [Operation.wellFormed, Bool.and_eq_true] at wf
    exact ⟨sameEnum_kept sizes wf.1 wf.2, sameEnum_right sizes wf.1 wf.2⟩

/-- An `int` arrives right at a `char` that is signed. -/
theorem int_to_char_right : (Operation.convert (.basic .int) (.basic .char)).Right lp64 :=
  (operation_right_iff lp64_supported rfl).2 (by decide)

/-- 40000 converted to the unsigned `wchar_t` of Windows is left in its register as -25536. -/
theorem int_to_wchar_wrong :
    ¬ ∀ (m : Model) (o : Operation), m.Supported → o.wellFormed = true → o.Right m := by
  intro right
  have at40000 := right llp64 (.convert (.basic .int) (.basic .wChar)) llp64_supported rfl 40000
    ⟨rfl, by decide, by decide⟩
  revert at40000
  decide

end Vcx.IntConvert
