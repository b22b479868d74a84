import Mathlib.Tactic.FinCases
import Vcx.Lower.Compound

/-!
# When compound assignment is C++'s

The operator is done on two registers of the left operand's type, and the low bits of what it leaves are
stored. Where these are those of C++'s result is a matter of the operator: sums, products and bitwise
operators depend on the low bits of their operands only, quotients and shifts to the right on all.
-/

namespace Vcx.Compound
set_option autoImplicit false
open Vcx.Lib Vcx.Types Vcx.IntExpr
open Vcx.IntConvert (core_sizes narrowTo_core held_core cxxConvert_core cxxBinary_core inI64_core storeBytes_core)
open Vcx.Constexpr (signed bits lowest highest promote common fits Operand cxxBinary wideKinds)

variable {m : Model} {a b : Kind} {x y z : Int}

/-! ### Registers and memory -/

/-- What an integer type takes in memory, and where it is held. -/
theorem storeBytes_cases (sizes : m.Sizes) {k : Kind} (int : isInt k = true) :
    (storeBytes m k = 1 ∨ storeBytes m k = 2 ∨ storeBytes m k = 4) ∧ inI64 m k = false ∨
      storeBytes m k = 8 ∧ inI64 m k = true := by
  have bytes := storeBytes_bits sizes int
  have width := bits_cases sizes int
  have large := inI64_iff sizes int
  cases reg : inI64 m k with
  | false =>
    have : bits m k ≠ 64 := fun full => by simp [large.2 full] at reg
    exact .inl ⟨by omega, rfl⟩
  | true =>
    have := large.1 reg
    exact .inr ⟨by omega, rfl⟩

/-- What a load makes of a value. -/
def loaded (m : Model) (k : Kind) (v : Int) : Int := wrap (isSigned k) (bits m k) v

theorem load_wrap (sizes : m.Sizes) {k : Kind} (int : isInt k = true) (v : Int) :
    load m k v = held m k (loaded m k v) := by
  have bytes := storeBytes_bits sizes int
  unfold loaded
  obtain ⟨n, small⟩ | ⟨n, large⟩ := storeBytes_cases sizes int
  · have word (w : Nat) : BitVec.ofInt w v = BitVec.ofInt w (wrap (isSigned k) w v) := (ofInt_wrap ..).symm
    have range (w : Nat) (some : 0 < w) := wrap_inRange (isSigned k) some v
    simp only [load, held, small, Bool.false_eq_true, if_false]
    obtain n | n | n := n <;> rw [n] at bytes ⊢ <;> rw [← bytes]
    · have inRange := range 8 (by decide)
      simp only [word 8]
      cases sign : isSigned k <;> rw [sign] at inRange
      · simp only [Bool.false_eq_true, if_false, zeroExtend_ofInt inRange]
      · simp only [if_true, signExtend_ofInt (by decide) inRange]
    · have inRange := range 16 (by decide)
      simp only [word 16]
      cases sign : isSigned k <;> rw [sign] at inRange
      · simp only [Bool.false_eq_true, if_false, zeroExtend_ofInt inRange]
      · simp only [if_true, signExtend_ofInt (by decide) inRange]
    · simp only [ofInt_wrap]
  · rw [n] at bytes
    simp only [load, held, large, if_true, ← bytes, ofInt_wrap]

theorem loadAt_holds (sizes : m.Sizes) {k : Kind} {mem : Memory} {p : Nat} {v : Int} (int : isInt k = true)
    (holds : Holds m k mem p v) : loadAt m k mem p = load m k v := by
  have value := holds.bytes
  unfold loadAt load
  obtain ⟨n, small⟩ | ⟨n, large⟩ := storeBytes_cases sizes int
  · simp only [small, Bool.false_eq_true, if_false]
    obtain n | n | n := n <;> rw [n] at value ⊢ <;> simp only [value]
  · rw [n] at value
    simp only [large, if_true, value]

/-- The bytes of an integer in a register. -/
def lowBits (m : Model) (k : Kind) : Reg → BitVec (8 * storeBytes m k)
  | .i32 v => v.setWidth _
  | .i64 v => v.setWidth _

/-- The register is one for the type. -/
def Fits (m : Model) (k : Kind) : Reg → Prop
  | .i32 _ => inI64 m k = false
  | .i64 _ => inI64 m k = true

theorem storeAt_fits (sizes : m.Sizes) {k : Kind} (int : isInt k = true) {v : Reg} (form : Fits m k v) (mem : Memory)
    (p : Nat) : storeAt m k mem p v = mem.store (storeBytes m k) p (lowBits m k v) := by
  obtain ⟨n, small⟩ | ⟨n, large⟩ := storeBytes_cases sizes int
  · cases v with
    | i64 v => cases small.symm.trans form
    | i32 v =>
      simp only [storeAt, lowBits]
      obtain n | n | n := n <;> rw [n]
      · rfl
      · rfl
      · simp only [BitVec.setWidth_eq]
  · cases v with
    | i32 v => cases large.symm.trans form
    | i64 v =>
      simp only [storeAt, lowBits]
      rw [n, BitVec.setWidth_eq]

theorem fits_held (k : Kind) (v : Int) : Fits m k (held m k v) := by
  unfold held
  split
  · assumption
  · exact Bool.eq_false_iff.2 (by assumption)

theorem lowBits_held (sizes : m.Sizes) {k : Kind} (int : isInt k = true) (v : Int) :
    lowBits m k (held m k v) = .ofInt _ v := by
  obtain ⟨n, small⟩ | ⟨n, large⟩ := storeBytes_cases sizes int
  · simp only [held, small, Bool.false_eq_true, if_false, lowBits]
    exact truncate_ofInt (by omega) v
  · simp only [held, large, if_true, lowBits]
    exact truncate_ofInt (by omega) v

/-! ### Conversions -/

theorem resize_inRange (sizes : m.Sizes) {a b : Kind} {v : Int} (intA : isInt a = true) (intB : isInt b = true)
    (range : InRange (isSigned a) (bits m a) v) :
    IntConvert.resize m (held m a v) (isSigned a) b = held m b (wrap (isSigned b) (bits m b) v) := by
  have word := range.widen (bits_le_regBits sizes intA)
  have wideB := inI64_iff sizes intB
  cases largeA : inI64 m a <;> cases largeB : inI64 m b <;>
    simp only [IntConvert.resize, held, regBits, largeA, largeB, Bool.false_eq_true, if_false, if_true] at word ⊢
  · rw [narrowTo_ofInt sizes intB largeB]
  · rw [wideB.1 largeB, ofInt_wrap]
    cases sign : isSigned a <;> rw [sign] at word
    · rw [if_neg Bool.false_ne_true, zeroExtend_ofInt word]
    · rw [if_pos rfl, signExtend_ofInt (by decide) word]
  · rw [truncate_ofInt (by decide), narrowTo_ofInt sizes intB largeB]
  · rw [wideB.1 largeB, ofInt_wrap]

theorem convert_resize (v : Reg) {a b : Kind} (kept : b ≠ .bool ∨ a = .bool) :
    convert m v a b = IntConvert.resize m v (isSigned a) b := by
  unfold convert
  rw [if_neg (by tauto)]
  rfl

/-- What the right operand is in a register of the left one's type. -/
def arrives (m : Model) (a b : Kind) (y : Int) : Int := converted m a (loaded m b y)

theorem truthOf_inRange (sizes : m.Sizes) {k : Kind} {v : Int} (int : isInt k = true)
    (range : InRange (isSigned k) (bits m k) v) : truthOf (held m k v) = decide (v ≠ 0) := by
  have word := range.widen (bits_le_regBits sizes int)
  cases large : inI64 m k <;>
    simp only [regBits, held, large, Bool.false_eq_true, if_false, if_true] at word ⊢ <;>
    exact decide_eq_decide.2 (not_congr (ofInt_eq_zero_iff (by decide) word))

theorem loaded_inRange (sizes : m.Sizes) {k : Kind} (int : isInt k = true) (v : Int) :
    InRange (isSigned k) (bits m k) (loaded m k v) := by
  have width := bits_cases sizes int
  exact wrap_inRange _ (by omega) v

theorem convert_load (sizes : m.Sizes) (intA : isInt a = true) (intB : isInt b = true) (op : Operand m b y) :
    convert m (load m b y) b a = held m a (arrives m a b y) := by
  have range := loaded_inRange sizes intB y
  rw [load_wrap sizes intB]
  unfold arrives converted
  by_cases bool : a = .bool
  · subst bool
    rw [if_pos rfl]
    by_cases same : b = .bool
    · subst same
      rw [convert_resize _ (.inr rfl), resize_inRange sizes intB intA range, loaded, IntConvert.wrap_bool op]
      by_cases zero : y = 0 <;> simp [zero, ofBool, wrap, isSigned, bits, Model.basicSize, Model.plainSize]
    · unfold convert
      rw [if_pos ⟨rfl, same⟩, truthOf_inRange sizes intB range, fromBool_held]
  · rw [if_neg bool, convert_resize _ (.inl bool), resize_inRange sizes intB intA range]

theorem convert_self (sizes : m.Sizes) (int : isInt a = true) (t : Int) :
    convert m (held m a t) a a = held m a (wrap (isSigned a) (bits m a) t) := by
  have wide := inI64_iff sizes int
  rw [convert_resize _ (by tauto)]
  cases large : inI64 m a <;> simp only [IntConvert.resize, held, large, Bool.false_eq_true, if_false, if_true]
  · rw [narrowTo_ofInt sizes int large]
  · rw [wide.1 large, ofInt_wrap]

/-! ### What is stored -/

/-- The register that is stored, from those of the operands. -/
def stored (m : Model) (op : Token.Kind) (a b : Kind) (l r : Reg) : Option Reg :=
  (compoundOp op).bind fun op => (arith op l (convert m r b a) a).map (convert m · a a)

/-- The operands' code is run once each. -/
theorem assign_eq {op : Token.Kind} {lhs rhs : Lvalue} {mem mem₁ mem₂ : Memory} {slot src : Nat}
    (left : lhs mem = some (slot, mem₁)) (right : rhs mem₁ = some (src, mem₂)) :
    assign m op a b lhs rhs mem =
      (stored m op a b (loadAt m a mem₂ slot) (loadAt m b mem₂ src)).map fun v => (v, storeAt m a mem₂ slot v) := by
  simp only [assign, stored, left, right, Option.bind_eq_bind, Option.bind_some]
  cases compoundOp op with
  | none => rfl
  | some op =>
    simp only [Option.bind_some]
    cases arith op (loadAt m a mem₂ slot) (convert m (loadAt m b mem₂ src) b a) a <;> rfl

/-- The operator on the registers leaves something with C++'s low bits. -/
def Computes (m : Model) (op : Token.Kind) (a b : Kind) (x y z : Int) : Prop :=
  ∃ t, arithOp op (.ofInt (regBits m a) (loaded m a x)) (.ofInt (regBits m a) (arrives m a b y)) (isSigned a) =
    some (.ofInt (regBits m a) t) ∧ t % 2 ^ bits m a = z % 2 ^ bits m a

theorem right_of_computes (sizes : m.Sizes) {op op' : Token.Kind} (intA : isInt a = true) (intB : isInt b = true)
    (operator : compoundOp op = some op')
    (computes : ∀ x y z, Operand m a x → Operand m b y → cxxAssign m op a b x y = some z → Computes m op' a b x y z) :
    Right m op a b := by
  intro lhs rhs mem mem₁ mem₂ slot src x y z left right holdsX holdsY value
  obtain ⟨t, code, same⟩ := computes x y z holdsX.operand holdsY.operand value
  have bytes := storeBytes_bits sizes intA
  have word : BitVec.ofInt (8 * storeBytes m a) (wrap (isSigned a) (bits m a) t) = BitVec.ofInt _ z := by
    rw [bytes, ofInt_wrap, ofInt_eq_iff, same]
  have register : stored m op a b (load m a x) (load m b y) = some (held m a (wrap (isSigned a) (bits m a) t)) := by
    rw [stored, operator, Option.bind_some, convert_load sizes intA intB holdsY.operand, load_wrap sizes intA,
      arith_held code, Option.map_some, convert_self sizes intA]
  refine ⟨held m a (wrap (isSigned a) (bits m a) t), ?_⟩
  rw [assign_eq left right, loadAt_holds sizes intA holdsX, loadAt_holds sizes intB holdsY, register, Option.map_some,
    storeAt_fits sizes intA (fits_held a _), lowBits_held sizes intA, word]

/-! ### Operands -/

theorem bits_pos (sizes : m.Sizes) {k : Kind} (int : isInt k = true) : 0 < bits m k := by
  have width := bits_cases sizes int
  omega

theorem loaded_emod (k : Kind) (v : Int) : loaded m k v % 2 ^ bits m k = v % 2 ^ bits m k :=
  wrap_emod ..

theorem loaded_kept (sizes : m.Sizes) {k : Kind} {v : Int} (int : isInt k = true) (op : Operand m k v)
    (kept : signKept m k = true) : loaded m k v = v := by
  simp only [signKept, decide_eq_true_eq] at kept
  rw [loaded, kept]
  exact wrap_of_inRange (bits_pos sizes int) (op.inRange sizes)

theorem arrives_wrap (notBool : a ≠ .bool) (y : Int) :
    arrives m a b y = wrap (isSigned a) (bits m a) (loaded m b y) :=
  if_neg notBool

/-- The right operand arrives as it is, up to the width. -/
theorem arrives_emod (sizes : m.Sizes) (intB : isInt b = true) (op : Operand m b y) (notBool : a ≠ .bool)
    (kept : operandKept m a b = true) : arrives m a b y % 2 ^ bits m a = y % 2 ^ bits m a := by
  rw [arrives_wrap notBool, wrap_emod]
  simp only [operandKept, Bool.or_eq_true, decide_eq_true_eq] at kept
  obtain sign | le := kept
  · rw [loaded_kept sizes intB op sign]
  · have multiple : (2 : Int) ^ bits m a ∣ 2 ^ bits m b := pow_dvd_pow 2 le
    rw [← Int.emod_emod_of_dvd (loaded m b y) multiple, loaded_emod, Int.emod_emod_of_dvd y multiple]

theorem arrives_word (sizes : m.Sizes) (intA : isInt a = true) (notBool : a ≠ .bool) (y : Int) :
    InRange (isSigned a) (regBits m a) (arrives m a b y) := by
  rw [arrives_wrap notBool]
  exact (wrap_inRange _ (bits_pos sizes intA) _).widen (bits_le_regBits sizes intA)

theorem loaded_word (sizes : m.Sizes) (int : isInt a = true) (x : Int) : InRange (isSigned a) (regBits m a) (loaded m a x) :=
  (loaded_inRange sizes int x).widen (bits_le_regBits sizes int)

/-! ### Sums, products and bitwise operators -/

/-- The operators that the low bits of the operands give the low bits of. -/
def ringOps : List Token.Kind := [.add, .sub, .mul, .and, .or, .xor]

def ringOp (op : Token.Kind) (x y : Int) : Int :=
  match op with
  | .add => x + y
  | .sub => x - y
  | .mul => x * y
  | .and => x.land y
  | .or => x.lor y
  | _ => x.xor y

attribute [local simp] ringOp

theorem ringOp_congr {op : Token.Kind} (mem : op ∈ ringOps) {w : Nat} {x' y' : Int} (left : x % 2 ^ w = x' % 2 ^ w)
    (right : y % 2 ^ w = y' % 2 ^ w) : ringOp op x y % 2 ^ w = ringOp op x' y' % 2 ^ w := by
  simp only [ringOps, List.mem_cons, List.not_mem_nil, or_false] at mem
  obtain rfl | rfl | rfl | rfl | rfl | rfl := mem
  · exact Int.ModEq.add left right
  · exact Int.ModEq.sub left right
  · exact Int.ModEq.mul left right
  · exact land_emod_congr left right
  · exact lor_emod_congr left right
  · exact xor_emod_congr left right

theorem arithOp_ringOp {op : Token.Kind} (mem : op ∈ ringOps) (w : Nat) (x y : Int) (sign : Bool) :
    arithOp op (.ofInt w x) (.ofInt w y) sign = some (BitVec.ofInt w (ringOp op x y)) := by
  simp only [ringOps, List.mem_cons, List.not_mem_nil, or_false] at mem
  obtain rfl | rfl | rfl | rfl | rfl | rfl := mem
  · rw [ringOp, BitVec.ofInt_add]
    rfl
  · rw [ringOp, ofInt_sub]
    rfl
  · rw [ringOp, BitVec.ofInt_mul]
    rfl
  · rw [ringOp, ofInt_land]
    rfl
  · rw [ringOp, ofInt_lor]
    rfl
  · change _ = some (BitVec.ofInt w (x.xor y))
    rw [ofInt_xor]
    rfl

theorem convert_emod (k : Kind) (v : Int) : Constexpr.convert m k v % 2 ^ bits m k = v % 2 ^ bits m k :=
  wrap_emod ..

/-- C++'s result has the low bits of the operator on the operands themselves. -/
theorem cxxBinary_ringOp {op : Token.Kind} (mem : op ∈ ringOps) {v : Int}
    (eq : (cxxBinary m op a x b y).bind cxxValue = some v) :
    v % 2 ^ bits m (common m a b) = ringOp op x y % 2 ^ bits m (common m a b) := by
  obtain ⟨r, result, value⟩ := Option.bind_eq_some_iff.1 eq
  have same := ringOp_congr mem (convert_emod (m := m) (common m a b) x) (convert_emod (common m a b) y)
  rw [← same]
  simp only [ringOps, List.mem_cons, List.not_mem_nil, or_false] at mem
  obtain rfl | rfl | rfl | rfl | rfl | rfl := mem <;> simp only [cxxBinary] at result
  iterate 3
    · obtain ⟨rfl, -⟩ := arith_some result
      cases value
      exact convert_emod _ _
  iterate 3
    · cases result
      cases value
      exact convert_emod _ _

theorem emod_of_le {v w : Nat} (le : v ≤ w) (same : x % 2 ^ w = y % 2 ^ w) : x % 2 ^ v = y % 2 ^ v := by
  have multiple : (2 : Int) ^ v ∣ 2 ^ w := pow_dvd_pow 2 le
  rw [← Int.emod_emod_of_dvd x multiple, same, Int.emod_emod_of_dvd y multiple]

/-- The bits that are stored are the value's. -/
theorem cxxConvert_emod (notBool : a ≠ .bool) (v : Int) : cxxConvert m a v % 2 ^ bits m a = v % 2 ^ bits m a := by
  rw [cxxConvert, if_neg notBool]
  exact convert_emod a v

theorem ring_computes (sizes : m.Sizes) {op : Token.Kind} (mem : op ∈ ringOps) {v : Int} (intA : isInt a = true)
    (intB : isInt b = true) (opB : Operand m b y) (notBool : a ≠ .bool) (kept : operandKept m a b = true)
    (eq : (cxxBinary m op a x b y).bind cxxValue = some v) : Computes m op a b x y (cxxConvert m a v) := by
  have c := Constexpr.common_common sizes (isInteger_of_isInt intA) (isInteger_of_isInt intB)
  refine ⟨_, arithOp_ringOp mem _ _ _ _, ?_⟩
  rw [cxxConvert_emod notBool, emod_of_le c.left (cxxBinary_ringOp mem eq)]
  exact ringOp_congr mem (loaded_emod a x) (arrives_emod sizes intB opB notBool kept)

/-! ### Shifts -/

theorem promote_bits_table : ∀ c ∈ [true, false], ∀ w ∈ [Kind.int, .uInt, .uShort], ∀ l ∈ [4, 8], ∀ k ∈ intKinds,
    let core := { lp64 with charSigned := c, wCharKind := w, sizeLong := l }
    bits core (promote core k) = regBits core k := by
  decide +kernel

theorem regBits_core (sizes : m.Sizes) {k : Kind} (int : isInt k = true) : regBits m k = regBits (core m) k := by
  unfold regBits
  rw [inI64_core sizes int]

/-- The promoted type fills the register. -/
theorem promote_bits (sizes : m.Sizes) {k : Kind} (int : isInt k = true) : bits m (promote m k) = regBits m k := by
  obtain ⟨c, memC, w, memW, l, memL, eq⟩ := core_eq sizes
  rw [promote_core sizes int, bits_core sizes (promote_int int), regBits_core sizes int, eq]
  exact promote_bits_table c memC w memW l memL k (mem_intKinds.2 int)

/-- A shift is defined where the count is less than the register's bits. -/
theorem cxxBinary_shift (sizes : m.Sizes) {op : Token.Kind} (shift : isShift op = true) {v : Int} (intA : isInt a = true)
    (eq : (cxxBinary m op a x b y).bind cxxValue = some v) :
    0 ≤ y ∧ y < regBits m a ∧
      v = if op = .shl then Constexpr.convert m (promote m a) (x * 2 ^ y.toNat) else x / 2 ^ y.toNat := by
  simp only [isShift, List.mem_cons, List.not_mem_nil, or_false, decide_eq_true_eq] at shift
  obtain rfl | rfl := shift <;> simp only [cxxBinary] at eq <;> split_ifs at eq with undefined <;>
    first
      | cases eq; done
      | (push Not at undefined
         rw [promote_bits sizes intA] at undefined
         cases eq
         exact ⟨undefined.1, undefined.2, rfl⟩)

theorem arrives_count (sizes : m.Sizes) (intA : isInt a = true) (intB : isInt b = true) (notBool : a ≠ .bool)
    (low : 0 ≤ y) (high : y < regBits m a) : arrives m a b y = y := by
  have bound : y < 64 := by
    have : regBits m a ≤ 64 := by
      unfold regBits
      split <;> decide
    omega
  have keeps {k : Kind} (int : isInt k = true) : wrap (isSigned k) (bits m k) y = y := by
    have width := bits_cases sizes int
    have power : (2 : Int) ^ 7 ≤ 2 ^ (bits m k - 1) := two_pow_le (by omega)
    exact IntConvert.wrap_of_lowerHalf _ (by omega) low (by omega)
  rw [arrives_wrap notBool, loaded, keeps intB, keeps intA]

theorem shl_computes (sizes : m.Sizes) {v : Int} (intA : isInt a = true) (intB : isInt b = true)
    (notBool : a ≠ .bool) (eq : (cxxBinary m .shl a x b y).bind cxxValue = some v) :
    Computes m .shl a b x y (cxxConvert m a v) := by
  obtain ⟨low, high, rfl⟩ := cxxBinary_shift sizes rfl intA eq
  have promotes := Constexpr.promote_promotes sizes (isInteger_of_isInt intA)
  have code := (arithOp_shift (regBits_pos a) (loaded_word sizes intA x) low high).1
  refine ⟨_, by rw [arrives_count sizes intA intB notBool low high]; exact code, ?_⟩
  rw [cxxConvert_emod notBool, if_pos rfl, emod_of_le promotes.width (convert_emod _ _)]
  exact Int.ModEq.mul_right _ (loaded_emod a x)

theorem shr_computes (sizes : m.Sizes) {v : Int} (intA : isInt a = true) (intB : isInt b = true) (opA : Operand m a x)
    (notBool : a ≠ .bool) (kept : signKept m a = true)
    (eq : (cxxBinary m .shr a x b y).bind cxxValue = some v) : Computes m .shr a b x y (cxxConvert m a v) := by
  obtain ⟨low, high, rfl⟩ := cxxBinary_shift sizes rfl intA eq
  have code := (arithOp_shift (regBits_pos a) (loaded_word sizes intA x) low high).2
  refine ⟨_, by rw [arrives_count sizes intA intB notBool low high]; exact code, ?_⟩
  rw [cxxConvert_emod notBool, if_neg (by decide), loaded_kept sizes intA opA kept]

/-! ### Quotients -/

def isQuotient (op : Token.Kind) : Bool := op = .quo || op = .rem

def quotientOf (op : Token.Kind) (x y : Int) : Int := if op = .quo then x.tdiv y else x.tmod y

/-- C++'s quotient and remainder, of the operands in the common type. -/
theorem cxxBinary_quotient {op : Token.Kind} (quotient : isQuotient op = true) {v : Int}
    (eq : (cxxBinary m op a x b y).bind cxxValue = some v) :
    let t := common m a b
    let x' := Constexpr.convert m t x
    let y' := Constexpr.convert m t y
    y' ≠ 0 ∧ (signed m t = true → InRange true (bits m t) (x'.tdiv y')) ∧
      v % 2 ^ bits m t = quotientOf op x' y' % 2 ^ bits m t := by
  simp only [isQuotient, Bool.or_eq_true, decide_eq_true_eq] at quotient
  obtain rfl | rfl := quotient <;> simp only [cxxBinary] at eq
  · split_ifs at eq with zero
    · cases eq
    · obtain ⟨r, result, value⟩ := Option.bind_eq_some_iff.1 eq
      obtain ⟨rfl, inRange⟩ := arith_some result
      cases value
      exact ⟨zero, inRange, convert_emod _ _⟩
  · split_ifs at eq with undefined
    · cases eq
    · cases eq
      push Not at undefined
      exact ⟨undefined.1, undefined.2, rfl⟩

/-- The registers' quotient. -/
theorem arithOp_quotient {op : Token.Kind} (quotient : isQuotient op = true) {w : Nat} {s : Bool} (some : 0 < w)
    (hx : InRange s w x) (hy : InRange s w y) (nonzero : y ≠ 0) (inRange : s = true → InRange true w (x.tdiv y)) :
    arithOp op (BitVec.ofInt w x) (BitVec.ofInt w y) s = Option.some (BitVec.ofInt w (quotientOf op x y)) := by
  have both := arithOp_division some hx hy nonzero inRange
  simp only [isQuotient, Bool.or_eq_true, decide_eq_true_eq] at quotient
  obtain rfl | rfl := quotient
  · exact both.1
  · exact both.2

/-- Registers with the operands in the common type have its quotient. -/
theorem quotient_computes (sizes : m.Sizes) {op : Token.Kind} (quotient : isQuotient op = true) {v : Int}
    (intA : isInt a = true) (intB : isInt b = true) (notBool : a ≠ .bool)
    (left : loaded m a x = Constexpr.convert m (common m a b) x)
    (right : arrives m a b y = Constexpr.convert m (common m a b) y)
    (word : isSigned a = true → signed m (common m a b) = true ∧ bits m (common m a b) ≤ regBits m a)
    (eq : (cxxBinary m op a x b y).bind cxxValue = some v) : Computes m op a b x y (cxxConvert m a v) := by
  have c := Constexpr.common_common sizes (isInteger_of_isInt intA) (isInteger_of_isInt intB)
  obtain ⟨nonzero, inRange, value⟩ := cxxBinary_quotient quotient eq
  rw [← left, ← right] at inRange value
  rw [← right] at nonzero
  refine ⟨_, arithOp_quotient quotient (regBits_pos a) (loaded_word sizes intA x) (arrives_word sizes intA notBool y)
    nonzero fun sign => (inRange (word sign).1).widen (word sign).2, ?_⟩
  rw [cxxConvert_emod notBool, emod_of_le c.left value]

theorem quotient_same (sizes : m.Sizes) {op : Token.Kind} (quotient : isQuotient op = true) {v : Int}
    (intA : isInt a = true) (intB : isInt b = true) (opB : Operand m b y) (notBool : a ≠ .bool)
    (kept : signKept m a = true) (arrive : operandKept m a b = true) (width : bits m (common m a b) = bits m a)
    (sign : signed m (common m a b) = signed m a)
    (eq : (cxxBinary m op a x b y).bind cxxValue = some v) : Computes m op a b x y (cxxConvert m a v) := by
  simp only [signKept, decide_eq_true_eq] at kept
  refine quotient_computes sizes quotient intA intB notBool ?_ ?_ ?_ eq
  · rw [loaded, Constexpr.convert, kept, width, sign]
  · have same := arrives_emod sizes intB opB notBool arrive
    rw [arrives_wrap notBool, wrap_emod] at same
    rw [arrives_wrap notBool, Constexpr.convert, kept, width, sign, wrap_congr same]
  · intro signedA
    exact ⟨by rw [sign, ← kept, signedA], width.le.trans (bits_le_regBits sizes intA)⟩

theorem fits_common_table : ∀ c ∈ [true, false], ∀ w ∈ [Kind.int, .uInt, .uShort], ∀ l ∈ [4, 8],
    ∀ a ∈ intKinds, ∀ b ∈ intKinds,
      let core := { lp64 with charSigned := c, wCharKind := w, sizeLong := l }
      fits core b a = true → fits core a (common core a b) = true ∧ bits core (common core a b) = regBits core a ∧
        (signed core a = true → signed core (common core a b) = true) := by
  -- The cores are checked apart.
  intro c memC w memW l memL
  fin_cases memC <;> fin_cases memW <;> fin_cases memL <;> decide +kernel

/-- The common type where the left operand's has all values of the right one's. -/
theorem fits_common (sizes : m.Sizes) (intA : isInt a = true) (intB : isInt b = true) (kept : fits m b a = true) :
    fits m a (common m a b) = true ∧ bits m (common m a b) = regBits m a ∧
      (signed m a = true → signed m (common m a b) = true) := by
  obtain ⟨c, memC, w, memW, l, memL, eq⟩ := core_eq sizes
  have intT := common_int (core_sizes sizes) intA intB
  rw [fits_core sizes intB intA, eq] at kept
  rw [common_core sizes intA intB, fits_core sizes intA intT, bits_core sizes intT, regBits_core sizes intA, signed_core,
    signed_core (common _ _ _), eq]
  exact fits_common_table c memC w memW l memL a (mem_intKinds.2 intA) b (mem_intKinds.2 intB) kept

/-- A right operand of values that the left one's type has. -/
theorem quotient_fits (sizes : m.Sizes) {op : Token.Kind} (quotient : isQuotient op = true) {v : Int}
    (intA : isInt a = true) (intB : isInt b = true) (opA : Operand m a x) (opB : Operand m b y) (notBool : a ≠ .bool)
    (kept : signKept m a = true) (arrive : operandKept m a b = true) (values : fits m b a = true)
    (eq : (cxxBinary m op a x b y).bind cxxValue = some v) : Computes m op a b x y (cxxConvert m a v) := by
  have c := Constexpr.common_common sizes (isInteger_of_isInt intA) (isInteger_of_isInt intB)
  obtain ⟨fitsA, width, sign⟩ := fits_common sizes intA intB values
  have opY : Operand m a y := by
    simp only [fits, Bool.and_eq_true, decide_eq_true_eq] at values
    exact ⟨opA.integral, values.1.trans opB.low, opB.high.trans values.2⟩
  refine quotient_computes sizes quotient intA intB notBool ?_ ?_ ?_ eq
  · rw [loaded_kept sizes intA opA kept, Constexpr.convert_of_fits sizes c.wide opA fitsA]
  · have same := arrives_emod sizes intB opB notBool arrive
    rw [arrives_wrap notBool, wrap_emod] at same
    rw [Constexpr.convert_of_fits sizes c.wide opY fitsA, arrives_wrap notBool, wrap_congr same]
    exact loaded_kept sizes intA opY kept
  · intro signedA
    simp only [signKept, decide_eq_true_eq] at kept
    exact ⟨sign (by rw [← kept, signedA]), width.le⟩

theorem wrap_zero (sign : Bool) (w : Nat) : wrap sign w 0 = 0 := by
  have := two_pow_pos' (w - 1)
  unfold wrap
  rw [Int.zero_emod, if_neg]
  simp only [Bool.and_eq_true, decide_eq_true_eq, not_and]
  omega

theorem bool_cases (op : Operand m .bool x) : x = 0 ∨ x = 1 := by
  have low := op.low
  have high := op.high
  simp only [lowest, highest, signed, Constexpr.isSignedKind, Bool.false_eq_true, if_false, if_true] at low high
  omega

/-- A `bool` that is divided by is one. -/
theorem eq_one_of_quotient {op : Token.Kind} (quotient : isQuotient op = true) {v : Int}
    (opB : Operand m .bool y) (eq : (cxxBinary m op a x .bool y).bind cxxValue = some v) : y = 1 := by
  have nonzero := (cxxBinary_quotient quotient eq).1
  obtain rfl | rfl := bool_cases opB
  · exact absurd (wrap_zero _ _) nonzero
  · rfl

theorem quotientOf_one (op : Token.Kind) (x : Int) : quotientOf op x 1 = if op = .quo then x else 0 := by
  unfold quotientOf
  split <;> simp

theorem convert_one (sizes : m.Sizes) {k : Kind} (int : isInt k = true) : Constexpr.convert m k 1 = 1 := by
  have width := bits_cases sizes int
  have : (2 : Int) ^ 1 ≤ 2 ^ (bits m k - 1) := two_pow_le (by omega)
  exact IntConvert.wrap_of_lowerHalf _ (by omega) (by decide) (by omega)

theorem arrives_one (sizes : m.Sizes) (intA : isInt a = true) : arrives m a .bool 1 = 1 := by
  have one : loaded m .bool 1 = 1 := by simp [loaded, wrap, isSigned, bits, Model.basicSize, Model.plainSize]
  have width := bits_cases sizes intA
  have : (2 : Int) ^ 1 ≤ 2 ^ (bits m a - 1) := two_pow_le (by omega)
  unfold arrives converted
  rw [one]
  split
  · rfl
  · exact IntConvert.wrap_of_lowerHalf _ (by omega) (by decide) (by omega)

theorem quotient_bool (sizes : m.Sizes) {op : Token.Kind} (quotient : isQuotient op = true) {v : Int}
    (intA : isInt a = true) (opB : Operand m .bool y) (eq : (cxxBinary m op a x .bool y).bind cxxValue = some v) :
    arithOp op (.ofInt (regBits m a) (loaded m a x)) (.ofInt (regBits m a) (arrives m a .bool y)) (isSigned a) =
        some (.ofInt (regBits m a) (if op = .quo then loaded m a x else 0)) ∧
      v % 2 ^ bits m (common m a .bool) = (if op = .quo then x else 0) % 2 ^ bits m (common m a .bool) := by
  have intT := common_int sizes intA (show isInt .bool = true from rfl)
  obtain rfl := eq_one_of_quotient quotient opB eq
  have value := (cxxBinary_quotient quotient eq).2.2
  have word := loaded_word sizes intA x
  have one : InRange (isSigned a) (regBits m a) 1 := by
    unfold regBits
    split <;> cases isSigned a <;> decide
  rw [convert_one sizes intT, quotientOf_one] at value
  rw [arrives_one sizes intA, arithOp_quotient quotient (regBits_pos a) word one (by decide)
    (fun sign => by rw [Int.tdiv_one, ← sign]; exact word), quotientOf_one]
  refine ⟨rfl, ?_⟩
  rw [value]
  split
  · exact convert_emod _ _
  · rfl

/-! ### Assignments to a `bool` -/

theorem loaded_bool (sizes : m.Sizes) (op : Operand m .bool x) : loaded m .bool x = x :=
  loaded_kept sizes rfl op signKept_bool

theorem arrives_bool (sizes : m.Sizes) (intB : isInt b = true) (op : Operand m b y) :
    arrives m .bool b y = ofBool (y ≠ 0) := by
  have same : loaded m b y = 0 ↔ y = 0 := by
    constructor
    · intro zero
      have congr := loaded_emod (m := m) b y
      rw [zero] at congr
      refine ((op.inRange sizes).unique (bits_pos sizes intB) ?_ congr.symm)
      have := two_pow_pos' (bits m b)
      have := two_pow_pos' (bits m b - 1)
      unfold InRange
      split <;> omega
    · rintro rfl
      exact wrap_zero _ _
  unfold arrives converted
  rw [if_pos rfl]
  simp only [ne_eq, same]

theorem bool_common_table : ∀ c ∈ [true, false], ∀ w ∈ [Kind.int, .uInt, .uShort], ∀ l ∈ [4, 8], ∀ b ∈ intKinds,
    let core := { lp64 with charSigned := c, wCharKind := w, sizeLong := l }
    fits core b (common core .bool b) = true ∧ fits core .bool (common core .bool b) = true := by
  decide +kernel

theorem convert_beside_bool (sizes : m.Sizes) (intB : isInt b = true) (opX : Operand m .bool x) (opY : Operand m b y) :
    Constexpr.convert m (common m .bool b) x = x ∧ Constexpr.convert m (common m .bool b) y = y := by
  obtain ⟨c, memC, w, memW, l, memL, eq⟩ := core_eq sizes
  have wide := (Constexpr.common_common sizes (show Kind.isInteger .bool = true from rfl) (isInteger_of_isInt intB)).wide
  have intT := common_int (core_sizes sizes) (show isInt .bool = true from rfl) intB
  have table := bool_common_table c memC w memW l memL b (mem_intKinds.2 intB)
  simp only [← eq] at table
  rw [← fits_core sizes intB intT, ← fits_core sizes rfl intT, ← common_core sizes rfl intB] at table
  exact ⟨Constexpr.convert_of_fits sizes wide opX table.2, Constexpr.convert_of_fits sizes wide opY table.1⟩

theorem bool_mul_computes (sizes : m.Sizes) {v : Int} (intB : isInt b = true) (opX : Operand m .bool x)
    (opY : Operand m b y) (eq : (cxxBinary m .mul .bool x b y).bind cxxValue = some v) :
    Computes m .mul .bool b x y (cxxConvert m .bool v) := by
  obtain ⟨keptX, keptY⟩ := convert_beside_bool sizes intB opX opY
  obtain ⟨r, result, value⟩ := Option.bind_eq_some_iff.1 eq
  simp only [cxxBinary, keptX, keptY] at result
  obtain ⟨rfl, -⟩ := arith_some result
  cases value
  refine ⟨_, arithOp_ringOp (by decide) _ _ _ _, ?_⟩
  rw [loaded_bool sizes opX, arrives_bool sizes intB opY]
  obtain rfl | rfl := bool_cases opX
  · rw [zero_mul, Constexpr.convert, wrap_zero]
    simp [ringOp, cxxConvert, ofBool]
  · rw [one_mul, keptY]
    simp [ringOp, cxxConvert]

theorem zero_lor (y : Int) : Int.lor 0 y = y := by
  cases y with
  | ofNat n => simp [Int.lor]
  | negSucc n =>
    have same : n.ldiff 0 = n := Nat.eq_of_testBit_eq fun i => by simp [Nat.testBit_ldiff]
    exact congrArg Int.negSucc same

theorem one_lor_odd (y : Int) : Int.lor 1 y % 2 ^ 1 = 1 := by
  have low : y % 2 ^ 1 = y % 2 % 2 ^ 1 := by omega
  rw [lor_emod_congr rfl low]
  obtain zero | one : y % 2 = 0 ∨ y % 2 = 1 := by omega
  · rw [zero]
    decide
  · rw [one]
    decide

theorem bool_or_computes (sizes : m.Sizes) {v : Int} (intB : isInt b = true) (opX : Operand m .bool x)
    (opY : Operand m b y) (eq : (cxxBinary m .or .bool x b y).bind cxxValue = some v) :
    Computes m .or .bool b x y (cxxConvert m .bool v) := by
  have intT := common_int sizes (show isInt .bool = true from rfl) intB
  obtain ⟨keptX, keptY⟩ := convert_beside_bool sizes intB opX opY
  obtain ⟨r, result, value⟩ := Option.bind_eq_some_iff.1 eq
  simp only [cxxBinary, keptX, keptY] at result
  cases result
  cases value
  refine ⟨_, arithOp_ringOp (by decide) _ _ _ _, ?_⟩
  rw [loaded_bool sizes opX, arrives_bool sizes intB opY]
  obtain rfl | rfl := bool_cases opX
  · rw [zero_lor, keptY]
    simp only [ringOp, zero_lor, cxxConvert, if_true]
  · have odd : Constexpr.convert m (common m .bool b) (Int.lor 1 y) % 2 ^ 1 = 1 := by
      rw [emod_of_le (bits_pos sizes intT) (convert_emod _ _), one_lor_odd]
    have nonzero : Constexpr.convert m (common m .bool b) (Int.lor 1 y) ≠ 0 := fun zero => by
      rw [zero] at odd
      cases odd
    have one (c : Bool) : Int.lor 1 (ofBool c) = 1 := by cases c <;> decide
    simp only [ringOp, one, cxxConvert, if_true, ne_eq, nonzero, not_false_eq_true, decide_true]
    rfl

/-- A shift to the right takes any count to the same as its truth. -/
theorem bool_shr_computes (sizes : m.Sizes) {v : Int} (intB : isInt b = true) (opX : Operand m .bool x)
    (opY : Operand m b y) (eq : (cxxBinary m .shr .bool x b y).bind cxxValue = some v) :
    Computes m .shr .bool b x y (cxxConvert m .bool v) := by
  obtain ⟨low, high, rfl⟩ := cxxBinary_shift sizes rfl rfl eq
  have word := loaded_word sizes (show isInt .bool = true from rfl) x
  have count : 0 ≤ ofBool (y ≠ 0) ∧ ofBool (y ≠ 0) < regBits m .bool := by
    have : regBits m .bool = 32 := rfl
    unfold ofBool
    split <;> omega
  refine ⟨_, by rw [arrives_bool sizes intB opY]; exact (arithOp_shift (regBits_pos _) word count.1 count.2).2, ?_⟩
  rw [loaded_bool sizes opX, if_neg (by decide)]
  obtain rfl | rfl := bool_cases opX
  · simp [cxxConvert, ofBool]
  · by_cases zero : y = 0
    · simp [zero, cxxConvert, ofBool]
    · have more : (1 : Int) / 2 ^ y.toNat = 0 := by
        have : (2 : Int) ^ 1 ≤ 2 ^ y.toNat := two_pow_le (by omega)
        exact Int.ediv_eq_zero_of_lt (by decide) (by omega)
      simp [zero, more, cxxConvert, ofBool]

theorem bool_table : ∀ c ∈ [true, false], ∀ w ∈ [Kind.int, .uInt, .uShort], ∀ l ∈ [4, 8],
    ∀ op ∈ [Token.Kind.quo, .rem, .and, .xor], ∀ x ∈ [(0 : Int), 1], ∀ y ∈ [(0 : Int), 1],
      let core := { lp64 with charSigned := c, wCharKind := w, sizeLong := l }
      ((cxxBinary core op .bool x .bool y).bind cxxValue).all (fun v =>
        arithOp op (.ofInt 32 x) (.ofInt 32 y) false = some (BitVec.ofInt 32 (cxxConvert core .bool v))) = true := by
  intro c memC w memW l memL
  fin_cases memC <;> fin_cases memW <;> fin_cases memL <;> decide +kernel

theorem bool_bool_computes (sizes : m.Sizes) {op : Token.Kind} (mem : op ∈ [Token.Kind.quo, .rem, .and, .xor]) {v : Int}
    (opX : Operand m .bool x) (opY : Operand m .bool y) (eq : (cxxBinary m op .bool x .bool y).bind cxxValue = some v) :
    Computes m op .bool .bool x y (cxxConvert m .bool v) := by
  obtain ⟨c, memC, w, memW, l, memL, core⟩ := core_eq sizes
  have bit {x : Int} (op : Operand m .bool x) : x ∈ [(0 : Int), 1] := by
    simpa using bool_cases op
  have table := bool_table c memC w memW l memL op mem x (bit opX) y (bit opY)
  have arrived : arrives m .bool .bool y = y := by
    rw [arrives_bool sizes rfl opY]
    obtain rfl | rfl := bool_cases opY <;> rfl
  simp only [← core] at table
  rw [← cxxBinary_core sizes op rfl rfl, eq, Option.all_some, decide_eq_true_eq, ← cxxConvert_core sizes rfl] at table
  exact ⟨_, by rw [loaded_bool sizes opX, arrived]; exact table, rfl⟩

/-! ### All of them -/

theorem cxxAssign_eq {op op' : Token.Kind} (operator : compoundOp op = some op') (eq : cxxAssign m op a b x y = some z) :
    ∃ v, (cxxBinary m op' a x b y).bind cxxValue = some v ∧ z = cxxConvert m a v := by
  rw [cxxAssign, operator, Option.bind_some] at eq
  obtain ⟨v, value, result⟩ := Option.map_eq_some_iff.1 eq
  exact ⟨v, value, result.symm⟩

/-- The compound assignment operators. -/
def operators : List Token.Kind :=
  [.addAssign, .subAssign, .mulAssign, .quoAssign, .remAssign, .andAssign, .orAssign, .xorAssign, .shlAssign, .shrAssign]

attribute [local simp] kept

theorem bool_computes (sizes : m.Sizes) {op op' : Token.Kind} (operator : compoundOp op = some op')
    (intB : isInt b = true) (keep : kept m op .bool b = true) (opX : Operand m .bool x) (opY : Operand m b y) {v : Int}
    (eq : (cxxBinary m op' .bool x b y).bind cxxValue = some v) :
    Computes m op' .bool b x y (cxxConvert m .bool v) := by
  simp only [kept, if_true, Bool.or_eq_true, Bool.and_eq_true, decide_eq_true_eq, or_assoc] at keep
  obtain rfl | rfl | rfl | ⟨rfl, ops⟩ := keep
  · cases operator
    exact bool_mul_computes sizes intB opX opY eq
  · cases operator
    exact bool_or_computes sizes intB opX opY eq
  · cases operator
    exact bool_shr_computes sizes intB opX opY eq
  · refine bool_bool_computes sizes ?_ opX opY eq
    obtain rfl | rfl | rfl | rfl := ops <;> cases operator <;> decide

theorem quotient_kept (sizes : m.Sizes) {op : Token.Kind} (quotient : isQuotient op = true) {v : Int}
    (intA : isInt a = true) (intB : isInt b = true) (notBool : a ≠ .bool)
    (keep : (b = .bool || signKept m a && operandKept m a b && quotientKept m a b) = true)
    (opX : Operand m a x) (opY : Operand m b y) (eq : (cxxBinary m op a x b y).bind cxxValue = some v) :
    Computes m op a b x y (cxxConvert m a v) := by
  simp only [Bool.or_eq_true, Bool.and_eq_true, decide_eq_true_eq, quotientKept] at keep
  obtain rfl | ⟨⟨sign, arrive⟩, ⟨width, sameSign⟩ | values⟩ := keep
  · have c := Constexpr.common_common sizes (isInteger_of_isInt intA) (isInteger_of_isInt intB)
    obtain ⟨code, value⟩ := quotient_bool sizes quotient intA opY eq
    refine ⟨_, code, ?_⟩
    rw [cxxConvert_emod notBool, emod_of_le c.left value]
    split
    · exact loaded_emod a x
    · rfl
  · exact quotient_same sizes quotient intA intB opY notBool sign arrive width sameSign eq
  · exact quotient_fits sizes quotient intA intB opX opY notBool sign arrive values eq

theorem right_of_kept (sizes : m.Sizes) {op : Token.Kind} (mem : op ∈ operators) (intA : isInt a = true)
    (intB : isInt b = true) (keep : kept m op a b = true) : Right m op a b := by
  by_cases bool : a = .bool
  · subst bool
    obtain ⟨op', operator⟩ : ∃ op', compoundOp op = some op' := by
      simp only [operators, List.mem_cons, List.not_mem_nil, or_false] at mem
      obtain rfl | rfl | rfl | rfl | rfl | rfl | rfl | rfl | rfl | rfl := mem <;> exact ⟨_, rfl⟩
    refine right_of_computes sizes intA intB operator fun x y z opX opY eq => ?_
    obtain ⟨v, value, rfl⟩ := cxxAssign_eq operator eq
    exact bool_computes sizes operator intB keep opX opY value
  · have ring {op op' : Token.Kind} (operator : compoundOp op = some op') (mem : op' ∈ ringOps)
        (keep : operandKept m a b = true) : Right m op a b := by
      refine right_of_computes sizes intA intB operator fun x y z opX opY eq => ?_
      obtain ⟨v, value, rfl⟩ := cxxAssign_eq operator eq
      exact ring_computes sizes mem intA intB opY bool keep value
    have divides {op op' : Token.Kind} (operator : compoundOp op = some op') (quotient : isQuotient op' = true)
        (keep : (b = .bool || signKept m a && operandKept m a b && quotientKept m a b) = true) : Right m op a b := by
      refine right_of_computes sizes intA intB operator fun x y z opX opY eq => ?_
      obtain ⟨v, value, rfl⟩ := cxxAssign_eq operator eq
      exact quotient_kept sizes quotient intA intB bool keep opX opY value
    simp only [operators, List.mem_cons, List.not_mem_nil, or_false] at mem
    obtain rfl | rfl | rfl | rfl | rfl | rfl | rfl | rfl | rfl | rfl := mem <;> simp only [kept, bool, if_false] at keep
    · exact ring rfl (by decide) keep
    · exact ring rfl (by decide) keep
    · exact ring rfl (by decide) keep
    · exact divides rfl rfl keep
    · exact divides rfl rfl keep
    · exact ring rfl (by decide) keep
    · exact ring rfl (by decide) keep
    · exact ring rfl (by decide) keep
    · refine right_of_computes sizes intA intB rfl fun x y z opX opY eq => ?_
      obtain ⟨v, value, rfl⟩ := cxxAssign_eq rfl eq
      exact shl_computes sizes intA intB bool value
    · refine right_of_computes sizes intA intB rfl fun x y z opX opY eq => ?_
      obtain ⟨v, value, rfl⟩ := cxxAssign_eq rfl eq
      exact shr_computes sizes intA intB opX bool keep value

end Vcx.Compound
