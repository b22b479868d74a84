import Mathlib.Tactic.FinCases
import Vcx.Constexpr.ArithSound
import Vcx.Lib.Word
import Vcx.Lower.IntExpr

/-!
# When the types of integer expressions are right

What the integer types have in common on every model, and the expressions whose recorded types are the
C++ ones: those of `typesKept`.
-/

namespace Vcx.IntExpr
set_option autoImplicit false
open Vcx.Lib Vcx.Types
open Vcx.Constexpr (signed bits lowest highest promote common narrow isSignedKind Operand wideKinds)

variable {m : Model}

/-! ### Types -/

/-- The integer types. -/
def intKinds : List Kind :=
  [.bool, .char, .sChar, .uChar, .char8, .char16, .char32, .wChar, .short, .uShort, .int, .uInt, .long, .uLong,
    .longLong, .uLongLong]

theorem mem_intKinds {k : Kind} : k ∈ intKinds ↔ isInt k = true := by
  cases k <;> decide

/-- What the integer types depend on in a model. -/
def core (m : Model) : Model := { lp64 with charSigned := m.charSigned, wCharKind := m.wCharKind, sizeLong := m.sizeLong }

theorem signed_core (k : Kind) : signed m k = signed (core m) k := by
  cases k <;> rfl

theorem basicSize_core (sizes : m.Sizes) {k : Kind} (int : isInt k = true) : m.basicSize k = (core m).basicSize k := by
  have short := sizes.short
  have word := sizes.int
  have longLong := sizes.longLong
  cases k
  case wChar =>
    rcases sizes.wChar with kind | kind | kind <;>
      simp [Model.basicSize, Model.plainSize, core, lp64, kind, short, word]
  all_goals first
    | simp [Model.basicSize, Model.plainSize, core, lp64, short, word, longLong]; done
    | cases int

theorem bits_core (sizes : m.Sizes) {k : Kind} (int : isInt k = true) : bits m k = bits (core m) k := by
  unfold bits
  rw [basicSize_core sizes int]

theorem lowest_core (sizes : m.Sizes) {k : Kind} (int : isInt k = true) : lowest m k = lowest (core m) k := by
  unfold lowest
  rw [signed_core, bits_core sizes int]

theorem highest_core (sizes : m.Sizes) {k : Kind} (int : isInt k = true) : highest m k = highest (core m) k := by
  unfold highest
  rw [signed_core, bits_core sizes int]

theorem fits_core (sizes : m.Sizes) {a b : Kind} (intA : isInt a = true) (intB : isInt b = true) :
    Constexpr.fits m a b = Constexpr.fits (core m) a b := by
  unfold Constexpr.fits
  rw [lowest_core sizes intA, lowest_core sizes intB, highest_core sizes intA, highest_core sizes intB]

theorem promote_core (sizes : m.Sizes) {k : Kind} (int : isInt k = true) : promote m k = promote (core m) k := by
  unfold promote
  have fits (t : Kind) (intT : isInt t = true) := fits_core sizes int intT
  simp only [List.find?_cons, fits .int rfl, fits .uInt rfl, fits .long rfl, fits .uLong rfl, fits .longLong rfl,
    fits .uLongLong rfl, List.find?_nil]

theorem promote_int {k : Kind} (int : isInt k = true) : isInt (promote m k) = true := by
  unfold promote
  split
  · rename_i narrow
    cases found : [Kind.int, .uInt, .long, .uLong, .longLong, .uLongLong].find? (Constexpr.fits m k) with
    | none => exact int
    | some t =>
      have mem := List.mem_of_find?_eq_some found
      simp only [List.mem_cons, List.not_mem_nil, or_false] at mem
      rcases mem with rfl | rfl | rfl | rfl | rfl | rfl <;> rfl
  · exact int

theorem commonMixed_core (sizes : m.Sizes) {s u : Kind} (intS : isInt s = true) (intU : isInt u = true) :
    Constexpr.commonMixed m s u = Constexpr.commonMixed (core m) s u := by
  unfold Constexpr.commonMixed
  rw [fits_core sizes intU intS]

theorem common_core (sizes : m.Sizes) {a b : Kind} (intA : isInt a = true) (intB : isInt b = true) :
    common m a b = common (core m) a b := by
  unfold common Constexpr.commonPromoted
  have intPA := promote_int (m := core m) intA
  have intPB := promote_int (m := core m) intB
  rw [promote_core sizes intA, promote_core sizes intB, signed_core (promote (core m) a), signed_core (promote (core m) b),
    commonMixed_core sizes intPA intPB, commonMixed_core sizes intPB intPA]

theorem commonKept_core (sizes : m.Sizes) {a b : Kind} (intA : isInt a = true) (intB : isInt b = true) :
    commonKept m a b = commonKept (core m) a b := by
  unfold commonKept outranks
  rw [signed_core a, signed_core b, bits_core sizes intA, bits_core sizes intB]

/-- The models `core` may give. -/
theorem core_eq (sizes : m.Sizes) :
    ∃ c ∈ [true, false], ∃ w ∈ [Kind.int, .uInt, .uShort], ∃ l ∈ [4, 8],
      core m = { lp64 with charSigned := c, wCharKind := w, sizeLong := l } := by
  refine ⟨m.charSigned, by simp, m.wCharKind, ?_, m.sizeLong, ?_, rfl⟩
  · simpa using sizes.wChar
  · simpa using sizes.long

theorem commonType_table : ∀ c ∈ [true, false], ∀ w ∈ [Kind.int, .uInt, .uShort], ∀ l ∈ [4, 8],
    ∀ a ∈ intKinds, ∀ b ∈ intKinds,
      (commonType a b = common { lp64 with charSigned := c, wCharKind := w, sizeLong := l } a b ↔
        commonKept { lp64 with charSigned := c, wCharKind := w, sizeLong := l } a b = true) := by
  -- The cores are checked apart.
  intro c memC w memW l memL
  fin_cases memC <;> fin_cases memW <;> fin_cases memL <;> decide +kernel

theorem commonType_eq_iff (sizes : m.Sizes) {a b : Kind} (intA : isInt a = true) (intB : isInt b = true) :
    commonType a b = common m a b ↔ commonKept m a b = true := by
  obtain ⟨c, memC, w, memW, l, memL, eq⟩ := core_eq sizes
  rw [common_core sizes intA intB, commonKept_core sizes intA intB, eq]
  exact commonType_table c memC w memW l memL a (mem_intKinds.2 intA) b (mem_intKinds.2 intB)

theorem promote_table : ∀ c ∈ [true, false], ∀ w ∈ [Kind.int, .uInt, .uShort], ∀ l ∈ [4, 8], ∀ k ∈ intKinds,
    (k = promote { lp64 with charSigned := c, wCharKind := w, sizeLong := l } k ↔ narrow k = false) := by
  decide +kernel

/-- Promotion leaves alone what is not narrow, and nothing else. -/
theorem promote_eq_iff (sizes : m.Sizes) {k : Kind} (int : isInt k = true) : k = promote m k ↔ narrow k = false := by
  obtain ⟨c, memC, w, memW, l, memL, eq⟩ := core_eq sizes
  rw [promote_core sizes int, eq]
  exact promote_table c memC w memW l memL k (mem_intKinds.2 int)

/-! ### Literals -/

theorem highest_int (sizes : m.Sizes) : highest m .int = 2147483647 := by
  simp [highest, signed, isSignedKind, bits, Model.basicSize, Model.plainSize, sizes.int]

theorem highest_uInt (sizes : m.Sizes) : highest m .uInt = 4294967295 := by
  simp [highest, signed, isSignedKind, bits, Model.basicSize, Model.plainSize, sizes.int]

theorem highest_longLong (sizes : m.Sizes) : highest m .longLong = 9223372036854775807 := by
  simp [highest, signed, isSignedKind, bits, Model.basicSize, Model.plainSize, sizes.longLong]

theorem highest_uLongLong (sizes : m.Sizes) : highest m .uLongLong = 18446744073709551615 := by
  simp [highest, signed, isSignedKind, bits, Model.basicSize, Model.plainSize, sizes.longLong]

theorem highest_long : highest m .long = 2 ^ (8 * m.sizeLong - 1) - 1 := by
  simp [highest, signed, isSignedKind, bits, Model.basicSize, Model.plainSize]

theorem highest_uLong : highest m .uLong = 2 ^ (8 * m.sizeLong) - 1 := by
  simp [highest, signed, isSignedKind, bits, Model.basicSize, Model.plainSize]

theorem bits_evaluated (sizes : m.Sizes) (l : Literal) :
    bits m l.evaluated = match l.length with | .plain => 32 | .ll => 64 | _ => 8 * m.sizeLong := by
  obtain ⟨d, u, len, v⟩ := l
  cases u <;> cases len <;>
    simp [Literal.evaluated, bits, Model.basicSize, Model.plainSize, sizes.int, sizes.longLong]

theorem isSignedKind_evaluated (l : Literal) : isSignedKind l.evaluated = (!l.unsigned && l.length ≠ .z) := by
  obtain ⟨d, u, len, v⟩ := l
  cases u <;> cases len <;> rfl

/-- The 64 bits of what `EvalInt` gives: the value's, as many as the evaluated type has. -/
theorem constVal_signed (sizes : m.Sizes) {l : Literal} (signedL : isSignedKind l.evaluated = true) :
    l.constVal m = wrap true (bits m l.evaluated) l.value := by
  have long := sizes.long
  have width : 0 < bits m l.evaluated ∧ bits m l.evaluated ≤ 64 := by
    rw [bits_evaluated sizes]
    cases l.length <;> simp <;> omega
  unfold Literal.constVal
  rw [signedL]
  exact wrap_of_inRange (by omega) ((wrap_inRange true width.1 _).widen width.2)

theorem constVal_unsigned (sizes : m.Sizes) {l : Literal} (unsigned : isSignedKind l.evaluated = false) :
    l.constVal m % 2 ^ 64 = l.value % 2 ^ bits m l.evaluated := by
  have long := sizes.long
  have le : bits m l.evaluated ≤ 64 := by
    rw [bits_evaluated sizes]
    cases l.length <;> simp <;> omega
  unfold Literal.constVal
  rw [unsigned, wrap_emod, wrap_unsigned]
  exact Int.emod_eq_of_lt (Int.emod_nonneg _ (two_pow_pos' _).ne')
    ((Int.emod_lt_of_pos _ (two_pow_pos' _)).trans_le (two_pow_le le))

theorem cxxType_mem {l : Literal} (some : (l.cxxType m).isSome = true) :
    (l.cxxType m).getD .int ∈ l.candidates m ∧ (l.value : Int) ≤ highest m ((l.cxxType m).getD .int) := by
  obtain ⟨k, eq⟩ := Option.isSome_iff_exists.1 some
  rw [eq]
  exact ⟨List.mem_of_find?_eq_some eq, by simpa using List.find?_some eq⟩

theorem cxxType_first {l : Literal} {k : Kind} {rest : List Kind} (some : (l.cxxType m).isSome = true)
    (candidates : l.candidates m = k :: rest) :
    (l.cxxType m).getD .int = k ↔ (l.value : Int) ≤ highest m k := by
  constructor
  · intro eq
    have value := (cxxType_mem some).2
    rwa [eq] at value
  · intro le
    simp [Literal.cxxType, candidates, le]

theorem literalType_eq_iff (sizes : m.Sizes) {l : Literal} (some : (l.cxxType m).isSome = true) :
    integerLiteralType l (l.constVal m) = (l.cxxType m).getD .int ↔ l.typed m = true := by
  have long := sizes.long
  have ptr := sizes.ptr
  have signedVal := constVal_signed sizes (l := l)
  have unsignedVal := constVal_unsigned sizes (l := l)
  have first {k : Kind} {rest : List Kind} := @cxxType_first m l k rest some
  obtain ⟨member, value⟩ := cxxType_mem some
  rw [bits_evaluated sizes, isSignedKind_evaluated] at signedVal unsignedVal
  have range (w : Nat) (pos : 0 < w) := wrap_inRange true pos l.value
  have bounds : InRange true 64 (l.constVal m) := wrap_inRange true (by decide) _
  generalize l.constVal m = val at *
  generalize (l.cxxType m).getD .int = k at *
  obtain ⟨d, u, len, v⟩ := l
  cases u <;> cases len <;>
    simp only [Bool.not_true, Bool.not_false, Bool.true_and, Bool.false_and, ne_eq, reduceCtorEq, not_false_eq_true,
      not_true_eq_false, decide_true, decide_false, forall_const, Bool.false_eq_true, false_implies] at signedVal unsignedVal
  case false.plain =>
    have range := range 32 (by decide)
    rw [← signedVal] at range
    simp only [InRange, if_true] at range
    have recorded : integerLiteralType ⟨d, false, .plain, v⟩ val = .int := by
      simp only [integerLiteralType]
      rw [if_neg (by decide), if_pos (by omega)]
    have same : k = .int ↔ (v : Int) ≤ highest m .int := by
      cases d
      · exact first rfl
      · exact first rfl
    rw [recorded, eq_comm, same, highest_int sizes]
    simp only [Literal.typed, decide_eq_true_eq]
    omega
  case true.plain =>
    have recorded : integerLiteralType ⟨d, true, .plain, v⟩ val = .uInt := by
      simp only [integerLiteralType, if_true]
      rw [if_pos (by omega)]
    have same : k = .uInt ↔ (v : Int) ≤ highest m .uInt := first rfl
    rw [recorded, eq_comm, same, highest_uInt sizes]
    simp only [Literal.typed, decide_eq_true_eq]
    omega
  case false.ll =>
    have same : k = .longLong ↔ (v : Int) ≤ highest m .longLong := by
      cases d
      · exact first rfl
      · exact first rfl
    simp only [integerLiteralType, Bool.false_eq_true, if_false, Literal.typed, decide_eq_true_eq]
    rw [eq_comm, same, highest_longLong sizes]
    omega
  case true.ll =>
    have same : k = .uLongLong ↔ (v : Int) ≤ highest m .uLongLong := first rfl
    simp only [integerLiteralType, if_true, Literal.typed, decide_eq_true_eq]
    rw [eq_comm, same, highest_uLongLong sizes]
    omega
  case false.l =>
    have same : k = .long ↔ (v : Int) ≤ highest m .long := by
      cases d
      · exact first rfl
      · exact first rfl
    have recorded : integerLiteralType ⟨d, false, .l, v⟩ val =
        if -2147483648 ≤ val ∧ val ≤ 2147483647 then .long else .longLong := rfl
    have range := range (8 * m.sizeLong) (by omega)
    rw [← signedVal] at range
    rw [highest_long] at same
    simp only [Literal.typed, decide_eq_true_eq]
    rcases long with long | long
    · simp only [long, InRange, if_true] at range same
      rw [recorded, if_pos (by omega), eq_comm, same]
      omega
    · simp only [long, InRange, if_true] at range same signedVal
      have wrapped : (v : Int) < 2 ^ 63 → val = v := by
        intro lt
        rw [signedVal]
        exact wrap_of_inRange (by decide) ⟨by omega, lt⟩
      rw [recorded]
      split
      · rename_i small
        rw [eq_comm, same]
        constructor <;> intro le
        · have := wrapped (by omega)
          omega
        · omega
      · rename_i large
        refine ⟨fun eq => ?_, fun lt => absurd ⟨by omega, by omega⟩ (wrapped (by omega) ▸ large)⟩
        subst eq
        rw [highest_longLong sizes] at value
        exact absurd (same.2 (by simpa using value)) (by decide)
  case true.l =>
    have same : k = .uLong ↔ (v : Int) ≤ highest m .uLong := first rfl
    have recorded : integerLiteralType ⟨d, true, .l, v⟩ val =
        if val % 2 ^ 64 ≤ 0xFFFFFFFF then .uLong else .uLongLong := rfl
    rw [recorded, unsignedVal]
    rw [highest_uLong] at same
    simp only [Literal.typed, decide_eq_true_eq]
    rcases long with long | long
    · simp only [long] at same ⊢
      rw [if_pos (by omega), eq_comm, same]
      omega
    · have fit : (v : Int) < 2 ^ 64 := by
        have member : k ∈ [Kind.uLong, .uLongLong] := member
        simp only [List.mem_cons, List.not_mem_nil, or_false] at member
        rcases member with rfl | rfl
        · have value : (v : Int) ≤ highest m .uLong := value
          rw [highest_uLong, long] at value
          omega
        · have value : (v : Int) ≤ highest m .uLongLong := value
          rw [highest_uLongLong sizes] at value
          omega
      simp only [long] at same ⊢
      rw [same.2 (by omega)]
      split_ifs <;> simp <;> omega
  case false.z =>
    have recorded : integerLiteralType ⟨d, false, .z, v⟩ val =
        if -2147483648 ≤ val ∧ val ≤ 2147483647 then .int
        else if !d ∧ val % 2 ^ 64 ≤ 0xFFFFFFFF then .uInt else .longLong := rfl
    have member : k ∈ if d then [ssizeKind m] else [ssizeKind m, sizeKind m] := by cases d <;> exact member
    have value : (v : Int) ≤ highest m k := value
    have same : k = ssizeKind m ↔ (v : Int) ≤ highest m (ssizeKind m) := by
      cases d
      · exact first rfl
      · exact first rfl
    rw [recorded]
    simp only [Literal.typed, Bool.or_eq_true, Bool.and_eq_true, decide_eq_true_eq]
    simp only [InRange, if_true] at bounds
    rcases ptr with ptr | ptr
    · have signedKind : ssizeKind m = .int := by simp [ssizeKind, ptr]
      have kind : sizeKind m = .uInt := by simp [sizeKind, ptr]
      rw [signedKind, highest_int sizes] at same
      rw [signedKind, kind] at member
      have le : (v : Int) ≤ 4294967295 := by
        cases d <;> simp at member
        · rcases member with rfl | rfl
          · have := same.1 rfl
            omega
          · rwa [highest_uInt sizes] at value
        · have := same.1 member
          omega
      have low : (v : Int) % 2 ^ (8 * m.sizeLong) = v := by
        have pow := two_pow_le (show 32 ≤ 8 * m.sizeLong by omega)
        exact Int.emod_eq_of_lt (by omega) (by omega)
      obtain rfl : val = v := by omega
      simp only [ptr, true_or, iff_true]
      by_cases small : (v : Int) ≤ 2147483647
      · rw [if_pos ⟨by omega, small⟩, same.2 small]
      · have unsigned : d = false ∧ k = .uInt := by
          have other : k ≠ .int := fun eq => small (same.1 eq)
          cases d <;> simp [other] at member
          exact ⟨rfl, member⟩
        rw [if_neg (by omega), if_pos ⟨by simp [unsigned.1], by omega⟩, unsigned.2]
    · rcases long with long | long
      · have signedKind : ssizeKind m = .longLong := by simp [ssizeKind, ptr, long]
        have kind : sizeKind m = .uLongLong := by simp [sizeKind, ptr, long]
        rw [signedKind, kind] at member
        simp only [long] at unsignedVal ⊢
        obtain rfl : val = v % 2 ^ 32 := by omega
        cases d <;> simp at member <;> simp [ptr]
        · rcases member with rfl | rfl
          · split_ifs <;> simp
            omega
          · split_ifs <;> simp
        · subst member
          split_ifs <;> simp <;> omega
      · have signedKind : ssizeKind m = .long := by simp [ssizeKind, ptr, long]
        have kind : sizeKind m = .uLong := by simp [sizeKind, ptr, long]
        rw [signedKind, kind] at member
        cases d <;> simp at member
        · rcases member with rfl | rfl <;> split_ifs <;> simp [ptr, long]
        · subst member
          split_ifs <;> simp [ptr, long]
  case true.z =>
    have recorded : integerLiteralType ⟨d, true, .z, v⟩ val = if val % 2 ^ 64 ≤ 0xFFFFFFFF then .uInt else .uLongLong := rfl
    have member : k ∈ [sizeKind m] := member
    have value : (v : Int) ≤ highest m k := value
    obtain rfl : k = sizeKind m := by simpa using member
    rw [recorded, unsignedVal]
    simp only [Literal.typed, decide_eq_true_eq]
    rcases ptr with ptr | ptr
    · have kind : sizeKind m = .uInt := by simp [sizeKind, ptr]
      rw [kind, highest_uInt sizes] at value
      have low : (v : Int) % 2 ^ (8 * m.sizeLong) = v := by
        have pow := two_pow_le (show 32 ≤ 8 * m.sizeLong by omega)
        exact Int.emod_eq_of_lt (by omega) (by omega)
      rw [low, if_pos (by omega)]
      simp [kind, ptr]
    · rcases long with long | long
      · have kind : sizeKind m = .uLongLong := by simp [sizeKind, ptr, long]
        simp only [long]
        rw [if_pos (by omega)]
        simp [kind, ptr]
      · have kind : sizeKind m = .uLong := by simp [sizeKind, ptr, long]
        split_ifs <;> simp [kind, ptr]

/-! ### Recorded types -/

theorem common_table : ∀ c ∈ [true, false], ∀ w ∈ [Kind.int, .uInt, .uShort], ∀ l ∈ [4, 8],
    ∀ a ∈ intKinds, ∀ b ∈ intKinds,
      isInt (common { lp64 with charSigned := c, wCharKind := w, sizeLong := l } a b) = true := by
  intro c memC w memW l memL
  fin_cases memC <;> fin_cases memW <;> fin_cases memL <;> decide +kernel

theorem common_int (sizes : m.Sizes) {a b : Kind} (intA : isInt a = true) (intB : isInt b = true) :
    isInt (common m a b) = true := by
  obtain ⟨c, memC, w, memW, l, memL, eq⟩ := core_eq sizes
  rw [common_core sizes intA intB, eq]
  exact common_table c memC w memW l memL a (mem_intKinds.2 intA) b (mem_intKinds.2 intB)

theorem literal_wide {l : Literal} (some : (l.cxxType m).isSome = true) :
    isInt ((l.cxxType m).getD .int) = true ∧ (l.cxxType m).getD .int ∈ wideKinds := by
  have kinds : (isInt (sizeKind m) = true ∧ sizeKind m ∈ wideKinds) ∧ isInt (ssizeKind m) = true ∧ ssizeKind m ∈ wideKinds := by
    unfold sizeKind ssizeKind
    split_ifs <;> decide
  have all : ∀ k ∈ l.candidates m, isInt k = true ∧ k ∈ wideKinds := by
    obtain ⟨d, u, len, v⟩ := l
    cases u <;> cases len <;> cases d <;>
      simp only [Literal.candidates, List.forall_mem_cons, kinds.1, kinds.2, true_and] <;> decide
  exact all _ (cxxType_mem some).1

variable {decls : Nat → Kind}

theorem cxxTypeOf_int (sizes : m.Sizes) {e : Expr} (wf : e.wellFormed m decls = true) : isInt (cxxTypeOf m decls e) = true := by
  induction e with
  | var x => exact wf
  | lit l => exact (literal_wide wf).1
  | unary op e ih => exact promote_int (ih wf)
  | not e ih => rfl
  | land l r ihL ihR => rfl
  | lor l r ihL ihR => rfl
  | binary op l r ihL ihR =>
    simp only [Expr.wellFormed, Bool.and_eq_true] at wf
    simp only [cxxTypeOf]
    split_ifs
    · rfl
    · exact promote_int (ihL wf.1.2)
    · exact common_int sizes (ihL wf.1.2) (ihR wf.2)

theorem typesRight.here {e : Expr} (right : typesRight m decls e) : typeOf m decls e = cxxTypeOf m decls e := by
  cases e with
  | var x => exact right
  | lit l => exact right
  | unary op e => exact right.1
  | not e => exact right.1
  | binary op l r => exact right.1
  | land l r => exact right.1
  | lor l r => exact right.1

/-- The recorded types are the C++ ones exactly where `typesKept` holds. -/
theorem typesRight_iff_typesKept (sizes : m.Sizes) {e : Expr} (wf : e.wellFormed m decls = true) :
    typesRight m decls e ↔ typesKept m decls e = true := by
  induction e with
  | var x => simp [typesRight, typesKept, typeOf, cxxTypeOf]
  | lit l => exact literalType_eq_iff sizes wf
  | unary op e ih =>
    have int := cxxTypeOf_int sizes wf
    simp only [typesRight, typesKept, typeOf, cxxTypeOf, Bool.and_eq_true, Bool.not_eq_true', ← ih wf]
    refine and_congr_left fun right => ?_
    rw [right.here]
    exact promote_eq_iff sizes (cxxTypeOf_int sizes (e := e) wf)
  | not e ih => simpa [typesRight, typesKept, typeOf, cxxTypeOf] using ih wf
  | land l r ihL ihR =>
    simp only [Expr.wellFormed, Bool.and_eq_true] at wf
    simp [typesRight, typesKept, typeOf, cxxTypeOf, ihL wf.1, ihR wf.2]
  | lor l r ihL ihR =>
    simp only [Expr.wellFormed, Bool.and_eq_true] at wf
    simp [typesRight, typesKept, typeOf, cxxTypeOf, ihL wf.1, ihR wf.2]
  | binary op l r ihL ihR =>
    simp only [Expr.wellFormed, Bool.and_eq_true] at wf
    have intL := cxxTypeOf_int sizes wf.1.2
    have intR := cxxTypeOf_int sizes wf.2
    simp only [typesRight, typesKept, typeOf, cxxTypeOf, Bool.and_eq_true, ← ihL wf.1.2, ← ihR wf.2]
    rw [and_comm]
    refine and_congr_right fun right => ?_
    rw [right.1.here, right.2.here]
    split_ifs
    · simp
    · simpa [commonType] using promote_eq_iff sizes intL
    · exact commonType_eq_iff sizes intL intR

end Vcx.IntExpr
