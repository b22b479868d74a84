import Vcx.Sema.Conditional
import Vcx.Lower.IntExprTypes

/-!
# Conditional expressions: when the type is right

Exactly when `checkExpr` gives a conditional expression the type and the value category that C++ does.
-/

namespace Vcx.Conditional
set_option autoImplicit false
open Vcx.Types
open Vcx.Constexpr (isSigned isSignedKind)
open Vcx.IntExpr (integerRank commonKept isInt)
open Vcx.Sema (Analysis decay qualify qualsOf)

/-! ### When it is right -/

/-- The kind of arithmetic type that `CommonType` makes of a type beside one that is no arithmetic type:
`int`, unless the type is of `int`'s rank or more, or a floating type that `CommonType` knows. -/
def taken (t : Ty) : Kind :=
  match view t with
  | some (.arith k) => if 5 ≤ integerRank k ∨ k ∈ [.float, .double, .longDouble] then k else .int
  | _ => .int

/-- `CommonType` has the type of the usual arithmetic conversions. -/
def arithKept (m : Model) (a b : Kind) : Bool :=
  if a = b then true
  else if a ∈ [.float, .double, .longDouble] ∨ b ∈ [.float, .double, .longDouble] then true
  else if a = .float16 ∨ b = .float16 then false
  else isInt a = false || isInt b = false || commonKept m a b

/-- A pointer to the first converts to a pointer to the second: to `void`, to a function that may throw, to
a base class or by adding qualifiers. -/
def pointerKeeps (cl : Classes) (source target : Decomposition) : Bool :=
  match target, source with
  | .base q (.basic .void), b => Decomposition.isObject b && b.quals.within q
  | _, .base _ (.basic .void) => false
  | .base q (.record r), .base q' (.record r') => (r = r' || cl.base r r') && q'.within q
  | .base q f, .base q' f' =>
    if mayThrow f f' then q'.within q
    else if mayThrow f' f then false
    else (Decomposition.base q' f').keeps (.base q f)
  | a, b => b.keeps a

section

variable (m : Model) (cl : Classes)

/-- Beside a throw-expression: an arithmetic value of a type that `CommonType` leaves alone. -/
def standsAlone (o : Operand) : Bool :=
  !o.info.valCat.glvalue &&
    match view o.info.type with
    | some (.arith k) => taken o.info.type = k
    | _ => false

/-- User-defined conversions make the operands arithmetic values whose common type is of the kind. -/
def settledAs (e2 e3 : Operand) (k : Kind) : Bool :=
  match unified cl e2 e3 with
  | none => false
  | some (x, y) =>
    if alike x y && sameType x.info.type y.info.type then false
    else if needsBuiltin x y then
      match cl.builtin x y with
      | some (.arith l r) => usual m l r = k
      | _ => false
    else
      match view x.info.type, view y.info.type with
      | some (.arith a), some (.arith b) => usual m a b = k
      | _, _ => false

/-- **The condition** on two operands, the first after the `?`. -/
def holds (e2 e3 : Operand) : Bool :=
  match view e2.info.type, view e3.info.type with
  | some .void, some .void => true
  | some .void, _ => standsAlone e3
  | _, some .void => standsAlone e2
  | v2, v3 =>
    if alike e2 e3 && sameBare e2.info.type e3.info.type then
      e2.info.type.unqualify.equal e3.info.type.unqualify = (qualsOf e2.info.type).comparable (qualsOf e3.info.type)
    else match v2, v3 with
      | some (.pointer a), some (.pointer b) => pointerKeeps cl b.decompose a.decompose
      | some .nullptr, some (.arith _) => false
      | some (.arith _), some .nullptr => false
      | some (.arith a), some (.arith b) => arithKept m a b
      | some (.record r), some (.record r') =>
        if r = r' then qualsOf e2.info.type = {} ∧ qualsOf e3.info.type = {} else settledAs m cl e2 e3 .int
      | some (.record _), _ => settledAs m cl e2 e3 (taken e3.info.type)
      | _, some (.record _) => settledAs m cl e2 e3 (taken e2.info.type)
      | _, _ => true

end

/-- Two kinds that `CommonType` has no order of: it makes the second of them. -/
def ordered (a b : Kind) : Bool := a = b || !(a ∈ [.uInt, .wChar, .char32] && b ∈ [.uInt, .wChar, .char32])

/-- The operands may be swapped: no two pointers of different types, nor two of `unsigned`, `wchar_t` and
`char32_t`. -/
def swaps (e2 e3 : Operand) : Bool :=
  match view e2.info.type, view e3.info.type with
  | some (.pointer a), some (.pointer b) => a.decompose.same b.decompose
  | some (.arith a), some (.arith b) => ordered a b
  | _, _ => true

/-- An operand in question: a pointer, an arithmetic value, a null pointer constant, a class or `void`. -/
structure InScope (an : Analysis) (o : Operand) : Prop where
  type : (view o.info.type).isSome = true
  null : isNullConstant o = true → ∃ k, view o.info.type = some (.arith k)
  void : isVoid o.info.type = true → o.info.valCat = .prValue
  independent : an.isDependentType o.info.type = false
  flat : o.info.type.flat = true

/-- The code's answer is the type and the value category. -/
def Right (got : ExprInfo) (r : Decomposition × ValueCategory) : Prop :=
  got.type.decompose.same r.1 = true ∧ got.valCat = r.2

/-! ### Types in question -/

/-- The type without qualifiers. -/
def View.core : View → Ty
  | .void => .basic .void
  | .arith k => .basic k
  | .nullptr => .basic .nullptr
  | .pointer elem => .pointer elem
  | .record r => .record r

def View.decomposition (q : Qual) : View → Decomposition
  | .pointer elem => .pointer q elem.decompose
  | v => .base q v.core

theorem viewKind_core {k : Kind} {v : View} (e : viewKind k = some v) : v.core = .basic k := by
  unfold viewKind at e
  split at e
  · rename_i eq
    cases e
    rw [View.core, eq]
  · split at e
    · rename_i eq
      cases e
      rw [View.core, eq]
    · split at e
      · cases e
        rfl
      · cases e

theorem view_core {t : Ty} {v : View} (e : view t = some v) : t.unqualify = v.core := by
  unfold view at e
  split at e
  · rename_i eq
    rw [eq, viewKind_core e]
  · rename_i eq
    cases e
    rw [eq, View.core]
  · rename_i eq
    cases e
    rw [eq, View.core]
  · cases e

theorem view_kind {t : Ty} {k : Kind} (e : view t = some (.arith k)) :
    k ≠ .void ∧ k ≠ .nullptr ∧ (k.isInteger = true ∨ k ∈ [Kind.float16, .float, .double, .longDouble]) := by
  have core := view_core e
  unfold view at e
  rw [core] at e
  simp only [View.core, viewKind] at e
  split at e
  · cases e
  · split at e
    · cases e
    · split at e
      · rename_i notVoid notNull arith
        refine ⟨notVoid, notNull, ?_⟩
        simpa [Bool.or_eq_true, decide_eq_true_eq] using arith
      · cases e

theorem decompose_view {t : Ty} {v : View} (e : view t = some v) : t.decompose = v.decomposition (qualsOf t) := by
  have core := view_core e
  unfold Ty.decompose
  cases t with
  | qualified q u =>
    simp only [Ty.unqualify] at core
    subst core
    cases v <;> simp [Ty.decomposeIn, View.core, View.decomposition, qualsOf, Ty.decompose]
  | _ =>
    simp only [Ty.unqualify] at core
    cases v <;> cases core <;> simp [Ty.decomposeIn, View.core, View.decomposition, qualsOf, Ty.decompose]

@[simp] theorem View.quals_decomposition (q : Qual) (v : View) : (v.decomposition q).quals = q := by
  cases v <;> rfl

@[simp] theorem View.bare_decomposition (q : Qual) (v : View) : (v.decomposition q).bare = v.decomposition {} := by
  cases v <;> rfl

/-- A type in question is no reference. -/
theorem view_removeReference {t : Ty} {v : View} (e : view t = some v) : t.removeReference = t := by
  have core := view_core e
  cases t with
  | lvalueReference u => cases v <;> cases core
  | rvalueReference u => cases v <;> cases core
  | _ => rfl

theorem view_decay {t : Ty} {v : View} (e : view t = some v) : decay t.removeReference = v.core := by
  have core := view_core e
  rw [view_removeReference e, decay, view_removeReference e, ← core]
  cases t with
  | array => cases v <;> cases core
  | func => cases v <;> cases core
  | _ => rfl

theorem sameType_iff {t t' : Ty} {v v' : View} (e : view t = some v) (e' : view t' = some v') :
    sameType t t' = true ↔ qualsOf t = qualsOf t' ∧ sameBare t t' = true := by
  rw [sameType, sameBare, decompose_view e, decompose_view e', Decomposition.same_iff]
  simp

theorem sameBare_view {t t' : Ty} {v v' : View} (e : view t = some v) (e' : view t' = some v') :
    sameBare t t' = (v.decomposition {}).same (v'.decomposition {}) := by
  rw [sameBare, decompose_view e, decompose_view e']
  simp

/-! ### The common arithmetic type -/

theorem commonType_view {t t' : Ty} {v v' : View} (e : view t = some v) (e' : view t' = some v') :
    commonType t t' = commonType v.core v'.core := by
  have bare (v : View) : v.core.removeReference.unqualify = v.core := by cases v <;> rfl
  unfold commonType
  rw [view_removeReference e, view_removeReference e', view_core e, view_core e', bare, bare]

/-- Of two types that are none of the known floating ones, it is that of integers. -/
theorem commonType_basic {a b : Kind} (known : ¬(a ∈ [.float, .double, .longDouble] ∨ b ∈ [.float, .double, .longDouble])) :
    commonType (.basic a) (.basic b) = .basic (IntExpr.commonType a b) := by
  have promoted (k : Kind) : promote (.basic k) = .basic (IntExpr.promoteRank k) := by
    by_cases low : integerRank k < integerRank .int <;> simp [promote, IntExpr.promoteRank, rankOf, kindOf, low]
  simp only [List.mem_cons, List.not_mem_nil, or_false, not_or] at known
  obtain ⟨⟨floatA, doubleA, longA⟩, floatB, doubleB, longB⟩ := known
  unfold commonType IntExpr.commonType
  simp only [Ty.removeReference, Ty.unqualify, kindOf, promoted, Ty.equal, Ty.strictOther, floatA, doubleA, longA, floatB,
    doubleB, longB, Option.some.injEq, decide_false, Bool.or_self, Bool.false_eq_true, if_false, decide_eq_true_eq]
  by_cases equal : a = b
  · rw [if_pos equal, if_pos equal]
  rw [if_neg equal, if_neg equal]
  generalize IntExpr.promoteRank a = a
  generalize IntExpr.promoteRank b = b
  by_cases equal : a = b
  · rw [if_pos equal, if_pos equal]
  rw [if_neg equal, if_neg equal]
  have kind (k : Kind) : isSigned (.basic k) = isSignedKind k := rfl
  by_cases signs : isSignedKind a = isSignedKind b
  · rw [if_pos signs, if_pos (by rw [kind, kind, signs])]
    simp only [rankOf, kindOf, Option.map_some, Option.getD_some]
    exact (apply_ite Ty.basic _ _ _).symm
  rw [if_neg signs, if_neg (by rw [kind, kind]; exact signs)]
  by_cases signed : isSignedKind a = true
  · simp only [kind, signed, if_true, rankOf, kindOf, Option.map_some, Option.getD_some]
    split <;> rfl
  · simp only [kind, signed, Bool.false_eq_true, if_false, rankOf, kindOf, Option.map_some, Option.getD_some]
    split <;> rfl

theorem commonType_ne_float16 {a b : Kind} (differ : a ≠ b) (half : a = .float16 ∨ b = .float16) :
    IntExpr.commonType a b ≠ .float16 := by
  rcases half with rfl | rfl
  · cases b <;> first | exact absurd rfl differ | decide
  · cases a <;> first | exact absurd rfl differ | decide

/-- Every type up to `long long` has only values of `__int128`. -/
theorem fits_int128 {m : Model} (sizes : m.Sizes) {k : Kind} (int : isInt k = true) : Constexpr.fits m k .int128 = true := by
  have table : ∀ c ∈ [true, false], ∀ w ∈ [Kind.int, .uInt, .uShort], ∀ l ∈ [4, 8], ∀ k ∈ IntExpr.intKinds,
      Constexpr.fits { lp64 with charSigned := c, wCharKind := w, sizeLong := l } k .int128 = true := by
    decide
  obtain ⟨c, memC, w, memW, l, memL, eq⟩ := IntExpr.core_eq sizes
  have kind := table c memC w memW l memL k (IntExpr.mem_intKinds.2 int)
  unfold Constexpr.fits at kind ⊢
  rw [IntExpr.lowest_core sizes int, IntExpr.highest_core sizes int, eq]
  exact kind

theorem rank_lt {p : Kind} (int : isInt p = true) : Constexpr.rank p < 3 := by
  cases p <;> first | decide | cases int

/-- Beside a 128-bit type, the common type of promoted types is that one. -/
theorem commonPromoted_wide {m : Model} (sizes : m.Sizes) {w p : Kind} (wide : w = .int128 ∨ w = .uInt128)
    (int : isInt p = true) : Constexpr.commonPromoted m w p = w ∧ Constexpr.commonPromoted m p w = w := by
  have fits := fits_int128 sizes int
  have low := rank_lt int
  have rankW : Constexpr.rank w = 3 := by rcases wide with rfl | rfl <;> rfl
  have differ : w ≠ p := by
    rintro rfl
    rw [rankW] at low
    omega
  unfold Constexpr.commonPromoted Constexpr.commonMixed
  rw [if_neg differ, if_neg differ.symm, rankW, if_neg (by omega : ¬3 < Constexpr.rank p), if_pos low,
    if_neg (by omega : ¬3 ≤ Constexpr.rank p), if_pos (by omega : Constexpr.rank p ≤ 3)]
  rcases wide with rfl | rfl
  · rw [fits]
    cases signs : Constexpr.signed m p <;> simp [Constexpr.signed, isSignedKind]
  · cases signs : Constexpr.signed m p <;> simp [Constexpr.signed, isSignedKind]

theorem wide_of_not_int {k : Kind} (integer : k.isInteger = true) (wide : isInt k = false) : k = .int128 ∨ k = .uInt128 := by
  revert integer wide
  cases k <;> decide

theorem promote_wide {m : Model} {w : Kind} (wide : w = .int128 ∨ w = .uInt128) : Constexpr.promote m w = w := by
  rcases wide with rfl | rfl <;> rfl

theorem common_wide {m : Model} (sizes : m.Sizes) {a b : Kind} (intA : a.isInteger = true) (intB : b.isInteger = true)
    (wide : isInt a = false ∨ isInt b = false) : IntExpr.commonType a b = Constexpr.common m a b := by
  unfold Constexpr.common
  cases smallA : isInt a with
  | false =>
    have wideA := wide_of_not_int intA smallA
    rw [promote_wide wideA]
    cases smallB : isInt b with
    | false =>
      have wideB := wide_of_not_int intB smallB
      rw [promote_wide wideB]
      rcases wideA with rfl | rfl <;> rcases wideB with rfl | rfl <;> rfl
    | true =>
      rw [(commonPromoted_wide sizes wideA (IntExpr.promote_int smallB)).1]
      rcases wideA with rfl | rfl <;> cases b <;> first | rfl | cases smallB
  | true =>
    have smallB : isInt b = false := by
      rcases wide with no | no
      · rw [smallA] at no
        cases no
      · exact no
    have wideB := wide_of_not_int intB smallB
    rw [promote_wide wideB, (commonPromoted_wide sizes wideB (IntExpr.promote_int smallA)).2]
    rcases wideB with rfl | rfl <;> cases a <;> first | rfl | cases smallA

theorem commonType_known {a b : Kind} (known : a ∈ [.float, .double, .longDouble] ∨ b ∈ [.float, .double, .longDouble]) :
    commonType (.basic a) (.basic b) =
      if a = b then .basic a
      else if a = .longDouble ∨ b = .longDouble then .basic .longDouble
      else if a = .double ∨ b = .double then .basic .double
      else .basic .float := by
  simp only [commonType, Ty.removeReference, Ty.unqualify, Ty.equal, Ty.strictOther, kindOf, Option.some.injEq,
    decide_eq_true_eq, Bool.or_eq_true]
  by_cases long : a = .longDouble ∨ b = .longDouble
  · rw [if_pos long, if_pos long]
  by_cases double : a = .double ∨ b = .double
  · rw [if_neg long, if_pos double, if_neg long, if_pos double]
  have float : a = .float ∨ b = .float := by
    simp only [List.mem_cons, List.not_mem_nil, or_false] at known
    tauto
  rw [if_neg long, if_neg double, if_pos float, if_neg long, if_neg double]

theorem commonType_isBasic {t t' : Ty} {a b : Kind} (viewA : view t = some (.arith a)) (viewB : view t' = some (.arith b)) :
    ∃ k, commonType t t' = .basic k := by
  rw [commonType_view viewA viewB]
  simp only [View.core]
  by_cases known : a ∈ [Kind.float, .double, .longDouble] ∨ b ∈ [Kind.float, .double, .longDouble]
  · rw [commonType_known known]
    split
    · exact ⟨_, rfl⟩
    · split
      · exact ⟨_, rfl⟩
      · split <;> exact ⟨_, rfl⟩
  · exact ⟨_, commonType_basic known⟩

/-- **Two arithmetic types** have the common type of the usual arithmetic conversions just when they are
`arithKept`. -/
theorem commonType_arith {m : Model} (sizes : m.Sizes) {t t' : Ty} {a b : Kind} (viewA : view t = some (.arith a))
    (viewB : view t' = some (.arith b)) : commonType t t' = .basic (usual m a b) ↔ arithKept m a b = true := by
  rw [commonType_view viewA viewB]
  obtain ⟨-, -, arithA⟩ := view_kind viewA
  obtain ⟨-, -, arithB⟩ := view_kind viewB
  simp only [View.core]
  unfold usual arithKept
  by_cases equal : a = b
  · subst equal
    simp [commonType, Ty.removeReference, Ty.unqualify]
  rw [if_neg equal, if_neg equal]
  by_cases known : a ∈ [Kind.float, .double, .longDouble] ∨ b ∈ [Kind.float, .double, .longDouble]
  · rw [if_pos known, commonType_known known, if_neg equal]
    simp only [iff_true, Bool.or_eq_true, decide_eq_true_eq]
    by_cases long : a = .longDouble ∨ b = .longDouble
    · rw [if_pos long, if_pos long]
    by_cases double : a = .double ∨ b = .double
    · rw [if_neg long, if_pos double, if_neg long, if_pos double]
    have float : a = .float ∨ b = .float := by
      simp only [List.mem_cons, List.not_mem_nil, or_false] at known
      tauto
    rw [if_neg long, if_neg double, if_neg long, if_neg double, if_pos float]
  rw [if_neg known, commonType_basic known, Ty.basic.injEq]
  simp only [List.mem_cons, List.not_mem_nil, or_false, not_or] at known arithA arithB
  obtain ⟨⟨floatA, doubleA, longA⟩, floatB, doubleB, longB⟩ := known
  simp only [floatA, doubleA, longA, floatB, doubleB, longB, decide_false, Bool.or_self, Bool.false_eq_true, if_false]
  by_cases half : a = .float16 ∨ b = .float16
  · simpa [half] using commonType_ne_float16 equal half
  rw [if_neg (by simpa using half), if_neg half]
  have intA : a.isInteger = true := by
    rcases arithA with int | eq | eq | eq | eq
    · exact int
    · exact absurd (.inl eq) half
    · exact absurd eq floatA
    · exact absurd eq doubleA
    · exact absurd eq longA
  have intB : b.isInteger = true := by
    rcases arithB with int | eq | eq | eq | eq
    · exact int
    · exact absurd (.inr eq) half
    · exact absurd eq floatB
    · exact absurd eq doubleB
    · exact absurd eq longB
  by_cases wide : isInt a = false ∨ isInt b = false
  · rw [common_wide sizes intA intB wide]
    rcases wide with wide | wide <;> simp [wide]
  · simp only [not_or, Bool.not_eq_false] at wide
    rw [IntExpr.commonType_eq_iff sizes wide.1 wide.2]
    simp [wide.1, wide.2]

/-- No arithmetic type. -/
def View.isOther : View → Bool
  | .arith _ => false
  | _ => true

theorem promote_other {v : View} (other : v.isOther = true) : promote v.core = .basic .int := by
  cases v with
  | arith => cases other
  | _ => rfl

theorem kindOf_other {v : View} (other : v.isOther = true) :
    kindOf v.core ≠ some .longDouble ∧ kindOf v.core ≠ some .double ∧ kindOf v.core ≠ some .float := by
  cases v with
  | arith => cases other
  | _ => simp [View.core, kindOf]

theorem commonType_others {v v' : View} (other : v.isOther = true) (other' : v'.isOther = true)
    (differ : v.core.equal v'.core = false) : commonType v.core v'.core = .basic .int := by
  have bare (v : View) : v.core.removeReference.unqualify = v.core := by cases v <;> rfl
  obtain ⟨long, double, float⟩ := kindOf_other other
  obtain ⟨long', double', float'⟩ := kindOf_other other'
  unfold commonType
  simp only [bare, differ, long, double, float, long', double', float', promote_other other, promote_other other', decide_false,
    Bool.or_self, Bool.false_eq_true, if_false, Ty.equal_refl, if_true]

/-- What is no arithmetic type counts as `int`. -/
theorem commonType_other {t : Ty} {v : View} {k : Kind} (other : v.isOther = true) (e : view t = some (.arith k)) :
    commonType v.core (.basic k) = .basic (taken t) ∧ commonType (.basic k) v.core = .basic (taken t) := by
  obtain ⟨notVoid, notNull, -⟩ := view_kind e
  obtain ⟨long, double, float⟩ := kindOf_other other
  have bare : v.core.removeReference.unqualify = v.core := by cases v <;> rfl
  have apart : v.core.equal (.basic k) = false ∧ (Ty.basic k).equal v.core = false := by
    cases v with
    | arith => cases other
    | void => exact ⟨decide_eq_false (Ne.symm notVoid), decide_eq_false notVoid⟩
    | nullptr => exact ⟨decide_eq_false (Ne.symm notNull), decide_eq_false notNull⟩
    | _ => exact ⟨rfl, rfl⟩
  simp only [taken, e]
  unfold commonType
  rw [bare, show (Ty.basic k).removeReference.unqualify = .basic k from rfl]
  simp only [apart.1, apart.2, long, double, float, promote_other other, decide_false, Bool.false_or, Bool.or_false,
    Bool.false_eq_true, if_false]
  cases k <;> exact ⟨rfl, rfl⟩

theorem taken_other {t : Ty} {v : View} (other : v.isOther = true) (e : view t = some v) : taken t = .int := by
  cases v with
  | arith => cases other
  | _ => simp [taken, e]

/-- **Beside a type that is no arithmetic one** `CommonType` makes `taken` of a type. -/
theorem commonType_beside {t t' : Ty} {v v' : View} (e : view t = some v) (e' : view t' = some v') (other : v.isOther = true)
    (differ : v.core.equal v'.core = false) (differ' : v'.core.equal v.core = false) :
    commonType t t' = .basic (taken t') ∧ commonType t' t = .basic (taken t') := by
  rw [commonType_view e e', commonType_view e' e]
  cases other' : v'.isOther with
  | true =>
    rw [taken_other other' e']
    exact ⟨commonType_others other other' differ, commonType_others other' other differ'⟩
  | false =>
    cases v' with
    | arith k => exact commonType_other other e'
    | _ => cases other'

/-! ### Composite pointer types -/

/-- No type within qualifiers of its own stands at the end. -/
def Flat : Decomposition → Prop
  | .base _ (.qualified ..) => False
  | _ => True

theorem flat_decomposeIn : ∀ (t : Ty) (q : Qual), Flat (t.decomposeIn q)
  | .qualified q' t, q => by
    rw [Ty.decomposeIn]
    exact flat_decomposeIn t (q.union q')
  | .pointer _, _ | .memberPointer _ _, _ | .array .., _ => trivial
  | .basic _, _ | .blockPointer _, _ | .lvalueReference _, _ | .rvalueReference _, _ | .func .., _ | .record _, _
  | .enum .., _ | .dependent _, _ => trivial

theorem flat_decompose (t : Ty) : Flat t.decompose := flat_decomposeIn t {}

theorem Flat.void {a : Decomposition} {q : Qual} (flat : Flat a) (e : a.same (.base q (.basic .void)) = true) :
    a = .base q (.basic .void) := by
  cases a with
  | base q' t =>
    simp only [Decomposition.same, Bool.and_eq_true, decide_eq_true_eq] at e
    obtain ⟨rfl, e⟩ := e
    cases t with
    | qualified => exact flat.elim
    | basic k =>
      simp only [Ty.equal, Ty.strictOther, decide_eq_true_eq] at e
      rw [e]
    | _ => simp [Ty.equal, Ty.strictOther] at e
  | _ => simp [Decomposition.same] at e

theorem mayThrow_equal {f f' : Ty} (e : mayThrow f' f = true) : f.equal f' = false := by
  unfold mayThrow at e
  split at e
  · simp [Ty.equal, Ty.strictOther]
  · cases e

/-- **The composite pointer type is the first** just if the second pointer converts to it. -/
theorem compositeElem_eq_left {cl : Classes} {a b c : Decomposition} (flat : Flat a) (e : compositeElem cl a b = some c) :
    a.same c = true ↔ pointerKeeps cl b a = true := by
  unfold compositeElem at e
  split at e
  · -- the first points to `void`
    split at e
    · rename_i object
      cases e
      simp only [Decomposition.same, pointerKeeps, object, Ty.equal_refl, Bool.and_true, Bool.true_and, decide_eq_true_eq]
      rw [eq_comm, Qual.union_eq_left]
    · cases e
  · -- only the second does
    rename_i q notVoid
    split at e
    · cases e
      have keeps : pointerKeeps cl (.base q (.basic .void)) a = false := by
        unfold pointerKeeps
        split
        · exact absurd rfl (notVoid _)
        · rfl
        · simp_all
        · simp_all
        · simp_all
      simp only [keeps, Bool.false_eq_true, iff_false]
      intro equal
      exact notVoid _ (flat.void equal)
    · cases e
  · -- classes
    rename_i q r q' r' _ _
    simp only [pointerKeeps]
    split at e
    · rename_i equal
      cases e
      simp only [Decomposition.same, equal, Ty.equal_refl, decide_true, Bool.true_or, Bool.and_true, Bool.true_and, decide_eq_true_eq]
      rw [eq_comm, Qual.union_eq_left]
    · rename_i differ
      split at e
      · rename_i base
        cases e
        simp only [Decomposition.same, base, Ty.equal_refl, Bool.or_true, Bool.and_true, Bool.true_and, decide_eq_true_eq]
        rw [eq_comm, Qual.union_eq_left]
      · rename_i noBase
        split at e
        · cases e
          simp [Decomposition.same, Ty.equal, Ty.strictOther, differ, noBase]
        · cases e
  · -- what else no level is taken off
    rename_i q f q' f' void void' records
    have keeps : pointerKeeps cl (.base q' f') (.base q f) =
        if mayThrow f f' then q'.within q else if mayThrow f' f then false
        else (Decomposition.base q' f').keeps (.base q f) := by
      unfold pointerKeeps
      split
      · simp_all
      · simp_all
      · simp_all
      · rename_i same same'
        cases same
        cases same'
        rfl
      · rename_i other
        exact absurd rfl (other q f q' f' rfl)
    rw [keeps]
    split at e
    · rename_i may
      cases e
      simp only [Decomposition.same, may, if_true, Ty.equal_refl, Bool.and_true, decide_eq_true_eq]
      rw [eq_comm, Qual.union_eq_left]
    · rename_i not
      rw [if_neg not]
      split at e
      · rename_i may
        cases e
        simp [Decomposition.same, may, mayThrow_equal may]
      · rename_i not'
        rw [if_neg not']
        simp only [Option.map_eq_some_iff, Prod.exists, exists_and_right, exists_eq_right] at e
        obtain ⟨changed, e⟩ := e
        exact Decomposition.combine_eq_left e
  · rename_i void void' records bases
    have keeps : pointerKeeps cl b a = b.keeps a := by
      unfold pointerKeeps
      split
      · simp_all
      · simp_all
      · exact absurd rfl (bases _ _ _ _ rfl)
      · exact absurd rfl (bases _ _ _ _ rfl)
      · rfl
    rw [keeps]
    simp only [Option.map_eq_some_iff, Prod.exists, exists_and_right, exists_eq_right] at e
    obtain ⟨changed, e⟩ := e
    exact Decomposition.combine_eq_left e

/-! ### What the code gives -/

theorem checkCondExpr_eq {an : Analysis} {cond e2 e3 : Operand} (condition : an.isDependentType cond.info.type = false)
    (scope2 : InScope an e2) (scope3 : InScope an e3) :
    checkCondExpr an cond (some e2) e3 =
      if alike e2 e3 && e2.info.type.unqualify.equal e3.info.type.unqualify then
        { type := qualify e2.info.type.unqualify ((qualsOf e2.info.type).union (qualsOf e3.info.type)),
          valCat := e2.info.valCat }
      else { type := conditionalType e2.info (some e2) e3, valCat := .prValue } := by
  have category : (decide (e2.info.valCat = .lValue) || decide (e2.info.valCat = .xValue)) = e2.info.valCat.glvalue := by
    cases e2.info.valCat <;> rfl
  simp only [checkCondExpr, condition, scope2.independent, scope3.independent, Bool.or_self, Bool.false_eq_true, if_false,
    category, alike]
  rfl

theorem InScope.not_null {an : Analysis} {o : Operand} {v : View} (scope : InScope an o) (e : view o.info.type = some v)
    (other : v.isOther = true) : isNullConstant o = false := by
  cases null : isNullConstant o with
  | false => rfl
  | true =>
    obtain ⟨k, arith⟩ := scope.null null
    rw [e] at arith
    cases arith
    cases other

/-- Of two pointers the code takes the first. -/
theorem conditionalType_pointers {an : Analysis} {e2 e3 : Operand} {a b : Ty} (scope2 : InScope an e2)
    (view2 : view e2.info.type = some (.pointer a)) (view3 : view e3.info.type = some (.pointer b)) :
    conditionalType e2.info (some e2) e3 = .pointer a := by
  have notNull := scope2.not_null view2 rfl
  have pointer (e : Ty) : isPointer (.pointer e) = true := rfl
  simp only [conditionalType, view_decay view2, view_decay view3, View.core, pointer, Bool.and_self, if_true, Option.any_some,
    notNull, Bool.false_eq_true, if_false, ite_self]

theorem conditionalType_null_right {e2 e3 : Operand} {a : Ty} {v : View} (view2 : view e2.info.type = some (.pointer a))
    (view3 : view e3.info.type = some v) (notPointer : isPointer v.core = false)
    (null : isNullConstant e3 = true ∨ v = .nullptr) : conditionalType e2.info (some e2) e3 = .pointer a := by
  have constant : (isNullConstant e3 || decide (kindOf v.core.unqualify = some .nullptr)) = true := by
    rcases null with null | rfl
    · rw [null, Bool.true_or]
    · rw [Bool.or_eq_true]
      exact .inr rfl
  have core : (View.pointer a).core = .pointer a := rfl
  have pointer : isPointer (.pointer a) = true := rfl
  simp only [conditionalType, view_decay view2, view_decay view3, core, notPointer, pointer, Bool.and_false, Bool.false_eq_true, if_false,
    Bool.true_and, constant, if_true]

theorem conditionalType_null_left {e2 e3 : Operand} {b : Ty} {v : View} (view2 : view e2.info.type = some v)
    (view3 : view e3.info.type = some (.pointer b)) (notPointer : isPointer v.core = false)
    (null : isNullConstant e2 = true ∨ v = .nullptr) : conditionalType e2.info (some e2) e3 = .pointer b := by
  have constant : (isNullConstant e2 || decide (kindOf v.core.unqualify = some .nullptr)) = true := by
    rcases null with null | rfl
    · rw [null, Bool.true_or]
    · rw [Bool.or_eq_true]
      exact .inr rfl
  have core : (View.pointer b).core = .pointer b := rfl
  have pointer : isPointer (.pointer b) = true := rfl
  simp only [conditionalType, view_decay view2, view_decay view3, core, notPointer, pointer, Bool.false_and, Bool.false_eq_true, if_false,
    Option.any_some, Bool.true_and, constant, if_true]

/-- A pointer beside the type is no composite of the two. -/
def unmixed (v : View) (o : Operand) (v' : View) : Prop :=
  isPointer v.core = true → isPointer v'.core = false ∧ isNullConstant o = false ∧ kindOf v'.core.unqualify ≠ some .nullptr

theorem conditionalType_common {e2 e3 : Operand} {v2 v3 : View} (view2 : view e2.info.type = some v2)
    (view3 : view e3.info.type = some v3) (left : unmixed v2 e3 v3) (right : unmixed v3 e2 v2) :
    conditionalType e2.info (some e2) e3 = commonType e2.info.type e3.info.type := by
  simp only [conditionalType, view_decay view2, view_decay view3, Option.any_some]
  cases pointer2 : isPointer v2.core with
  | true =>
    obtain ⟨pointer3, null, kind⟩ := left pointer2
    simp [pointer3, null, kind]
  | false =>
    cases pointer3 : isPointer v3.core with
    | true =>
      obtain ⟨-, null, kind⟩ := right pointer3
      simp [null, kind]
    | false => simp

/-! ### Results that are right -/

/-- An arithmetic type is the same as no other. -/
theorem same_basic {k : Kind} {d : Decomposition} (flat : Flat d) :
    (Ty.basic k).decompose.same d = true ↔ d = .base {} (.basic k) := by
  change (Decomposition.base {} (.basic k)).same d = true ↔ _
  constructor
  · intro e
    cases d with
    | base q t =>
      simp only [Decomposition.same, Bool.and_eq_true, decide_eq_true_eq] at e
      obtain ⟨rfl, e⟩ := e
      cases t with
      | qualified => exact flat.elim
      | basic k' =>
        simp only [Ty.equal, Ty.strictOther, decide_eq_true_eq] at e
        rw [e]
      | _ => simp [Ty.equal, Ty.strictOther] at e
    | _ => simp [Decomposition.same] at e
  · rintro rfl
    exact Decomposition.same_refl _

theorem flat_basic (k : Kind) : Flat (.base {} (.basic k)) := trivial

theorem right_basic {k : Kind} {d : Decomposition} {cat : ValueCategory} (flat : Flat d) :
    Right { type := .basic k, valCat := .prValue } (d, cat) ↔ d = .base {} (.basic k) ∧ cat = .prValue := by
  simp only [Right, same_basic flat, eq_comm]

theorem not_right_of_glvalue {t : Ty} {d : Decomposition} {cat : ValueCategory} (glvalue : cat.glvalue = true) :
    ¬Right { type := t, valCat := .prValue } (d, cat) := by
  rintro ⟨-, same⟩
  cases same
  cases glvalue

theorem flat_builtin {m : Model} (selected : Builtin) : Flat (selected.type m) := by
  cases selected <;> trivial

theorem valueOf_basic {m : Model} {cl : Classes} {x y : Operand} {k : Kind} {d : Decomposition} (arith : k ≠ .nullptr)
    (value : valueOf m cl x y = some d) : (Ty.basic k).decompose.same d = true ↔
      (match view x.info.type, view y.info.type with
        | some (.arith a), some (.arith b) => decide (usual m a b = k)
        | _, _ => false) = true := by
  have base (k' : Kind) : (Ty.basic k).decompose.same (.base {} (.basic k')) = true ↔ k' = k := by
    rw [same_basic (show Flat (.base {} (.basic k')) from trivial)]
    simp
  have pointer (e : Decomposition) : (Ty.basic k).decompose.same (.pointer {} e) = false := by
    rfl
  unfold valueOf at value
  split at value
  · rename_i viewX viewY
    cases value
    rw [base, viewX, viewY, decide_eq_true_eq]
  · rename_i viewX viewY
    cases value
    rw [base, viewX, viewY]
    simpa using arith.symm
  · rename_i viewX viewY
    split at value
    · cases value
      rw [base, viewX, viewY]
      simpa using arith.symm
    · cases value
  · rename_i viewX viewY
    split at value
    · cases value
      rw [base, viewX, viewY]
      simpa using arith.symm
    · cases value
  · rename_i viewX viewY
    simp only [Option.map_eq_some_iff] at value
    obtain ⟨e, -, rfl⟩ := value
    rw [pointer, viewX, viewY]
  · rename_i viewX viewY
    cases value
    rw [pointer, viewX, viewY]
  · rename_i viewX viewY
    split at value
    · cases value
      rw [pointer, viewX, viewY]
    · cases value
  · rename_i viewX viewY
    cases value
    rw [pointer, viewX, viewY]
  · rename_i viewX viewY
    split at value
    · cases value
      rw [pointer, viewX, viewY]
    · cases value
  · rename_i viewX viewY
    split at value
    · cases value
      rw [same_basic (flat_decompose _), decompose_view viewX, viewX, viewY]
      simp [View.decomposition, View.core]
    · cases value
  · cases value

/-- **What is settled by conversions of a class**: the code's arithmetic type is right just if they lead to it. -/
theorem right_settled {m : Model} {cl : Classes} {e2 e3 : Operand} {k : Kind} {r : Decomposition × ValueCategory}
    (arith : k ≠ .nullptr) (std : ((unified cl e2 e3).bind fun (x, y) => outcome m cl x y) = some r) :
    Right { type := .basic k, valCat := .prValue } r ↔ settledAs m cl e2 e3 k = true := by
  rw [Option.bind_eq_some_iff] at std
  obtain ⟨⟨x, y⟩, eq, std⟩ := std
  simp only [settledAs, eq]
  simp only [outcome] at std
  split at std
  · rename_i glvalues
    cases std
    rw [if_pos glvalues]
    simp only [alike, Bool.and_eq_true] at glvalues
    simpa using not_right_of_glvalue glvalues.1.2
  · rename_i notGlvalues
    rw [if_neg notGlvalues]
    split at std
    · rename_i needs
      rw [if_pos needs]
      rw [Option.map_eq_some_iff] at std
      obtain ⟨selected, found, rfl⟩ := std
      rw [found, right_basic (flat_builtin selected)]
      cases selected <;> simp [Builtin.type]
    · rename_i notNeeds
      rw [if_neg notNeeds]
      rw [Option.map_eq_some_iff] at std
      obtain ⟨d, value, rfl⟩ := std
      rw [← valueOf_basic arith value]
      simp [Right]

/-! ### Beside a throw-expression -/

theorem isVoid_iff {t : Ty} {v : View} (e : view t = some v) : isVoid t = true ↔ v = .void := by
  unfold isVoid
  rw [e]
  cases v <;> simp

theorem isClass_iff {t : Ty} {v : View} (e : view t = some v) : isClass t = true ↔ ∃ r, v = .record r := by
  unfold isClass
  rw [e]
  cases v <;> simp

theorem taken_ne_nullptr (t : Ty) : taken t ≠ .nullptr := by
  unfold taken
  split
  · split
    · rename_i viewT _
      exact (view_kind viewT).2.1
    · decide
  · decide

theorem valueType_view {t : Ty} {v : View} (e : view t = some v) :
    (valueType t).decompose = v.decomposition (if isClass t then qualsOf t else {}) := by
  unfold valueType
  split
  · exact decompose_view e
  · rw [view_core e]
    cases v <;> rfl

/-- Beside a throw-expression the code's type is right just for what `standsAlone`. -/
theorem right_adjusted {o : Operand} {v : View} (e : view o.info.type = some v) (notVoid : v ≠ .void) :
    Right { type := .basic (taken o.info.type), valCat := .prValue } o.adjusted ↔ standsAlone o = true := by
  unfold Operand.adjusted standsAlone
  split
  · rename_i glvalue
    simpa [glvalue] using not_right_of_glvalue glvalue
  · rename_i value
    rw [right_basic (flat_decompose _), valueType_view e, e]
    have notNull := taken_ne_nullptr o.info.type
    cases v with
    | void => exact absurd rfl notVoid
    | arith k =>
      have notClass : isClass o.info.type = false := by
        simp [isClass, e]
      simp [value, View.decomposition, View.core, notClass, eq_comm]
    | nullptr => simp [View.decomposition, View.core, notNull.symm]
    | pointer elem => simp [View.decomposition]
    | record r => simp [View.decomposition, View.core]

/-- `void` is `Equal` to no other type in question. -/
theorem equal_void {t : Ty} {v : View} (e : view t = some v) (notVoid : v ≠ .void) :
    View.void.core.equal v.core = false ∧ v.core.equal View.void.core = false := by
  cases v with
  | void => exact absurd rfl notVoid
  | arith k =>
    have notVoid := (view_kind e).1
    simp [View.core, Ty.equal, Ty.strictOther, notVoid, notVoid.symm]
  | _ => simp [View.core, Ty.equal, Ty.strictOther]

section

variable {m : Model} {cl : Classes} {an : Analysis} {cond e2 e3 : Operand} {r : Decomposition × ValueCategory}

theorem not_alike_of_void (scope2 : InScope an e2) (void : view e2.info.type = some .void) : alike e2 e3 = false := by
  have category := scope2.void ((isVoid_iff void).2 rfl)
  simp [alike, category, ValueCategory.glvalue]

theorem alike_comm : alike e2 e3 = alike e3 e2 := by
  unfold alike
  by_cases same : e2.info.valCat = e3.info.valCat
  · rw [same]
  · simp [same, Ne.symm same]

theorem void_right (condition : an.isDependentType cond.info.type = false) (scope2 : InScope an e2) (scope3 : InScope an e3)
    (view2 : view e2.info.type = some .void) (view3 : view e3.info.type = some .void) (std : standard m cl e2 e3 = some r) :
    Right (checkCondExpr an cond (some e2) e3) r := by
  rw [checkCondExpr_eq condition scope2 scope3, not_alike_of_void scope2 view2, Bool.false_and, if_neg Bool.false_ne_true,
    conditionalType_common view2 view3 (fun h => by cases h) (fun h => by cases h), commonType_view view2 view3]
  simp only [standard, (isVoid_iff view2).2, (isVoid_iff view3).2, Bool.and_self, if_true, Option.some.injEq] at std
  subst std
  exact ⟨rfl, rfl⟩

theorem throw_left (condition : an.isDependentType cond.info.type = false) (scope2 : InScope an e2) (scope3 : InScope an e3)
    {v : View} (view2 : view e2.info.type = some .void) (view3 : view e3.info.type = some v) (notVoid : v ≠ .void)
    (std : standard m cl e2 e3 = some r) :
    Right (checkCondExpr an cond (some e2) e3) r ↔ standsAlone e3 = true := by
  obtain ⟨differ, differ'⟩ := equal_void view3 notVoid
  have unmixedRight : unmixed v e2 .void := fun _ => ⟨rfl, scope2.not_null view2 rfl, by simp [View.core, Ty.unqualify, kindOf]⟩
  rw [checkCondExpr_eq condition scope2 scope3, not_alike_of_void scope2 view2, Bool.false_and, if_neg Bool.false_ne_true,
    conditionalType_common view2 view3 (fun h => by cases h) unmixedRight, (commonType_beside view2 view3 rfl differ differ').1]
  have void3 : isVoid e3.info.type = false := by
    rw [← Bool.not_eq_true, isVoid_iff view3]
    exact notVoid
  simp only [standard, (isVoid_iff view2).2, void3, Bool.and_false, Bool.false_eq_true, if_false, if_true] at std
  split at std
  · cases std
    exact right_adjusted view3 notVoid
  · cases std

theorem throw_right (condition : an.isDependentType cond.info.type = false) (scope2 : InScope an e2) (scope3 : InScope an e3)
    {v : View} (view2 : view e2.info.type = some v) (view3 : view e3.info.type = some .void) (notVoid : v ≠ .void)
    (std : standard m cl e2 e3 = some r) :
    Right (checkCondExpr an cond (some e2) e3) r ↔ standsAlone e2 = true := by
  obtain ⟨differ, differ'⟩ := equal_void view2 notVoid
  have unmixedLeft : unmixed v e3 .void := fun _ => ⟨rfl, scope3.not_null view3 rfl, by simp [View.core, Ty.unqualify, kindOf]⟩
  rw [checkCondExpr_eq condition scope2 scope3, alike_comm, not_alike_of_void scope3 view3, Bool.false_and,
    if_neg Bool.false_ne_true, conditionalType_common view2 view3 unmixedLeft (fun h => by cases h),
    (commonType_beside view3 view2 rfl differ differ').2]
  have void2 : isVoid e2.info.type = false := by
    rw [← Bool.not_eq_true, isVoid_iff view2]
    exact notVoid
  simp only [standard, (isVoid_iff view3).2, void2, Bool.and_true, Bool.false_eq_true, if_false, if_true] at std
  split at std
  · cases std
    exact right_adjusted view2 notVoid
  · cases std

/-! ### Glvalues that differ in qualifiers -/

theorem isClass_same {v2 v3 : View} (view2 : view e2.info.type = some v2) (view3 : view e3.info.type = some v3)
    (same : sameBare e2.info.type e3.info.type = true) : isClass e2.info.type = isClass e3.info.type := by
  rw [sameBare_view view2 view3] at same
  unfold isClass
  rw [view2, view3]
  cases v2 <;> cases v3 <;> first | rfl | simp [View.decomposition, View.core, Decomposition.same, Ty.equal, Ty.strictOther] at same

/-- Between such glvalues the one conversion adds the other's qualifiers. -/
theorem formed_same (both : alike e2 e3 = true) (classes : isClass e2.info.type = isClass e3.info.type) :
    formed cl true e2 e3 = if (qualsOf e2.info.type).within (qualsOf e3.info.type)
      then some (converted e3.info.type e3.info.valCat) else none := by
  simp only [alike, Bool.and_eq_true, decide_eq_true_eq] at both
  obtain ⟨category, glvalue⟩ := both
  rw [category] at glvalue
  have binds : bindsDirectly cl true e2 e3.info.valCat e3.info.type =
      (qualsOf e2.info.type).within (qualsOf e3.info.type) := by
    simp only [bindsDirectly, Bool.true_or, if_true, category]
    cases cat : e3.info.valCat with
    | prValue =>
      rw [cat] at glvalue
      cases glvalue
    | lValue => simp
    | xValue => simp
  rw [formed]
  simp only [binds, glvalue, Bool.true_and, classes, Bool.or_self, Bool.and_true]
  cases within : (qualsOf e2.info.type).within (qualsOf e3.info.type) with
  | true => rfl
  | false => cases isClass e3.info.type <;> rfl

/-- **Two glvalues of one category and of types that differ in qualifiers**: a glvalue of the more qualified
type, or a value where neither is the more qualified. -/
theorem standard_similar {v2 v3 : View} (view2 : view e2.info.type = some v2) (view3 : view e3.info.type = some v3)
    (notVoid2 : v2 ≠ .void) (notVoid3 : v3 ≠ .void) (both : alike e2 e3 = true)
    (same : sameBare e2.info.type e3.info.type = true) (std : standard m cl e2 e3 = some r) :
    ((qualsOf e2.info.type).comparable (qualsOf e3.info.type) = true → r.2 = e2.info.valCat ∧
      (v2.decomposition ((qualsOf e2.info.type).union (qualsOf e3.info.type))).same r.1 = true) ∧
    ((qualsOf e2.info.type).comparable (qualsOf e3.info.type) = false → r.2 = .prValue ∧
      (isClass e2.info.type = false → valueOf m cl e2 e3 = some r.1)) := by
  have void2 : isVoid e2.info.type = false := by
    rw [← Bool.not_eq_true, isVoid_iff view2]
    exact notVoid2
  have void3 : isVoid e3.info.type = false := by
    rw [← Bool.not_eq_true, isVoid_iff view3]
    exact notVoid3
  have classes := isClass_same view2 view3 same
  have both' : alike e3 e2 = true := alike_comm ▸ both
  obtain ⟨category, glvalue⟩ : e2.info.valCat = e3.info.valCat ∧ e2.info.valCat.glvalue = true := by
    simpa [alike] using both
  simp only [standard, void2, void3, Bool.and_self, Bool.false_eq_true, if_false] at std
  have bare : (v2.decomposition {}).same (v3.decomposition {}) = true := sameBare_view view2 view3 ▸ same
  have second (q : Qual) (eq : q = qualsOf e3.info.type) : (v2.decomposition q).same e3.info.type.decompose = true := by
    rw [Decomposition.same_iff, decompose_view view3]
    simpa using ⟨eq, bare⟩
  by_cases quals : qualsOf e2.info.type = qualsOf e3.info.type
  · -- one type
    have one : sameType e2.info.type e3.info.type = true := (sameType_iff view2 view3).2 ⟨quals, same⟩
    simp only [unified, attempts, one, Bool.not_true, Bool.false_and, Bool.false_eq_true, if_false, Option.bind_some, outcome, both,
      Bool.and_self, if_true, Option.some.injEq] at std
    subst std
    refine ⟨fun _ => ⟨rfl, ?_⟩, fun no => ?_⟩
    · rw [quals, Qual.union_self, ← quals, ← decompose_view view2]
      exact Decomposition.same_refl _
    · simp [quals, Qual.comparable] at no
  have differ : sameType e2.info.type e3.info.type = false := by
    rw [← Bool.not_eq_true, sameType_iff view2 view3]
    exact fun h => quals h.1
  simp only [unified, attempts, differ, both, same, Bool.not_false, Bool.and_self, Bool.or_true, if_true,
    formed_same both classes, formed_same both' classes.symm] at std
  cases into3 : (qualsOf e2.info.type).within (qualsOf e3.info.type) with
  | true =>
    cases into2 : (qualsOf e3.info.type).within (qualsOf e2.info.type) with
    | true => exact absurd (Qual.eq_of_within into3 into2) quals
    | false =>
      have again : sameType e3.info.type e3.info.type = true := Decomposition.same_refl _
      simp only [into3, into2, if_true, Bool.false_eq_true, if_false, Option.bind_some, outcome, alike, converted, again,
        decide_true, ← category, glvalue, Bool.and_self, Option.some.injEq] at std
      subst std
      refine ⟨fun _ => ⟨rfl, second _ (Qual.union_eq_right.2 into3)⟩, fun no => ?_⟩
      simp [Qual.comparable, into3] at no
  | false =>
    cases into2 : (qualsOf e3.info.type).within (qualsOf e2.info.type) with
    | true =>
      have again : sameType e2.info.type e2.info.type = true := Decomposition.same_refl _
      simp only [into3, into2, if_true, Bool.false_eq_true, if_false, Option.bind_some, outcome, alike, converted, again,
        decide_true, glvalue, Bool.and_self, Option.some.injEq] at std
      subst std
      refine ⟨fun _ => ⟨rfl, ?_⟩, fun no => ?_⟩
      · rw [Qual.union_eq_left.2 into2, ← decompose_view view2]
        exact Decomposition.same_refl _
      · simp [Qual.comparable, into2] at no
    | false =>
      simp only [into3, into2, Bool.false_eq_true, if_false, Option.bind_some, outcome, differ, Bool.and_false] at std
      refine ⟨fun yes => ?_, fun _ => ?_⟩
      · simp [Qual.comparable, into3, into2] at yes
      · split at std
        · rename_i needs
          rw [Option.map_eq_some_iff] at std
          obtain ⟨selected, -, rfl⟩ := std
          refine ⟨rfl, fun notClass => ?_⟩
          simp [needsBuiltin, notClass, ← classes] at needs
        · rw [Option.map_eq_some_iff] at std
          obtain ⟨d, value, rfl⟩ := std
          exact ⟨rfl, fun _ => value⟩

theorem decompose_qualify (v : View) (q : Qual) : (qualify v.core q).decompose = v.decomposition q := by
  unfold qualify
  by_cases empty : q = {}
  · rw [if_pos empty, empty]
    cases v <;> rfl
  · rw [if_neg empty]
    cases v <;> simp [View.core, Ty.isReference, Ty.unqualify, Ty.decompose, Ty.decomposeIn, View.decomposition]

theorem pointers_of_same {v2 v3 : View} (same : (v2.decomposition {}).same (v3.decomposition {}) = true)
    (differ : v2.core.equal v3.core = false) : ∃ a b, v2 = .pointer a ∧ v3 = .pointer b := by
  cases v2 <;> cases v3 <;> simp_all [View.decomposition, View.core, Decomposition.same]

theorem pointerKeeps_of_same {a b : Decomposition} (flatA : Flat a) (flatB : Flat b) (same : a.same b = true) :
    pointerKeeps cl b a = true := by
  unfold pointerKeeps
  split
  · cases b with
    | base q' t =>
      simp only [Decomposition.same, Bool.and_eq_true, decide_eq_true_eq] at same
      obtain ⟨rfl, equal⟩ := same
      cases t with
      | qualified => exact flatB.elim
      | basic k => simp [Decomposition.isObject, Decomposition.quals]
      | _ => simp [Ty.equal, Ty.strictOther] at equal
    | _ => simp [Decomposition.same] at same
  · rename_i notVoid
    exact absurd (flatA.void same) (notVoid _)
  · simp_all [Decomposition.same, Ty.equal, Ty.strictOther]
  · rename_i q f q' f' _ _ _
    simp only [Decomposition.same, Bool.and_eq_true, decide_eq_true_eq] at same
    obtain ⟨rfl, equal⟩ := same
    split
    · exact Qual.within_refl q
    · split
      · rename_i may
        rw [mayThrow_equal may] at equal
        cases equal
      · exact Decomposition.keeps_of_same (by simp [Decomposition.same, equal])
  · exact Decomposition.keeps_of_same same

/-- **Glvalues of one category and of types that differ in qualifiers at most**: the code is right just if
`Equal` sees that and one has all qualifiers of the other, or neither. -/
theorem similar_right {v2 v3 : View} (condition : an.isDependentType cond.info.type = false) (scope2 : InScope an e2)
    (scope3 : InScope an e3) (view2 : view e2.info.type = some v2) (view3 : view e3.info.type = some v3)
    (notVoid2 : v2 ≠ .void) (notVoid3 : v3 ≠ .void) (both : alike e2 e3 = true)
    (same : sameBare e2.info.type e3.info.type = true) (std : standard m cl e2 e3 = some r) :
    Right (checkCondExpr an cond (some e2) e3) r ↔
      e2.info.type.unqualify.equal e3.info.type.unqualify =
        (qualsOf e2.info.type).comparable (qualsOf e3.info.type) := by
  obtain ⟨qualified, unrelated⟩ := standard_similar view2 view3 notVoid2 notVoid3 both same std
  have glvalue : e2.info.valCat.glvalue = true := by
    simp only [alike, Bool.and_eq_true] at both
    exact both.2
  rw [checkCondExpr_eq condition scope2 scope3, both, Bool.true_and]
  cases equal : e2.info.type.unqualify.equal e3.info.type.unqualify with
  | true =>
    rw [if_pos rfl, eq_comm]
    cases quals : (qualsOf e2.info.type).comparable (qualsOf e3.info.type) with
    | true =>
      obtain ⟨category, type⟩ := qualified quals
      simp only [iff_true]
      refine ⟨?_, category.symm⟩
      rw [view_core view2, decompose_qualify]
      exact type
    | false =>
      simp only [Bool.false_eq_true, iff_false]
      rintro ⟨-, category⟩
      simp only at category
      rw [category, (unrelated quals).1] at glvalue
      cases glvalue
  | false =>
    rw [if_neg Bool.false_ne_true, eq_comm]
    cases quals : (qualsOf e2.info.type).comparable (qualsOf e3.info.type) with
    | true =>
      simp only [Bool.true_eq_false, iff_false]
      rintro ⟨-, category⟩
      simp only at category
      rw [← (qualified quals).1, ← category] at glvalue
      cases glvalue
    | false =>
      simp only [iff_true]
      rw [sameBare_view view2 view3] at same
      rw [view_core view2, view_core view3] at equal
      obtain ⟨a, b, rfl, rfl⟩ := pointers_of_same same equal
      have notClass : isClass e2.info.type = false := by
        simp [isClass, view2]
      have value := (unrelated quals).2 notClass
      rw [conditionalType_pointers scope2 view2 view3]
      simp only [valueOf, view2, view3, Option.map_eq_some_iff] at value
      obtain ⟨c, composite, eq⟩ := value
      refine ⟨?_, (unrelated quals).1.symm⟩
      rw [← eq]
      have elems : a.decompose.same b.decompose = true := by
        simpa [View.decomposition, Decomposition.same] using same
      have kept : pointerKeeps cl b.decompose a.decompose = true :=
        pointerKeeps_of_same (flat_decompose a) (flat_decompose b) elems
      have first := (compositeElem_eq_left (flat_decompose a) composite).2 kept
      simpa [Ty.decompose, Ty.decomposeIn, Decomposition.same] using first

/-! ### The other operands -/

theorem isVoid_eq_false {t : Ty} {v : View} (e : view t = some v) (notVoid : v ≠ .void) : isVoid t = false := by
  rw [← Bool.not_eq_true, isVoid_iff e]
  exact notVoid

theorem standard_unified {v2 v3 : View} (view2 : view e2.info.type = some v2) (view3 : view e3.info.type = some v3)
    (notVoid2 : v2 ≠ .void) (notVoid3 : v3 ≠ .void) :
    standard m cl e2 e3 = (unified cl e2 e3).bind fun (x, y) => outcome m cl x y := by
  simp only [standard, isVoid_eq_false view2 notVoid2, isVoid_eq_false view3 notVoid3, Bool.and_self, Bool.false_eq_true, if_false]

/-- The code's answer is a value unless the types only differ in qualifiers. -/
theorem checkCondExpr_value {v2 v3 : View} (condition : an.isDependentType cond.info.type = false) (scope2 : InScope an e2)
    (scope3 : InScope an e3) (view2 : view e2.info.type = some v2) (view3 : view e3.info.type = some v3)
    (apart : (alike e2 e3 && sameBare e2.info.type e3.info.type) = false) :
    checkCondExpr an cond (some e2) e3 = { type := conditionalType e2.info (some e2) e3, valCat := .prValue } := by
  have decomposed (v : View) : v.core.decomposeIn {} = v.decomposition {} := by cases v <;> rfl
  rw [checkCondExpr_eq condition scope2 scope3, if_neg]
  intro both
  rw [Bool.and_eq_true, view_core view2, view_core view3] at both
  have same := Ty.same_of_equal _ _ {} both.2
  rw [decomposed, decomposed, ← sameBare_view view2 view3] at same
  rw [both.1, same] at apart
  cases apart

/-- Without classes the result is the value of the two operands. -/
theorem standard_value {v2 v3 : View} (view2 : view e2.info.type = some v2) (view3 : view e3.info.type = some v3)
    (notVoid2 : v2 ≠ .void) (notVoid3 : v3 ≠ .void) (notClass2 : isClass e2.info.type = false)
    (notClass3 : isClass e3.info.type = false)
    (apart : (alike e2 e3 && sameBare e2.info.type e3.info.type) = false) (std : standard m cl e2 e3 = some r) :
    valueOf m cl e2 e3 = some r.1 ∧ r.2 = .prValue := by
  have notOne : (alike e2 e3 && sameType e2.info.type e3.info.type) = false := by
    rw [← Bool.not_eq_true, Bool.and_eq_true, sameType_iff view2 view3]
    rintro ⟨both, -, same⟩
    rw [both, same] at apart
    cases apart
  rw [standard_unified view2 view3 notVoid2 notVoid3] at std
  simp only [unified, attempts, notClass2, notClass3, apart, Bool.or_self, Bool.and_false, Bool.false_eq_true, if_false,
    Option.bind_some, outcome, notOne, needsBuiltin, Option.map_eq_some_iff] at std
  obtain ⟨d, value, rfl⟩ := std
  exact ⟨value, rfl⟩

theorem formed_class (cl : Classes) (e3 : Operand) (class2 : isClass e2.info.type = true) :
    ((qualsOf e2.info.type).within (qualsOf e3.info.type) = false → formed cl true e2 e3 = none) ∧
    ((qualsOf e2.info.type).within (qualsOf e3.info.type) = true →
      ∃ cat, formed cl true e2 e3 = some (converted e3.info.type cat)) := by
  constructor
  · intro within
    simp [formed, bindsDirectly, within, class2]
  · intro within
    simp only [formed, class2, within, Bool.true_or, Bool.not_true, Bool.false_eq_true, if_false, Bool.and_self, if_true]
    split
    · exact ⟨_, rfl⟩
    · exact ⟨_, rfl⟩

theorem outcome_class {x y : Operand} {c : Nat} (viewX : view x.info.type = some (.record c))
    (viewY : view y.info.type = some (.record c)) (one : sameType x.info.type y.info.type = true)
    (std : outcome m cl x y = some r) : r.1 = x.info.type.decompose := by
  simp only [outcome, one, needsBuiltin, Bool.not_true, Bool.false_and, Bool.and_true, Bool.false_eq_true, if_false, valueOf, viewX,
    viewY, if_true, Option.map_some] at std
  split at std <;> cases std <;> rfl

/-- **Operands of one class**: the code is right just if neither has qualifiers. -/
theorem class_right {c : Nat} (condition : an.isDependentType cond.info.type = false) (scope2 : InScope an e2)
    (scope3 : InScope an e3) (view2 : view e2.info.type = some (.record c)) (view3 : view e3.info.type = some (.record c))
    (apart : (alike e2 e3 && sameBare e2.info.type e3.info.type) = false) (std : standard m cl e2 e3 = some r) :
    Right (checkCondExpr an cond (some e2) e3) r ↔ qualsOf e2.info.type = {} ∧ qualsOf e3.info.type = {} := by
  have bare : sameBare e2.info.type e3.info.type = true := by
    rw [sameBare_view view2 view3]
    exact Decomposition.same_refl _
  have notBoth : alike e2 e3 = false := by
    rw [bare, Bool.and_true] at apart
    exact apart
  have class2 : isClass e2.info.type = true := (isClass_iff view2).2 ⟨c, rfl⟩
  have class3 : isClass e3.info.type = true := (isClass_iff view3).2 ⟨c, rfl⟩
  have code : checkCondExpr an cond (some e2) e3 = { type := .record c, valCat := .prValue } := by
    rw [checkCondExpr_value condition scope2 scope3 view2 view3 apart,
      conditionalType_common view2 view3 (fun h => by cases h) (fun h => by cases h), commonType_view view2 view3]
    simp [View.core, commonType, Ty.removeReference, Ty.unqualify]
  have record (q : Qual) : (Ty.record c).decompose.same (.base q (.record c)) = true ↔ q = {} := by
    change (Decomposition.base {} (.record c)).same _ = true ↔ _
    simp [Decomposition.same, eq_comm]
  have notRight {t : Ty} (viewT : view t = some (.record c)) (qualified : qualsOf t ≠ {}) (type : r.1 = t.decompose) :
      ¬Right { type := .record c, valCat := .prValue } r := by
    rintro ⟨same, -⟩
    rw [type, decompose_view viewT] at same
    exact qualified ((record _).1 same)
  rw [code]
  rw [standard_unified view2 view3 (by simp) (by simp)] at std
  by_cases quals : qualsOf e2.info.type = qualsOf e3.info.type
  · have one : sameType e2.info.type e3.info.type = true := (sameType_iff view2 view3).2 ⟨quals, bare⟩
    simp only [unified, attempts, one, Bool.not_true, Bool.false_and, Bool.false_eq_true, if_false, Option.bind_some, outcome,
      notBoth, needsBuiltin, valueOf, view2, view3, if_true, Option.map_some, Option.some.injEq] at std
    subst std
    rw [← quals, and_self]
    simp only [Right, and_true]
    rw [decompose_view view2]
    exact record _
  have differ : sameType e2.info.type e3.info.type = false := by
    rw [← Bool.not_eq_true, sameType_iff view2 view3]
    exact fun h => quals h.1
  have notEmpty : ¬(qualsOf e2.info.type = {} ∧ qualsOf e3.info.type = {}) := by
    rintro ⟨empty2, empty3⟩
    exact quals (empty2.trans empty3.symm)
  simp only [notEmpty, iff_false]
  rw [Option.bind_eq_some_iff] at std
  obtain ⟨⟨x, y⟩, found, std⟩ := std
  simp only [unified, attempts, differ, class2, bare, Bool.not_false, Bool.true_or, Bool.and_self, if_true] at found
  obtain ⟨none3, some3⟩ := formed_class cl e3 class2
  obtain ⟨none2, some2⟩ := formed_class cl e2 class3
  cases into3 : (qualsOf e2.info.type).within (qualsOf e3.info.type) with
  | true =>
    have out2 : (qualsOf e3.info.type).within (qualsOf e2.info.type) = false := by
      rw [← Bool.not_eq_true]
      exact fun into2 => quals (Qual.eq_of_within into3 into2)
    obtain ⟨cat, made⟩ := some3 into3
    rw [made, none2 out2] at found
    cases found
    have type := outcome_class (x := converted e3.info.type cat) view3 view3 (Decomposition.same_refl _) std
    refine notRight view3 (fun empty => ?_) type
    rw [empty] at into3
    exact quals ((Qual.eq_empty_of_within into3).trans empty.symm)
  | false =>
    rw [none3 into3] at found
    cases into2 : (qualsOf e3.info.type).within (qualsOf e2.info.type) with
    | true =>
      obtain ⟨cat, made⟩ := some2 into2
      rw [made] at found
      cases found
      have type := outcome_class (y := converted e2.info.type cat) view2 view2 (Decomposition.same_refl _) std
      refine notRight view2 (fun empty => ?_) type
      rw [empty] at into2
      exact quals (empty.trans (Qual.eq_empty_of_within into2).symm)
    | false =>
      rw [none2 into2] at found
      cases found
      simp only [outcome, differ, Bool.and_false, Bool.false_eq_true, if_false, needsBuiltin, class2, Bool.not_false, Bool.true_or,
        Bool.and_self, if_true, Option.map_eq_some_iff] at std
      obtain ⟨selected, -, rfl⟩ := std
      rintro ⟨same, -⟩
      cases selected <;> simp [Ty.decompose, Ty.decomposeIn, Builtin.type, Decomposition.same, Ty.equal, Ty.strictOther] at same

theorem unmixed_other {v v' : View} {o : Operand} (scope : InScope an o) (e : view o.info.type = some v')
    (other : v'.isOther = true) (notPointer : isPointer v'.core = false) (notNull : v' ≠ .nullptr) : unmixed v o v' := by
  refine fun _ => ⟨notPointer, scope.not_null e other, ?_⟩
  cases v' with
  | nullptr => exact absurd rfl notNull
  | arith => cases other
  | _ => simp [View.core, Ty.unqualify, kindOf]

/-- **An operand of a class beside another type** is right just if user-defined conversions settle it so. -/
theorem class_left {c : Nat} {v : View} (condition : an.isDependentType cond.info.type = false) (scope2 : InScope an e2)
    (scope3 : InScope an e3) (view2 : view e2.info.type = some (.record c)) (view3 : view e3.info.type = some v)
    (notVoid : v ≠ .void) (differ : (View.record c).core.equal v.core = false)
    (differ' : v.core.equal (View.record c).core = false)
    (apart : (alike e2 e3 && sameBare e2.info.type e3.info.type) = false) (std : standard m cl e2 e3 = some r) :
    Right (checkCondExpr an cond (some e2) e3) r ↔ settledAs m cl e2 e3 (taken e3.info.type) = true := by
  rw [checkCondExpr_value condition scope2 scope3 view2 view3 apart,
    conditionalType_common view2 view3 (fun h => by cases h) (unmixed_other scope2 view2 rfl rfl (by simp)),
    (commonType_beside view2 view3 rfl differ differ').1]
  rw [standard_unified view2 view3 (by simp) notVoid] at std
  exact right_settled (taken_ne_nullptr _) std

theorem class_right_of {c : Nat} {v : View} (condition : an.isDependentType cond.info.type = false) (scope2 : InScope an e2)
    (scope3 : InScope an e3) (view2 : view e2.info.type = some v) (view3 : view e3.info.type = some (.record c))
    (notVoid : v ≠ .void) (differ : (View.record c).core.equal v.core = false)
    (differ' : v.core.equal (View.record c).core = false)
    (apart : (alike e2 e3 && sameBare e2.info.type e3.info.type) = false) (std : standard m cl e2 e3 = some r) :
    Right (checkCondExpr an cond (some e2) e3) r ↔ settledAs m cl e2 e3 (taken e2.info.type) = true := by
  rw [checkCondExpr_value condition scope2 scope3 view2 view3 apart,
    conditionalType_common view2 view3 (unmixed_other scope3 view3 rfl rfl (by simp)) (fun h => by cases h),
    (commonType_beside view3 view2 rfl differ differ').2]
  rw [standard_unified view2 view3 notVoid (by simp)] at std
  exact right_settled (taken_ne_nullptr _) std

/-- **Without classes**: pointers, null pointer constants and arithmetic values. -/
theorem scalar_right {v2 v3 : View} (sizes : m.Sizes) (condition : an.isDependentType cond.info.type = false)
    (scope2 : InScope an e2) (scope3 : InScope an e3) (view2 : view e2.info.type = some v2)
    (view3 : view e3.info.type = some v3) (notVoid2 : v2 ≠ .void) (notVoid3 : v3 ≠ .void)
    (notClass2 : ∀ c, v2 ≠ .record c) (notClass3 : ∀ c, v3 ≠ .record c)
    (apart : (alike e2 e3 && sameBare e2.info.type e3.info.type) = false) (std : standard m cl e2 e3 = some r) :
    Right (checkCondExpr an cond (some e2) e3) r ↔ holds m cl e2 e3 = true := by
  have class2 : isClass e2.info.type = false := by
    rw [← Bool.not_eq_true, isClass_iff view2]
    rintro ⟨c, eq⟩
    exact notClass2 c eq
  have class3 : isClass e3.info.type = false := by
    rw [← Bool.not_eq_true, isClass_iff view3]
    rintro ⟨c, eq⟩
    exact notClass3 c eq
  obtain ⟨value, category⟩ := standard_value view2 view3 notVoid2 notVoid3 class2 class3 apart std
  rw [checkCondExpr_value condition scope2 scope3 view2 view3 apart]
  have right (t : Ty) : Right { type := t, valCat := .prValue } r ↔ t.decompose.same r.1 = true := by
    simp [Right, category]
  rw [right]
  simp only [valueOf, view2, view3] at value
  simp only [holds, view2, view3, apart]
  cases v2 with
  | void => exact absurd rfl notVoid2
  | record c => exact absurd rfl (notClass2 c)
  | pointer a =>
    cases v3 with
    | void => exact absurd rfl notVoid3
    | record c => exact absurd rfl (notClass3 c)
    | pointer b =>
      rw [conditionalType_pointers scope2 view2 view3]
      simp only [Option.map_eq_some_iff] at value
      obtain ⟨c, composite, eq⟩ := value
      rw [← eq]
      simpa [Ty.decompose, Ty.decomposeIn, Decomposition.same] using compositeElem_eq_left (flat_decompose a) composite
    | nullptr =>
      rw [conditionalType_null_right view2 view3 rfl (.inr rfl), ← Option.some.inj value]
      simp [Ty.decompose, Ty.decomposeIn]
    | arith k =>
      simp only [Option.ite_none_right_eq_some, Option.some.injEq] at value
      rw [conditionalType_null_right view2 view3 rfl (.inl value.1), ← value.2]
      simp [Ty.decompose, Ty.decomposeIn]
  | nullptr =>
    cases v3 with
    | void => exact absurd rfl notVoid3
    | record c => exact absurd rfl (notClass3 c)
    | pointer b =>
      rw [conditionalType_null_left view2 view3 rfl (.inr rfl), ← Option.some.inj value]
      simp [Ty.decompose, Ty.decomposeIn]
    | nullptr =>
      rw [conditionalType_common view2 view3 (fun h => by cases h) (fun h => by cases h), commonType_view view2 view3,
        ← Option.some.inj value]
      simp [View.core, commonType, Ty.removeReference, Ty.unqualify, Ty.decompose, Ty.decomposeIn]
    | arith k =>
      simp only [Option.ite_none_right_eq_some, Option.some.injEq] at value
      have notNull := (view_kind view3).2.1
      rw [conditionalType_common view2 view3 (fun h => by cases h) (fun h => by cases h),
        (commonType_beside view2 view3 rfl (by simp [View.core, Ty.equal, Ty.strictOther, notNull.symm])
          (by simp [View.core, Ty.equal, Ty.strictOther, notNull])).1, ← value.2, same_basic (flat_basic _)]
      simpa using (taken_ne_nullptr _).symm
  | arith k =>
    cases v3 with
    | void => exact absurd rfl notVoid3
    | record c => exact absurd rfl (notClass3 c)
    | pointer b =>
      simp only [Option.ite_none_right_eq_some, Option.some.injEq] at value
      rw [conditionalType_null_left view2 view3 rfl (.inl value.1), ← value.2]
      simp [Ty.decompose, Ty.decomposeIn]
    | nullptr =>
      simp only [Option.ite_none_right_eq_some, Option.some.injEq] at value
      have notNull := (view_kind view2).2.1
      rw [conditionalType_common view2 view3 (fun h => by cases h) (fun h => by cases h),
        (commonType_beside view3 view2 rfl (by simp [View.core, Ty.equal, Ty.strictOther, notNull.symm])
          (by simp [View.core, Ty.equal, Ty.strictOther, notNull])).2, ← value.2, same_basic (flat_basic _)]
      simpa using (taken_ne_nullptr _).symm
    | arith k' =>
      rw [conditionalType_common view2 view3 (fun h => by cases h) (fun h => by cases h)]
      change _ ↔ arithKept m k k' = true
      rw [← Option.some.inj value, ← commonType_arith sizes view2 view3]
      obtain ⟨common, eq⟩ := commonType_isBasic view2 view3
      rw [eq, same_basic (flat_basic _)]
      simp [eq_comm]

/-! ### Swapping the operands -/

/-- The arithmetic types that `CommonType` goes by the rank of. -/
def rankedKinds : List Kind := ([.float16, .int128, .uInt128] : List Kind) ++ IntExpr.intKinds

theorem commonType_comm_table : ∀ a ∈ rankedKinds, ∀ b ∈ rankedKinds,
    (IntExpr.commonType a b = IntExpr.commonType b a ↔ ordered a b = true) := by
  decide

theorem mem_rankedKinds {k : Kind} (arith : k.isInteger = true ∨ k ∈ [Kind.float16, .float, .double, .longDouble])
    (unknown : k ∉ [Kind.float, .double, .longDouble]) : k ∈ rankedKinds := by
  revert arith unknown
  cases k <;> decide

theorem commonType_comm_arith {t t' : Ty} {a b : Kind} (viewA : view t = some (.arith a)) (viewB : view t' = some (.arith b)) :
    sameType (commonType t t') (commonType t' t) = true ↔ ordered a b = true := by
  rw [commonType_view viewA viewB, commonType_view viewB viewA]
  simp only [View.core]
  by_cases known : a ∈ [Kind.float, .double, .longDouble] ∨ b ∈ [Kind.float, .double, .longDouble]
  · have order : ordered a b = true := by
      simp only [List.mem_cons, List.not_mem_nil, or_false] at known
      rcases known with (rfl | rfl | rfl) | (rfl | rfl | rfl) <;> simp [ordered]
    rw [commonType_known known, commonType_known known.symm, order, sameType]
    by_cases equal : a = b
    · simp [equal]
    rw [if_neg equal, if_neg (Ne.symm equal)]
    simp [or_comm]
  · rw [commonType_basic known, commonType_basic (fun h => known h.symm), sameType, same_basic (flat_decompose _)]
    rw [not_or] at known
    rw [← commonType_comm_table a (mem_rankedKinds (view_kind viewA).2.2 known.1) b (mem_rankedKinds (view_kind viewB).2.2 known.2)]
    simp [Ty.decompose, Ty.decomposeIn, eq_comm]

/-- `CommonType` is symmetric beside a type that is no arithmetic one. -/
theorem commonType_comm_other {t t' : Ty} {v v' : View} (e : view t = some v) (e' : view t' = some v') (other : v.isOther = true)
    (flat : t.flat = true) (flat' : t'.flat = true) :
    sameType (commonType t t') (commonType t' t) = true ∧ sameType (commonType t' t) (commonType t t') = true := by
  have core (t : Ty) (v : View) (e : view t = some v) (flat : t.flat = true) : v.core.flat = true := by
    rw [← view_core e]
    cases t with
    | qualified q u =>
      simp only [Ty.flat, Bool.and_eq_true] at flat
      exact flat.2
    | _ => exact flat
  have comm := Ty.equal_comm (core t v e flat) (core t' v' e' flat')
  cases equal : v.core.equal v'.core with
  | false =>
    obtain ⟨left, right⟩ := commonType_beside e e' other equal (comm ▸ equal)
    rw [left, right]
    exact ⟨Decomposition.same_refl _, Decomposition.same_refl _⟩
  | true =>
    have bare (v : View) : v.core.removeReference.unqualify = v.core := by cases v <;> rfl
    rw [commonType_view e e', commonType_view e' e]
    unfold commonType
    rw [bare, bare, if_pos equal, if_pos (comm ▸ equal)]
    exact ⟨Ty.same_of_equal _ _ {} equal, Ty.same_of_equal _ _ {} (comm ▸ equal)⟩

/-- Beside what is no pointer, a pointer gives one type in either order. -/
theorem pointer_swap {a : Ty} {v : View} (scope2 : InScope an e2) (scope3 : InScope an e3)
    (view2 : view e2.info.type = some (.pointer a)) (view3 : view e3.info.type = some v)
    (notPointer : isPointer v.core = false) :
    sameType (conditionalType e2.info (some e2) e3) (conditionalType e3.info (some e3) e2) = true ∧
      sameType (conditionalType e3.info (some e3) e2) (conditionalType e2.info (some e2) e3) = true := by
  by_cases null : isNullConstant e3 = true ∨ v = .nullptr
  · rw [conditionalType_null_right view2 view3 notPointer null, conditionalType_null_left view3 view2 notPointer null]
    exact ⟨Decomposition.same_refl _, Decomposition.same_refl _⟩
  · rw [not_or, Bool.not_eq_true] at null
    have notNull : kindOf v.core.unqualify ≠ some .nullptr := by
      cases v with
      | nullptr => exact absurd rfl null.2
      | arith k =>
        have kind := (view_kind view3).2.1
        simpa [View.core, Ty.unqualify, kindOf] using kind
      | _ => simp [View.core, Ty.unqualify, kindOf]
    have left : unmixed (.pointer a) e3 v := fun _ => ⟨notPointer, null.1, notNull⟩
    have right : unmixed v e2 (.pointer a) := fun h => by rw [notPointer] at h; cases h
    rw [conditionalType_common view2 view3 left right, conditionalType_common view3 view2 right left]
    exact commonType_comm_other view2 view3 rfl scope2.flat scope3.flat

/-- Of operands no two of which are pointers: the order matters only to arithmetic types. -/
theorem value_swap {v2 v3 : View} (scope2 : InScope an e2) (scope3 : InScope an e3) (view2 : view e2.info.type = some v2)
    (view3 : view e3.info.type = some v3) (notPointer2 : isPointer v2.core = false) (notPointer3 : isPointer v3.core = false) :
    sameType (conditionalType e2.info (some e2) e3) (conditionalType e3.info (some e3) e2) = true ↔ swaps e2 e3 = true := by
  have left : unmixed v2 e3 v3 := fun h => by rw [notPointer2] at h; cases h
  have right : unmixed v3 e2 v2 := fun h => by rw [notPointer3] at h; cases h
  rw [conditionalType_common view2 view3 left right, conditionalType_common view3 view2 right left]
  cases other2 : v2.isOther with
  | true =>
    have comm := (commonType_comm_other view2 view3 other2 scope2.flat scope3.flat).1
    simp only [comm, swaps, view2, view3, true_iff]
    cases v2 <;> cases v3 <;> first | rfl | (cases other2; done) | cases notPointer2
  | false =>
    cases v2 with
    | arith a =>
      cases v3 with
      | arith b =>
        rw [commonType_comm_arith view2 view3]
        simp only [swaps, view2, view3]
      | _ =>
        have comm := (commonType_comm_other view3 view2 rfl scope3.flat scope2.flat).2
        simp [comm, swaps, view2, view3]
    | _ => cases other2

/-- **Swapping the operands** keeps the type just if they are no two different pointers or arithmetic types
without order. -/
theorem swap_iff (condition : an.isDependentType cond.info.type = false) (scope2 : InScope an e2) (scope3 : InScope an e3) :
    sameType (checkCondExpr an cond (some e2) e3).type (checkCondExpr an cond (some e3) e2).type = true ↔
      swaps e2 e3 = true := by
  obtain ⟨v2, view2⟩ := Option.isSome_iff_exists.1 scope2.type
  obtain ⟨v3, view3⟩ := Option.isSome_iff_exists.1 scope3.type
  have core (t : Ty) (flat : t.flat = true) : t.unqualify.flat = true := by
    cases t with
    | qualified q u =>
      simp only [Ty.flat, Bool.and_eq_true] at flat
      exact flat.2
    | _ => exact flat
  have comm := Ty.equal_comm (core _ scope2.flat) (core _ scope3.flat)
  have decomposed (v : View) : v.core.decomposeIn {} = v.decomposition {} := by cases v <;> rfl
  rw [checkCondExpr_eq condition scope2 scope3, checkCondExpr_eq condition scope3 scope2, alike_comm, comm]
  cases both : alike e3 e2 && e3.info.type.unqualify.equal e2.info.type.unqualify with
  | true =>
    rw [Bool.and_eq_true, ← comm, view_core view2, view_core view3] at both
    have same := Ty.same_of_equal _ _ {} both.2
    rw [decomposed, decomposed] at same
    simp only [if_true, view_core view2, view_core view3, sameType, decompose_qualify,
      Qual.union_comm (qualsOf e3.info.type) (qualsOf e2.info.type)]
    have result : (v2.decomposition ((qualsOf e2.info.type).union (qualsOf e3.info.type))).same
        (v3.decomposition ((qualsOf e2.info.type).union (qualsOf e3.info.type))) = true := by
      rw [Decomposition.same_iff]
      simpa using same
    rw [result]
    simp only [swaps, view2, view3, true_iff]
    have equal := both.2
    have pointees (a b : Ty) (equal : a.equal b = true) : a.decompose.same b.decompose = true := Ty.same_of_equal a b {} equal
    clear * - equal pointees
    cases v2 <;> cases v3 <;> simp_all [View.core, Ty.equal, Ty.strictOther, ordered]
  | false =>
    simp only [Bool.false_eq_true, if_false]
    cases pointer2 : isPointer v2.core with
    | true =>
      cases v2 with
      | pointer a =>
        cases pointer3 : isPointer v3.core with
        | true =>
          cases v3 with
          | pointer b =>
            rw [conditionalType_pointers scope2 view2 view3, conditionalType_pointers scope3 view3 view2]
            simp [swaps, view2, view3, sameType, Ty.decompose, Ty.decomposeIn, Decomposition.same]
          | _ => cases pointer3
        | false =>
          have one := (pointer_swap scope2 scope3 view2 view3 pointer3).1
          simp only [one, swaps, view2, view3, true_iff]
          cases v3 <;> first | rfl | cases pointer3
      | _ => cases pointer2
    | false =>
      cases pointer3 : isPointer v3.core with
      | true =>
        cases v3 with
        | pointer b =>
          have one := (pointer_swap scope3 scope2 view3 view2 pointer2).2
          simp only [one, swaps, view2, view3, true_iff]
          cases v2 <;> first | rfl | cases pointer2
        | _ => cases pointer3
      | false => exact value_swap scope2 scope3 view2 view3 pointer2 pointer3

/-- **The type and the value category are those of C++** just if the operands meet the condition. -/
theorem right_iff (sizes : m.Sizes) (condition : an.isDependentType cond.info.type = false)
    (scope2 : InScope an e2) (scope3 : InScope an e3) (std : standard m cl e2 e3 = some r) :
    Right (checkCondExpr an cond (some e2) e3) r ↔ holds m cl e2 e3 = true := by
  obtain ⟨v2, view2⟩ := Option.isSome_iff_exists.1 scope2.type
  obtain ⟨v3, view3⟩ := Option.isSome_iff_exists.1 scope3.type
  -- `void`, that is a throw-expression, first
  by_cases void2 : v2 = .void
  · subst void2
    by_cases void3 : v3 = .void
    · subst void3
      simp only [holds, view2, view3, iff_true]
      exact void_right condition scope2 scope3 view2 view3 std
    · rw [throw_left condition scope2 scope3 view2 view3 void3 std]
      simp only [holds, view2, view3]
      cases v3 <;> first | exact absurd rfl void3 | exact Iff.rfl
  by_cases void3 : v3 = .void
  · subst void3
    rw [throw_right condition scope2 scope3 view2 view3 void2 std]
    simp only [holds, view2, view3]
    cases v2 <;> first | exact absurd rfl void2 | exact Iff.rfl
  cases apart : alike e2 e3 && sameBare e2.info.type e3.info.type with
  | true =>
    have both := apart
    rw [Bool.and_eq_true] at both
    rw [similar_right condition scope2 scope3 view2 view3 void2 void3 both.1 both.2 std]
    simp only [holds, view2, view3, apart, if_true]
    cases v2 <;> cases v3 <;> first | exact absurd rfl void2 | exact absurd rfl void3 | simp
  | false =>
    cases v2 with
    | record c =>
      cases v3 with
      | record c' =>
        simp only [holds, view2, view3, apart, Bool.false_eq_true, if_false]
        by_cases one : c = c'
        · subst one
          rw [class_right condition scope2 scope3 view2 view3 apart std]
          simp
        · rw [if_neg one, ← taken_other rfl view3]
          exact class_left condition scope2 scope3 view2 view3 void3 (by simp [View.core, Ty.equal, Ty.strictOther, one])
            (by simp [View.core, Ty.equal, Ty.strictOther, Ne.symm one]) apart std
      | void => exact absurd rfl void3
      | _ =>
        simp only [holds, view2, view3, apart, Bool.false_eq_true, if_false]
        exact class_left condition scope2 scope3 view2 view3 void3 (by simp [View.core, Ty.equal, Ty.strictOther])
          (by simp [View.core, Ty.equal, Ty.strictOther]) apart std
    | void => exact absurd rfl void2
    | _ =>
      cases v3 with
      | record c =>
        simp only [holds, view2, view3, apart, Bool.false_eq_true, if_false]
        exact class_right_of condition scope2 scope3 view2 view3 void2 (by simp [View.core, Ty.equal, Ty.strictOther])
          (by simp [View.core, Ty.equal, Ty.strictOther]) apart std
      | _ => exact scalar_right sizes condition scope2 scope3 view2 view3 void2 void3 (by simp) (by simp) apart std

/-- **The type and the value category are those of C++, and no others when the operands are swapped**, just if
the operands meet the condition. -/
theorem conditional_right_iff (sizes : m.Sizes) (condition : an.isDependentType cond.info.type = false)
    (scope2 : InScope an e2) (scope3 : InScope an e3) (std : standard m cl e2 e3 = some r) :
    Right (checkCondExpr an cond (some e2) e3) r ∧
        sameType (checkCondExpr an cond (some e2) e3).type (checkCondExpr an cond (some e3) e2).type = true ↔
      holds m cl e2 e3 = true ∧ swaps e2 e3 = true := by
  rw [right_iff sizes condition scope2 scope3 std, swap_iff condition scope2 scope3]

end

/-- A unit without templates in progress. -/
def plainUnit : Analysis where
  isDependentType := fun _ => false
  hasDependentBase := fun _ => false
  objcConversion := fun _ _ => none
  deduceParam := fun _ _ => none
  explicit := fun _ _ => false

/-- No class has bases, constructors or conversion functions. -/
def noClasses : Classes where
  base := fun _ _ => false
  binds := fun _ _ _ => false
  converts := fun _ _ => false
  builtin := fun _ _ => none

/-- A variable of a type. -/
def variable_ (t : Ty) : Operand := { expr := .other, info := { type := t, valCat := .lValue } }

/-- `int *p` and `const int *q` -/
def plainPointer : Operand := variable_ (.pointer (.basic .int))
def constPointer : Operand := variable_ (.pointer (.qualified { const := true } (.basic .int)))

theorem inScope_int : InScope plainUnit (variable_ (.basic .int)) where
  type := rfl
  null h := by cases h
  void h := by cases h
  independent := rfl
  flat := rfl

theorem inScope_double : InScope plainUnit (variable_ (.basic .double)) where
  type := rfl
  null h := by cases h
  void h := by cases h
  independent := rfl
  flat := rfl

/-- `c ? n : d` with `int n; double d;` -/
theorem conditional_right_double :
    standard lp64 noClasses (variable_ (.basic .int)) (variable_ (.basic .double)) =
        some (.base {} (.basic .double), .prValue) ∧
      (Right (checkCondExpr plainUnit (variable_ (.basic .bool)) (some (variable_ (.basic .int)))
          (variable_ (.basic .double))) (.base {} (.basic .double), .prValue) ∧
        sameType (checkCondExpr plainUnit (variable_ (.basic .bool)) (some (variable_ (.basic .int)))
            (variable_ (.basic .double))).type
          (checkCondExpr plainUnit (variable_ (.basic .bool)) (some (variable_ (.basic .double)))
            (variable_ (.basic .int))).type = true) := by
  have std : standard lp64 noClasses (variable_ (.basic .int)) (variable_ (.basic .double)) =
      some (.base {} (.basic .double), .prValue) := by
    rfl
  exact ⟨std, (conditional_right_iff lp64_supported.sizes rfl inScope_int inScope_double std).2 ⟨rfl, rfl⟩⟩

/-- `c ? p : q` is an `int *`, where `c ? q : p` and the composite pointer type are `const int *`. -/
theorem conditional_loses_const :
    ∃ r, standard lp64 noClasses plainPointer constPointer = some r ∧
      ¬Right (checkCondExpr plainUnit (variable_ (.basic .bool)) (some plainPointer) constPointer) r ∧
      sameType (checkCondExpr plainUnit (variable_ (.basic .bool)) (some plainPointer) constPointer).type
        (checkCondExpr plainUnit (variable_ (.basic .bool)) (some constPointer) plainPointer).type = false := by
  refine ⟨(.pointer {} (.base { const := true } (.basic .int)), .prValue), ?_, ?_, ?_⟩
  · rfl
  · rintro ⟨same, -⟩
    exact absurd same (by decide)
  · rfl

end Vcx.Conditional
