import Vcx.Sema.Conversion
import Vcx.Types.Similar
import Vcx.Lower.IntExpr

/-!
# Conditional expressions

The type and value category `checkExpr` gives `a ? b : c`, with `conditionalType` and `CommonType` of
`types/compat.go`, and the type and value category C++ gives it. What the classes of the program
convert to is a parameter of the latter.
-/

namespace Vcx.Conditional
set_option autoImplicit false
open Vcx.Types
open Vcx.Constexpr (isSigned)
open Vcx.IntExpr (integerRank)
open Vcx.Sema (Analysis decay qualify qualsOf)

/-! ### Operands -/

/-- `ValueCategory` -/
inductive ValueCategory where
  | prValue | lValue | xValue
  deriving DecidableEq, Repr

/-- `ExprInfo` -/
structure ExprInfo where
  type : Ty
  valCat : ValueCategory
  constVal : Int := 0
  isConst : Bool := false
  deriving Repr

/-- An expression, as far as `isNullConstant` and the rule for a throw-expression look at it. -/
inductive Expr where
  | basicLit (kind : Token.Kind)
  | paren (x : Expr)
  | throwExpr
  | other
  deriving Repr

/-- A subexpression and what `CheckExpr` gives for it. -/
structure Operand where
  expr : Expr
  info : ExprInfo
  deriving Repr

/-- `unparenExpr` -/
def unparenExpr : Expr → Expr
  | .paren x => unparenExpr x
  | e => e

/-- `isNullConstant`: an integer literal with the value zero. -/
def isNullConstant (o : Operand) : Bool :=
  match unparenExpr o.expr with
  | .basicLit kind => kind = .intLit && o.info.isConst && o.info.constVal = 0
  | _ => false

def Operand.isThrow (o : Operand) : Bool :=
  match unparenExpr o.expr with
  | .throwExpr => true
  | _ => false

/-! ### What the code gives -/

/-- `Kind`, of a type that is a `Basic` one. -/
def kindOf : Ty → Option Kind
  | .basic k => some k
  | .qualified _ t => kindOf t
  | _ => none

/-- `IntegerRank` of a type's kind. -/
def rankOf (t : Ty) : Nat := ((kindOf t).map integerRank).getD 0

/-- The promotion within `CommonType`. -/
def promote (t : Ty) : Ty :=
  let t := match t with
    | .enum _ (some k) _ => .basic k
    | .enum _ none _ => .basic .int
    | t => t
  if rankOf t < integerRank .int then .basic .int else t

/-- `CommonType` -/
def commonType (a b : Ty) : Ty :=
  let a := a.removeReference.unqualify
  let b := b.removeReference.unqualify
  if a.equal b then a
  else if kindOf a = some .longDouble || kindOf b = some .longDouble then .basic .longDouble
  else if kindOf a = some .double || kindOf b = some .double then .basic .double
  else if kindOf a = some .float || kindOf b = some .float then .basic .float
  else
    let a := promote a
    let b := promote b
    if a.equal b then a
    else if isSigned a = isSigned b then (if rankOf b < rankOf a then a else b)
    else
      let (signedType, unsignedType) := if isSigned a then (a, b) else (b, a)
      if rankOf signedType ≤ rankOf unsignedType then unsignedType else signedType

def isPointer (t : Ty) : Bool :=
  match t.unqualify with
  | .pointer _ => true
  | _ => false

/-- `conditionalType`; an omitted second operand is none. -/
def conditionalType (thenInfo : ExprInfo) (then_ : Option Operand) (else_ : Operand) : Ty :=
  let t1 := decay thenInfo.type.removeReference
  let t2 := decay else_.info.type.removeReference
  if isPointer t1 && isPointer t2 then
    if t1.unqualify.equal t2.unqualify then t1
    else if isNullConstant else_ then t1
    else if then_.any isNullConstant then t2
    else t1
  else if isPointer t1 && (isNullConstant else_ || kindOf t2.unqualify = some .nullptr) then t1
  else if isPointer t2 && (then_.any isNullConstant || kindOf t1.unqualify = some .nullptr) then t2
  else commonType thenInfo.type else_.info.type

/-- `checkExpr` of a `CondExpr`, from what `CheckExpr` gives for its operands. -/
def checkCondExpr (an : Analysis) (cond : Operand) (then_ : Option Operand) (else_ : Operand) : ExprInfo :=
  let thenInfo := match then_ with
    | some o => o.info
    | none => { cond.info with type := decay cond.info.type.removeReference, valCat := .prValue }
  if an.isDependentType cond.info.type || an.isDependentType thenInfo.type || an.isDependentType else_.info.type then
    { type := .dependent 0, valCat := .prValue }
  else if thenInfo.valCat = else_.info.valCat && (thenInfo.valCat = .lValue || thenInfo.valCat = .xValue) &&
      thenInfo.type.unqualify.equal else_.info.type.unqualify then
    { type := qualify thenInfo.type.unqualify ((qualsOf thenInfo.type).union (qualsOf else_.info.type)),
      valCat := thenInfo.valCat }
  else { type := conditionalType thenInfo then_ else_, valCat := .prValue }

/-! ### What C++ gives -/

/-- The operand types in question. -/
inductive View where
  | void
  | arith (k : Kind)
  | nullptr
  | pointer (elem : Ty)
  | record (r : Nat)
  deriving Repr

/-- A `Basic` type's kind: `void`, `std::nullptr_t`, or an arithmetic one. -/
def viewKind (k : Kind) : Option View :=
  if k = .void then some .void
  else if k = .nullptr then some .nullptr
  else if k.isInteger || k ∈ [.float16, .float, .double, .longDouble] then some (.arith k)
  else none

def view (t : Ty) : Option View :=
  match t.unqualify with
  | .basic k => viewKind k
  | .pointer elem => some (.pointer elem)
  | .record r => some (.record r)
  | _ => none

def isClass (t : Ty) : Bool :=
  match view t with
  | some (.record _) => true
  | _ => false

/-- What overload resolution among the built-in candidates for `?:` selects: two arithmetic types, or one
type for both operands. -/
inductive Builtin where
  | arith (l r : Kind)
  | pointer (elem : Ty)
  | member (cls elem : Ty)
  | enum (id : Nat)
  deriving Repr

/-- What the classes of the program are to each other and convert to. -/
structure Classes where
  /-- The first class is an accessible, unambiguous base of the second. -/
  base : Nat → Nat → Bool
  /-- A conversion function lets a reference to the type, of the category, bind directly. -/
  binds : ExprInfo → ValueCategory → Ty → Bool
  /-- An implicit conversion to the type, by a constructor or a conversion function. -/
  converts : ExprInfo → Ty → Bool
  /-- The built-in candidate that overload resolution selects, if it selects one. -/
  builtin : Operand → Operand → Option Builtin

section

variable (m : Model) (cl : Classes)

def sameType (a b : Ty) : Bool := a.decompose.same b.decompose

/-- The same type but for top-level qualifiers. -/
def sameBare (a b : Ty) : Bool := a.decompose.bare.same b.decompose.bare

def ValueCategory.glvalue (c : ValueCategory) : Bool := c != .prValue

/-- Both are glvalues of one category. -/
def alike (e2 e3 : Operand) : Bool := e2.info.valCat = e3.info.valCat && e2.info.valCat.glvalue

/-- The type is a base class of the other. -/
def baseOf (b d : Ty) : Bool :=
  match view b, view d with
  | some (.record r), some (.record r') => cl.base r r'
  | _, _ => false

/-- A reference to `t`, an lvalue reference or an rvalue reference by the category, binds directly to the
operand; `same` says that the types are the same but for qualifiers. -/
def bindsDirectly (same : Bool) (e : Operand) (cat : ValueCategory) (t : Ty) : Bool :=
  if same || baseOf cl t e.info.type then
    (qualsOf e.info.type).within (qualsOf t) &&
      match cat, e.info.valCat with
      | .lValue, .lValue => true
      | .lValue, .xValue => (qualsOf t).const && !(qualsOf t).volatile
      | .xValue, .xValue => true
      | .xValue, .prValue => isClass e.info.type
      | _, _ => false
  else isClass e.info.type && cl.binds e.info cat t

/-- The type of a value: only a class keeps its qualifiers. -/
def valueType (t : Ty) : Ty := if isClass t then t else t.unqualify

/-- An operand that has been converted. -/
def converted (type : Ty) (valCat : ValueCategory) : Operand := { expr := .other, info := { type, valCat } }

/-- The first operand converted towards the second, if an implicit conversion sequence can be formed. -/
def formed (same : Bool) (e1 e2 : Operand) : Option Operand :=
  let t1 := e1.info.type
  let t2 := e2.info.type
  if e2.info.valCat.glvalue && bindsDirectly cl same e1 e2.info.valCat t2 then some (converted t2 e2.info.valCat)
  else if !(isClass t1 || isClass t2) then none
  else if isClass t1 && same then
    if (qualsOf t1).within (qualsOf t2) then some (converted t2 .prValue) else none
  else if baseOf cl t2 t1 then some (converted (qualify t2.unqualify (qualsOf t1)) .prValue)
  else if cl.converts e1.info (valueType t2) then some (converted (valueType t2) .prValue)
  else none

/-- Conversions are attempted: the types differ, and one is a class or they only differ in qualifiers. -/
def attempts (e2 e3 : Operand) : Bool :=
  !sameType e2.info.type e3.info.type &&
    (isClass e2.info.type || isClass e3.info.type || (alike e2 e3 && sameBare e2.info.type e3.info.type))

/-- The operands after the one conversion that can be formed, if there is just one; with two the
expression is ill-formed. -/
def unified (e2 e3 : Operand) : Option (Operand × Operand) :=
  let same := sameBare e2.info.type e3.info.type
  if attempts e2 e3 then
    match formed cl same e2 e3, formed cl same e3 e2 with
    | some _, some _ => none
    | some e, none => some (e, e3)
    | none, some e => some (e2, e)
    | none, none => some (e2, e3)
  else some (e2, e3)

/-- The usual arithmetic conversions; operands of one type keep it. -/
def usual (a b : Kind) : Kind :=
  if a = b then a
  else if a = .longDouble || b = .longDouble then .longDouble
  else if a = .double || b = .double then .double
  else if a = .float || b = .float then .float
  else if a = .float16 || b = .float16 then .float16
  else Constexpr.common m a b

/-- Two function types that differ in that the first may throw. -/
def mayThrow : Ty → Ty → Bool
  | .func ret params variadic quals refQual false, .func ret' params' variadic' quals' refQual' true =>
    (Ty.func ret params variadic quals refQual false).equal (.func ret' params' variadic' quals' refQual' false)
  | _, _ => false

/-- What is no function, and so may be pointed to by a pointer to `void`. -/
def Decomposition.isObject : Decomposition → Bool
  | .base _ (.func ..) => false
  | _ => true

/-- What the composite pointer type points to, given what the two pointers do: `void`, a function that
may throw, the base class, or else what the two combine to. -/
def compositeElem (a b : Decomposition) : Option Decomposition :=
  match a, b with
  | .base q (.basic .void), b => if Decomposition.isObject b then some (.base (q.union b.quals) (.basic .void)) else none
  | a, .base q (.basic .void) => if Decomposition.isObject a then some (.base (a.quals.union q) (.basic .void)) else none
  | .base q (.record r), .base q' (.record r') =>
    if r = r' then some (.base (q.union q') (.record r))
    else if cl.base r r' then some (.base (q.union q') (.record r))
    else if cl.base r' r then some (.base (q.union q') (.record r'))
    else none
  | .base q f, .base q' f' =>
    if mayThrow f f' then some (.base (q.union q') f)
    else if mayThrow f' f then some (.base (q.union q') f')
    else (Decomposition.combine (.base q f) (.base q' f')).map (·.1)
  | a, b => (Decomposition.combine a b).map (·.1)

/-- The type of the value two operands of no or one class type give. -/
def valueOf (e2 e3 : Operand) : Option Decomposition :=
  match view e2.info.type, view e3.info.type with
  | some (.arith a), some (.arith b) => some (.base {} (.basic (usual m a b)))
  | some .nullptr, some .nullptr => some (.base {} (.basic .nullptr))
  | some .nullptr, some (.arith _) => if isNullConstant e3 then some (.base {} (.basic .nullptr)) else none
  | some (.arith _), some .nullptr => if isNullConstant e2 then some (.base {} (.basic .nullptr)) else none
  | some (.pointer a), some (.pointer b) => (compositeElem cl a.decompose b.decompose).map (.pointer {})
  | some (.pointer a), some .nullptr => some (.pointer {} a.decompose)
  | some (.pointer a), some (.arith _) => if isNullConstant e3 then some (.pointer {} a.decompose) else none
  | some .nullptr, some (.pointer b) => some (.pointer {} b.decompose)
  | some (.arith _), some (.pointer b) => if isNullConstant e2 then some (.pointer {} b.decompose) else none
  | some (.record _), some (.record _) =>
    if sameType e2.info.type e3.info.type then some e2.info.type.decompose else none
  | _, _ => none

/-- The type the operands have in common once the selected candidate has converted them. -/
def Builtin.type : Builtin → Decomposition
  | .arith l r => .base {} (.basic (usual m l r))
  | .pointer elem => .pointer {} elem.decompose
  | .member cls elem => .member {} cls elem.decompose
  | .enum id => .base {} (.enum id none true)

/-- The operands have different types, one of them a class. -/
def needsBuiltin (e2 e3 : Operand) : Bool :=
  !sameType e2.info.type e3.info.type && (isClass e2.info.type || isClass e3.info.type)

/-- The type and category of the result, the conversions attempted. -/
def outcome (e2 e3 : Operand) : Option (Decomposition × ValueCategory) :=
  if alike e2 e3 && sameType e2.info.type e3.info.type then some (e2.info.type.decompose, e2.info.valCat)
  else if needsBuiltin e2 e3 then (cl.builtin e2 e3).map fun selected => (selected.type m, .prValue)
  else (valueOf m cl e2 e3).map (·, .prValue)

/-- An operand has no qualifiers if it is a value of no class. -/
def Operand.adjusted (o : Operand) : Decomposition × ValueCategory :=
  if o.info.valCat.glvalue then (o.info.type.decompose, o.info.valCat)
  else ((valueType o.info.type).decompose, .prValue)

def isVoid (t : Ty) : Bool :=
  match view t with
  | some .void => true
  | _ => false

/-- The type and value category of a conditional expression, if it is well formed. -/
def standard (e2 e3 : Operand) : Option (Decomposition × ValueCategory) :=
  if isVoid e2.info.type && isVoid e3.info.type then some (.base {} (.basic .void), .prValue)
  else if isVoid e2.info.type then (if e2.isThrow then some e3.adjusted else none)
  else if isVoid e3.info.type then (if e3.isThrow then some e2.adjusted else none)
  else (unified cl e2 e3).bind fun (e2, e3) => outcome m cl e2 e3

end

end Vcx.Conditional
