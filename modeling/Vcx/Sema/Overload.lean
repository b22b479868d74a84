import Vcx.Lib.Select
import Vcx.Sema.Conversion

/-!
# Overload resolution

`sema/overload.go`. Every candidate that can take the arguments is viable; a running best is
kept over them by `compareCandidates`, and has to beat every other one in the end. The order
of templates by specialization is a parameter.
-/

namespace Vcx.Sema
set_option autoImplicit false
open Vcx.Types Vcx.Lib

structure Param where
  type : Ty
  hasDefault : Bool := false

/-- A `*types.Func`, which two function types share only when they are one pointer. -/
structure FuncType where
  id : Nat
  params : List Param
  ret : Option Ty := none
  variadic : Bool := false
  quals : Qual := {}
  refQual : RefQual := .none

/-- The part of a `*FuncSymbol` that resolution reads; it is its pointer `id`. A template has
the pattern it was written with, a specialization the template it is of. -/
structure FuncSymbol where
  id : Nat
  name : String
  funcType : Option FuncType
  decl : Option Nat := none
  method : Option Nat := none
  inClass : Option Nat := none
  objectClass : Option Nat := none
  static : Bool := false
  friend : Bool := false
  template : Option (Option FuncType) := none
  templateOf : Option (Option (Option FuncType) × Option FuncType) := none

/-- An `Argument`. -/
structure Argument where
  type : Option Ty
  isLValue : Bool := false
  nullConst : Bool := false
  list : Option (Ty → ConversionSequence) := none
  classConv : Option (Ty → ConversionSequence) := none
  overloads : List FuncSymbol := []

/-- `ViableCandidate`. -/
structure ViableCandidate where
  func : FuncSymbol
  conversions : List ConversionSequence
  isTemplate : Bool
  dependent : Bool

instance : Inhabited ViableCandidate := ⟨⟨⟨0, "", none, none, none, none, none, false, false, none, none⟩, [], false, false⟩⟩

/-- What resolution reports instead of a function. -/
inductive ResolveError where
  | noCandidates
  | noViable (args : Nat)
  | ambiguous (name : String)
  deriving DecidableEq, Repr

def ResolveError.message : ResolveError → String
  | .noCandidates => "no candidate functions"
  | .noViable n => "no viable candidates for call with " ++ toString n ++ " arguments"
  | .ambiguous name => "call to \"" ++ name ++ "\" is ambiguous between candidate declarations"

section

variable (an : Analysis) (h : Hierarchy)

/-- `overloadFor`: the function of a set that a parameter's type names. -/
def overloadFor (set : List FuncSymbol) (param : Ty) : Option FuncSymbol :=
  let t := param.removeReference.unqualify
  let t := match t with
    | .pointer elem => elem.unqualify
    | t => t
  match t with
  | .func ret params variadic .. => set.find? fun fn =>
      match fn.funcType with
      | none => false
      | some ft => !(fn.template.isSome || fn.inClass.isSome && !fn.static && !fn.friend) &&
          (ft.params.length == params.length && ft.variadic == variadic && (ft.ret.any fun r => r.equal ret) &&
            Ty.equalAll (ft.params.map Param.type) params)
  | _ => none

/-- `ofDependentBases`. -/
def ofDependentBases (t : Option Ty) : Bool :=
  t.any fun (t : Ty) => match t.removeReference.unqualify with
    | .pointer elem => elem.asRecord.any an.hasDependentBase
    | .record r => an.hasDependentBase r
    | _ => false

/-- `implicitObjectConversion`. -/
def implicitObjectConversion (fn : FuncSymbol) (ft : FuncType) (object : Argument) : Option ConversionSequence :=
  let exact : ConversionSequence :=
    { source := object.type, target := object.type, rank := .exactMatch, valid := true }
  match fn.static, fn.inClass with
  | false, some inClass =>
    let owner := fn.objectClass.getD inClass
    let quals := (object.type.map qualsOf).getD {}
    match object.type.bind fun t => t.unqualify.removeReference.unqualify.asRecord with
    | some rec =>
      if rec != owner && !isBaseOf h (.record owner) (.record rec) then
        if quals.const && !ft.quals.const && ft.refQual != .rvalue then none else some exact
      else
        let param := qualify (.record owner) ft.quals
        let (param, lvalue) := match ft.refQual with
          | .rvalue => (addRValueReference param, object.isLValue)
          | .lvalue => (addLValueReference param, object.isLValue)
          | .none => (addLValueReference param, true)
        let cs := classifyConversion an h (some (qualify (.record rec) quals)) (some param) lvalue
        if cs.valid then some cs else none
    | none => if quals.const && !ft.quals.const && ft.refQual != .rvalue then none else some exact
  | _, _ => some exact

/-- The conversion of one argument to a parameter, and whether it waits for an instantiation. -/
def argumentConversion (arg : Argument) (paramType : Ty) : ConversionSequence × Bool :=
  let cs := match arg.list with
    | some conv => conv paramType
    | none => classifyConversion an h arg.type (some paramType) arg.isLValue
  let waits := an.isDependentType paramType || arg.type.any an.isDependentType
  let cs := match cs.valid, arg.classConv with
    | false, some conv => conv paramType
    | _, _ => cs
  let cs := if !cs.valid && (overloadFor arg.overloads paramType).isSome then
      { source := some paramType, target := some paramType, rank := .exactMatch, valid := true } else cs
  let cs := if !cs.valid && arg.nullConst && takesNullConstant paramType then
      { source := arg.type, target := some paramType, rank := .conversion, valid := true } else cs
  if !cs.valid && (waits || ofDependentBases an arg.type) then
    ({ source := arg.type, target := some paramType, rank := .conversion, valid := true }, true)
  else (cs, waits)

/-- The conversions of the arguments from the first, until one has none. -/
def argumentConversions : List Param → List Argument → Option (List ConversionSequence × Bool)
  | _, [] => some ([], false)
  | [], arg :: args =>
    (argumentConversions [] args).map fun rest =>
      ({ source := arg.type, rank := .ellipsis, valid := true, ellipsis := true } :: rest.1, rest.2)
  | param :: params, arg :: args =>
    let (cs, dependent) := argumentConversion an h arg param.type
    if !cs.valid then none
    else (argumentConversions params args).map fun rest => (cs :: rest.1, dependent || rest.2)

/-- The conversion of the object, where there is one. -/
def objectConversion (object : Option Argument) (fn : FuncSymbol) (ft : FuncType) : Option (List ConversionSequence) :=
  match object with
  | some obj => (implicitObjectConversion an h fn ft obj).map fun cs => [cs]
  | none => some []

/-- Whether so many arguments can be given. -/
def takesArguments (ft : FuncType) (args : Nat) : Bool :=
  (args ≤ ft.params.length || ft.variadic) && (ft.params.drop args).all Param.hasDefault

/-- A candidate as a viable one, if it is. -/
def viability (object : Option Argument) (args : List Argument) (fn : FuncSymbol) : Option ViableCandidate :=
  fn.funcType.bind fun ft => (objectConversion an h object fn ft).bind fun objectConv =>
    if takesArguments ft args.length then (argumentConversions an h ft.params args).map fun convs =>
      { func := fn, conversions := objectConv ++ convs.1, isTemplate := fn.templateOf.isSome || fn.template.isSome
        dependent := convs.2 }
    else none

/-- The same declaration reached twice. -/
def sameMember (fn other : FuncSymbol) : Bool :=
  other.id == fn.id || fn.method.isSome && other.method == fn.method || fn.decl.isSome && other.decl == fn.decl

/-- `sameMemberAsViable`. -/
def sameMemberAsViable (fn : FuncSymbol) (viable : List ViableCandidate) : Bool :=
  viable.any fun v => sameMember fn v.func

/-- The viable candidates in order, each function once. -/
def viableCandidates (object : Option Argument) (args : List Argument) :
    List FuncSymbol → List Nat → List ViableCandidate → List ViableCandidate
  | [], _, viable => viable
  | fn :: rest, seen, viable =>
    if fn.funcType.isNone || seen.contains fn.id then viableCandidates object args rest seen viable
    else if fn.inClass.isSome && sameMemberAsViable fn viable then
      viableCandidates object args rest (fn.id :: seen) viable
    else
      viableCandidates object args rest (fn.id :: seen) (viable ++ (viability an h object args fn).toList)

end

/-! ### Ranking -/

/-- `templatePattern`. -/
def templatePattern (fn : FuncSymbol) : Option FuncType :=
  match fn.template, fn.templateOf with
  | some (some pattern), _ => some pattern
  | _, some (some (some pattern), _) => some pattern
  | _, some (_, type) => type
  | some none, none => fn.funcType
  | none, none => none

/-- Some argument converts better for the first candidate. -/
def betterSomewhere (c1 c2 : ViableCandidate) : Bool :=
  (c1.conversions.zip c2.conversions).any fun p => decide (compareConversions p.1 p.2 < 0)

/-- Some argument converts worse for the first candidate. -/
def worseSomewhere (c1 c2 : ViableCandidate) : Bool :=
  (c1.conversions.zip c2.conversions).any fun p => decide (0 < compareConversions p.1 p.2)

/-- The tie-breakers: a function that is no template before one that is, then the more
specialized template. `special p a` is `atLeastAsSpecialized(p, a)`. -/
def tieBreak (special : FuncType → FuncType → Bool) (c1 c2 : ViableCandidate) : Int :=
  if !c1.isTemplate && c2.isTemplate then -1
  else if c1.isTemplate && !c2.isTemplate then 1
  else if c1.isTemplate && c2.isTemplate then
    match templatePattern c1.func, templatePattern c2.func with
    | some p1, some p2 =>
      if p1.id == p2.id then 0
      else if special p2 p1 && !special p1 p2 then -1
      else if special p1 p2 && !special p2 p1 then 1
      else 0
    | _, _ => 0
  else 0

/-- `compareCandidates`. -/
def compareCandidates (special : FuncType → FuncType → Bool) (c1 c2 : ViableCandidate) : Int :=
  if betterSomewhere c1 c2 && !worseSomewhere c1 c2 then -1
  else if worseSomewhere c1 c2 && !betterSomewhere c1 c2 then 1
  else tieBreak special c1 c2

/-- The first candidate is strictly better. -/
def beats (special : FuncType → FuncType → Bool) (c1 c2 : ViableCandidate) : Bool :=
  decide (compareCandidates special c1 c2 < 0)

/-- The `i`th viable candidate. -/
def nth (viable : List ViableCandidate) (i : Nat) : ViableCandidate := viable.getD i default

/-- The running best over all viable candidates. -/
def bestViable (special : FuncType → FuncType → Bool) (viable : List ViableCandidate) : Nat :=
  runningBest (beats special) (nth viable) (viable.length - 1)

/-- Candidate `best` is strictly better than the others, those apart that wait for an
instantiation. -/
def verified (special : FuncType → FuncType → Bool) (viable : List ViableCandidate) (best : Nat) : Bool :=
  (List.range viable.length).all fun i =>
    i == best || beats special (nth viable best) (nth viable i) || (nth viable best).dependent || (nth viable i).dependent

/-- The ranking half of `ResolveOverloadOn`. -/
def resolveViable (special : FuncType → FuncType → Bool) (viable : List ViableCandidate) (args : Nat) :
    Except ResolveError FuncSymbol :=
  if viable.length = 0 then .error (.noViable args)
  else if viable.length = 1 then .ok (nth viable 0).func
  else if verified special viable (bestViable special viable) then .ok (nth viable (bestViable special viable)).func
  else .error (.ambiguous (nth viable (bestViable special viable)).func.name)

/-- `ResolveOverloadOn`. -/
def resolveOverloadOn (an : Analysis) (h : Hierarchy) (special : FuncType → FuncType → Bool) (candidates : List FuncSymbol)
    (object : Option Argument) (args : List Argument) : Except ResolveError FuncSymbol :=
  if candidates = [] then .error .noCandidates
  else resolveViable special (viableCandidates an h object args candidates [] []) args.length

end Vcx.Sema
