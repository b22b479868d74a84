import Vcx.Types.VTable

/-!
# Implicit conversions

`sema/conv.go`: how an argument converts to a parameter, by rank, and which of two conversions
is better. What the rest of the analysis decides is a parameter: which types depend on
template parameters, Objective-C's object pointers, and what a constructor template's
parameter is deduced to be.
-/

namespace Vcx.Sema
set_option autoImplicit false
open Vcx.Types

/-- `ConvRank`, best first. -/
inductive ConvRank where
  | exactMatch | promotion | conversion | userDefined | ellipsis | none
  deriving DecidableEq, Repr

def ConvRank.toNat : ConvRank → Nat
  | .exactMatch => 0
  | .promotion => 1
  | .conversion => 2
  | .userDefined => 3
  | .ellipsis => 4
  | .none => 5

/-- A `ConversionSequence`; `source` and `target` are its `From` and `To`. The constructor or
operator it uses is a method of a class. -/
structure ConversionSequence where
  source : Option Ty := none
  target : Option Ty := none
  rank : ConvRank := .exactMatch
  valid : Bool := false
  userDefined : Bool := false
  userConv : Option (Nat × Method) := none
  ellipsis : Bool := false

/-- No conversion. -/
def noConversion : ConversionSequence := { rank := .none, valid := false }

/-! ### Types -/

/-- `QualsOf`. -/
def qualsOf : Ty → Qual
  | .qualified q _ => q
  | _ => {}

/-- `IsLValueReference`, through a qualification as `Kind` is. -/
def isLValueReference : Ty → Bool
  | .lvalueReference _ => true
  | .qualified _ t => isLValueReference t
  | _ => false

/-- `IsRValueReference`. -/
def isRValueReference : Ty → Bool
  | .rvalueReference _ => true
  | .qualified _ t => isRValueReference t
  | _ => false

/-- `Qualify`. -/
def qualify (t : Ty) (q : Qual) : Ty :=
  if q = {} then t
  else if t.isReference then t
  else match t.unqualify with
    | .func .. => t
    | _ => match t with
      | .qualified q' u => .qualified { const := q'.const || q.const, volatile := q'.volatile || q.volatile } u
      | t => .qualified q t

/-- `AddLValueReference`. -/
def addLValueReference (t : Ty) : Ty :=
  match t.unqualify with
  | .basic .void => t
  | _ => .lvalueReference t.removeReference

/-- `AddRValueReference`. -/
def addRValueReference (t : Ty) : Ty :=
  match t.unqualify with
  | .basic .void => t
  | _ => if isLValueReference t then t else .rvalueReference t.removeReference

/-- `Decay`. -/
def decay (t : Ty) : Ty :=
  match t.removeReference with
  | .array elem _ _ => .pointer elem
  | .func ret params variadic quals refQual noexcept => .pointer (.func ret params variadic quals refQual noexcept)
  | u => u.unqualify

/-- `cvStrip`: an array's qualifiers are its element's too. -/
def cvStrip : Ty → Ty × Qual
  | .qualified q (.array elem len incomplete) =>
    let (e, q') := cvStrip elem
    (.array e len incomplete, { const := q.const || q'.const, volatile := q.volatile || q'.volatile })
  | .qualified q t => (t, q)
  | .array elem len incomplete =>
    let (e, q') := cvStrip elem
    (.array e len incomplete, q')
  | t => (t, {})

/-- `IsArithmetic`: the integer types, enumerations and the floating types. -/
def isArithmetic (t : Ty) : Bool :=
  match t.unqualify with
  | .basic k => k.isInteger || k ∈ [.float16, .float, .double, .longDouble]
  | .enum .. => true
  | _ => false

def isPointer (t : Ty) : Bool :=
  match t.unqualify with
  | .pointer _ => true
  | _ => false

def isBool (t : Ty) : Bool :=
  match t.unqualify with
  | .basic .bool => true
  | _ => false

/-- `isPointerLike`: what takes a null pointer constant. -/
def isPointerLike (t : Ty) : Bool :=
  match t.unqualify with
  | .pointer _ | .memberPointer _ _ | .basic .nullptr => true
  | _ => false

/-- `takesNullConstant`. -/
def takesNullConstant : Ty → Bool
  | .lvalueReference (.qualified q t) => q.const && !q.volatile && isPointerLike t
  | .lvalueReference _ => false
  | .rvalueReference t => isPointerLike t
  | t => isPointerLike t

/-- `IsBaseOf`: a proper base. -/
def isBaseOf (h : Hierarchy) (base derived : Ty) : Bool :=
  match base.unqualify, derived.unqualify with
  | .record b, .record d => b != d && Lib.fix (fun self r => (h.record r).bases.any fun s =>
      match s.cls with
      | some c => c == b || self c
      | none => false) false d
  | _, _ => false

/-! ### Conversions -/

/-- What conversion asks of the rest of the analysis. -/
structure Analysis where
  /-- `isDependentType`. -/
  isDependentType : Ty → Bool
  /-- `hasDependentBase`. -/
  hasDependentBase : Nat → Bool
  /-- `objcConversion`. -/
  objcConversion : Ty → Ty → Option ConvRank
  /-- The parameter of a constructor template with what the argument deduces put in. -/
  deduceParam : Ty → Ty → Option Ty
  /-- `Method.Explicit`. -/
  explicit : Nat → Method → Bool

/-- `isPromotion`. -/
def isPromotion (source target : Ty) : Bool :=
  match source, target with
  | .basic .float, .basic .double => true
  | .basic k, .basic .int => k ∈ [.bool, .char, .sChar, .uChar, .short, .uShort, .char8, .char16]
  | .enum .., .basic .int => true
  | _, _ => false

/-- The qualifiers a pointer conversion may not lose. -/
def losesConst (source target : Ty) : Bool := (qualsOf source).const && !(qualsOf target).const

/-- `isStandardConversion`. -/
def isStandardConversion (h : Hierarchy) (source target : Ty) : Bool :=
  (isArithmetic source && isArithmetic target) ||
  (match source.unqualify, target.unqualify with
    | .pointer f, .pointer t =>
      (t.unqualify.equal (.basic .void) || isBaseOf h t f || f.unqualify.equal t.unqualify) && !losesConst f t
    | _, _ => false) ||
  (match source.unqualify, target with
    | .basic .nullptr, target => isPointerLike target && !(target.unqualify.equal (.basic .nullptr)) || isBool target
    | _, _ => false) ||
  (isBool target && (isArithmetic source || isPointer source ||
    match source with
    | .memberPointer _ _ => true
    | _ => false))

/-- The rank of a conversion between types that are no references, if it is a standard one. -/
def standardRank (an : Analysis) (h : Hierarchy) (source target : Ty) : Option ConvRank :=
  let f := source.removeReference.unqualify
  let t := target.unqualify
  let decays := match source.unqualify with
    | .array .. | .func .. => true
    | _ => false
  if f.equal t then some .exactMatch
  else if decays && (decay source).equal t then some .exactMatch
  else
    let f := if decays then decay source else f
    match an.objcConversion f t with
    | some rank => some rank
    | none =>
      if isPromotion f t then some .promotion
      else if isStandardConversion h f t then some .conversion
      else none

/-- The conversion to a type that is no reference, with the user-defined ones given. -/
def classifyValue (an : Analysis) (h : Hierarchy) (user : Ty → Ty → Option ConversionSequence) (source target : Ty) :
    ConversionSequence :=
  match standardRank an h source target with
  | some rank => { source := some source, target := some target, rank, valid := true }
  | none => (user source target).getD noConversion

/-- Whether a reference to `target` binds directly to `source`: the same type with at least
its qualifiers, or a base class. -/
def bindsDirectly (h : Hierarchy) (source target : Ty) : Bool :=
  let (fromBare, fromQ) := cvStrip source
  let (toBare, toQ) := cvStrip target
  (fromBare.equal toBare && (!fromQ.const || toQ.const) && (!fromQ.volatile || toQ.volatile)) || source.equal target ||
    isBaseOf h target source

/-- `classifyConversion`, with the user-defined conversions given. -/
def classifyWith (an : Analysis) (h : Hierarchy) (user : Ty → Ty → Option ConversionSequence) (source target : Ty)
    (lvalue : Bool) : ConversionSequence :=
  if !target.isReference then classifyValue an h user source target
  else
    let toElem := target.removeReference
    let fromElem := source.removeReference
    let (fromBare, fromQ) := cvStrip fromElem
    let (toBare, toQ) := cvStrip toElem
    let rank : ConvRank := if isBaseOf h toElem fromElem then .conversion else .exactMatch
    if bindsDirectly h fromElem toElem then
      if isLValueReference target then
        if lvalue then
          if !toQ.const && fromQ.const then noConversion
          else { source := some source, target := some target, rank, valid := true }
        else if !toQ.const then noConversion
        else { source := some source, target := some target, rank := .exactMatch, valid := true }
      else if lvalue then noConversion
      else { source := some source, target := some target, rank, valid := true }
    else if fromBare.equal toBare || isBaseOf h toBare fromBare then noConversion
    else if isLValueReference target && (qualsOf toElem).const || isRValueReference target then
      let sub := classifyValue an h user source toElem
      if sub.valid then
        { source := some source, target := some target, rank := sub.rank, valid := true, userDefined := sub.userDefined
          userConv := sub.userConv }
      else noConversion
    else noConversion

/-- `findUserDefinedConversion`: a converting constructor of the target, else a conversion
operator of the source. -/
def findUserDefinedConversion (an : Analysis) (h : Hierarchy) (source target : Ty) : Option ConversionSequence :=
  let made := fun (r : Nat) (meth : Method) => ({
    source := some source, target := some target, rank := .userDefined, valid := true, userDefined := true
    userConv := some (r, meth) } : ConversionSequence)
  let ctor := match target.unqualify with
    | .record r => (h.record r).methods.findSome? fun (meth : Method) =>
        match meth.func with
        | some { params := [param], .. } =>
          if meth.name == (h.record r).name && !an.explicit r meth then
            match if meth.template then an.deduceParam param source else some param with
            | some param =>
              let sub := classifyWith an h (fun _ _ => none) source param false
              if sub.valid && sub.rank.toNat ≤ ConvRank.conversion.toNat then some (made r meth) else none
            | none => none
          else none
        | _ => none
    | _ => none
  match ctor with
  | some cs => some cs
  | none => match source.unqualify with
    | .record r => (h.record r).methods.findSome? fun (meth : Method) =>
        match meth.func with
        | some fn => if !an.explicit r meth && fn.ret.equal target then some (made r meth) else none
        | none => none
    | _ => none

/-- `ClassifyConversion`. -/
def classifyConversion (an : Analysis) (h : Hierarchy) (source target : Option Ty) (lvalue : Bool) : ConversionSequence :=
  match source, target with
  | some source, some target => classifyWith an h (findUserDefinedConversion an h) source target lvalue
  | _, _ => noConversion

/-- The tie-breakers within a rank, by whether the targets are references, lvalue references and
const, and whether the argument is an rvalue reference: the rvalue reference for such an
argument, then the target that is not const. -/
def compareTargets (refs ref1L ref2L rvalue const1 const2 : Bool) : Int :=
  if refs && ref1L != ref2L && rvalue then (if ref1L then 1 else -1)
  else if !const1 && const2 then -1
  else if const1 && !const2 then 1
  else 0

/-- Whether what a conversion is to is const, through a reference. -/
def ConversionSequence.isConst (cs : ConversionSequence) : Bool := cs.target.any fun t => (qualsOf t.removeReference).const

/-- `CompareConversions`: negative if the first is better, positive if the second is. The
argument is an rvalue reference if the first conversion says so. -/
def compareConversions (cs1 cs2 : ConversionSequence) : Int :=
  if !cs1.valid && !cs2.valid then 0
  else if cs1.valid && !cs2.valid then -1
  else if !cs1.valid && cs2.valid then 1
  else if cs1.rank.toNat < cs2.rank.toNat then -1
  else if cs2.rank.toNat < cs1.rank.toNat then 1
  else compareTargets (cs1.target.any Ty.isReference && cs2.target.any Ty.isReference) (cs1.target.any isLValueReference)
    (cs2.target.any isLValueReference) (cs1.source.any isRValueReference) cs1.isConst cs2.isConst

end Vcx.Sema
