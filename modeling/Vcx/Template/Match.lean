import Vcx.Template.Type
import Mathlib.Data.List.Basic

/-!
# Matching a pattern

A partial specialization's pattern is matched against template arguments: `patternBinding` and
`matchType`, which bind the pattern's parameters, and `substitute`, which puts what they are bound to
back into a type.
-/

namespace Vcx.Template
set_option autoImplicit false
open Vcx.Types (Kind)

/-- A `Binding`: what each parameter is bound to. -/
abbrev Binding := List (String × Ty)

/-! ### Dependent types -/

mutual

/-- `isDependent`: a template parameter is mentioned. -/
def isDependent : Ty → Bool
  | .templateParam _ | .dependent _ | .transform _ _ => true
  | .record _ pattern | .specialized _ _ _ _ pattern => pattern
  | .memberPointer c e => isDependent c || isDependent e
  | .qualified _ t | .pointer t | .lvalueReference t | .rvalueReference t => isDependent t
  | .array e _ _ dep => dep ≠ "" || isDependent e
  | .func ret ps _ _ _ _ => isDependent ret || anyDependentParam ps
  | .specialization _ as _ => anyDependentArg as
  | .basic _ | .blockPointer _ | .enum _ _ | .interface _ | .templateRef _ _ _ | .pack _ | .valueBound _ _ => false

def anyDependentArg : List Arg → Bool
  | [] => false
  | .type t :: as => isDependent t || anyDependentArg as
  | .value _ _ :: as => anyDependentArg as

def anyDependentParam : List Param → Bool
  | [] => false
  | .mk _ t _ _ _ :: ps => isDependent t || anyDependentParam ps

end

/-- `packParamName`: the pack that a parameter of a function expands. -/
def packParamName : Ty → String
  | .templateParam p => if p.isPack then p.name else ""
  | .qualified _ t | .pointer t | .lvalueReference t | .rvalueReference t | .array t _ _ _ => packParamName t
  | _ => ""

/-- `isPackParam` -/
def isPackParam : Arg → Bool
  | .type (.templateParam p) => p.isPack
  | _ => false

/-- `isAliasSpelling`: a template-id of what is no class template. -/
def isAliasSpelling (t : Ty) : Bool :=
  match t.unqualify with
  | .specialization _ _ .alias => true
  | _ => false

/-- `needsSubstitution` -/
def needsSubstitution (t : Ty) : Bool :=
  isAliasSpelling t || match t.unqualify with
    | .dependent _ => true
    | _ => false

/-- Nothing is deduced from the type. -/
def nonDeduced (t : Ty) : Bool := !isDependent t || isAliasSpelling t || needsSubstitution t

/-- Nothing is deduced from the argument. -/
def argNonDeduced : Arg → Bool
  | .value _ _ => true
  | .type (.pack es) => es.all fun
    | .type t => nonDeduced t
    | .value _ _ => true
  | .type t => nonDeduced t

/-- `onlyNonDeduced` -/
def onlyNonDeduced (args : List Arg) : TemplateHead → Bool
  | .param _ => false
  | _ => args.all argNonDeduced

/-! ### Bindings -/

/-- A parameter that is bound to a type already must be bound to an equal one. -/
def bindType (name : String) (t : Ty) (b : Binding) : Option Binding :=
  match b.lookup name with
  | some prev => if prev.equal t then some b else none
  | none => some ((name, t) :: b)

/-- The same for a value. -/
def bindValue (name : String) (type : Ty) (val : Int) (b : Binding) : Option Binding :=
  match b.lookup name with
  | some (.valueBound _ v) => if v = val then some b else none
  | some _ => none
  | none => some ((name, .valueBound type val) :: b)

/-- The arguments that `out[tp.Name]` is bound to when the last parameter of a function type or of a
template-id is a pack: those from `n` on. -/
def bindRest (name : String) (n : Nat) (args : List Arg) (b : Binding) : Option Binding :=
  bindType name (.pack (args.drop n)) b

/-! ### Matching -/

/-- Whether the last parameter of a function type is a pack, and the others are there. -/
def packs (ps ps' : List Param) : Bool := (ps.getLast?.any (·.pack)) && ps.length - 1 ≤ ps'.length

/-- Whether the last argument of a template-id is a pack. -/
def lastIsPack (as : List Arg) : Bool := as.getLast?.any isPackParam

/-- The name of the parameter that is a pack. -/
def packName : Arg → String
  | .type (.templateParam p) => p.name
  | _ => ""

/-- The bound of an array: a parameter that it is written as is bound to it. -/
def matchLength (len : Int) (incomplete : Bool) (depLen : String) (elem' : Ty) (len' : Int) (incomplete' : Bool) (depLen' : String)
    (b : Binding) : Option Binding :=
  if depLen ≠ "" then if incomplete' || depLen' ≠ "" then none else bindValue depLen elem' len' b
  else if incomplete' ≠ incomplete || !incomplete && len' ≠ len then none
  else some b

/-- The template of a template-id: a template template parameter is bound to it, and otherwise the
names must agree. -/
def matchTemplate (name : String) (of_ : TemplateHead) (name' : String) (primary : Option Nat) (b : Binding) : Option Binding :=
  match of_ with
  | .param tp =>
    match primary with
    | none => none
    | some r => bindType tp.name (.templateRef name' (some r) none) b
  | _ => if name' ≠ name then none else some b

/-- The template and the arguments of a template-id. The pattern's own pack takes the rest, and the
others are matched by `pairwise`. -/
def matchSpecialization (pairwise : Bool → List Arg → Binding → Option Binding) (name : String) (as : List Arg) (of_ : TemplateHead)
    (name' : String) (as' : List Arg) (primary : Option Nat) (b : Binding) : Option Binding :=
  (matchTemplate name of_ name' primary b).bind fun b =>
    if lastIsPack as then
      if as'.length < as.length - 1 then none
      else (bindRest (as.getLast?.elim "" packName) (as.length - 1) as' b).bind (pairwise true (as'.take (as.length - 1)))
    else pairwise false as' b

mutual

/-- `matchType` -/
def matchType (p a : Ty) (b : Binding) : Option Binding :=
  if !isDependent p then if p.equal a then some b else none
  else match p with
    | .templateParam tp => if !tp.isType || tp.name = "" then none else bindType tp.name a b
    | .qualified q t =>
      match a with
      | .qualified q' t' =>
        if q' &&& q ≠ q then none
        else matchType t (if q' &&& ~~~q ≠ 0 then t'.qualify (q' &&& ~~~q) else t') b
      | _ => none
    | .lvalueReference e =>
      match a with
      | .lvalueReference e' => matchType e e' b
      | _ => none
    | .rvalueReference e =>
      match a with
      | .rvalueReference e' => matchType e e' b
      | _ => none
    | .pointer e =>
      match a.unqualify with
      | .pointer e' => if a.isConst || a.isVolatile then none else matchType e e' b
      | _ => none
    | .memberPointer c e =>
      match a.unqualify with
      | .memberPointer c' e' => (matchType c c' b).bind (matchType e e')
      | _ => none
    | .array e len inc dep =>
      match a.unqualify with
      | .array e' len' inc' dep' => (matchLength len inc dep e' len' inc' dep' b).bind (matchType e e')
      | _ => none
    | .func ret ps var _ _ _ =>
      match a.unqualify with
      | .func ret' ps' var' _ _ _ =>
        if var' ≠ var then none
        else if packs ps ps' then
          -- the pack is the parameters that the others leave
          match Option.map Param.type ps.getLast? with
          | some (.templateParam tp) =>
            if !tp.isPack then none
            else ((matchType ret ret' b).bind (matchParams true ps (ps'.take (ps.length - 1)))).bind
              (bindRest tp.name (ps.length - 1) (ps'.map fun p => .type p.type))
          | _ => none
        else (matchType ret ret' b).bind (matchParams false ps ps')
      | _ => none
    | .specialization name as of_ =>
      if isAliasSpelling (.specialization name as of_) then some b
      else match a.unqualify with
        | .specialization name' as' of' =>
          matchSpecialization (fun packed => matchArgs packed as) name as of_ name' (flattenPacks as') of'.record b
        | .specialized _ name' as' primary _ =>
          matchSpecialization (fun packed => matchArgs packed as) name as of_ name' (flattenPacks as') (some primary) b
        | .record _ _ =>
          -- a class that is no specialization
          if onlyNonDeduced as of_ && of_.record.isNone then some b else none
        | _ => if onlyNonDeduced as of_ then some b else none
    | .dependent _ => some b
    | _ => none
termination_by structural p

/-- Argument by argument. A pack that is the last has been bound. -/
def matchArgs (packed : Bool) : List Arg → List Arg → Binding → Option Binding
  | [], [], b => some b
  | p :: ps, as, b =>
    if packed && ps.isEmpty then if as.isEmpty then some b else none
    else match as with
      | [] => none
      | a :: as => (matchArg p a b).bind (matchArgs packed ps as)
  | [], _ :: _, _ => none
termination_by structural ps => ps

/-- `bindNestedValue` where one of the two is a value. -/
def matchArg (p a : Arg) (b : Binding) : Option Binding :=
  match p with
  | .type t =>
    match a with
    | .type t' => matchType t t' b
    | .value v type =>
      match t with
      | .templateParam tp => if tp.isType || tp.name = "" then none else bindValue tp.name type v b
      | _ => none
  | .value v _ =>
    match a with
    | .value v' _ => if v = v' then some b else none
    | .type _ => none
termination_by structural p

/-- Parameter by parameter. A pack that is the last is bound afterwards. -/
def matchParams (packed : Bool) : List Param → List Param → Binding → Option Binding
  | [], [], b => some b
  | .mk _ t _ _ _ :: ps, as, b =>
    if packed && ps.isEmpty then if as.isEmpty then some b else none
    else match as with
      | [] => none
      | a :: as => (matchType t a.type b).bind (matchParams packed ps as)
  | [], _ :: _, _ => none
termination_by structural ps => ps

end

/-- An argument of the pattern itself. -/
def matchPatternArg (p a : Arg) (b : Binding) : Option Binding :=
  match p, a with
  | .type t, .type t' => matchType t t' b
  | .type (.templateParam tp), .value v type => if tp.isType then none else bindValue tp.name type v b
  | .type _, .value _ _ => none
  | .value v _, .value v' _ => if v = v' then some b else none
  | .value _ _, .type _ => none

def matchPattern : List Arg → List Arg → Binding → Option Binding
  | [], [], b => some b
  | p :: ps, a :: as, b => (matchPatternArg p a b).bind (matchPattern ps as)
  | _, _, _ => none

/-- `patternBinding`: a pack at the end of the pattern takes the remaining arguments. -/
def patternBinding (pattern args : List Arg) : Option Binding :=
  let args := flattenPacks args
  if lastIsPack pattern then
    if args.length < pattern.length - 1 then none
    else matchPattern pattern.dropLast (args.take (pattern.length - 1))
      [(pattern.getLast?.elim "" packName, .pack (args.drop (pattern.length - 1)))]
  else matchPattern pattern args []

/-! ### Type transformations -/

/-- `withQuals` -/
def Ty.withQuals (f : Qual → Qual) : Ty → Ty
  | .qualified q t => t.qualify (f q)
  | t => t

/-- `referenceable` -/
def referenceable (t : Ty) : Bool :=
  match t.unqualify with
  | .basic k => k ≠ .void
  | .func _ _ _ q r _ => q = 0 && r = .none
  | _ => true

/-- `__remove_extent`. -/
def removeExtent (t : Ty) : Ty :=
  match t.unqualify with
  | .array e _ _ _ => e
  | _ => t

/-- `__remove_all_extents`. -/
def removeAllExtents : Ty → Ty
  | .array e _ _ _ => removeAllExtents e
  | .qualified _ (.array e _ _ _) => removeAllExtents e
  | t => t

/-- `__decay`. -/
def decay (t : Ty) : Ty :=
  match t.removeReference.unqualify with
  | .array e _ _ _ => .pointer e
  | .func ret ps var q r n => .pointer (.func ret ps var q r n)
  | u => u

/-- The integer types by rank, with a sign and without. -/
def signednessPairs : List (Kind × Kind) :=
  [(.sChar, .uChar), (.short, .uShort), (.int, .uInt), (.long, .uLong), (.longLong, .uLongLong), (.int128, .uInt128)]

/-- The integer type of the rank and the signedness. -/
def withSignedness (signed : Bool) (k : Kind) : Option Kind :=
  let k := match k with
    | .char => .sChar
    | .char8 => .uChar
    | .char16 => .uShort
    | .char32 | .wChar => .uInt
    | k => k
  (signednessPairs.find? fun p => k = p.1 || k = p.2).map fun p => if signed then p.1 else p.2

/-- `makeSignedness` -/
def makeSignedness (t : Ty) (signed : Bool) : Option Ty :=
  (match t.unqualify with
    | .basic k => withSignedness signed k
    | .enum _ none => withSignedness signed .int
    | .enum _ (some u) =>
      match u.unqualify with
      | .basic k => withSignedness signed k
      | _ => none
    | _ => none).map fun k => (Ty.basic k).qualify t.quals

/-- `ApplyTransform`. What is dependent yet is left as it is; a name that is no transformation, and a type that
it does not apply to, have no result. -/
def applyTransform (op : String) (t : Ty) (dependent : Bool) : Option Ty :=
  if dependent then some (.transform op t)
  else match op with
    | "__remove_reference_t" | "__remove_reference" => some t.removeReference
    | "__remove_cv" => some t.unqualify
    | "__remove_const" => some (t.withQuals (· &&& ~~~Qual.const))
    | "__remove_volatile" => some (t.withQuals (· &&& ~~~Qual.volatile))
    | "__remove_cvref" => some t.removeReference.unqualify
    | "__remove_pointer" =>
      match t.unqualify with
      | .pointer e => some e
      | _ => some t
    | "__add_pointer" => some (if !referenceable t && !t.unqualify.isVoid then t else .pointer t.removeReference)
    | "__add_lvalue_reference" => some (if !referenceable t then t else t.addLValueReference)
    | "__add_rvalue_reference" => some (if !referenceable t then t else t.addRValueReference)
    | "__decay" => some (decay t)
    | "__remove_extent" => some (removeExtent t)
    | "__remove_all_extents" => some (removeAllExtents t)
    | "__underlying_type" =>
      match t.unqualify with
      | .enum _ (some u) => some u
      | .enum _ none => some (.basic .int)
      | _ => none
    | "__make_signed" => makeSignedness t true
    | "__make_unsigned" => makeSignedness t false
    | _ => none

/-! ### Substitution -/

/-- The parameter that an element of a pack is expanded to. -/
def expanded (name : String) (t : Ty) (replace : Ty → Ty) : Arg → Param
  | .type s => .mk name (replace s) false false name
  | .value _ _ => .mk name t false false name

mutual

/-- `substitute` -/
def substitute (t : Ty) (b : Binding) : Ty :=
  if b.isEmpty || !isDependent t then t
  else match t with
    | .templateParam p =>
      match b.lookup p.name with
      | some (.pack es) => if p.isPack then .pack es else .templateParam p
      | some s => s
      | none => .templateParam p
    | .qualified q t => (substitute t b).qualify q
    | .pointer e => .pointer (substitute e b)
    | .memberPointer c e => .memberPointer (substitute c b) (substitute e b)
    | .lvalueReference e => (substitute e b).addLValueReference
    | .rvalueReference e => (substitute e b).addRValueReference
    | .array e len inc dep =>
      match if dep ≠ "" then b.lookup dep else none with
      | some (.valueBound _ v) => .array (substitute e b) v false ""
      | _ => .array (substitute e b) len inc dep
    | .func ret ps var q r n => .func (substitute ret b) (substituteParams ps b) var q r n
    | .specialization name as of_ => .specialization name (substituteArgs as b) of_
    | .transform op t => (applyTransform op (substitute t b) (isDependent (substitute t b))).getD (.transform op t)
    | t => t

def substituteArgs : List Arg → Binding → List Arg
  | [], _ => []
  | .type t :: as, b => .type (substitute t b) :: substituteArgs as b
  | .value v type :: as, b => .value v type :: substituteArgs as b

/-- A pack that is bound is expanded: the pattern once per element. -/
def substituteParams : List Param → Binding → List Param
  | [], _ => []
  | .mk name t hasDefault pack _ :: ps, b =>
    (match if pack then b.lookup (packParamName t) else none with
      | some (.pack es) => es.map (expanded name t fun s => substitute t [(packParamName t, s)])
      | _ => [.mk name (substitute t b) hasDefault pack ""]) ++ substituteParams ps b

end

section
-- the equations of a mutual recursion take long: they are derived here, once
attribute [local simp] isDependent anyDependentArg anyDependentParam matchType matchArgs matchArg matchParams substitute substituteArgs
  substituteParams
end

end Vcx.Template
