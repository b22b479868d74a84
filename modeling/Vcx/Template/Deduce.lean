import Vcx.Template.Faithful

/-!
# Deduction from a call

`deduceArg` deduces what a function template's parameters are from an argument of a call. What is
deduced `adjusts` a parameter's type to the argument's where the two are one type but for what a call
may change; a parameter's type is `preserved` where nothing else has been dropped on the way.
-/

namespace Vcx.Template
set_option autoImplicit false

/-- What an argument is without a reference and its qualifiers. -/
def Ty.stripped (t : Ty) : Ty := t.removeReference.unqualify

/-- A parameter that is a type. -/
def Ty.isParam : Ty → Bool
  | .templateParam _ => true
  | _ => false

/-! ### Deduction -/

/-- `deduceReferenced`, and what is under a pointer or in an array: a parameter takes it as it is. -/
def takes (e a : Ty) (b : Binding) (deduced : Option Binding) : Option Binding :=
  match e with
  | .templateParam tp => if tp.isType && tp.name ≠ "" then bindType tp.name a b else deduced
  | _ => deduced

/-- The parameters that a template-id is written with have names. -/
def named (as : List Arg) (of_ : TemplateHead) : Bool :=
  (match of_ with
    | .param tp => tp.name ≠ ""
    | _ => true) && (!lastIsPack as || as.getLast?.elim "" packName ≠ "")

mutual

/-- `deduce` -/
def deduce (p a : Ty) (b : Binding) : Option Binding :=
  if !isDependent p then some b
  else match p with
    | .templateParam tp => if !tp.isType || tp.name = "" then none else bindType tp.name a.stripped b
    | .qualified _ t => deduce t a.unqualify b
    | .lvalueReference e | .rvalueReference e => takes e a.removeReference b (deduce e a.removeReference b)
    | .memberPointer c e =>
      match a.stripped with
      | .memberPointer c' e' => (deduce c c' b).bind (deduce e e')
      | _ => none
    | .pointer e =>
      match a.stripped with
      | .pointer e' => takes e e' b (deduce e e' b)
      -- an array is the pointer that it decays to
      | .array e' _ _ _ => deduce e e' b
      | _ => none
    | .array e len inc dep =>
      match a.stripped with
      | .array e' len' inc' dep' => (matchLength len inc dep e' len' inc' dep' b).bind fun b => takes e e' b (deduce e e' b)
      | _ => none
    | .func ret ps var _ _ _ =>
      match a.stripped with
      | .func ret' ps' var' _ _ _ =>
        if packs ps ps' && var = var' then
          -- the pack is the parameters that the others leave
          match Option.map Param.type ps.getLast? with
          | some (.templateParam tp) =>
            if !tp.isPack then none
            else ((deduce ret ret' b).bind (deduceParams true ps (ps'.take (ps.length - 1)))).bind
              (bindRest tp.name (ps.length - 1) (ps'.map fun p => .type p.type))
          | _ => none
        else (deduce ret ret' b).bind (deduceParams false ps ps')
      | _ => none
    | .specialization name as of_ =>
      if isAliasSpelling (.specialization name as of_) then some b
      else if !named as of_ then none
      else match a.stripped with
        | .specialization name' as' of' =>
          matchSpecialization (fun packed => deduceArgs packed as) name as of_ name' (flattenPacks as') of'.record b
        | .specialized _ name' as' primary _ =>
          matchSpecialization (fun packed => deduceArgs packed as) name as of_ name' (flattenPacks as') (some primary) b
        | _ => none
    | .dependent _ => some b
    | _ => none
termination_by structural p

/-- Argument by argument. A pack that is the last has been bound. -/
def deduceArgs (packed : Bool) : List Arg → List Arg → Binding → Option Binding
  | [], [], b => some b
  | p :: ps, as, b =>
    if packed && ps.isEmpty then if as.isEmpty then some b else none
    else match as with
      | [] => none
      | a :: as => (deduceNested p a b).bind (deduceArgs packed ps as)
  | [], _ :: _, _ => none
termination_by structural ps => ps

/-- `bindNestedValue` where one of the two is a value. -/
def deduceNested (p a : Arg) (b : Binding) : Option Binding :=
  match p with
  | .type t =>
    match a with
    | .type t' => deduce t t' b
    | .value v type =>
      match t with
      | .templateParam tp => if tp.isType || tp.name = "" then none else bindValue tp.name type v b
      | _ => none
  | .value v _ =>
    match a with
    | .value v' _ => if v = v' then some b else none
    | .type _ => none
termination_by structural p

/-- Parameter by parameter. A pack that is the last is bound afterwards. -/
def deduceParams (packed : Bool) : List Param → List Param → Binding → Option Binding
  | [], [], b => some b
  | .mk _ t _ _ _ :: ps, as, b =>
    if packed && ps.isEmpty then if as.isEmpty then some b else none
    else match as with
      | [] => none
      | a :: as => (deduce t a.type b).bind (deduceParams packed ps as)
  | [], _ :: _, _ => none
termination_by structural ps => ps

end

/-- `decayed`: an array is a pointer to its elements, and a function one to itself. -/
def decayed (t : Ty) : Ty :=
  match t.stripped with
  | .array e _ _ _ => .pointer e
  | .func ret ps var q r n => .pointer (.func ret ps var q r n)
  | _ => t

/-- `deduceArg`: only a reference takes an argument that does not decay, and a forwarding reference takes
an lvalue as the reference to it. -/
def deduceArg (p a : Ty) (isLValue : Bool) (b : Binding) : Option Binding :=
  let a := if p.isReference then a else decayed a
  match p with
  | .rvalueReference (.templateParam tp) =>
    if isLValue && tp.isType && tp.name ≠ "" then bindType tp.name a.addLValueReference b else deduce p a b
  | _ => deduce p a b

/-! ### Declared types -/

mutual

/-- What is dependent has no pointer to a reference, no array of references and no pack among the
arguments of a template-id. -/
def declared (t : Ty) : Bool :=
  !isDependent t || match t with
    | .qualified _ t | .lvalueReference t | .rvalueReference t => declared t
    | .pointer e | .array e _ _ _ => !e.isReference && declared e
    | .memberPointer c e => declared c && !e.isReference && declared e
    | .func ret ps _ _ _ _ => declared ret && declaredParams ps
    | .specialization _ as _ => declaredArgs as
    | _ => true
termination_by structural t

def declaredArgs : List Arg → Bool
  | [] => true
  | .type (.pack _) :: _ => false
  | .type t :: as => declared t && declaredArgs as
  | .value _ _ :: as => declaredArgs as
termination_by structural x => x

def declaredParams : List Param → Bool
  | [] => true
  | .mk _ t _ _ _ :: ps => declared t && declaredParams ps
termination_by structural x => x

end

/-! ### What a call may change -/

/-- The qualifiers of a type, an array's being its elements'. -/
def Ty.cv : Ty → Qual
  | .qualified q t => t.cv ||| q
  | .array e _ _ _ => e.cv
  | _ => 0

/-- The type without them. -/
def Ty.withoutCv : Ty → Ty
  | .qualified _ t => t.withoutCv
  | .array e len inc dep => .array e.withoutCv len inc dep
  | t => t

/-- The qualifiers are among the others. -/
def within (q q' : Qual) : Bool := q &&& q' = q

/-- The class of a template-id is a base of the class. A class of that template is no derived class. -/
def derives (bases : Nat → List Ty) : Ty → Ty → Bool
  | .specialization name as of_, .specialized r name' _ _ _ =>
    name ≠ name' && (bases r).any fun o => o.recordId.isSome && (Ty.specialization name as of_).spells o
  | .specialization name as of_, .record r _ => (bases r).any fun o => o.recordId.isSome && (Ty.specialization name as of_).spells o
  | _, _ => false

/-- The same type, or a base of it. -/
def sameOrBase (bases : Nat → List Ty) (s a : Ty) : Bool := s.spells a || derives bases s a

/-- The same with more qualifiers than the other, which has some besides. -/
def moreQualified (bases : Nat → List Ty) (besides : Qual) (s a : Ty) : Bool :=
  within (a.cv ||| besides) s.cv && sameOrBase bases s.withoutCv a.withoutCv

/-- No classes with bases. -/
def noBases : Nat → List Ty := fun _ => []

/-- A parameter's type that is no reference: a pointer may be to more qualifiers. -/
def adjustsValue (bases : Nat → List Ty) (besides : Qual) (s a : Ty) : Bool :=
  match s, a with
  | .pointer e, .pointer e' => moreQualified bases besides e e'
  | .memberPointer c e, .memberPointer c' e' => c.spells c' && moreQualified noBases 0 e e'
  | s, a => sameOrBase bases s a

/-- The qualifiers of an array as a whole are its elements' when it decays. -/
def ownQuals (a : Ty) : Qual :=
  match a.removeReference with
  | .qualified q (.array _ _ _ _) => q
  | _ => 0

/-- The parameter's type is the argument's, but that a reference may be to more qualifiers, that what is
no reference drops the argument's reference and qualifiers, takes an array or a function as the pointer
it decays to and a pointer as one to more qualifiers, and that a class may be a derived one. -/
def adjusts (bases : Nat → List Ty) (s a : Ty) : Bool :=
  match s with
  | .lvalueReference e | .rvalueReference e => moreQualified bases 0 e a.removeReference
  | s => adjustsValue bases (ownQuals a) s.unqualify (decayed a).stripped

/-! ### What deduction drops -/

mutual

/-- Below the first level nothing may differ. A parameter that is not under a pointer or a reference or in
an array drops the argument's reference and qualifiers, qualifiers in the pattern drop those of the argument,
every other form drops its reference and its qualifiers and a pointer an array; what mentions no parameter
is not compared, and neither are the qualifiers of a function type, its ellipsis and the template that a
template-id names. -/
def kept (p a : Ty) : Bool :=
  if !isDependent p then p.spells a
  else match p with
    | .templateParam _ =>
      match a with
      | .qualified _ _ => false
      | a => !a.isReference
    | .qualified q t =>
      match a with
      | .qualified q' t' => q = q' && kept t t'
      | a => a.isFunc && kept t a
    | .lvalueReference e =>
      match a with
      | .lvalueReference e' => e.isParam || kept e e'
      | a => a.isVoid && (e.isParam || kept e a)
    | .rvalueReference e =>
      match a with
      | .rvalueReference e' => e.isParam || kept e e'
      | a => a.isVoid && (e.isParam || kept e a)
    | .pointer e =>
      match a with
      | .pointer e' => e.isParam || kept e e'
      | _ => false
    | .memberPointer c e =>
      match a with
      | .memberPointer c' e' => kept c c' && kept e e'
      | _ => false
    | .array e _ _ dep =>
      match a with
      | .array e' _ _ dep' => (dep ≠ "" || dep' = "") && (e.isParam || kept e e')
      | _ => false
    | .func ret ps var q r n =>
      match a with
      | .func ret' ps' var' q' r' n' => var = var' && q = q' && r = r' && n = n' && kept ret ret' && keptParams ps ps'
      | _ => false
    | .specialization name as of_ =>
      match a with
      | .specialization name' as' _ => name = name' && keptArgs as (flattenPacks as')
      | .specialized _ _ as' primary _ => of_ = .primary primary && keptArgs as (flattenPacks as')
      | _ => false
    | _ => false
termination_by structural p

def Arg.kept : Arg → Arg → Bool
  | .type t, .type t' => Template.kept t t'
  | _, _ => true
termination_by structural x => x

/-- Argument by argument; a pack that is the last takes the others as they are. -/
def keptArgs : List Arg → List Arg → Bool
  | p :: ps, os =>
    if isPackParam p && ps.isEmpty then true
    else match os with
      | a :: as => p.kept a && keptArgs ps as
      | [] => true
  | [], _ => true
termination_by structural x => x

def keptParams : List Param → List Param → Bool
  | .mk _ t _ pack _ :: ps, os =>
    if pack && ps.isEmpty then true
    else match os with
      | p :: ps' => kept t p.type && keptParams ps ps'
      | [] => true
  | [], _ => true
termination_by structural x => x

end

/-- The qualifiers that a pattern's type has once it is deduced: a parameter's are those of what it takes,
and a function has none. -/
def gains (exact : Bool) (p a : Ty) : Qual :=
  if !isDependent p then p.cv
  else match p with
    | .templateParam _ => if exact then a.cv else a.stripped.cv
    | .qualified q t => if a.stripped.isFunc then gains false t a.unqualify else gains false t a.unqualify ||| q
    | .array e _ _ _ =>
      match a.stripped with
      | .array e' _ _ _ => gains true e e'
      | _ => 0
    | _ => 0

/-- At the first level qualifiers may be dropped. -/
def keptFirst (exact : Bool) (p a : Ty) : Bool :=
  if !isDependent p then p.withoutCv.spells a.withoutCv
  else match p with
    | .templateParam _ => exact || !a.isReference
    | .qualified _ t => keptFirst false t a.unqualify
    | .array e _ _ dep =>
      match a.unqualify with
      | .array e' _ _ dep' => (dep ≠ "" || dep' = "") && keptFirst true e e'
      | _ => false
    | p => kept p a.unqualify

/-- What is referred or pointed to keeps what it is, and has no qualifiers that are not deduced. -/
def preservedFirst (besides : Qual) (exact : Bool) (p a : Ty) : Bool :=
  within (a.cv ||| besides) (gains exact p a) && keptFirst exact p a

/-- The same of a pattern that is no reference. -/
def preservedValue (besides : Qual) (p a : Ty) : Bool :=
  match p with
  | .templateParam _ =>
    match a with
    | .pointer e => within besides e.cv
    | _ => true
  | .pointer e =>
    match a with
    | .pointer e' => preservedFirst besides true e e'
    | _ => false
  | .memberPointer c e =>
    match a with
    | .memberPointer c' e' => kept c c' && preservedFirst 0 false e e'
    | _ => false
  | p => kept p a

/-- Nothing is dropped but what a call may change. -/
def preserved (bases : Nat → List Ty) (p a : Ty) (isLValue : Bool) : Bool :=
  if !isDependent p then adjusts bases p a
  else match p with
    | .lvalueReference e => a.isVoid || preservedFirst 0 true e a.removeReference
    | .rvalueReference e => isLValue && e.isParam || a.isVoid || preservedFirst 0 true e a.removeReference
    | p => preservedValue (ownQuals a) p.unqualify (decayed a).stripped

section
-- the equations of a mutual recursion take long: they are derived here, once
attribute [local simp] deduce deduceArgs deduceNested deduceParams declared declaredArgs declaredParams kept Arg.kept keptArgs keptParams
end

end Vcx.Template
