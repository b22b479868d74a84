import Vcx.Template.Match

/-!
# What a match should give back

A pattern is `faithful` to an argument where it has the components of the argument that matching does
not compare. Substituting a binding leaves a template-id as it is spelled, which is not equal to the
class it names; `spells` reads it as that class.
-/

namespace Vcx.Template
set_option autoImplicit false

/-! ### Types that are built -/

mutual

/-- What `Qualify`, `AddLValueReference` and `AddRValueReference` build: no qualifiers on a
reference, a function or a qualified type, and no reference to a reference or to void. Packs stand
only in argument lists. -/
def Ty.built : Ty → Bool
  | .basic _ | .record _ _ | .enum _ _ | .interface _ | .templateParam _ | .dependent _ | .templateRef _ _ _ => true
  | .qualified q t =>
    q ≠ 0 && !t.isReference && !t.isFunc && (match t with | .qualified _ _ => false | _ => true) && t.built
  | .lvalueReference e | .rvalueReference e => !e.isReference && !e.isVoid && e.built
  | .pointer e | .blockPointer e | .array e _ _ _ => e.built
  | .memberPointer c e => c.built && e.built
  | .func ret ps _ _ _ _ => ret.built && builtParams ps
  | .specialized _ _ as _ _ | .specialization _ as _ => builtArgs as
  | .pack _ | .valueBound _ _ | .transform _ _ => false
termination_by structural x => x

def builtArgs : List Arg → Bool
  | [] => true
  | .type (.pack es) :: as => builtElems es && builtArgs as
  | .type t :: as => t.built && builtArgs as
  | .value _ t :: as => t.built && builtArgs as
termination_by structural x => x

/-- The elements of a pack, which are no packs. -/
def builtElems : List Arg → Bool
  | [] => true
  | .type t :: as => t.built && builtElems as
  | .value _ t :: as => t.built && builtElems as
termination_by structural x => x

def builtParams : List Param → Bool
  | [] => true
  | .mk _ t _ _ _ :: ps => t.built && builtParams ps
termination_by structural x => x

end

/-! ### Deducible forms -/

mutual

/-- Of what is dependent: parameters, cv-qualified types, pointers, references, member pointers,
arrays, function types whose last parameter only may be a pack, and template-ids of class templates
and template template parameters. The parameters that are values are those in `values`. -/
def deducible (values : List String) (t : Ty) : Bool :=
  !isDependent t || match t with
    | .templateParam p => p.isType != values.contains p.name
    | .qualified _ t | .pointer t | .lvalueReference t | .rvalueReference t => deducible values t
    | .array t _ _ dep => (dep = "" || values.contains dep) && deducible values t
    | .memberPointer c e => deducible values c && deducible values e
    | .func ret ps _ _ _ _ => deducible values ret && deducibleParams values ps
    | .specialization _ as of_ => of_ ≠ .alias && deducibleArgs values as
    | _ => false
termination_by structural t

def deducibleArgs (values : List String) : List Arg → Bool
  | [] => true
  | .type t :: as => deducible values t && deducibleArgs values as
  | .value _ _ :: as => deducibleArgs values as
termination_by structural x => x

def deducibleParams (values : List String) : List Param → Bool
  | [] => true
  | .mk _ t _ pack _ :: ps => (!pack || ps.isEmpty) && deducible values t && deducibleParams values ps
termination_by structural x => x

end

/-! ### Reading what has been substituted -/

mutual

/-- The type, with each template-id in it read as the class of its template with its arguments, is
the other. Without a template-id this is `Equal`. -/
def Ty.spells : Ty → Ty → Bool
  | .qualified q t, o =>
    match o with
    | .qualified q' t' => q = q' && t.spells t'
    | o => q = 0 && t.spells o
  | .pointer e, o =>
    match o.strict with
    | .pointer e' => e.spells e'
    | _ => false
  | .blockPointer f, o =>
    match o.strict with
    | .blockPointer f' => f.spells f'
    | _ => false
  | .lvalueReference e, o =>
    match o.strict with
    | .lvalueReference e' => e.spells e'
    | _ => false
  | .rvalueReference e, o =>
    match o.strict with
    | .rvalueReference e' => e.spells e'
    | _ => false
  | .memberPointer c e, o =>
    match o.strict with
    | .memberPointer c' e' => c.spells c' && e.spells e'
    | _ => false
  | .array e len inc dep, o =>
    match o.strict with
    | .array e' len' inc' dep' => e.spells e' && inc = inc' && dep = dep' && (inc || dep ≠ "" || len = len')
    | _ => false
  | .func ret ps var q r n, o =>
    match o.strict with
    | .func ret' ps' var' q' r' n' =>
      var = var' && q = q' && r = r' && n = n' && ret.spells ret' && spellsParams ps ps'
    | _ => false
  | .specialization n as of_, o =>
    match o.strict with
    | .specialization n' as' _ => n = n' && spellsArgs as (flattenPacks as')
    | .specialized _ _ as' primary _ => of_ = .primary primary && spellsArgs as (flattenPacks as')
    | _ => false
  | .pack es, o =>
    match o with
    | .pack es' => spellsElems es es'
    | _ => false
  | .valueBound t _, o => t.spells o
  | t, o => t.equal o
termination_by structural x => x

/-- An argument is a value if it is a parameter that has been replaced by one. -/
def Arg.spells : Arg → Arg → Bool
  | .type (.valueBound _ v), .value v' _ => v = v'
  | .type t, .type t' => t.spells t'
  | .value v _, .value v' _ => v = v'
  | _, _ => false
termination_by structural x => x

/-- The arguments, with packs spread, are the others. -/
def spellsArgs : List Arg → List Arg → Bool
  | [], os => os.isEmpty
  | .type (.pack es) :: as, os => spellsElems es (os.take es.length) && spellsArgs as (os.drop es.length)
  | a :: as, os =>
    match os with
    | [] => false
    | o :: os => a.spells o && spellsArgs as os
termination_by structural x => x

def spellsElems : List Arg → List Arg → Bool
  | [], os => os.isEmpty
  | a :: as, os =>
    match os with
    | [] => false
    | o :: os => a.spells o && spellsElems as os
termination_by structural x => x

def spellsParams : List Param → List Param → Bool
  | [], os => os.isEmpty
  | .mk _ t _ _ _ :: ps, os =>
    match os with
    | [] => false
    | o :: os => t.spells o.type && spellsParams ps os
termination_by structural x => x

end

/-! ### What matching does not compare -/

/-- Whether the argument is a pack. -/
def Arg.isPack : Arg → Bool
  | .type (.pack _) => true
  | _ => false

mutual

/-- Where a parameter is mentioned in a pointer, a member pointer, an array or a template-id of the
pattern, the argument's component has no qualifiers of its own; an array's bound is no parameter
where the pattern's is none; a function type has the same qualifiers, reference qualifier and exception
specification; and a template-id stands against one of the same name that is spelled, too. -/
def faithful (p a : Ty) : Bool :=
  !isDependent p || match p with
    | .qualified q t =>
      match a with
      | .qualified q' t' => faithful t (if q' &&& ~~~q ≠ 0 then t'.qualify (q' &&& ~~~q) else t')
      | _ => false
    | .pointer e =>
      match a with
      | .pointer e' => faithful e e'
      | _ => false
    | .lvalueReference e =>
      match a with
      | .lvalueReference e' => faithful e e'
      | _ => false
    | .rvalueReference e =>
      match a with
      | .rvalueReference e' => faithful e e'
      | _ => false
    | .memberPointer c e =>
      match a with
      | .memberPointer c' e' => faithful c c' && faithful e e'
      | _ => false
    | .array e _ _ dep =>
      match a with
      | .array e' _ _ dep' => (dep ≠ "" || dep' = "") && faithful e e'
      | _ => false
    | .func ret ps _ q r n =>
      match a with
      | .func ret' ps' _ q' r' n' => q = q' && r = r' && n = n' && faithful ret ret' && faithfulParams ps ps'
      | _ => false
    | .specialization name as _ =>
      match a with
      | .specialization name' as' _ => name = name' && spelledArgs as as'
      | _ => false
    | _ => true
termination_by structural p

/-- An argument of a spelled template-id, which is no pack; a value is written as one. -/
def Arg.spelled : Arg → Arg → Bool
  | .type t, .type t' => !(Arg.type t').isPack && Template.faithful t t'
  | .value v _, .value v' _ => v = v'
  | _, _ => false
termination_by structural x => x

/-- The arguments of a spelled template-id: a pack that is the last of the pattern stands against a pack. -/
def spelledArgs : List Arg → List Arg → Bool
  | [], os => os.isEmpty
  | p :: ps, os =>
    match os with
    | [] => false
    | o :: os => (if ps.isEmpty && isPackParam p then o.isPack else p.spelled o) && spelledArgs ps os
termination_by structural x => x

def faithfulParams : List Param → List Param → Bool
  | .mk _ t _ _ _ :: ps, p :: ps' => faithful t p.type && faithfulParams ps ps'
  | _, _ => true
termination_by structural x => x

end

def Arg.faithful : Arg → Arg → Bool
  | .type t, .type t' => Template.faithful t t'
  | _, _ => true

/-- Argument by argument; what a pack takes is not compared. -/
def faithfulArgs : List Arg → List Arg → Bool
  | p :: ps, a :: as => p.faithful a && faithfulArgs ps as
  | _, _ => true

/-! ### Arguments that are given back -/

/-- What has been substituted is the argument: equal to it, or the value of a parameter that is one. -/
def Arg.givesBack : Arg → Arg → Bool
  | .type (.valueBound _ v), .value v' _ => v = v'
  | a, o => a.equal o

def givesBackArgs : List Arg → List Arg → Bool
  | [], [] => true
  | a :: as, o :: os => a.givesBack o && givesBackArgs as os
  | _, _ => false

section
-- the equations of a mutual recursion take long: they are derived here, once
attribute [local simp] Ty.built builtArgs builtElems builtParams deducible deducibleArgs deducibleParams Ty.spells Arg.spells spellsArgs
  spellsElems spellsParams faithful Arg.spelled spelledArgs faithfulParams
end

end Vcx.Template
