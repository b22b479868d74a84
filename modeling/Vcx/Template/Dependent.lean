import Vcx.Template.MatchSound

/-!
# Which types mention a parameter

A template parameter occurs in a type as a type, as an array's bound, as the template of a
template-id, or in any part of one. `isDependent` and `substitute` walk over types each in its
own way: a type is `reached` where every occurrence in it is one that substitution comes to.
-/

namespace Vcx.Template
set_option autoImplicit false

/-! ### Occurrences -/

/-- The template of a template-id is one of the parameters. -/
def TemplateHead.mentions (ns : List String) : TemplateHead → Bool
  | .param p => ns.contains p.name
  | _ => false

/-- The names that a name is written with. -/
def nameParts (name : String) : List String := name.splitOn "::"

mutual

/-- One of the parameters of these names occurs in the type. -/
def Ty.mentions (ns : List String) : Ty → Bool
  | .templateParam p => ns.contains p.name
  | .dependent name => (nameParts name).any ns.contains
  | .qualified _ t | .pointer t | .blockPointer t | .lvalueReference t | .rvalueReference t | .transform _ t | .valueBound t _ =>
    t.mentions ns
  | .enum _ (some t) => t.mentions ns
  | .memberPointer c e => c.mentions ns || e.mentions ns
  | .array e _ _ dep => dep ≠ "" && ns.contains dep || e.mentions ns
  | .func ret ps _ _ _ _ => ret.mentions ns || paramsMention ns ps
  | .specialized _ _ as _ _ | .pack as => argsMention ns as
  | .specialization _ as of_ => of_.mentions ns || argsMention ns as
  | .basic _ | .record _ _ | .interface _ | .templateRef _ _ _ | .enum _ none => false
termination_by structural x => x

def argsMention (ns : List String) : List Arg → Bool
  | [] => false
  | .type t :: as | .value _ t :: as => t.mentions ns || argsMention ns as
termination_by structural x => x

def paramsMention (ns : List String) : List Param → Bool
  | [] => false
  | .mk _ t _ _ _ :: ps => t.mentions ns || paramsMention ns ps
termination_by structural x => x

end

/-- What a type's parameters should come to: where one occurs the type is dependent, and none is left in it
once they are substituted. -/
structure Substituted (ns : List String) (b : Binding) (t : Ty) : Prop where
  seen : t.mentions ns = true → isDependent t = true
  gone : (substitute t b).mentions ns = false

/-- Nothing that is bound mentions a parameter, and only what has a name is bound. -/
structure Apart (ns : List String) (b : Binding) : Prop where
  apart : ∀ n s, b.lookup n = some s → s.mentions ns = false
  named : b.lookup "" = none

/-- The binding binds the parameters of these names. -/
structure Binds (ns : List String) (b : Binding) : Prop extends Apart ns b where
  bound : ∀ n ∈ ns, (b.lookup n).isSome

/-! ### What substitution comes to -/

/-- What a parameter that is a value is bound to. -/
def Ty.isValue : Ty → Bool
  | .valueBound _ _ => true
  | _ => false

/-- The bound of an array has a value, unless it is none of the parameters. -/
def boundReached (ns : List String) (dep : String) (b : Binding) : Bool :=
  dep = "" || !ns.contains dep || (b.lookup dep).any Ty.isValue

/-- A parameter is bound, and to a pack only if it is one. -/
def paramReached (p : TemplateParam) (b : Binding) : Bool :=
  match b.lookup p.name with
  | some (.pack _) => p.isPack
  | some _ => true
  | none => false

mutual

/-- Every occurrence of a parameter is one that substitution comes to: none under a block pointer, in a
nested name, an enumeration, a specialization that is a class already or an element of a pack, none is the
template of a template-id, and each type transformation applies to what its operand is then. -/
def reached (ns : List String) (t : Ty) (b : Binding) : Bool :=
  !t.mentions ns || match t with
    | .templateParam p => paramReached p b
    | .qualified _ t | .pointer t | .lvalueReference t | .rvalueReference t => reached ns t b
    | .memberPointer c e => reached ns c b && reached ns e b
    | .array e _ _ dep => boundReached ns dep b && reached ns e b
    | .func ret ps _ _ _ _ => reached ns ret b && paramsReached ns ps b
    | .specialization _ as of_ => !of_.mentions ns && argsReached ns as b
    | .transform op t => (applyTransform op (substitute t b) (isDependent (substitute t b))).isSome && reached ns t b
    | _ => false
termination_by structural t

def argsReached (ns : List String) (as : List Arg) (b : Binding) : Bool :=
  match as with
  | [] => true
  | .type t :: as => reached ns t b && argsReached ns as b
  | .value _ t :: as => !t.mentions ns && argsReached ns as b
termination_by structural as

/-- In the pattern of a pack only the pack is bound, to one element after the other. -/
def paramsReached (ns : List String) (ps : List Param) (b : Binding) : Bool :=
  match ps with
  | [] => true
  | .mk _ t _ pack _ :: ps =>
    (match if pack then b.lookup (packParamName t) else none with
      | some (.pack es) => es.all fun
        | .type s => reached ns t [(packParamName t, s)]
        | .value _ _ => !t.mentions ns
      | _ => reached ns t b) && paramsReached ns ps b
termination_by structural ps

end

end Vcx.Template
