import Vcx.Types.Type

/-!
# Types in templates

The types of `types/types.go` with what matching, deduction and substitution read of them. Records
and enumerations are pointers: here numbers. A specialization's record has its arguments with it.
-/

namespace Vcx.Template
set_option autoImplicit false
open Vcx.Types (Kind RefQual)

/-- The bits of a `Qual`: `const`, `volatile` and the ownership of Objective-C. -/
abbrev Qual := BitVec 8

def Qual.const : Qual := 1
def Qual.volatile : Qual := 2

/-- A `*TemplateParam`. -/
structure TemplateParam where
  name : String
  index : Nat
  depth : Nat := 0
  isPack : Bool := false
  isType : Bool := true
  deriving Repr, DecidableEq

/-- What a template-id is written with: a class template by its primary record, a template template
parameter, or what is no template of classes (an alias). -/
inductive TemplateHead
  | primary (r : Nat)
  | param (p : TemplateParam)
  | alias
  deriving Repr, DecidableEq

def TemplateHead.record : TemplateHead → Option Nat
  | .primary r => some r
  | _ => none

mutual

inductive Ty
  | basic (k : Kind)
  | qualified (q : Qual) (t : Ty)
  | pointer (elem : Ty)
  | blockPointer (func : Ty)
  | lvalueReference (elem : Ty)
  | rvalueReference (elem : Ty)
  | memberPointer (cls elem : Ty)
  | array (elem : Ty) (len : Int) (incomplete : Bool) (depLen : String)
  | func (ret : Ty) (params : List Param) (variadic : Bool) (quals : Qual) (refQual : RefQual) (noexcept : Bool)
  /-- A class that is no specialization. -/
  | record (r : Nat) (pattern : Bool)
  /-- A specialization's class: `primary` is its template's. -/
  | specialized (r : Nat) (name : String) (args : List Arg) (primary : Nat) (pattern : Bool)
  /-- An enumeration, with its underlying type. -/
  | enum (id : Nat) (underlying : Option Ty)
  | interface (id : Nat)
  | templateParam (p : TemplateParam)
  /-- A template-id that is left as it is spelled. -/
  | specialization (name : String) (args : List Arg) (of_ : TemplateHead)
  | dependent (name : String)
  /-- A type transformation of the compiler, of an operand that is dependent. -/
  | transform (op : String) (arg : Ty)
  | templateRef (name : String) (primary : Option Nat) (aliasOf : Option Nat)
  | pack (elems : List Arg)
  /-- What a parameter that is a value is bound to. -/
  | valueBound (type : Ty) (val : Int)

/-- A template argument. -/
inductive Arg
  | type (t : Ty)
  | value (val : Int) (valType : Ty)

inductive Param
  | mk (name : String) (type : Ty) (hasDefault pack : Bool) (packOf : String)

end

def Param.type : Param → Ty
  | .mk _ t _ _ _ => t

def Param.pack : Param → Bool
  | .mk _ _ _ p _ => p

@[simp] theorem Param.type_mk (name : String) (t : Ty) (hasDefault pack : Bool) (packOf : String) :
    (Param.mk name t hasDefault pack packOf).type = t := rfl

@[simp] theorem Param.pack_mk (name : String) (t : Ty) (hasDefault pack : Bool) (packOf : String) :
    (Param.mk name t hasDefault pack packOf).pack = pack := rfl

/-! ### What a type is -/

/-- The kinds of types that are asked for. -/
inductive TypeKind
  | basic (k : Kind)
  | pointer
  | lvalueReference
  | rvalueReference
  | func
  | array
  | record
  | pack
  | other
  deriving Repr, DecidableEq

/-- `Kind`, which looks through qualifiers. -/
def Ty.kind : Ty → TypeKind
  | .basic k => .basic k
  | .qualified _ t => t.kind
  | .pointer _ => .pointer
  | .lvalueReference _ => .lvalueReference
  | .rvalueReference _ => .rvalueReference
  | .func _ _ _ _ _ _ => .func
  | .array _ _ _ _ => .array
  | .record _ _ => .record
  | .specialized _ _ _ _ _ => .record
  | .pack _ => .pack
  | .valueBound t _ => t.kind
  | _ => .other

def Ty.isReference (t : Ty) : Bool := t.kind = .lvalueReference || t.kind = .rvalueReference

def Ty.isFunc (t : Ty) : Bool := t.kind = .func

def Ty.isVoid (t : Ty) : Bool := t.kind = .basic .void

/-- `Unqualify`. -/
def Ty.unqualify : Ty → Ty
  | .qualified _ t => t
  | t => t

/-- `QualsOf`. -/
def Ty.quals : Ty → Qual
  | .qualified q _ => q
  | _ => 0

def Ty.isConst (t : Ty) : Bool := t.quals &&& Qual.const ≠ 0

def Ty.isVolatile (t : Ty) : Bool := t.quals &&& Qual.volatile ≠ 0

/-- `Qualify`: a reference or a function takes no qualifiers, and a qualified type takes more. -/
def Ty.qualify (t : Ty) (q : Qual) : Ty :=
  if q = 0 then t
  else if t.isReference || t.isFunc then t
  else match t with
    | .qualified q' t' => .qualified (q' ||| q) t'
    | t => .qualified q t

/-- `RemoveReference`. -/
def Ty.removeReference : Ty → Ty
  | .lvalueReference t => t
  | .rvalueReference t => t
  | t => t

/-- `AddLValueReference`. -/
def Ty.addLValueReference (t : Ty) : Ty := if t.isVoid then t else .lvalueReference t.removeReference

/-- `AddRValueReference`, which collapses. -/
def Ty.addRValueReference (t : Ty) : Ty :=
  if t.isVoid || t.kind = .lvalueReference then t else .rvalueReference t.removeReference

/-! ### Equality -/

/-- `strictOther`: no qualifiers are none. -/
def Ty.strict : Ty → Ty
  | .qualified q t => if q = 0 then t else .qualified q t
  | t => t

/-- The class a type is: classes are the same if they are the same pointer. -/
def Ty.recordId : Ty → Option Nat
  | .record r _ => some r
  | .specialized r _ _ _ _ => some r
  | _ => none

mutual

/-- `Equal`. -/
def Ty.equal : Ty → Ty → Bool
  | .qualified q t, o =>
    match o with
    | .qualified q' t' => q = q' && t.equal t'
    | o => q = 0 && t.equal o
  | .basic k, o =>
    match o.strict with
    | .basic k' => k = k'
    | _ => false
  | .pointer e, o =>
    match o.strict with
    | .pointer e' => e.equal e'
    | _ => false
  | .blockPointer f, o =>
    match o.strict with
    | .blockPointer f' => f.equal f'
    | _ => false
  | .lvalueReference e, o =>
    match o.strict with
    | .lvalueReference e' => e.equal e'
    | _ => false
  | .rvalueReference e, o =>
    match o.strict with
    | .rvalueReference e' => e.equal e'
    | _ => false
  | .memberPointer c e, o =>
    match o.strict with
    | .memberPointer c' e' => c.equal c' && e.equal e'
    | _ => false
  | .array e len inc dep, o =>
    match o.strict with
    | .array e' len' inc' dep' => e.equal e' && inc = inc' && dep = dep' && (inc || dep ≠ "" || len = len')
    | _ => false
  | .func ret ps var q r n, o =>
    match o.strict with
    | .func ret' ps' var' q' r' n' =>
      var = var' && q = q' && r = r' && n = n' && ret.equal ret' && equalParams ps ps'
    | _ => false
  | .record r _, o => o.strict.recordId = some r
  | .specialized r _ _ _ _, o => o.strict.recordId = some r
  | .enum i _, o =>
    match o.strict with
    | .enum i' _ => i = i'
    | _ => false
  | .interface i, o =>
    match o.strict with
    | .interface i' => i = i'
    | _ => false
  | .templateParam p, o =>
    match o.strict with
    | .templateParam p' => p.index = p'.index && p.depth = p'.depth && p.isType = p'.isType && p.isPack = p'.isPack
    | _ => false
  | .specialization n as _, o =>
    match o.strict with
    | .specialization n' as' _ => n = n' && equalArgs as as'
    | _ => false
  | .dependent n, o =>
    match o.strict with
    | .dependent n' => n = n'
    | _ => false
  | .transform op t, o =>
    match o with
    -- asked the other way round in the source, which is the same of types that are built
    | .transform op' t' => op' = op && t.equal t'
    | _ => false
  | .templateRef _ p a, o =>
    match o with
    | .templateRef _ p' a' => p = p' && a = a'
    | _ => false
  | .pack es, o =>
    match o with
    | .pack es' => equalArgs es es'
    | _ => false
  | .valueBound t _, o => t.equal o
termination_by structural x => x

def Arg.equal : Arg → Arg → Bool
  | .type t, .type t' => t.equal t'
  | .value v _, .value v' _ => v = v'
  | _, _ => false
termination_by structural x => x

/-- Argument by argument. -/
def equalArgs : List Arg → List Arg → Bool
  | [], [] => true
  | a :: as, a' :: as' => a.equal a' && equalArgs as as'
  | _, _ => false
termination_by structural x => x

/-- Parameter by parameter: only the types count. -/
def equalParams : List Param → List Param → Bool
  | [], [] => true
  | .mk _ t _ _ _ :: ps, .mk _ t' _ _ _ :: ps' => t.equal t' && equalParams ps ps'
  | _, _ => false
termination_by structural x => x

end

/-- `flattenPacks` spreads every pack of an argument list into its elements. -/
def flattenPacks : List Arg → List Arg
  | [] => []
  | .type (.pack es) :: args => es ++ flattenPacks args
  | a :: args => a :: flattenPacks args

section
-- the equations of a mutual recursion take long: they are derived here, once
attribute [local simp] Ty.equal Arg.equal equalArgs equalParams
end

end Vcx.Template
