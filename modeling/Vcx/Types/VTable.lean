import Vcx.Types.Dynamic

/-!
# Virtual tables

`types/vtable.go` as far as both ABIs share it: the slots of a table, when a member function
overrides one, and the searches through a class's bases that go by name. A slot is known by
its name and its signature; a destructor's name is `{dtor}`, since every class spells it
differently.
-/

namespace Vcx.Types
set_option autoImplicit false
open Vcx.Lib

/-- `strictOther`: an empty qualification is looked through. -/
def Ty.strictOther : Ty → Ty
  | .qualified q t => if q = {} then t else .qualified q t
  | t => t

mutual

/-- `Equal`. -/
def Ty.equal : Ty → Ty → Bool
  | .qualified q t, other => match other with
    | .qualified q' t' => q = q' && t.equal t'
    | other => q = {} && t.equal other
  | .basic k, other => match other.strictOther with
    | .basic k' => k = k'
    | _ => false
  | .pointer elem, other => match other.strictOther with
    | .pointer elem' => elem.equal elem'
    | _ => false
  | .blockPointer fn, other => match other.strictOther with
    | .blockPointer fn' => fn.equal fn'
    | _ => false
  | .lvalueReference elem, other => match other.strictOther with
    | .lvalueReference elem' => elem.equal elem'
    | _ => false
  | .rvalueReference elem, other => match other.strictOther with
    | .rvalueReference elem' => elem.equal elem'
    | _ => false
  | .memberPointer cls elem, other => match other.strictOther with
    | .memberPointer cls' elem' => cls.equal cls' && elem.equal elem'
    | _ => false
  | .array elem len incomplete, other => match other.strictOther with
    | .array elem' len' incomplete' => elem.equal elem' && incomplete == incomplete' && (incomplete || len == len')
    | _ => false
  | .func ret params variadic quals refQual noexcept, other => match other.strictOther with
    | .func ret' params' variadic' quals' refQual' noexcept' =>
      variadic == variadic' && quals == quals' && refQual == refQual' && noexcept == noexcept' && ret.equal ret' &&
        Ty.equalAll params params'
    | _ => false
  | .record r, other => match other.strictOther with
    | .record r' => r == r'
    | _ => false
  | .enum id _ _, other => match other.strictOther with
    | .enum id' _ _ => id == id'
    | _ => false
  | .dependent id, other => match other.strictOther with
    | .dependent id' => id == id'
    | _ => false

/-- `Equal` along two parameter lists, which have to be of one length. -/
def Ty.equalAll : List Ty → List Ty → Bool
  | [], [] => true
  | t :: ts, t' :: ts' => t.equal t' && Ty.equalAll ts ts'
  | _, _ => false

end

/-- `sameSignature`: the parameters, the qualifiers and the reference qualifier. -/
def sameSignature : Option Func → Option Func → Bool
  | some a, some b => a.variadic == b.variadic && a.quals == b.quals && a.refQual == b.refQual &&
    Ty.equalAll a.params b.params
  | none, none => true
  | _, _ => false

/-- `VSlot`: one entry of a table. `Introduced`, the name of the class that first declared
the function, is what the tables are printed with. -/
structure VSlot where
  name : String
  introduced : String
  definer : String
  adjust : Int := 0
  pureVirtual : Bool := false
  deleting : Bool := false
  signature : Option Func := none
  deriving Repr

/-- `VTable`: one table of a class, where its pointer is and, under Itanium, where the
virtual bases are from there. -/
structure VTable where
  base : String := ""
  offset : Nat := 0
  vbaseOffsets : List Int := []
  slots : List VSlot := []
  deriving Repr

/-- The name of every destructor's slot. -/
def dtorName : String := "{dtor}"

/-- `virtualNameOf`. -/
def virtualNameOf (name : String) (r : Record) : String := if name = "~" ++ r.name then dtorName else name

/-- `virtualName`: the name a slot is known by. -/
def virtualName (meth : Method) (r : Record) : String := virtualNameOf meth.name r

/-- `overrides`: whether a member function overrides a slot, by name and signature. -/
def overrides (meth : Method) (slot : VSlot) (r : Record) : Bool :=
  virtualName meth r == slot.name &&
    (slot.signature.isNone || meth.func.isNone || sameSignature meth.func slot.signature)

section

variable (h : Hierarchy)

/-- `OverridesVirtual` at one class. -/
def overridesVirtualBody (self : Nat → String → Option Func → Bool) (r : Nat) (name : String) (fn : Option Func) : Bool :=
  (h.record r).bases.any fun b => match b.cls with
    | none => false
    | some base => (h.record base).methods.any (fun meth =>
        virtualName meth (h.record base) == virtualNameOf name (h.record r) && sameSignature meth.func fn &&
          (meth.virtual || self base meth.name meth.func)) || self base name fn

/-- `OverridesVirtual`: whether a member function overrides one of a base. -/
def overridesVirtual : Nat → String → Option Func → Bool :=
  fix (overridesVirtualBody h) fun _ _ => false

/-- `hasVirtualDtor`: whether a class in the hierarchy declares its destructor virtual. -/
def hasVirtualDtor : Nat → Bool :=
  fix (fun self r => (h.record r).methods.any (fun meth => meth.name == "~" ++ (h.record r).name && meth.virtual) ||
    (h.record r).bases.any fun b => b.cls.any self) false

/-- `findBase`: the first class of a name, a class before its bases. -/
def findBase : Nat → String → Option Nat :=
  fix (fun self r name => if (h.record r).name = name then some r else
    (h.record r).bases.findSome? fun b => b.cls.bind fun c => self c name) fun _ => none

end

end Vcx.Types
