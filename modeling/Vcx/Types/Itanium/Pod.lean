import Vcx.Types.Sizes

/-!
# PODs for the purpose of layout

Whether a class's tail padding is reused: C++ TR1's POD on the generic Itanium targets,
C++11's trivial standard-layout class on Apple's arm64.
-/

namespace Vcx.Types
set_option autoImplicit false
open Vcx.Lib

/-- The class a single parameter names, by value or by reference. -/
def Func.soleRecord (f : Func) : Option Nat :=
  match f.params with
  | [p] => p.removeReference.asRecord
  | _ => none

def isCopyAssign (r : Nat) (meth : Method) : Bool :=
  match meth.func with
  | none => false
  | some f => f.soleRecord == some r

/-- A default, copy or move constructor. -/
def specialCtor (r : Nat) (meth : Method) : Bool :=
  match meth.func with
  | none => false
  | some f => f.params.isEmpty || f.soleRecord == some r

/-- The scan of `layoutTrivial` over the methods: whether any is a user-provided special
member, and whether there is a constructor and a default one. -/
def trivialMethods (r : Nat) (name : String) : List Method → Bool
  | [] => true
  | meth :: ms =>
    if meth.static || meth.friend || meth.template then trivialMethods r name ms
    else if meth.name = name then
      if !meth.defaulted && !meth.deleted && specialCtor r meth then false else trivialMethods r name ms
    else if meth.name = "~" ++ name || (meth.name = "operator=" && isCopyAssign r meth) then
      if !meth.defaulted && !meth.deleted then false else trivialMethods r name ms
    else trivialMethods r name ms

/-- The constructors `layoutTrivial` counts. -/
def countedCtors (name : String) (ms : List Method) : List Method :=
  ms.filter fun meth => !(meth.static || meth.friend || meth.template) && meth.name == name

def layoutTrivialBody (h : Hierarchy) (self : Nat → Bool) (r : Nat) : Bool :=
  let rec_ := h.record r
  let ctors := countedCtors rec_.name rec_.methods
  !isDynamic h r && trivialMethods r rec_.name rec_.methods &&
    (ctors.isEmpty || ctors.any fun meth => meth.func.any fun f => f.params.isEmpty) &&
    rec_.fields.all (fun f => !f.hasInit && f.type.recordElem.all self) &&
    rec_.bases.all fun b => b.cls.all self

/-- No user-provided special member, nothing virtual, trivial bases and members. -/
def layoutTrivial (h : Hierarchy) : Nat → Bool := fix (layoutTrivialBody h) false

def hasDataInHierarchy (h : Hierarchy) : Nat → Bool :=
  fix (fun self r => !(h.record r).fields.isEmpty || (h.record r).bases.any fun b => b.cls.any self) false

def layoutStandardBody (h : Hierarchy) (self : Nat → Bool) (r : Nat) : Bool :=
  let rec_ := h.record r
  let withData := (if rec_.fields.isEmpty then 0 else 1) +
    (rec_.bases.filter fun b => b.cls.any (hasDataInHierarchy h)).length
  !isDynamic h r &&
    rec_.fields.all (fun f => (rec_.fields.head?.all fun f0 => f.access == f0.access) &&
      !f.type.isReference && f.type.recordElem.all self) &&
    rec_.bases.all (fun b => b.cls.all self) && withData ≤ 1

/-- Nothing virtual, one access and one class for the data, standard bases and members. -/
def layoutStandard (h : Hierarchy) : Nat → Bool := fix (layoutStandardBody h) false

def podForLayoutBody (m : Model) (h : Hierarchy) (self : Nat → Bool) (r : Nat) : Bool :=
  let rec_ := h.record r
  let podFields := rec_.fields.all fun f => f.type.recordElem.all self
  if rec_.tag = .union then podFields
  else if m.abi.tailPaddingPOD11 then layoutTrivial h r && layoutStandard h r
  else if !rec_.bases.isEmpty || isDynamic h r then false
  else if rec_.methods.any (fun meth => !(meth.static || meth.friend) &&
      (meth.name == rec_.name || meth.name == "~" ++ rec_.name ||
        (meth.name == "operator=" && !meth.template && isCopyAssign r meth))) then false
  else if rec_.fields.any (fun f => f.access != .pub) then false
  else podFields

/-- `podForLayout`: a base of such a class keeps its tail padding to itself. -/
def podForLayout (m : Model) (h : Hierarchy) : Nat → Bool := fix (podForLayoutBody m h) false

end Vcx.Types
