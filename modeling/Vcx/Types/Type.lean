import Mathlib.Data.List.Basic

/-!
# Types and records

The types of `types/types.go` as the layout and the tables read them. A `*Record` is a
pointer, and two records are the same class only when they are the same pointer: here it
is a number, and what it points at is looked up in the program. An enumeration is its
pointer and the two things its size depends on. A type that waits for
template arguments has no size; only its identity is kept.
-/

namespace Vcx.Types
set_option autoImplicit false

/-- The kinds a `Basic` type can have. -/
inductive Kind where
  | invalid | void | bool | char | sChar | uChar | char8 | char16 | char32 | wChar
  | short | uShort | int | uInt | long | uLong | longLong | uLongLong | int128 | uInt128
  | float16 | float | double | longDouble | nullptr | auto | decltypeAuto
  deriving DecidableEq, Repr

/-- The cv-qualifiers `QConst` and `QVolatile`. -/
structure Qual where
  const : Bool := false
  volatile : Bool := false
  deriving DecidableEq, Repr

/-- The reference qualifier of a member function. -/
inductive RefQual where
  | none | lvalue | rvalue
  deriving DecidableEq, Repr

inductive Ty where
  | basic (k : Kind)
  | qualified (q : Qual) (t : Ty)
  | pointer (elem : Ty)
  | blockPointer (func : Ty)
  | lvalueReference (elem : Ty)
  | rvalueReference (elem : Ty)
  | memberPointer (cls elem : Ty)
  | array (elem : Ty) (len : Nat) (incomplete : Bool)
  | func (ret : Ty) (params : List Ty) (variadic : Bool) (quals : Qual) (refQual : RefQual) (noexcept : Bool)
  | record (r : Nat)
  | enum (id : Nat) (underlying : Option Kind) (complete : Bool)
  | dependent (id : Nat)
  deriving Repr, Inhabited

/-- A `*Func`: a member function's type. -/
structure Func where
  ret : Ty
  params : List Ty
  variadic : Bool := false
  quals : Qual := {}
  refQual : RefQual := .none
  noexcept : Bool := false
  deriving Repr

/-- `Unqualify` strips the top-level qualifiers. -/
def Ty.unqualify : Ty → Ty
  | .qualified _ t => t
  | t => t

/-- `RemoveReference`. -/
def Ty.removeReference : Ty → Ty
  | .lvalueReference t => t
  | .rvalueReference t => t
  | t => t

/-- `IsReference`, through a qualification as `Kind` is. -/
def Ty.isReference : Ty → Bool
  | .lvalueReference _ => true
  | .rvalueReference _ => true
  | .qualified _ t => t.isReference
  | _ => false

/-- The record a type is, as `Unqualify(t).(*Record)` finds it. -/
def Ty.asRecord (t : Ty) : Option Nat :=
  match t.unqualify with
  | .record r => some r
  | _ => none

/-- `recordElem`: the class a member's type is, through any arrays. -/
def Ty.recordElem : Ty → Option Nat
  | .qualified _ (.qualified _ _) => none
  | .qualified _ t => t.recordElem
  | .array elem _ _ => elem.recordElem
  | .record r => some r
  | _ => none

attribute [local simp] Ty.recordElem

theorem Ty.recordElem_of_asRecord {t : Ty} {r : Nat} (e : t.asRecord = some r) : t.recordElem = some r := by
  unfold Ty.asRecord Ty.unqualify at e
  split at e
  · rename_i u
    split at u
    · subst u
      simpa [Ty.recordElem] using e
    · subst u
      simpa [Ty.recordElem] using e
  · cases e

/-- The integer kinds, which a bit-field may have. -/
def Kind.isInteger : Kind → Bool
  | .bool | .char | .sChar | .uChar | .char8 | .char16 | .char32 | .wChar => true
  | .short | .uShort | .int | .uInt | .long | .uLong | .longLong | .uLongLong => true
  | .int128 | .uInt128 => true
  | _ => false

/-- Integral and enumeration types. -/
def Ty.isIntegral (t : Ty) : Bool :=
  match t.unqualify with
  | .basic k => k.isInteger
  | .enum _ underlying _ => underlying.all Kind.isInteger
  | _ => false

theorem Ty.recordElem_of_isIntegral {t : Ty} (e : t.isIntegral = true) : t.recordElem = none := by
  unfold Ty.isIntegral Ty.unqualify at e
  cases t with
  | qualified q u => cases u <;> simp_all [Ty.recordElem]
  | _ => simp_all [Ty.recordElem]

/-- How many elements the arrays around `recordElem` hold in all. -/
def Ty.elemCount : Ty → Nat
  | .qualified _ (.qualified _ _) => 1
  | .qualified _ t => t.elemCount
  | .array elem len _ => len * elem.elemCount
  | _ => 1

attribute [local simp] Ty.elemCount

theorem Ty.elemCount_of_asRecord {t : Ty} {r : Nat} (e : t.asRecord = some r) : t.elemCount = 1 := by
  unfold Ty.asRecord Ty.unqualify at e
  split at e
  · rename_i u
    split at u
    · subst u
      simp [Ty.elemCount]
    · subst u
      simp [Ty.elemCount]
  · cases e

/-- `TagKind`. -/
inductive Tag where
  | cls | struct | union
  deriving DecidableEq, Repr

/-- A member's access. -/
inductive Access where
  | pub | protected_ | private_
  deriving DecidableEq, Repr

structure BaseSpec where
  type : Ty
  virtual : Bool := false
  deriving Repr

/-- The class a base-specifier names, when it names one. -/
def BaseSpec.cls (b : BaseSpec) : Option Nat := b.type.asRecord

/-- The class a base-specifier without `virtual` names. -/
def BaseSpec.plain (b : BaseSpec) : Option Nat := if b.virtual then none else b.cls

theorem BaseSpec.plain_eq_some {b : BaseSpec} {c : Nat} :
    b.plain = some c ↔ b.virtual = false ∧ b.cls = some c := by
  unfold BaseSpec.plain
  split <;> simp_all

structure Field where
  name : String
  type : Ty
  bitField : Bool := false
  width : Nat := 0
  access : Access := .pub
  hasInit : Bool := false
  align : Nat := 0
  noUniqueAddress : Bool := false
  deriving Repr

structure Method where
  name : String
  func : Option Func := none
  virtual : Bool := false
  pureVirtual : Bool := false
  template : Bool := false
  static : Bool := false
  friend : Bool := false
  defaulted : Bool := false
  deleted : Bool := false
  deriving Repr

/-- What a `*Record` points at, less the fields that no layout or table reads. -/
structure Record where
  tag : Tag := .struct
  name : String := ""
  bases : List BaseSpec := []
  fields : List Field := []
  methods : List Method := []
  complete : Bool := true
  packed : Bool := false
  align : Nat := 0
  pack : Nat := 0
  deriving Repr, Inhabited

/-- `MemberAlign`: packing takes a member's alignment down, to one or to the ceiling. -/
def Record.memberAlign (r : Record) (n : Nat) : Nat :=
  if r.packed then 1
  else if 0 < r.pack ∧ r.pack < n then r.pack
  else n

theorem Record.memberAlign_pos (r : Record) {n : Nat} (h : 0 < n) : 0 < r.memberAlign n := by
  unfold Record.memberAlign
  split
  · exact Nat.one_pos
  · split <;> omega

end Vcx.Types
