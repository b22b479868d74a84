import Mathlib.Data.List.AList
import Vcx.Lib.Align
import Vcx.Types.Model
import Vcx.Types.Dynamic

/-!
# Sizes and alignments of types

`Sizeof` and `Alignof` over the layouts of the records below, which are a parameter: the
record layouts are defined on top of this module and call back into it for their members.
-/

namespace Vcx.Types
set_option autoImplicit false
open Vcx.Lib

/-- `recordInfo`: the metrics and offsets of one laid-out record. -/
structure RecordInfo where
  size : Nat
  align : Nat
  fieldOffsets : List Nat
  bitOffsets : List Int
  bitUnits : List Nat
  nvsize : Nat
  dsize : Nat
  nvalign : Nat
  primary : Option Nat
  primaryVirtual : Option Nat
  baseOffsets : List Nat
  vbptr : Option Nat
  vbaseOffsets : AList fun _ : Nat => Nat
  deriving DecidableEq

/-- The layouts known so far. No layout is Go's `ok = false`, or a run that never ends. -/
abbrev Layouts := Nat → Option RecordInfo

/-- `IsFunc`. -/
def Ty.isFunc (t : Ty) : Bool :=
  match t.unqualify with
  | .func .. => true
  | _ => false

/-- `memberPointerSize`: under Microsoft's ABI by the inheritance model of the class. -/
def memberPointerSize (m : Model) (h : Hierarchy) (cls elem : Ty) : Nat :=
  if m.abi.isItanium then (if elem.isFunc then 2 * m.sizePtr else m.sizePtr)
  else match cls.asRecord with
    | none => if elem.isFunc then 2 * m.sizePtr else 8
    | some r =>
      if !(h.record r).complete then (if elem.isFunc then 2 * m.sizePtr else 8)
      else if hasVirtualBase h r then (if elem.isFunc then 2 * m.sizePtr else 8)
      else if 1 < (h.record r).bases.length then (if elem.isFunc then 2 * m.sizePtr else 4)
      else (if elem.isFunc then m.sizePtr else 4)

/-- `Sizeof`. -/
def sizeof (m : Model) (h : Hierarchy) (L : Layouts) : Ty → Option Nat
  | .qualified _ (.qualified _ _) => none
  | .qualified _ t => sizeof m h L t
  | .basic k => m.basicSize k
  | .pointer _ | .blockPointer _ | .lvalueReference _ | .rvalueReference _ => some m.sizePtr
  | .memberPointer cls elem => some (memberPointerSize m h cls elem)
  | .enum _ (some k) _ => m.basicSize k
  | .enum _ none complete => if complete then some m.sizeInt else none
  | .array elem len incomplete => if incomplete then none else (sizeof m h L elem).map (· * len)
  | .record r => if (h.record r).complete then (L r).map RecordInfo.size else none
  | .func .. | .dependent _ => none

/-- `Alignof`. -/
def alignof (m : Model) (h : Hierarchy) (L : Layouts) : Ty → Option Nat
  | .qualified _ (.qualified _ _) => none
  | .qualified _ t => alignof m h L t
  | .basic k => m.basicAlign k
  | .pointer _ | .blockPointer _ | .lvalueReference _ | .rvalueReference _ => some m.sizePtr
  | .memberPointer cls elem =>
    if m.sizePtr < memberPointerSize m h cls elem then some m.sizePtr
    else some (memberPointerSize m h cls elem)
  | .enum _ (some k) _ => m.basicAlign k
  | .enum _ none complete => if complete then some m.sizeInt else none
  | .array elem _ _ => alignof m h L elem
  | .record r => if (h.record r).complete then (L r).map RecordInfo.align else none
  | .func .. | .dependent _ => none

/-- The alignment a member asks for: its type's or a larger `alignas`, then packing. -/
def fieldAlign (r : Record) (f : Field) (typeAlign : Nat) : Nat :=
  r.memberAlign (if typeAlign < f.align then f.align else typeAlign)

/-- A C++ object is never of size zero. -/
def atLeastOne (n : Nat) : Nat := if n = 0 then 1 else n

theorem atLeastOne_pos (n : Nat) : 0 < atLeastOne n := by
  unfold atLeastOne
  split <;> omega

theorem le_atLeastOne (n : Nat) : n ≤ atLeastOne n := by
  unfold atLeastOne
  split <;> omega

variable {m : Model} {h : Hierarchy} {L L' : Layouts}

attribute [local simp] sizeof alignof

/-- The size of a type reads the layout of at most one record, the one `recordElem` is. -/
theorem sizeof_congr {t : Ty} (agree : ∀ c, t.recordElem = some c → L c = L' c) :
    sizeof m h L t = sizeof m h L' t := by
  fun_induction sizeof m h L t with
  | case2 q t plain ih =>
    rw [sizeof.eq_2 _ _ _ _ _ plain]
    exact ih fun c hc => agree c (by rw [Ty.recordElem.eq_2 _ _ plain]; exact hc)
  | case13 elem len incomplete known ih =>
    simp [sizeof, known, ih fun c hc => agree c (by simpa [Ty.recordElem] using hc)]
  | case14 r complete => simp [sizeof, complete, agree r (by simp [Ty.recordElem])]
  | _ => simp_all [sizeof]

theorem alignof_congr {t : Ty} (agree : ∀ c, t.recordElem = some c → L c = L' c) :
    alignof m h L t = alignof m h L' t := by
  fun_induction alignof m h L t with
  | case2 q t plain ih =>
    rw [alignof.eq_2 _ _ _ _ _ plain]
    exact ih fun c hc => agree c (by rw [Ty.recordElem.eq_2 _ _ plain]; exact hc)
  | case13 elem len incomplete ih =>
    simp [alignof, ih fun c hc => agree c (by simpa [Ty.recordElem] using hc)]
  | case14 r complete => simp [alignof, complete, agree r (by simp [Ty.recordElem])]
  | _ => simp_all [alignof]

/-- A type for bit-fields is aligned to its size. -/
theorem alignof_of_isIntegral {t : Ty} (integral : t.isIntegral = true) : alignof m h L t = sizeof m h L t := by
  have basic : ∀ k : Kind, k.isInteger = true → m.basicAlign k = m.basicSize k := by
    intro k int
    unfold Model.basicAlign
    split
    · rename_i eq
      subst eq
      cases int
    · rfl
  have enumerated : ∀ (id : Nat) (underlying : Option Kind) (complete : Bool), underlying.all Kind.isInteger = true →
      alignof m h L (.enum id underlying complete) = sizeof m h L (.enum id underlying complete) := by
    intro id underlying complete int
    cases underlying with
    | none => rfl
    | some k => exact basic k int
  cases t with
  | qualified q u =>
    cases u with
    | basic k => exact basic k integral
    | enum id underlying complete => exact enumerated id underlying complete integral
    | _ => cases integral
  | basic k => exact basic k integral
  | enum id underlying complete => exact enumerated id underlying complete integral
  | _ => cases integral

theorem memberPointerSize_pos (sizes : m.Sizes) (cls elem : Ty) : 0 < memberPointerSize m h cls elem := by
  have ptr := sizes.ptr_pos
  unfold memberPointerSize
  split
  · split <;> omega
  split
  · split <;> omega
  · split
    · split <;> omega
    split
    · split <;> omega
    split <;> split <;> omega

/-- Every known alignment is positive, when the records' are. -/
theorem alignof_pos (sizes : m.Sizes) {t : Ty} {n : Nat}
    (pos : ∀ c info, t.recordElem = some c → L c = some info → 0 < info.align)
    (align : alignof m h L t = some n) : 0 < n := by
  have ptr := sizes.ptr_pos
  have int := sizes.int
  fun_induction alignof m h L t with
  | case2 q t plain ih =>
    exact ih (fun c info hc => pos c info (by rw [Ty.recordElem.eq_2 _ _ plain]; exact hc)) align
  | case3 k => exact sizes.basicAlign_pos align
  | case9 cls elem => 
    cases align
    exact memberPointerSize_pos sizes cls elem
  | case10 _ _ k => exact sizes.basicAlign_pos align
  | case13 elem len incomplete ih =>
    exact ih (fun c info hc => pos c info (by simpa [Ty.recordElem] using hc)) align
  | case14 r complete =>
    obtain ⟨info, known, rfl⟩ := Option.map_eq_some_iff.1 align
    exact pos r info (by simp [Ty.recordElem]) known
  | _ =>
    simp only [Option.some.injEq, reduceCtorEq] at align
    try omega

end Vcx.Types
