import Vcx.Lib.Thread
import Vcx.Types.Sizes
import Vcx.Types.Microsoft.Graph

/-!
# Record layout under Microsoft's ABI

The other half of `layoutInfo` in `types/model.go`. A class's vfptr comes first, then its
bases, its vbptr, its members and, once each, its virtual bases.
-/

namespace Vcx.Types
set_option autoImplicit false
open Vcx.Lib

section

variable (m : Model) (h : Hierarchy) (L : Layouts)

/-! ### Bases -/

/-- `layoutNonVirtual`: size and alignment without the virtual bases. -/
def layoutNonVirtual (info : RecordInfo) : Nat × Nat :=
  if info.vbaseOffsets.entries.isEmpty then (info.nvsize, info.align)
  else (info.vbaseOffsets.entries.foldl (fun first e => if e.2 < first then e.2 else first) info.size, info.align)

/-- The running state while the bases are laid out. -/
structure MsBases where
  cur : Nat
  align : Nat
  emptySoFar : Nat := 0

/-- `if a > align { align = a }`. -/
def raiseTo (align a : Nat) : Nat := if align < a then a else align

/-- An empty base takes no room, unless it is not the first. -/
def placeMsEmptyBase (s : MsBases) : Nat × MsBases :=
  if 0 < s.emptySoFar then
    (s.cur + s.emptySoFar, { s with cur := s.cur + s.emptySoFar + 1, emptySoFar := s.emptySoFar + 1 })
  else (s.cur, { s with emptySoFar := s.emptySoFar + 1 })

/-- Any other base follows what is placed so far. -/
def placeMsDataBase (bSize bAlign : Nat) (s : MsBases) : Nat × MsBases :=
  (roundUp s.cur bAlign, { s with cur := roundUp s.cur bAlign + bSize })

/-- One base of `r`; a virtual one only raises the alignment here. -/
def placeMsBase (vptr : Bool) (b : BaseSpec × Nat) (s : MsBases) : Option (Nat × MsBases) :=
  match b.1.cls.filter fun br => (h.record br).complete with
  | none => some (0, s)
  | some br => match L br with
    | none => none
    | some bi =>
      let (bSize, bAlign) := layoutNonVirtual bi
      let s := { s with align := raiseTo s.align bAlign }
      if b.1.virtual then some (0, s)
      else if isEmptyRecord h br && !vptr then some (placeMsEmptyBase s)
      else some (placeMsDataBase bSize bAlign s)

/-! ### Members -/

/-- The open storage unit of a run of bit-fields. -/
structure MsUnit where
  offset : Nat
  size : Nat
  used : Nat

/-- The running state while the members are laid out. -/
structure MsFields where
  cur : Nat
  align : Nat
  unit : Option MsUnit := none

/-- `closeUnit`. -/
def MsFields.close (s : MsFields) : MsFields :=
  match s.unit with
  | none => s
  | some u => { s with cur := u.offset + u.size, unit := none }

/-- Where a member was put. -/
structure MsPlaced where
  offset : Nat
  bitOffset : Nat := 0
  bitUnit : Nat := 0

/-- The open unit, when a bit-field fits in it. -/
def MsFields.openFor (m : Model) (s : MsFields) (width fs : Nat) : Option MsUnit :=
  s.unit.filter fun u => !(u.size * 8 < u.used + width || (m.msBitfields && u.size != fs))

/-- The unit a bit-field goes in: the open one, or a new one after it. -/
def MsFields.unitFor (m : Model) (s : MsFields) (width fs fa : Nat) : MsUnit :=
  (s.openFor m width fs).getD { offset := roundUp s.close.cur fa, size := fs, used := 0 }

/-- A bit-field of non-zero width. -/
def placeMsBitField (width fs fa : Nat) (s : MsFields) : MsPlaced × MsFields :=
  let u := s.unitFor m width fs fa
  ({ offset := u.offset, bitOffset := u.used, bitUnit := u.size },
    { s with
      cur := if (s.openFor m width fs).isSome then s.cur else u.offset
      unit := some { u with used := u.used + width } })

/-- A bit-field of width zero closes the unit. -/
def placeMsBreak (fa : Nat) (s : MsFields) : MsPlaced × MsFields :=
  ({ offset := roundUp s.close.cur fa }, { s.close with cur := roundUp s.close.cur fa })

/-- Any other member. -/
def placeMsMember (fs fa : Nat) (s : MsFields) : MsPlaced × MsFields :=
  ({ offset := roundUp s.close.cur fa }, { s.close with cur := roundUp s.close.cur fa + fs })

/-- One member. -/
def placeMsField (r : Record) (f : Field) (s : MsFields) : Option (MsPlaced × MsFields) :=
  match sizeof m h L f.type, alignof m h L f.type with
  | some fs, some ta =>
    let fa := fieldAlign r f ta
    let s := { s with align := if !f.bitField || f.name != "" then raiseTo s.align fa else s.align }
    if f.bitField then
      if f.width = 0 then some (placeMsBreak fa s) else some (placeMsBitField m f.width fs fa s)
    else some (placeMsMember fs fa s)
  | _, _ => none

/-- A member of a union: the largest size and alignment so far. -/
def msUnionField (r : Record) (f : Field) (s : Nat × Nat) : Option (Unit × Nat × Nat) :=
  match sizeof m h L f.type, alignof m h L f.type with
  | some fs, some ta => some ((), raiseTo s.1 fs, raiseTo s.2 (fieldAlign r f ta))
  | _, _ => none

/-! ### Virtual bases -/

/-- The running state while the virtual bases are laid out. -/
structure MsVBases where
  cur : Nat
  align : Nat
  offs : AList fun _ : Nat => Nat := ∅

/-- One virtual base; an empty one takes no room. -/
def placeMsVBase (s : MsVBases) (v : Nat) : MsVBases :=
  match L v with
  | none => s
  | some bi =>
    let (nv, vbAlign) := layoutNonVirtual bi
    let off := roundUp s.cur vbAlign
    { cur := off + (if isEmptyRecord h v then 0 else nv)
      align := raiseTo s.align vbAlign
      offs := s.offs.insert v off }

/-! ### The layout -/

/-- The vfptr of a class that introduces one. -/
def msStart (r : Nat) : MsBases :=
  if hasVPtr h r then { cur := m.sizePtr, align := raiseTo 1 m.sizePtr } else { cur := 0, align := 1 }

/-- The offset of the `i`th base, from what the bases were given in their order. -/
def msBaseOffsets (r : Nat) (offs : List Nat) : List Nat :=
  (List.range (h.record r).bases.length).map fun i =>
    ((((baseOrder h r).zip offs).find? fun p => p.1.2 == i).map Prod.snd).getD 0

/-- Where the members start and the alignment so far: after the bases and the vbptr. -/
def msHead (r : Nat) (s : MsBases) : Nat × Nat :=
  if hasOwnVBPtr h r then (roundUp s.cur m.sizePtr + m.sizePtr, raiseTo s.align m.sizePtr) else (s.cur, s.align)

/-- `info.vbptr`. -/
def msVBPtr (r : Nat) (s : MsBases) : Option Nat :=
  if hasOwnVBPtr h r then some (roundUp s.cur m.sizePtr) else none

def finishMsUnion (r : Nat) (baseOffs : List Nat) (vbptr : Option Nat) (s : Nat × Nat) : RecordInfo :=
  let align := raiseTo s.2 (h.record r).align
  { size := atLeastOne (roundUp s.1 align), align, nvsize := 0, dsize := 0, nvalign := 0
    fieldOffsets := (h.record r).fields.map fun _ => 0
    bitOffsets := (h.record r).fields.map fun _ => 0
    bitUnits := (h.record r).fields.map fun _ => 0
    primary := none
    primaryVirtual := none
    baseOffsets := baseOffs
    vbptr
    vbaseOffsets := ∅ }

/-- The virtual bases go after everything else, from the class's alignment on. -/
def msVBasesEnd (r : Nat) (cur align : Nat) : MsVBases :=
  if (virtualBases h r).isEmpty then { cur, align }
  else (virtualBases h r).foldl (placeMsVBase h L) { cur := roundUp cur align, align }

/-- A declared virtual base is reported where its entry says. -/
def msFinalBaseOffsets (r : Nat) (offs : List Nat) (at_ : AList fun _ : Nat => Nat) : List Nat :=
  ((h.record r).bases.zip offs).map fun (b, off) =>
    if b.virtual then (match b.cls with
      | none => off
      | some v => (at_.lookup v).getD off)
    else off

def finishMs (r : Nat) (baseOffs : List Nat) (vbptr : Option Nat) (ps : List MsPlaced) (fs : MsFields) : RecordInfo :=
  let align := raiseTo fs.align (h.record r).align
  let vs := msVBasesEnd h L r fs.cur align
  { size := atLeastOne (roundUp vs.cur vs.align), align := vs.align, dsize := 0, nvalign := 0
    nvsize := atLeastOne (roundUp fs.cur fs.align)
    fieldOffsets := ps.map MsPlaced.offset
    bitOffsets := ps.map fun p => (p.bitOffset : Int)
    bitUnits := ps.map MsPlaced.bitUnit
    primary := none
    primaryVirtual := none
    baseOffsets := msFinalBaseOffsets h r baseOffs vs.offs
    vbptr
    vbaseOffsets := vs.offs }

/-- The Microsoft half of `layoutInfo`. -/
def layoutMicrosoft (r : Nat) : Option RecordInfo :=
  (thread (placeMsBase h L (hasVPtr h r)) (baseOrder h r) (msStart m h r)).bind fun (offs, s) =>
    let baseOffs := msBaseOffsets h r offs
    let (cur, align) := msHead m h r s
    if (h.record r).tag = .union then
      (thread (msUnionField m h L (h.record r)) (h.record r).fields (0, align)).map fun (_, s') =>
        finishMsUnion h r baseOffs (msVBPtr m h r s) s'
    else
      (thread (placeMsField m h L (h.record r)) (h.record r).fields { cur, align }).map fun (ps, fs) =>
        finishMs h L r baseOffs (msVBPtr m h r s) ps fs.close

end

variable {m : Model} {h : Hierarchy} {L L' : Layouts} {r : Nat}

/-! ### A layout looks only below -/

theorem placeMsBase_congr {vptr : Bool} {b : BaseSpec × Nat} (agree : ∀ c, b.1.cls = some c → L c = L' c) :
    placeMsBase h L vptr b = placeMsBase h L' vptr b := by
  funext s
  unfold placeMsBase
  cases hc : b.1.cls.filter fun br => (h.record br).complete with
  | none => rfl
  | some c => simp only [agree c (Option.filter_eq_some_iff.1 hc).1]

theorem placeMsField_congr {rec_ : Record} {f : Field} (agree : ∀ c, f.type.recordElem = some c → L c = L' c) :
    placeMsField m h L rec_ f = placeMsField m h L' rec_ f := by
  funext s
  unfold placeMsField
  rw [sizeof_congr agree, alignof_congr agree]

theorem msUnionField_congr {rec_ : Record} {f : Field} (agree : ∀ c, f.type.recordElem = some c → L c = L' c) :
    msUnionField m h L rec_ f = msUnionField m h L' rec_ f := by
  funext s
  unfold msUnionField
  rw [sizeof_congr agree, alignof_congr agree]

end Vcx.Types
