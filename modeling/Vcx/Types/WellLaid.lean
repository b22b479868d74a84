import Vcx.Types.BitField
import Vcx.Types.Itanium.Aligned
import Vcx.Types.Itanium.Empties

/-!
# What a record layout promises

`WellLaid` says of a finished layout what code that uses it relies on: bases and members do
not overlap and lie in the object, everything is aligned, the object is a whole number of
alignments long, and under Itanium empty subobjects of one type have different addresses.
`Orderly` is what the two layouts need for that.
-/

namespace Vcx.Types
set_option autoImplicit false
open Vcx.Lib

section

variable (m : Model) (h : Hierarchy)

/-- The bytes of a class as a base: its non-virtual extent, none when it is empty. -/
def baseRoom (c : Nat) : Nat :=
  if m.abi.isItanium then dataSize h (layoutInfo m h) c else msDataSize h (layoutInfo m h) c

/-- The alignment of a class as a base. Under Itanium that is the non-virtual alignment. -/
def RecordInfo.baseAlign (info : RecordInfo) : Nat := if m.abi.isItanium then info.nvalign else info.align

/-- The bytes of a member. A bit-field has only bits, and under Itanium an empty
`[[no_unique_address]]` member takes no room. -/
def fieldRoom (f : Field) : Nat :=
  if f.bitField || (m.abi.isItanium && (emptyMember h f).isSome) then 0 else (sizeof m h (layoutInfo m h) f.type).getD 0

/-- The bytes of the `i`th base, when it is not virtual. -/
def basePartAt (r : Nat) (info : RecordInfo) (i : Nat) : Range :=
  ⟨info.baseOffsets.getD i 0, (((h.record r).bases[i]?.bind BaseSpec.plain).map (baseRoom m h)).getD 0⟩

/-- The bytes of the `i`th member. -/
def fieldPartAt (r : Nat) (info : RecordInfo) (i : Nat) : Range :=
  ⟨info.fieldOffsets.getD i 0, ((h.record r).fields[i]?.map (fieldRoom m h)).getD 0⟩

/-- What a finished layout promises. -/
structure WellLaid (r : Nat) (info : RecordInfo) : Prop where
  bases : (h.record r).tag ≠ .union → ∀ i j, i ≠ j → (basePartAt m h r info i).Apart (basePartAt m h r info j)
  fields : (h.record r).tag ≠ .union → ∀ i j, i ≠ j → (fieldPartAt m h r info i).Apart (fieldPartAt m h r info j)
  between : (h.record r).tag ≠ .union → ∀ i j, (basePartAt m h r info i).Apart (fieldPartAt m h r info j)
  basesWithin : (h.record r).tag ≠ .union → ∀ i, (basePartAt m h r info i).Within info.size
  fieldsWithin : (h.record r).tag ≠ .union → ∀ i, (fieldPartAt m h r info i).Within info.size
  fieldAligned : ∀ i f ta, (h.record r).fields[i]? = some f → alignof m h (layoutInfo m h) f.type = some ta →
    fieldAlign (h.record r) f ta ∣ info.fieldOffsets.getD i 0
  baseAligned : ∀ i b c bi, (h.record r).bases[i]? = some b → b.cls = some c → itaniumEmpty h c = false →
    layoutInfo m h c = some bi → bi.baseAlign m ∣ info.baseOffsets.getD i 0
  vbaseAligned : ∀ v off vi, info.vbaseOffsets.lookup v = some off → itaniumEmpty h v = false →
    layoutInfo m h v = some vi → vi.baseAlign m ∣ off
  sizePos : 0 < info.size
  sizeAligned : info.align ∣ info.size
  align : ∀ f ∈ (h.record r).fields, f.bitField = false ∨ f.name ≠ "" → ∀ ta,
    alignof m h (layoutInfo m h) f.type = some ta → fieldAlign (h.record r) f ta ≤ info.align
  empties : m.abi.isItanium = true → (eachEmpty m h (layoutInfo m h) r 0 false).Nodup

/-- A member that takes room: not a zero-width bit-field or an array of no elements. -/
def Occupies (f : Field) : Prop :=
  if f.bitField then 0 < f.width else ∃ fs, sizeof m h (layoutInfo m h) f.type = some fs ∧ 0 < fs

/-- A class with something in it before its size is made at least one. -/
def HasStorage (r : Nat) : Prop :=
  (∃ f ∈ (h.record r).fields, Occupies m h f) ∨ (h.record r).tag ≠ .union ∧
    if m.abi.isItanium then isDynamic h r = true ∨ (h.record r).bases ≠ []
    else hasVPtr h r = true ∨ hasOwnVBPtr h r = true ∨
      (∃ b ∈ (h.record r).bases, ∃ c bi, b.plain = some c ∧ layoutInfo m h c = some bi ∧ msRoomless h r c = false ∧
        0 < (layoutNonVirtual bi).1) ∨
      1 < ((h.record r).bases.filter fun b => b.plain.any (msRoomless h r)).length

/-- Nothing asks for an alignment. -/
structure Unaligned (r : Nat) : Prop where
  head : (h.record r).align ≤ 1
  vptr : (h.record r).tag = .union → hasVPtr h r = false
  fields : ∀ f ∈ (h.record r).fields, f.bitField = false ∨ f.name ≠ "" → ∀ ta,
    alignof m h (layoutInfo m h) f.type = some ta → fieldAlign (h.record r) f ta ≤ 1
  bases : ∀ c, h.Derives r c → c ≠ r → ∀ bi, layoutInfo m h c = some bi → bi.align ≤ 1

/-- The unit that a run of bit-fields has open, as far as the bit-fields decide it: its bytes, the
bits taken, and the alignment of the bit-field it was opened for. -/
structure OpenUnit where
  size : Nat
  used : Nat
  align : Nat

/-- Whether a bit-field goes in it. -/
def OpenUnit.takes (u : OpenUnit) (width fs : Nat) : Bool :=
  u.used + width ≤ u.size * 8 && (!m.msBitfields || u.size == fs)

/-- The unit that is open after one more member. -/
def noteUnit (rec_ : Record) (u : Option OpenUnit) (f : Field) : Option OpenUnit :=
  if f.bitField && f.width != 0 then
    (sizeof m h (layoutInfo m h) f.type).bind fun fs => (alignof m h (layoutInfo m h) f.type).map fun ta =>
      ((u.filter fun u => u.takes m f.width fs).map fun u => { u with used := u.used + f.width }).getD
        { size := fs, used := f.width, align := fieldAlign rec_ f ta }
  else none

/-- The unit that is open after some members. -/
def openUnit (rec_ : Record) (fs : List Field) : Option OpenUnit := fs.foldl (noteUnit m h rec_) none

/-- A bit-field that goes in the open unit asks for no more than the one it was opened for. -/
def UnitsAligned (rec_ : Record) : Prop :=
  ∀ i f, rec_.fields[i]? = some f → f.bitField = true → f.width ≠ 0 → ∀ fs ta,
    sizeof m h (layoutInfo m h) f.type = some fs → alignof m h (layoutInfo m h) f.type = some ta →
      ∀ u, openUnit m h rec_ (rec_.fields.take i) = some u → u.takes m f.width fs = true → fieldAlign rec_ f ta ∣ u.align

/-- What the two layouts need to keep their promise. -/
structure Orderly (r : Nat) : Prop where
  roomless : m.abi.isItanium = false → ∀ b ∈ (h.record r).bases, ∀ c, b.plain = some c → msRoomless h r c = true →
    itaniumEmpty h c = true
  shared : m.abi.isItanium = true → SharesAligned m h (layoutInfo m h) r
  windows : m.abi.isItanium = true → (h.record r).tag ≠ .union → ∀ f ∈ (h.record r).fields, f.bitField = true →
    ∀ fs, sizeof m h (layoutInfo m h) f.type = some fs → f.width ≤ fs * 8
  units : m.abi.isItanium = false → (h.record r).tag ≠ .union → UnitsAligned m h (h.record r)
  stored : HasStorage m h r ∨ Unaligned m h r
  empties : m.abi.isItanium = true → ∀ c, h.Contains r c → EmptiesApart m h (layoutInfo m h) c

end

variable {m : Model} {h : Hierarchy} {r : Nat} {info : RecordInfo}

theorem basePartAt_eq {i : Nat} {b : BaseSpec} {c : Nat} (here : (h.record r).bases[i]? = some b) (plain : b.plain = some c) :
    basePartAt m h r info i = ⟨info.baseOffsets.getD i 0, baseRoom m h c⟩ := by
  simp [basePartAt, here, plain]

theorem fieldPartAt_eq {i : Nat} {f : Field} (here : (h.record r).fields[i]? = some f) :
    fieldPartAt m h r info i = ⟨info.fieldOffsets.getD i 0, fieldRoom m h f⟩ := by
  simp [fieldPartAt, here]

/-- An index that names no non-virtual base has no bytes. -/
theorem basePartAt_cases (info : RecordInfo) (i : Nat) : (basePartAt m h r info i).len = 0 ∨
    ∃ b c, (h.record r).bases[i]? = some b ∧ b.plain = some c := by
  cases here : (h.record r).bases[i]? with
  | none => exact .inl (by simp [basePartAt, here])
  | some b =>
    cases plain : b.plain with
    | none => exact .inl (by simp [basePartAt, here, plain])
    | some c => exact .inr ⟨b, c, rfl, plain⟩

theorem fieldPartAt_cases (info : RecordInfo) (i : Nat) : (fieldPartAt m h r info i).len = 0 ∨ ∃ f, (h.record r).fields[i]? = some f := by
  cases here : (h.record r).fields[i]? with
  | none => exact .inl (by simp [fieldPartAt, here])
  | some f => exact .inr ⟨f, rfl⟩

/-- A size that was not zero before is a whole number of alignments. -/
theorem dvd_size {n a : Nat} (pos : 0 < a) (some : 0 < n) : a ∣ atLeastOne (roundUp n a) := by
  have := le_roundUp n a
  rw [atLeastOne, if_neg (by omega)]
  exact dvd_roundUp pos

/-- Bytes found in a row of disjoint runs of bits, at different places, are apart. -/
theorem apart_of_row {rs : List Range} (apart : rs.Pairwise Range.Apart) {a b : Range} {i j : Nat} (ne : i ≠ j)
    (ha : a.len = 0 ∨ rs[i]? = some (a.scale 8)) (hb : b.len = 0 ∨ rs[j]? = some (b.scale 8)) : a.Apart b := by
  rcases ha with none | ha
  · exact .inl none
  rcases hb with none | hb
  · exact .inr (.inl none)
  exact (apart_of_ne apart ne ha hb).of_scale (by omega)

end Vcx.Types
