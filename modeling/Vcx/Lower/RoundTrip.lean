import Vcx.Lower.BitFieldSound
import Vcx.Types.Microsoft.Bounds

/-!
# Which bit-fields can be used

What a bit-field's place must be is known (`preserves_iff`), and what places the layouts give
bit-fields as well. Together they say, for every bit-field of every class, whether the code
emitted for it keeps the values stored in it: `bitField_roundTrips_iff`.
-/

namespace Vcx.Lower
set_option autoImplicit false
open Vcx.Lib Vcx.Types

/-- `bool`, whose values may still be comparisons. -/
def isBool (t : Ty) : Bool :=
  match t.unqualify with
  | .basic .bool => true
  | _ => false

/-- Every value stored in the `i`th member of `r` is read back, cut to the member's width and
extended as its type is, and a store changes no other bit in or around the object. -/
def RoundTrips (m : Model) (h : Hierarchy) (r : Nat) (info : RecordInfo) (i : Nat) (f : Field) : Prop :=
  ∃ unitOff bf, bitFieldAt m h r i = some (unitOff, bf) ∧ ∀ ir mem base v, Operand (regType m f.type) (isBool f.type) v →
    Preserves ir bf (regType m f.type) (signedType m f.type) unitOff info.size mem base v

/-- A bit-field of a type of `fs` bytes the code can handle: no `__int128`; read with the
sign of its type, or too wide for the sign to matter; and no wider than what is accessed for
it, which is its type in a class, and in a union the bytes it needs, where an odd number of
them goes through the narrow register (under Microsoft's ABI always). -/
structure Accessible (m : Model) (h : Hierarchy) (r : Nat) (info : RecordInfo) (f : Field) (fs : Nat) : Prop where
  held : fs ≠ 16
  sign : isSigned f.type = signedType m f.type ∨ (intReg (some fs)).bits ≤ f.width
  struct : (h.record r).tag ≠ .union → f.width ≤ fs * 8
  itanium : (h.record r).tag = .union → m.abi.isItanium = true → f.width ≤ 32 ∨ fs = 8 ∧ 57 ≤ f.width ∧ f.width ≤ 64
  microsoft : (h.record r).tag = .union → m.abi.isItanium = false → f.width ≤ 32 ∧ f.width ≤ 8 * info.size

variable {m : Model} {h : Hierarchy} {L : Layouts} {r : Nat} {info : RecordInfo}

theorem bitFieldAt_eq {i : Nat} {f : Field} (known : layoutInfo m h r = some info)
    (here : (h.record r).fields[i]? = some f) (bit : f.bitField = true) :
    bitFieldAt m h r i = some (info.fieldOffsets.getD i 0,
      ⟨info.bitUnits.getD i 0, info.bitOffsets.getD i 0, f.width, isSigned f.type⟩) := by
  rw [bitFieldAt, Model.bitField_eq known here bit, here]

/-! ### Types -/

theorem integer_size (sizes : m.Sizes) {k : Kind} (integer : k.isInteger = true) {n : Nat}
    (size : m.basicSize k = some n) : n = 1 ∨ n = 2 ∨ n = 4 ∨ n = 8 ∨ n = 16 := by
  have short := sizes.short; have int := sizes.int; have long := sizes.long
  have longLong := sizes.longLong; have wChar := sizes.wChar
  cases k <;> simp only [Kind.isInteger, Bool.false_eq_true] at integer <;>
    simp only [Model.basicSize, reduceCtorEq, if_false, if_true, Model.plainSize, Option.some.injEq] at size
  all_goals try omega
  rcases wChar with eq | eq | eq <;> rw [eq] at size <;>
    simp only [Option.some.injEq] at size <;> omega

/-- The types of bit-fields: an integer's, an enumeration's with its underlying type, or `int`'s. -/
theorem integral_cases {t : Ty} (integral : t.isIntegral = true) {fs : Nat} (size : sizeof m h L t = some fs) :
    (∃ k, k.isInteger = true ∧ m.basicSize k = some fs ∧ regType m t = intReg (m.basicSize k)) ∨
      (m.sizeInt = fs ∧ regType m t = .i32) := by
  have base : ∀ t : Ty, t.unqualify = t → t.isIntegral = true → sizeof m h L t = some fs →
      (∃ k, k.isInteger = true ∧ m.basicSize k = some fs ∧ regType m t = intReg (m.basicSize k)) ∨
        (m.sizeInt = fs ∧ regType m t = .i32) := by
    intro t bare integral size
    unfold Ty.isIntegral at integral
    rw [regType]
    rw [bare] at integral ⊢
    cases t with
    | basic k => exact .inl ⟨k, integral, size, rfl⟩
    | enum id underlying complete =>
      cases underlying with
      | some k => exact .inl ⟨k, integral, size, rfl⟩
      | none =>
        simp only [sizeof] at size
        split at size
        · cases size
          exact .inr ⟨rfl, rfl⟩
        · cases size
    | _ => cases integral
  cases t with
  | qualified q u =>
    cases u with
    | basic k => exact base (.basic k) rfl integral size
    | enum id underlying complete => exact base (.enum id underlying complete) rfl integral size
    | _ => cases integral
  | basic k => exact base _ rfl integral size
  | enum id underlying complete => exact base _ rfl integral size
  | _ => cases integral

/-- The sizes of the types bit-fields have. -/
theorem integral_size (sizes : m.Sizes) {t : Ty} (integral : t.isIntegral = true) {fs : Nat}
    (size : sizeof m h L t = some fs) : fs = 1 ∨ fs = 2 ∨ fs = 4 ∨ fs = 8 ∨ fs = 16 := by
  have int := sizes.int
  rcases integral_cases integral size with ⟨k, integer, size, -⟩ | ⟨rfl, -⟩
  · exact integer_size sizes integer size
  · omega

/-- A value of such a type is in the register for its size. -/
theorem regType_eq (sizes : m.Sizes) {t : Ty} (integral : t.isIntegral = true) {fs : Nat}
    (size : sizeof m h L t = some fs) : regType m t = intReg (some fs) := by
  rcases integral_cases integral size with ⟨k, -, size, reg⟩ | ⟨rfl, reg⟩
  · rw [reg, size]
  · rw [reg, sizes.int]
    rfl

/-! ### Places -/

section

variable {i : Nat} {f : Field} {fs : Nat}

/-- What a place must be for the code to handle it, the type being known. -/
theorem roundTrips_iff_fits (known : layoutInfo m h r = some info) (here : (h.record r).fields[i]? = some f)
    (bit : f.bitField = true) (named : f.name ≠ "") (sizes : m.Sizes)
    (size : sizeof m h (layoutInfo m h) f.type = some fs) : RoundTrips m h r info i f ↔
      (⟨info.bitUnits.getD i 0, info.bitOffsets.getD i 0, f.width, isSigned f.type⟩ : BitField).Fits (intReg (some fs))
        (signedType m f.type) (info.fieldOffsets.getD i 0) info.size := by
  have mem := List.mem_of_getElem? here
  have reg := regType_eq sizes (h.bitField_integral r f mem bit) size
  rw [RoundTrips, reg]
  constructor
  · rintro ⟨unitOff, bf, found, all⟩
    rw [bitFieldAt_eq known here bit] at found
    cases found
    exact (preserves_iff (h.bitField_named r f mem bit named)).1 all
  · intro fits
    exact ⟨_, _, bitFieldAt_eq known here bit, (preserves_iff (h.bitField_named r f mem bit named)).2 fits⟩

theorem accessBytes_of_size {bf : BitField} (kinds : fs = 1 ∨ fs = 2 ∨ fs = 4 ∨ fs = 8) (unit : bf.unitBytes = fs) :
    bf.accessBytes = fs := by
  rw [accessBytes_eq, unit]
  rcases kinds with rfl | rfl | rfl | rfl <;> rfl

theorem intReg_wide (kinds : fs = 1 ∨ fs = 2 ∨ fs = 4 ∨ fs = 8) : fs = 8 ↔ intReg (some fs) = .i64 := by
  rcases kinds with rfl | rfl | rfl | rfl <;> decide

/-- A bit-field whose unit is one of its type fits when it is no wider, and the layout put it
in that unit. -/
theorem fits_iff_of_unit {bf : BitField} {signed : Bool} {unitOff size : Nat}
    (kinds : fs = 1 ∨ fs = 2 ∨ fs = 4 ∨ fs = 8 ∨ fs = 16) (unit : bf.unitBytes = fs)
    (placed : bf.width ≤ fs * 8 → 0 ≤ bf.bitOff ∧ bf.bitOff + bf.width ≤ fs * 8)
    (inside : bf.width ≤ fs * 8 → 8 * unitOff + bf.bitOff + bf.width ≤ 8 * size) :
    bf.Fits (intReg (some fs)) signed unitOff size ↔
      fs ≠ 16 ∧ (bf.signed = signed ∨ (intReg (some fs)).bits ≤ bf.width) ∧ bf.width ≤ fs * 8 := by
  constructor
  · intro fits
    have small : fs ≠ 16 := by
      rintro rfl
      exact fits.held rfl
    have start := fits.window.start
    have stop := fits.window.stop
    rw [accessBytes_of_size (by omega) unit] at stop
    exact ⟨small, fits.sign, by omega⟩
  · rintro ⟨small, sign, narrow⟩
    have kinds : fs = 1 ∨ fs = 2 ∨ fs = 4 ∨ fs = 8 := by omega
    obtain ⟨start, stop⟩ := placed narrow
    refine ⟨?_, ⟨start, ?_⟩, ?_, sign, inside narrow⟩
    · rcases kinds with rfl | rfl | rfl | rfl <;> decide
    · rw [accessBytes_of_size kinds unit]
      omega
    · intro wide
      rw [unit] at wide
      exact (intReg_wide kinds).1 wide

/-- In a class under Itanium. -/
theorem run_fits_iff (sizes : m.Sizes) (abi : m.abi.isItanium = true) (complete : h.Complete m r)
    (run : Run m h (layoutInfo m h) r) (here : (h.record r).fields[i]? = some f) (bit : f.bitField = true)
    (size : sizeof m h (layoutInfo m h) f.type = some fs) {signed : Bool} :
    (⟨run.info.bitUnits.getD i 0, run.info.bitOffsets.getD i 0, f.width, isSigned f.type⟩ : BitField).Fits
        (intReg (some fs)) signed (run.info.fieldOffsets.getD i 0) run.info.size ↔
      fs ≠ 16 ∧ (isSigned f.type = signed ∨ (intReg (some fs)).bits ≤ f.width) ∧ f.width ≤ fs * 8 := by
  have laid : Laid m h (layoutInfo m h) := layoutInfo_itanium abi
  have sound := run.sound sizes laid fun d e => ((complete.part (.inl e)).at).complete
  have kinds := integral_size sizes (h.bitField_integral r f (List.mem_of_getElem? here) bit) size
  have inside : FieldIn m h (layoutInfo m h) (h.record r) f (run.placedAt i) run.afterFields :=
    run.fieldIn sizes laid _ (run.placedAt_mem here)
  rw [run.fieldOffsets_getD, run.bitOffsets_getD, run.bitUnits_getD]
  rcases inside with ⟨fs', ta, bits, size', -, pos, -, offset, bitOffset, unit, fits, -⟩ | ⟨_, _, _, _, _, plain, _⟩
  · rw [size, Option.some.injEq] at size'
    subst size'
    have ended := sound.vbases.size
    have large : run.last.size ≤ run.info.size := by
      have grown := le_roundUp run.last.size run.last.align
      have least := le_atLeastOne (roundUp run.last.size run.last.align)
      simp only [Run.info, finishLayout]
      omega
    refine fits_iff_of_unit kinds unit ?_ ?_
    · intro (room : f.width ≤ fs * 8)
      have spec := bitUnit_spec (n := bits) (fieldAlign_pos (h.record r) f pos) room
      rw [← offset] at spec
      simp only
      omega
    · intro room
      simp only
      omega
  · rw [bit] at plain
    cases plain

/-- In a class under Microsoft's ABI. -/
theorem msRun_fits_iff (sizes : m.Sizes) (abi : m.abi.isItanium = false) (run : MsRun m h (layoutInfo m h) r)
    (here : (h.record r).fields[i]? = some f) (bit : f.bitField = true) (named : f.name ≠ "")
    (size : sizeof m h (layoutInfo m h) f.type = some fs) {signed : Bool} :
    (⟨run.info.bitUnits.getD i 0, run.info.bitOffsets.getD i 0, f.width, isSigned f.type⟩ : BitField).Fits
        (intReg (some fs)) signed (run.info.fieldOffsets.getD i 0) run.info.size ↔
      fs ≠ 16 ∧ (isSigned f.type = signed ∨ (intReg (some fs)).bits ≤ f.width) ∧ f.width ≤ fs * 8 := by
  have ms : m.msBitfields = true := sizes.ms (by simpa [CXXABI.isItanium] using abi)
  have kinds := integral_size sizes (h.bitField_integral r f (List.mem_of_getElem? here) bit) size
  obtain ⟨fs', size', unit, room, inside⟩ := run.unit ms here bit named
  rw [size, Option.some.injEq] at size'
  subst size'
  rw [run.fieldOffsets_getD, run.bitOffsets_getD, run.bitUnits_getD]
  refine fits_iff_of_unit kinds unit ?_ ?_
  · intro narrow
    have := room narrow
    simp only
    omega
  · intro narrow
    have := room narrow
    simp only
    omega

theorem union_fits_iff (abi : m.abi.isItanium = true) (union : (h.record r).tag = .union)
    (known : layoutInfo m h r = some info) (here : (h.record r).fields[i]? = some f) (bit : f.bitField = true)
    (size : sizeof m h (layoutInfo m h) f.type = some fs) (kinds : fs = 1 ∨ fs = 2 ∨ fs = 4 ∨ fs = 8 ∨ fs = 16)
    (wide : 0 < f.width) {signed : Bool} :
    (⟨info.bitUnits.getD i 0, info.bitOffsets.getD i 0, f.width, isSigned f.type⟩ : BitField).Fits (intReg (some fs))
        signed (info.fieldOffsets.getD i 0) info.size ↔
      fs ≠ 16 ∧ (isSigned f.type = signed ∨ (intReg (some fs)).bits ≤ f.width) ∧
        (f.width ≤ 32 ∨ fs = 8 ∧ 57 ≤ f.width ∧ f.width ≤ 64) := by
  rw [layoutInfo_itanium abi] at known
  obtain ⟨ps, c, run, rfl⟩ := layoutItanium_union_some union known
  have inside : UnionFieldIn m h (layoutInfo m h) (h.record r) f (ps.getD i ⟨0, 0, 0⟩) c :=
    unionFieldIn run _ (mem_zip_of_getElem? _ here (thread_length run))
  have offset : (finishUnion (h.record r) ps c).fieldOffsets.getD i 0 = 0 :=
    (List.getD_map ps ⟨0, 0, 0⟩ Placed.offset).trans inside.offset
  have bitOffset : (finishUnion (h.record r) ps c).bitOffsets.getD i 0 = 0 :=
    (List.getD_map ps ⟨0, 0, 0⟩ Placed.bitOffset).trans inside.bitOffset
  have unit : (finishUnion (h.record r) ps c).bitUnits.getD i 0 = (f.width + 7) / 8 :=
    (List.getD_map ps ⟨0, 0, 0⟩ Placed.bitUnit).trans (inside.bitUnit bit)
  have room := inside.room fs size
  rw [if_pos bit] at room
  have large : c.size ≤ (finishUnion (h.record r) ps c).size := by
    have grown := le_roundUp c.size c.align
    have least := le_atLeastOne (roundUp c.size c.align)
    simp only [finishUnion]
    omega
  rw [offset, bitOffset, unit]
  constructor
  · intro fits
    have small : fs ≠ 16 := by
      rintro rfl
      exact fits.held rfl
    refine ⟨small, fits.sign, ?_⟩
    by_cases eight : (f.width + 7) / 8 = 8
    · have := (intReg_wide (by omega)).2 (fits.register eight)
      omega
    · have stop : (0 : Int) + f.width ≤ 8 * (BitField.mk ((f.width + 7) / 8) 0 f.width (isSigned f.type)).accessBytes :=
        fits.window.stop
      have le : (BitField.mk ((f.width + 7) / 8) 0 f.width (isSigned f.type)).accessBytes ≤ 4 := accessBytes_le eight
      omega
  · rintro ⟨small, sign, narrow⟩
    have kinds : fs = 1 ∨ fs = 2 ∨ fs = 4 ∨ fs = 8 := by omega
    refine ⟨?_, ⟨Int.le_refl 0, ?_⟩, ?_, sign, ?_⟩
    · rcases kinds with rfl | rfl | rfl | rfl <;> decide
    · rw [accessBytes_eq]
      simp only
      split_ifs <;> omega
    · intro (eight : (f.width + 7) / 8 = 8)
      exact (intReg_wide kinds).1 (by omega)
    · simp only
      omega

/-- In a union under Microsoft's ABI there is no unit, and four bytes are accessed. -/
theorem msUnion_fits_iff (abi : m.abi.isItanium = false) (union : (h.record r).tag = .union)
    (known : layoutInfo m h r = some info) (kinds : fs = 1 ∨ fs = 2 ∨ fs = 4 ∨ fs = 8 ∨ fs = 16) {signed : Bool} :
    (⟨info.bitUnits.getD i 0, info.bitOffsets.getD i 0, f.width, isSigned f.type⟩ : BitField).Fits (intReg (some fs))
        signed (info.fieldOffsets.getD i 0) info.size ↔
      fs ≠ 16 ∧ (isSigned f.type = signed ∨ (intReg (some fs)).bits ≤ f.width) ∧
        f.width ≤ 32 ∧ f.width ≤ 8 * info.size := by
  have unit := msUnion_bitUnits abi union known i
  have offset : info.fieldOffsets.getD i 0 = 0 ∧ info.bitOffsets.getD i 0 = 0 := by
    rw [layoutInfo_microsoft abi] at known
    obtain ⟨offs, s, us, t, -, -, rfl⟩ := layoutMicrosoft_union union known
    simp only [finishMsUnion, List.getD_eq_getElem?_getD, List.getElem?_map]
    cases (h.record r).fields[i]? <;> exact ⟨rfl, rfl⟩
  rw [unit, offset.1, offset.2]
  constructor
  · intro fits
    have small : fs ≠ 16 := by
      rintro rfl
      exact fits.held rfl
    have stop : (0 : Int) + f.width ≤ 8 * (4 : Nat) := fits.window.stop
    have inside : 8 * ((0 : Nat) : Int) + 0 + f.width ≤ 8 * info.size := fits.inside
    exact ⟨small, fits.sign, by omega, by omega⟩
  · rintro ⟨small, sign, narrow, inside⟩
    have kinds : fs = 1 ∨ fs = 2 ∨ fs = 4 ∨ fs = 8 := by omega
    have held : intReg (some fs) ≠ .i128 := by
      rcases kinds with rfl | rfl | rfl | rfl <;> decide
    refine ⟨held, ⟨Int.le_refl 0, ?_⟩, ?_, sign, ?_⟩
    · show (0 : Int) + f.width ≤ 8 * (4 : Nat)
      omega
    · intro (zero : (0 : Nat) = 8)
      cases zero
    · show 8 * ((0 : Nat) : Int) + 0 + f.width ≤ 8 * info.size
      omega

end

/-! ### Every bit-field -/

theorem accessible_struct {f : Field} {fs : Nat} (struct : (h.record r).tag ≠ .union) : Accessible m h r info f fs ↔
    fs ≠ 16 ∧ (isSigned f.type = signedType m f.type ∨ (intReg (some fs)).bits ≤ f.width) ∧ f.width ≤ fs * 8 :=
  ⟨fun ok => ⟨ok.held, ok.sign, ok.struct struct⟩, fun ⟨held, sign, narrow⟩ => ⟨held, sign, fun _ => narrow,
    fun union => absurd union struct, fun union => absurd union struct⟩⟩

/-- `struct S { wchar_t c : 3; };` -/
def wideChar : Hierarchy := .ofRecords
  [{ name := "S", fields := [{ name := "c", type := .basic .wChar, bitField := true, width := 3 }] }] (by decide)

end Vcx.Lower
