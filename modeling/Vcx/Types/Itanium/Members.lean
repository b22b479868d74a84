import Vcx.Types.Itanium.Disjoint

/-!
# Where each member ended up

`FieldIn` is what a layout promises of one member against the finished class: its alignment
and the room it takes. A bit-field no wider than its type lies in one naturally aligned unit
of that type (`bitUnit_spec`).
-/

namespace Vcx.Types
set_option autoImplicit false
open Vcx.Lib

/-- A member placed as `p`, seen from a later state of the layout. -/
inductive FieldIn (m : Model) (h : Hierarchy) (L : Layouts) (r : Record) (f : Field) (p : Placed) (c : Cursor) : Prop
  | bitField (fs ta bits : Nat) (size : sizeof m h L f.type = some fs) (align : alignof m h L f.type = some ta)
    (pos : 0 < ta) (bit : f.bitField = true)
    (offset : p.offset = bitUnitStart (bitStart bits f.width (fs * 8) (fieldAlign r f ta * 8)) f.width (fs * 8)
      (fieldAlign r f ta * 8))
    (bitOffset : p.bitOffset = (bitStart bits f.width (fs * 8) (fieldAlign r f ta * 8) : Int) - p.offset * 8)
    (bitUnit : p.bitUnit = fs)
    (fits : bitStart bits f.width (fs * 8) (fieldAlign r f ta * 8) + f.width ≤ c.size * 8)
    (raised : f.name ≠ "" → fieldAlign r f ta ≤ c.align)
  | other (fs ta : Nat) (size : sizeof m h L f.type = some fs) (align : alignof m h L f.type = some ta)
    (pos : 0 < ta) (plain : f.bitField = false) (aligned : fieldAlign r f ta ∣ p.offset)
    (fits : p.offset + fs ≤ c.size) (raised : fieldAlign r f ta ≤ c.align)

variable {m : Model} {h : Hierarchy} {L : Layouts} {r : Nat}

theorem FieldIn.mono {rec_ : Record} {f : Field} {p : Placed} {c c' : Cursor} (e : FieldIn m h L rec_ f p c)
    (size : c.size ≤ c'.size) (align : c.align ≤ c'.align) : FieldIn m h L rec_ f p c' := by
  rcases e with ⟨fs, ta, bits, hs, ha, pos, bit, offset, bitOffset, bitUnit, fits, raised⟩ |
    ⟨fs, ta, hs, ha, pos, plain, aligned, fits, raised⟩
  · exact .bitField fs ta bits hs ha pos bit offset bitOffset bitUnit (by omega)
      (fun named => Nat.le_trans (raised named) align)
  · exact .other fs ta hs ha pos plain aligned (by omega) (by omega)

theorem FieldPlaced.size_le {f : Field} {fs fa : Nat} {s s' : Nat × Cursor} {p : Placed}
    (placed : FieldPlaced m h L f fs fa s p s') : s.2.size ≤ s'.2.size := by
  rcases placed with ⟨-, placed⟩ | ⟨fr, -, -, placed⟩ | ⟨-, -, placed⟩
  · rw [placed.size]
    omega
  · rw [placed.size]
    omega
  · rw [placed.size]
    omega

/-- Right after its placement. -/
theorem FieldPlaced.fieldIn {rec_ : Record} {f : Field} {fs ta : Nat} {s s' : Nat × Cursor} {p : Placed}
    (size : sizeof m h L f.type = some fs) (align : alignof m h L f.type = some ta) (pos : 0 < ta)
    (placed : FieldPlaced m h L f fs (fieldAlign rec_ f ta) s p s') : FieldIn m h L rec_ f p s'.2 := by
  rcases placed with ⟨bit, placed⟩ | ⟨fr, plain, -, placed⟩ | ⟨plain, -, placed⟩
  · have bits := placed.bits
    refine .bitField fs ta s.1 size align pos bit placed.offset placed.bitOffset placed.bitUnit ?_ ?_
    · rw [placed.size]
      omega
    · intro named
      rw [placed.align, if_neg named]
      omega
  · refine .other fs ta size align pos plain placed.aligned ?_ ?_
    · rw [placed.size]
      omega
    · rw [placed.align]
      omega
  · refine .other fs ta size align pos plain placed.aligned ?_ ?_
    · rw [placed.size]
      omega
    · rw [placed.align]
      omega

/-- **Every member, against the finished class.** -/
theorem Run.fieldIn (sizes : m.Sizes) (laid : Laid m h L) (run : Run m h L r) :
    ∀ q ∈ (h.record r).fields.zip run.fields, FieldIn m h L (h.record r) q.1 q.2 run.afterFields := by
  have history := thread_history
    (P := fun done s => ∀ q ∈ done, FieldIn m h L (h.record r) q.1 q.2 s.2) run.members [] (by simp) (by
      intro done f hf s p s' old step q hq
      obtain ⟨fs, ta, size, align, pos, placed⟩ := laid.placeField sizes step
      rcases List.mem_append.1 hq with hq | hq
      · exact (old q hq).mono placed.size_le placed.align_le
      · obtain rfl := List.mem_singleton.1 hq
        exact placed.fieldIn size align pos)
  simpa using history

/-- The `i`th member as the run placed it. -/
def Run.placedAt (run : Run m h L r) (i : Nat) : Placed := run.fields.getD i ⟨0, 0, 0⟩

theorem Run.fieldOffsets_getD (run : Run m h L r) (i : Nat) : run.info.fieldOffsets.getD i 0 = (run.placedAt i).offset :=
  List.getD_map run.fields (⟨0, 0, 0⟩ : Placed) Placed.offset

theorem Run.bitOffsets_getD (run : Run m h L r) (i : Nat) : run.info.bitOffsets.getD i 0 = (run.placedAt i).bitOffset :=
  List.getD_map run.fields (⟨0, 0, 0⟩ : Placed) Placed.bitOffset

theorem Run.bitUnits_getD (run : Run m h L r) (i : Nat) : run.info.bitUnits.getD i 0 = (run.placedAt i).bitUnit :=
  List.getD_map run.fields (⟨0, 0, 0⟩ : Placed) Placed.bitUnit

theorem Run.placedAt_mem (run : Run m h L r) {i : Nat} {f : Field} (hf : (h.record r).fields[i]? = some f) :
    (f, run.placedAt i) ∈ (h.record r).fields.zip run.fields :=
  mem_zip_of_getElem? _ hf (thread_length run.members)

theorem Run.memberBits_at (run : Run m h L r) {i : Nat} {f : Field} (hf : (h.record r).fields[i]? = some f) :
    run.memberBits[i]? = some (fieldBits m h L f (run.placedAt i).offset (run.placedAt i).bitOffset) := by
  obtain ⟨lt, rfl⟩ := List.getElem?_eq_some_iff.1 hf
  have lt' : i < run.fields.length := by rw [thread_length run.members]; exact lt
  simp [Run.memberBits, Run.placedAt, lt, lt']

/-- A member of a union placed as `p`, seen from a later state of the layout. -/
structure UnionFieldIn (m : Model) (h : Hierarchy) (L : Layouts) (r : Record) (f : Field) (p : Placed) (c : Cursor) : Prop where
  offset : p.offset = 0
  bitOffset : p.bitOffset = 0
  bitUnit : f.bitField = true → p.bitUnit = (f.width + 7) / 8
  room : ∀ fs, sizeof m h L f.type = some fs → (if f.bitField then (f.width + 7) / 8 else fs) ≤ c.size
  raised : f.bitField = false ∨ f.name ≠ "" → ∀ ta, alignof m h L f.type = some ta → fieldAlign r f ta ≤ c.align

/-- **Every member of a union, against the finished one.** -/
theorem unionFieldIn {ps : List Placed} {c : Cursor}
    (run : thread (unionField m h L (h.record r)) (h.record r).fields (headCursor (h.record r)) = some (ps, c)) :
    ∀ q ∈ (h.record r).fields.zip ps, UnionFieldIn m h L (h.record r) q.1 q.2 c := by
  have history := thread_history
    (P := fun done c => ∀ q ∈ done, UnionFieldIn m h L (h.record r) q.1 q.2 c) run [] (by simp) (by
      intro done f hf c p c' old step q hq
      obtain ⟨fs, ta, hs, ha, place, align, size⟩ := unionField_some step
      rcases List.mem_append.1 hq with hq | hq
      · obtain ⟨offset, bitOffset, unit, room, raised⟩ := old q hq
        refine ⟨offset, bitOffset, unit, fun fs' hs' => ?_, fun named ta' ha' => ?_⟩
        · have := room fs' hs'
          omega
        · have := raised named ta' ha'
          rw [align]
          split <;> omega
      · obtain rfl := List.mem_singleton.1 hq
        subst place
        refine ⟨rfl, rfl, fun bit => if_pos bit, fun fs' hs' => ?_, fun named ta' ha' => ?_⟩
        · simp only at hs' ⊢
          rw [hs, Option.some.injEq] at hs'
          subst hs'
          omega
        · simp only at ha' named ⊢
          rw [ha, Option.some.injEq] at ha'
          subst ha'
          rw [align, if_neg (by rintro ⟨bit, unnamed⟩; simp [bit, unnamed] at named)]
          omega)
  simpa using history

/-! ### The unit of a bit-field -/

theorem bitStart_mod {bits width unitBits alignBits : Nat} (pos : 0 < alignBits) (fits : width ≤ unitBits) :
    bitStart bits width unitBits alignBits % alignBits + width ≤ unitBits := by
  have rounded := Nat.mod_eq_zero_of_dvd (dvd_roundUp (n := bits) pos)
  unfold bitStart
  split
  · omega
  split
  · omega
  · omega

/-- **The unit of a bit-field that fits its type** is aligned, starts at or before it and
ends at or behind it. -/
theorem bitUnit_spec {n width fs fa : Nat} (pos : 0 < fa) (fits : width ≤ fs * 8) :
    fa ∣ bitUnitStart (bitStart n width (fs * 8) (fa * 8)) width (fs * 8) (fa * 8) ∧
      bitUnitStart (bitStart n width (fs * 8) (fa * 8)) width (fs * 8) (fa * 8) * 8 ≤
        bitStart n width (fs * 8) (fa * 8) ∧
      bitStart n width (fs * 8) (fa * 8) + width ≤
        bitUnitStart (bitStart n width (fs * 8) (fa * 8)) width (fs * 8) (fa * 8) * 8 + fs * 8 := by
  have inUnit : bitStart n width (fs * 8) (fa * 8) % (fa * 8) + width ≤ fs * 8 :=
    bitStart_mod (by omega) fits
  generalize bitStart n width (fs * 8) (fa * 8) = o at inUnit
  have floor : o / (fa * 8) * (fa * 8) / 8 = o / (fa * 8) * fa := by
    rw [← Nat.mul_assoc, Nat.mul_div_cancel _ (by omega)]
  have split := Nat.div_add_mod o (fa * 8)
  have eight : o / (fa * 8) * fa * 8 = fa * 8 * (o / (fa * 8)) := by
    rw [Nat.mul_assoc, Nat.mul_comm]
  have unit : bitUnitStart o width (fs * 8) (fa * 8) = o / (fa * 8) * fa := by
    simp only [bitUnitStart, floor]
    rw [if_neg (by omega)]
  rw [unit]
  exact ⟨Nat.dvd_mul_left _ _, by omega, by omega⟩

end Vcx.Types
