import Vcx.Types.Itanium.Powers
import Vcx.Types.Microsoft.Bounds

/-!
# The unit a bit-field is accessed through

`Model.BitField` reports where a bit-field's storage unit is, how wide it is and where in it
the bit-field starts. Code that reads or writes the bit-field goes through that unit, so it
has to lie in the object, have a size there is an access for, and hold the bit-field.
-/

namespace Vcx.Types
set_option autoImplicit false
open Vcx.Lib

/-- `Model.BitField`: the byte offset of the unit, its width in bytes, and the bit offset. -/
def Model.bitField (m : Model) (h : Hierarchy) (r i : Nat) : Option (Nat × Nat × Int) :=
  match layoutInfo m h r, (h.record r).fields[i]? with
  | some info, some f =>
    if f.bitField then some (info.fieldOffsets.getD i 0, info.bitUnits.getD i 0, info.bitOffsets.getD i 0) else none
  | _, _ => none

/-- The bits of an object that are a member's: none for padding and, under Itanium, for an
empty `[[no_unique_address]]` member. -/
def ownBits (m : Model) (h : Hierarchy) (f : Field) (offset : Nat) (bitOffset : Int) : Range :=
  if f.bitField then ⟨(8 * offset + bitOffset).toNat, if f.name = "" then 0 else f.width⟩
  else ⟨offset * 8, if m.abi.isItanium && (emptyMember h f).isSome then 0 else
    (sizeof m h (layoutInfo m h) f.type).getD 0 * 8⟩

/-- The bits of an object that a member's value is in: of a bit-field wider than its type, the type's. -/
def valueBits (m : Model) (h : Hierarchy) (f : Field) (offset : Nat) (bitOffset : Int) : Range :=
  if f.bitField then ⟨(8 * offset + bitOffset).toNat,
    if f.name = "" then 0 else min f.width ((sizeof m h (layoutInfo m h) f.type).getD 0 * 8)⟩
  else ⟨offset * 8, if m.abi.isItanium && (emptyMember h f).isSome then 0 else
    (sizeof m h (layoutInfo m h) f.type).getD 0 * 8⟩

/-- The sizes there are loads and stores for. -/
def accessSizes : List Nat := [1, 2, 4, 8]

/-- What is promised of the unit reported for the bit-field `f`, the `i`th member of `r`. -/
structure UnitFits (m : Model) (h : Hierarchy) (r : Nat) (info : RecordInfo) (i : Nat) (f : Field) (unitOff unitBytes : Nat)
    (bitOff : Int) : Prop where
  start : 0 ≤ bitOff
  holds : bitOff + f.width ≤ 8 * unitBytes
  access : unitBytes ∈ accessSizes
  inside : unitOff + unitBytes ≤ info.size
  disjoint : (h.record r).tag ≠ .union → ∀ j g, j ≠ i → (h.record r).fields[j]? = some g →
    Range.Apart ⟨(8 * unitOff + bitOff).toNat, f.width⟩
      (ownBits m h g (info.fieldOffsets.getD j 0) (info.bitOffsets.getD j 0))

/-- Every named bit-field of `r` has a unit that fits. -/
def BitFieldsFit (m : Model) (h : Hierarchy) (r : Nat) (info : RecordInfo) : Prop :=
  ∀ (i : Nat) (f : Field), (h.record r).fields[i]? = some f → f.bitField = true → f.name ≠ "" →
    ∃ unitOff unitBytes bitOff, m.bitField h r i = some (unitOff, unitBytes, bitOff) ∧
      UnitFits m h r info i f unitOff unitBytes bitOff

/-- Packing leaves the bit-field the alignment of its type, and the alignments in the class
are powers of two. -/
def Natural (m : Model) (h : Hierarchy) (r : Nat) (f : Field) : Prop :=
  h.PowerAligned r ∧ ∀ fs, sizeof m h (layoutInfo m h) f.type = some fs → fs ≤ (h.record r).memberAlign fs

/-- The bits a member adds to the data of its class. -/
def memberWidth (m : Model) (h : Hierarchy) (f : Field) : Nat :=
  if f.bitField then f.width
  else if (emptyMember h f).isSome then 0 else (sizeof m h (layoutInfo m h) f.type).getD 0 * 8

/-- The bit-field and the members after it have as many bits as the bit-field's type. -/
def Covered (m : Model) (h : Hierarchy) (r i : Nat) (f : Field) : Prop :=
  ∀ fs, sizeof m h (layoutInfo m h) f.type = some fs →
    fs * 8 ≤ (((h.record r).fields.drop i).map (memberWidth m h)).sum

/-- A bit-field the layout can handle. In a union the unit is the bytes the bit-field needs
under Itanium, and is not filled in under Microsoft's ABI. -/
def Handled (m : Model) (h : Hierarchy) (r i : Nat) (f : Field) : Prop :=
  if (h.record r).tag = .union then m.abi.isItanium = true ∧ (f.width + 7) / 8 ∈ accessSizes
  else (∃ fs ∈ accessSizes, sizeof m h (layoutInfo m h) f.type = some fs ∧ f.width ≤ fs * 8) ∧
    (m.abi.isItanium = true → Natural m h r f ∨ Covered m h r i f)

variable {m : Model} {h : Hierarchy} {r : Nat} {info : RecordInfo}

theorem Model.bitField_eq {i : Nat} {f : Field} (known : layoutInfo m h r = some info)
    (here : (h.record r).fields[i]? = some f) (bit : f.bitField = true) : m.bitField h r i =
      some (info.fieldOffsets.getD i 0, info.bitUnits.getD i 0, info.bitOffsets.getD i 0) := by
  simp [Model.bitField, known, here, bit]

theorem fieldAlign_ge {f : Field} {fs : Nat} (natural : fs ≤ (h.record r).memberAlign fs) :
    fs ≤ fieldAlign (h.record r) f fs := by
  unfold fieldAlign Record.memberAlign at *
  by_cases packed : (h.record r).packed = true
  · simpa [packed] using natural
  · simp only [packed, Bool.false_eq_true, if_false] at natural ⊢
    split at natural
    · omega
    · split
      · split <;> omega
      · omega

/-! ### Itanium -/

section

variable (run : Run m h (layoutInfo m h) r)

/-- The step that placed the `i`th member, and those after it. -/
theorem Run.stepAt {i : Nat} {f : Field} (hf : (h.record r).fields[i]? = some f) :
    ∃ s s' rest, placeField m h (layoutInfo m h) (h.record r) f s = some (run.placedAt i, s') ∧
      placeFields m h (layoutInfo m h) (h.record r) ((h.record r).fields.drop (i + 1)) s' =
        some (rest, run.bits, run.afterFields) := by
  obtain ⟨lt, rfl⟩ := List.getElem?_eq_some_iff.1 hf
  have members := run.members
  rw [← List.take_append_drop i (h.record r).fields] at members
  obtain ⟨before, rest, s, first, members, fields⟩ := thread_append_eq_some members
  rw [List.drop_eq_getElem_cons lt] at members
  obtain ⟨p, s', rest', step, after, rfl⟩ := thread_cons_eq_some members
  have here : run.placedAt i = p := by
    have len := thread_length first
    rw [List.length_take, Nat.min_eq_left (Nat.le_of_lt lt)] at len
    rw [Run.placedAt, fields, List.getD_append_right _ _ _ _ (by omega), len, Nat.sub_self, List.getD_cons_zero]
  exact ⟨s, s', rest', by rw [here]; exact step, after⟩

variable {run} (sizes : m.Sizes) (abi : m.abi.isItanium = true)
include sizes abi

/-- The bits of two members do not meet. -/
theorem Run.ownBits_apart (complete : h.Complete m r) {i j : Nat} {f g : Field} (ne : i ≠ j) (hf : (h.record r).fields[i]? = some f)
    (hg : (h.record r).fields[j]? = some g) :
    (fieldBits m h (layoutInfo m h) f (run.placedAt i).offset (run.placedAt i).bitOffset).Apart
      (ownBits m h g (run.placedAt j).offset (run.placedAt j).bitOffset) := by
  have laid : Laid m h (layoutInfo m h) := layoutInfo_itanium abi
  have sound := run.sound sizes laid fun d e => ((complete.part (.inl e)).at).complete
  have apart := (List.pairwise_append.1 sound.nonVirtual.apart).2.1
  refine (apart_of_ne apart ne (run.memberBits_at hf) (run.memberBits_at hg)).shrink rfl ?_ (Nat.le_refl _) ?_
  · unfold ownBits fieldBits
    split <;> rfl
  · unfold ownBits fieldBits
    split
    · simp only
      split <;> omega
    · rw [abi, Bool.true_and]

/-- The unit of a naturally aligned bit-field ends inside the class, which is a whole number
of such units. -/
theorem Run.unit_inside {f : Field} (mem : f ∈ (h.record r).fields) (known : layoutInfo m h r = some run.info)
    (power : h.PowerAligned r) {ta off : Nat} (align : alignof m h (layoutInfo m h) f.type = some ta)
    (le : fieldAlign (h.record r) f ta ≤ run.last.align) (aligned : fieldAlign (h.record r) f ta ∣ off)
    (starts : off < run.last.size) : off + fieldAlign (h.record r) f ta ≤ run.info.size := by
  have laid : Laid m h (layoutInfo m h) := layoutInfo_itanium abi
  have alignPower := (laid.power sizes abi power known).1
  have fieldPower : (fieldAlign (h.record r) f ta).isPowerOfTwo :=
    fieldAlign_power (power r .refl) mem (alignof_power sizes abi (fun c info hc knownClass =>
      (laid.power sizes abi (fun d path => power d (.head (.inr ⟨f, mem, hc⟩) path)) knownClass).1) align)
  have dvdAlign : fieldAlign (h.record r) f ta ∣ run.last.align := dvd_of_isPowerOfTwo fieldPower alignPower le
  have grown := le_roundUp run.last.size run.last.align
  have sizeEq : run.info.size = roundUp run.last.size run.last.align := by
    simp only [Run.info, finishLayout, atLeastOne]
    rw [if_neg (by omega)]
  have dvdSize : fieldAlign (h.record r) f ta ∣ run.info.size := by
    rw [sizeEq]
    exact Nat.dvd_trans dvdAlign (dvd_roundUp (Nat.pos_of_isPowerOfTwo alignPower))
  have lt : off < run.info.size := by omega
  obtain ⟨a, rfl⟩ := aligned
  obtain ⟨b, hb⟩ := dvdSize
  rw [hb] at lt ⊢
  have next : a + 1 ≤ b := Nat.lt_of_mul_lt_mul_left lt
  calc fieldAlign (h.record r) f ta * a + fieldAlign (h.record r) f ta
      = fieldAlign (h.record r) f ta * (a + 1) := by rw [Nat.mul_add, Nat.mul_one]
    _ ≤ fieldAlign (h.record r) f ta * b := Nat.mul_le_mul_left _ next

/-- The members take the bits up to where they end. -/
theorem Laid.memberWidth_le {fs : List Field} {s t : Nat × Cursor} {ps : List Placed}
    (run : placeFields m h (layoutInfo m h) (h.record r) fs s = some (ps, t)) :
    s.1 + (fs.map (memberWidth m h)).sum ≤ t.1 := by
  have laid : Laid m h (layoutInfo m h) := layoutInfo_itanium abi
  refine thread_least (μ := Prod.fst) run ?_
  intro f _ s p s' step
  obtain ⟨fs, ta, size, -, -, placed⟩ := laid.placeField sizes step
  rcases placed with ⟨bit, placed⟩ | ⟨fr, plain, empty, placed⟩ | ⟨plain, data, placed⟩
  · have start := le_bitStart s.1 f.width (fs * 8) (fieldAlign (h.record r) f ta * 8)
    have bits := placed.bits
    simp only [memberWidth, bit, if_true]
    omega
  · have bits := placed.bits
    simp [memberWidth, plain, empty, bits]
  · have after := placed.after
    have bits := placed.bits
    simp only [memberWidth, plain, data, size, Option.isSome_none, Bool.false_eq_true, if_false, Option.getD_some]
    omega

/-- **A bit-field of a class under Itanium** has a unit that fits when it is handled. That a
bit-field has to be handled can be said of those that packing leaves alone. -/
theorem Run.unitFits (complete : h.Complete m r) {i : Nat} {f : Field} (hf : (h.record r).fields[i]? = some f) (bit : f.bitField = true)
    (named : f.name ≠ "") (struct : (h.record r).tag ≠ .union) (known : layoutInfo m h r = some run.info) :
    (Handled m h r i f → UnitFits m h r run.info i f (run.placedAt i).offset (run.placedAt i).bitUnit (run.placedAt i).bitOffset) ∧
      (UnitFits m h r run.info i f (run.placedAt i).offset (run.placedAt i).bitUnit (run.placedAt i).bitOffset →
        Natural m h r f → Handled m h r i f) := by
  have laid : Laid m h (layoutInfo m h) := layoutInfo_itanium abi
  have sound := run.sound sizes laid fun d e => ((complete.part (.inl e)).at).complete
  have mem := List.mem_of_getElem? hf
  have wide := h.bitField_named r f mem bit named
  obtain ⟨s, s', rest, step, after⟩ := run.stepAt hf
  obtain ⟨fs, ta, size, align, pos, placed⟩ := laid.placeField sizes step
  have inside : FieldIn m h (layoutInfo m h) (h.record r) f (run.placedAt i) run.afterFields :=
    run.fieldIn sizes laid _ (run.placedAt_mem hf)
  rcases placed with ⟨-, placed⟩ | ⟨fr, plain, -⟩ | ⟨plain, -⟩
  · have offset := placed.offset
    have bitOffset := placed.bitOffset
    rw [Handled, if_neg struct, placed.bitUnit]
    refine ⟨?_, ?_⟩
    · rintro ⟨⟨fs', access, size', room⟩, roomy⟩
      rw [size, Option.some.injEq] at size'
      subst size'
      have apos := fieldAlign_pos (h.record r) f pos
      have spec := bitUnit_spec (n := s.1) apos room
      rw [← offset] at spec
      obtain ⟨aligned, early, late⟩ := spec
      refine ⟨by omega, by omega, access, ?_, ?_⟩
      · rcases roomy abi with natural | covered
        · have large : fs ≤ fieldAlign (h.record r) f fs := fieldAlign_ge (natural.2 fs size)
          rw [alignof_of_isIntegral (h.bitField_integral r f mem bit), size, Option.some.injEq] at align
          subst align
          rcases inside with ⟨fs', ta', bits, size', align', -, -, -, bitOffset', -, fits, raised⟩ | ⟨_, _, _, _, _, plain, _⟩
          · rw [alignof_of_isIntegral (h.bitField_integral r f mem bit), size, Option.some.injEq] at align'
            subst align'
            have shown : alignof m h (layoutInfo m h) f.type = some fs := by
              rw [alignof_of_isIntegral (h.bitField_integral r f mem bit), size]
            have := sound.vbases.size
            have := run.unit_inside sizes abi mem known natural.1 shown (Nat.le_trans (raised named) sound.vbases.align)
              aligned (by omega)
            omega
          · rw [bit] at plain
            cases plain
        · -- the members from the bit-field on end behind its unit
          have total := Laid.memberWidth_le sizes abi after
          have enough := covered fs size
          obtain ⟨lt, rfl⟩ := List.getElem?_eq_some_iff.1 hf
          rw [List.drop_eq_getElem_cons lt, List.map_cons, List.sum_cons] at enough
          simp only [memberWidth, bit, if_true] at enough total
          have bits := placed.bits
          have dsize := sound.members.dsize
          have fits := sound.members.fits
          have := sound.vbases.size
          have rounded := le_roundUp run.last.size run.last.align
          have one := le_atLeastOne (roundUp run.last.size run.last.align)
          simp only [Run.info, finishLayout] at dsize fits total ⊢
          omega
      · intro _ j g ne hg
        rw [run.fieldOffsets_getD, run.bitOffsets_getD]
        have := run.ownBits_apart sizes abi complete (Ne.symm ne) hf hg
        simpa [fieldBits, bit] using this
    · intro ok natural
      have start := ok.start
      have holds := ok.holds
      exact ⟨⟨fs, ok.access, size, by omega⟩, fun _ => .inl natural⟩
  · rw [bit] at plain
    cases plain
  · rw [bit] at plain
    cases plain

end

/-- **A bit-field of a union under Itanium.** -/
theorem union_unitFits (abi : m.abi.isItanium = true) (union : (h.record r).tag = .union)
    (known : layoutInfo m h r = some info) {i : Nat} {f : Field} (hf : (h.record r).fields[i]? = some f)
    (bit : f.bitField = true) :
    UnitFits m h r info i f (info.fieldOffsets.getD i 0) (info.bitUnits.getD i 0) (info.bitOffsets.getD i 0) ↔
      Handled m h r i f := by
  rw [layoutInfo_itanium abi] at known
  obtain ⟨ps, c, run, rfl⟩ := layoutItanium_union_some union known
  have inside : UnionFieldIn m h (layoutInfo m h) (h.record r) f (ps.getD i ⟨0, 0, 0⟩) c :=
    unionFieldIn run _ (mem_zip_of_getElem? _ hf (thread_length run))
  have offset' : (finishUnion (h.record r) ps c).fieldOffsets.getD i 0 = 0 :=
    (List.getD_map ps ⟨0, 0, 0⟩ Placed.offset).trans inside.offset
  have bitOffset' : (finishUnion (h.record r) ps c).bitOffsets.getD i 0 = 0 :=
    (List.getD_map ps ⟨0, 0, 0⟩ Placed.bitOffset).trans inside.bitOffset
  have unit' : (finishUnion (h.record r) ps c).bitUnits.getD i 0 = (f.width + 7) / 8 :=
    (List.getD_map ps ⟨0, 0, 0⟩ Placed.bitUnit).trans (inside.bitUnit bit)
  have sized : ∃ fs, sizeof m h (layoutInfo m h) f.type = some fs := by
    obtain ⟨_, _, _, step⟩ := thread_step run (List.mem_of_getElem? hf)
    obtain ⟨fs, -, size, -⟩ := unionField_some step
    exact ⟨fs, size⟩
  rw [offset', bitOffset', unit', Handled, if_pos union]
  constructor
  · intro ok
    exact ⟨abi, ok.access⟩
  · rintro ⟨-, access⟩
    refine ⟨Int.le_refl 0, by omega, access, ?_, fun struct => (struct union).elim⟩
    obtain ⟨fs, size⟩ := sized
    have room := inside.room fs size
    rw [if_pos bit] at room
    have grown := le_roundUp c.size c.align
    have large := le_atLeastOne (roundUp c.size c.align)
    simp only [finishUnion]
    omega

/-! ### Microsoft -/

section

variable {run : MsRun m h (layoutInfo m h) r}

/-- What a function of members and their places has at the `i`th. -/
theorem MsRun.members_getElem? {α : Type} (at_ : Field → MsPlaced → α) {i : Nat} {f : Field}
    (hf : (h.record r).fields[i]? = some f) :
    (((h.record r).fields.zip run.fields).map fun fp => at_ fp.1 fp.2)[i]? = some (at_ f (run.placedAt i)) := by
  have len := thread_length run.members
  obtain ⟨lt, rfl⟩ := List.getElem?_eq_some_iff.1 hf
  have lt' : i < run.fields.length := by rw [len]; exact lt
  simp [MsRun.placedAt, lt, lt']

/-- The values of two members do not meet. -/
theorem MsRun.valueBits_apart {i j : Nat} {f g : Field} (ne : i ≠ j) (hf : (h.record r).fields[i]? = some f)
    (hg : (h.record r).fields[j]? = some g) :
    (valueBits m h f (run.placedAt i).offset (run.placedAt i).bitOffset).Apart
      (valueBits m h g (run.placedAt j).offset (run.placedAt j).bitOffset) := by
  have apart := (run.serial_values (Serial.nil _)).apart
  rw [List.nil_append] at apart
  have lo : ∀ (f : Field) (p : MsPlaced), (valueBits m h f p.offset p.bitOffset).lo =
      (msValueBits m h (layoutInfo m h) f p.offset p.bitOffset).lo := by
    intro f p
    unfold valueBits msValueBits
    split
    · simp only
      omega
    · rfl
  have len : ∀ (f : Field) (p : MsPlaced), (valueBits m h f p.offset p.bitOffset).len ≤
      (msValueBits m h (layoutInfo m h) f p.offset p.bitOffset).len := by
    intro f p
    unfold valueBits msValueBits
    split
    · exact Nat.le_refl _
    · simp only
      split <;> omega
  have at_ : ∀ {i : Nat} {f : Field}, (h.record r).fields[i]? = some f → _ :=
    fun hf => run.members_getElem? (fun f p => msValueBits m h (layoutInfo m h) f p.offset p.bitOffset) hf
  exact (apart_of_ne apart ne (at_ hf) (at_ hg)).shrink (lo _ _) (lo _ _) (len _ _) (len _ _)

/-- The bits of two members do not meet, when the bit-fields fit their types. -/
theorem MsRun.ownBits_apart (fits : ∀ f ∈ (h.record r).fields, FitsType m h (layoutInfo m h) f) {i j : Nat}
    {f g : Field} (ne : i ≠ j) (hf : (h.record r).fields[i]? = some f) (hg : (h.record r).fields[j]? = some g) :
    (msFieldBits m h (layoutInfo m h) f (run.placedAt i).offset (run.placedAt i).bitOffset).Apart
      (ownBits m h g (run.placedAt j).offset (run.placedAt j).bitOffset) := by
  have apart := (run.serial_members fits (Serial.nil _)).apart
  rw [List.nil_append] at apart
  have at_ : ∀ {i : Nat} {f : Field}, (h.record r).fields[i]? = some f → _ :=
    fun hf => run.members_getElem? (fun f p => msFieldBits m h (layoutInfo m h) f p.offset p.bitOffset) hf
  refine (apart_of_ne apart ne (at_ hf) (at_ hg)).shrink rfl ?_ (Nat.le_refl _) ?_
  · unfold ownBits msFieldBits
    split
    · simp only
      omega
    · rfl
  · unfold ownBits msFieldBits
    split
    · exact Nat.le_refl _
    · simp only
      split <;> omega

/-- A bit-field of a class under Microsoft's ABI: the unit is one of its type. -/
theorem MsRun.unit {i : Nat} {f : Field} (ms : m.msBitfields = true) (hf : (h.record r).fields[i]? = some f)
    (bit : f.bitField = true) (named : f.name ≠ "") :
    ∃ fs, sizeof m h (layoutInfo m h) f.type = some fs ∧ (run.placedAt i).bitUnit = fs ∧
      (f.width ≤ fs * 8 → (run.placedAt i).bitOffset + f.width ≤ fs * 8) ∧ (run.placedAt i).offset + fs ≤ run.info.size := by
  have wide := h.bitField_named r f (List.mem_of_getElem? hf) bit named
  have inside : MsFieldIn m h (layoutInfo m h) (h.record r) f (run.placedAt i) run.afterFields :=
    run.fieldIn _ (run.placedAt_mem hf)
  have ended := run.cur_le_size
  rcases inside with ⟨fs, ta, size, -, -, -, unit, room, fits, -⟩ | ⟨fs, ta, -, -, kind, -, -⟩
  · rw [unit ms] at room fits
    exact ⟨fs, size, unit ms, room, by omega⟩
  · rcases kind with ⟨-, none, -⟩ | ⟨plain, -⟩
    · omega
    · rw [bit] at plain
      cases plain

/-- **The bit-fields of a class under Microsoft's ABI.** -/
theorem MsRun.unitFits (ms : m.msBitfields = true) (abi : m.abi.isItanium = false) (struct : (h.record r).tag ≠ .union) :
    (∀ (i : Nat) (f : Field), (h.record r).fields[i]? = some f → f.bitField = true → f.name ≠ "" →
      UnitFits m h r run.info i f (run.placedAt i).offset (run.placedAt i).bitUnit (run.placedAt i).bitOffset) ↔
    ∀ (i : Nat) (f : Field), (h.record r).fields[i]? = some f → f.bitField = true → f.name ≠ "" → Handled m h r i f := by
  constructor
  · intro ok i f hf bit named
    have ok := ok i f hf bit named
    obtain ⟨fs, size, unit, -, -⟩ := run.unit ms hf bit named
    have holds := ok.holds
    have access := ok.access
    rw [unit] at holds access
    rw [Handled, if_neg struct]
    refine ⟨⟨fs, access, size, by omega⟩, ?_⟩
    rw [abi]
    intro itanium
    cases itanium
  · intro handled
    have sized : ∀ (i : Nat) (f : Field), (h.record r).fields[i]? = some f → f.bitField = true → f.name ≠ "" →
        ∃ fs ∈ accessSizes, sizeof m h (layoutInfo m h) f.type = some fs ∧ f.width ≤ fs * 8 := by
      intro i f hf bit named
      have here := handled i f hf bit named
      rw [Handled, if_neg struct] at here
      exact here.1
    have fits : ∀ f ∈ (h.record r).fields, FitsType m h (layoutInfo m h) f := by
      intro f hf bit named fs size
      obtain ⟨i, hi⟩ := List.getElem?_of_mem hf
      obtain ⟨fs', -, size', room⟩ := sized i f hi bit named
      rw [size, Option.some.injEq] at size'
      rw [size']
      exact room
    intro i f hf bit named
    obtain ⟨fs, size, unit, room, inside⟩ := run.unit ms hf bit named
    obtain ⟨fs', access, size', wide⟩ := sized i f hf bit named
    rw [size, Option.some.injEq] at size'
    subst size'
    have room := room wide
    rw [unit]
    refine ⟨by omega, by omega, access, inside, ?_⟩
    intro _ j g ne hg
    rw [run.fieldOffsets_getD, run.bitOffsets_getD]
    refine (run.ownBits_apart fits (Ne.symm ne) hf hg).shrink ?_ rfl ?_ (Nat.le_refl _)
    · simp only [msFieldBits, bit, if_true]
      omega
    · simp [msFieldBits, bit, named]

end

theorem member_sized (struct : (h.record r).tag ≠ .union) (known : layoutInfo m h r = some info) :
    ∀ f ∈ (h.record r).fields, ∃ n, sizeof m h (layoutInfo m h) f.type = some n := by
  intro f mem
  cases abi : m.abi.isItanium with
  | true =>
    rw [layoutInfo_itanium abi] at known
    obtain ⟨run, rfl⟩ := (layoutItanium_iff_run struct).1 known
    obtain ⟨_, _, _, step⟩ := thread_step run.members mem
    obtain ⟨fs, _, size, -⟩ := placeField_sized step
    exact ⟨fs, size⟩
  | false =>
    rw [layoutInfo_microsoft abi] at known
    obtain ⟨run, rfl⟩ := layoutMicrosoft_struct struct known
    obtain ⟨_, _, _, step⟩ := thread_step run.members mem
    obtain ⟨fs, _, size, -⟩ := placeMsField_sized step
    exact ⟨fs, size⟩

/-- **The values of the members of a class do not meet**, under either ABI. -/
theorem valueBits_apart (supported : m.Supported) (complete : h.Complete m r) (struct : (h.record r).tag ≠ .union)
    (known : layoutInfo m h r = some info) {i j : Nat} {f g : Field} (ne : i ≠ j) (hf : (h.record r).fields[i]? = some f)
    (hg : (h.record r).fields[j]? = some g) :
    (valueBits m h f (info.fieldOffsets.getD i 0) (info.bitOffsets.getD i 0)).Apart
      (valueBits m h g (info.fieldOffsets.getD j 0) (info.bitOffsets.getD j 0)) := by
  cases abi : m.abi.isItanium with
  | true =>
    rw [layoutInfo_itanium abi] at known
    obtain ⟨run, rfl⟩ := (layoutItanium_iff_run struct).1 known
    rw [run.fieldOffsets_getD, run.fieldOffsets_getD, run.bitOffsets_getD, run.bitOffsets_getD]
    refine (run.ownBits_apart supported.sizes abi complete ne hf hg).shrink ?_ ?_ ?_ ?_
    · unfold valueBits fieldBits
      split <;> rfl
    · unfold valueBits ownBits
      split <;> rfl
    · unfold valueBits fieldBits
      split
      · simp only
        split <;> omega
      · simp only [abi, Bool.true_and]
        exact Nat.le_refl _
    · unfold valueBits ownBits
      split
      · simp only
        split <;> omega
      · exact Nat.le_refl _
  | false =>
    rw [layoutInfo_microsoft abi] at known
    obtain ⟨run, rfl⟩ := layoutMicrosoft_struct struct known
    rw [run.fieldOffsets_getD, run.fieldOffsets_getD, run.bitOffsets_getD, run.bitOffsets_getD]
    exact run.valueBits_apart ne hf hg

theorem msUnion_bitUnits (abi : m.abi.isItanium = false) (union : (h.record r).tag = .union)
    (known : layoutInfo m h r = some info) (i : Nat) : info.bitUnits.getD i 0 = 0 := by
  rw [layoutInfo_microsoft abi] at known
  obtain ⟨offs, s, us, t, -, -, rfl⟩ := layoutMicrosoft_union union known
  simp only [finishMsUnion, List.getD_eq_getElem?_getD, List.getElem?_map]
  cases (h.record r).fields[i]? <;> rfl

/-! ### Both -/

theorem bitFieldsFit_iff (known : layoutInfo m h r = some info) : BitFieldsFit m h r info ↔
    ∀ (i : Nat) (f : Field), (h.record r).fields[i]? = some f → f.bitField = true → f.name ≠ "" →
      UnitFits m h r info i f (info.fieldOffsets.getD i 0) (info.bitUnits.getD i 0) (info.bitOffsets.getD i 0) := by
  constructor
  · intro fit i f hf bit named
    obtain ⟨unitOff, unitBytes, bitOff, report, fits⟩ := fit i f hf bit named
    rw [Model.bitField_eq known hf bit] at report
    cases report
    exact fits
  · intro fit i f hf bit named
    exact ⟨_, _, _, Model.bitField_eq known hf bit, fit i f hf bit named⟩

/-- `union U { int a : 3; }; struct S { int a : 3; int b : 30; };` -/
def bitFieldClasses : Hierarchy := .ofRecords
  [{ name := "U", tag := .union, fields := [{ name := "a", type := .basic .int, bitField := true, width := 3 }] },
    { name := "S", fields := [{ name := "a", type := .basic .int, bitField := true, width := 3 },
      { name := "b", type := .basic .int, bitField := true, width := 30 }] }] (by decide)

theorem bitFieldClasses_complete {m : Model} (model : m = lp64 ∨ m = llp64) {r : Nat} (le : r ≤ 1) :
    bitFieldClasses.Complete m r := by
  rcases model with rfl | rfl
  · exact Hierarchy.complete_of_all fun c hc =>
      (by decide : ∀ c ≤ 1, bitFieldClasses.completeAt lp64 c = true) c (by omega)
  · exact Hierarchy.complete_of_all fun c hc =>
      (by decide : ∀ c ≤ 1, bitFieldClasses.completeAt llp64 c = true) c (by omega)

end Vcx.Types
