import Vcx.Types.Itanium.Run

/-!
# The parts of a class lie one after the other

Every part with data starts where the data so far ends: first the vptr or the primary base,
then the other bases, the members and the virtual bases. Bit-fields make the unit of account
the bit. `Run.serial` is the one statement; that parts are disjoint, inside the class and
apart from the virtual bases are all read off it.
-/

namespace Vcx.Types
set_option autoImplicit false
open Vcx.Lib

section

variable (m : Model) (h : Hierarchy) (L : Layouts)

/-- The bytes of data a class has as a base. -/
def dataSize (c : Nat) : Nat := if itaniumEmpty h c then 0 else ((L c).map RecordInfo.nvsize).getD 0

/-- The bytes a class takes as a base at `off`. -/
def classPart (c off : Nat) : Range := ⟨off, dataSize h L c⟩

/-- The bytes of a non-virtual direct base. -/
def basePart (b : BaseSpec) (off : Nat) : Range := ⟨off, (b.plain.map (dataSize h L)).getD 0⟩

/-- The bits of a member; an empty `[[no_unique_address]]` one has none. -/
def fieldBits (f : Field) (offset : Nat) (bitOffset : Int) : Range :=
  if f.bitField then ⟨(8 * offset + bitOffset).toNat, f.width⟩
  else ⟨offset * 8, if (emptyMember h f).isSome then 0 else (sizeof m h L f.type).getD 0 * 8⟩

/-- A base other than the primary one, which is counted at the head. -/
def otherBase (p : Primary) (b : (BaseSpec × Nat) × Nat) : Range :=
  if p.idx = some b.1.2 then ⟨0, 0⟩ else basePart h L b.1.1 b.2

end

variable {m : Model} {h : Hierarchy} {L : Layouts} {r : Nat}

/-- The vptr, or the primary base in its place. -/
def Run.head (run : Run m h L r) : Range := ⟨0, run.afterPrimary.dsize⟩

/-- The bases behind it. -/
def Run.otherBases (run : Run m h L r) : List Range :=
  ((h.record r).bases.zipIdx.zip run.baseOffs).map (otherBase h L (primaryBase m h L r))

/-- The members, in bits. -/
def Run.memberBits (run : Run m h L r) : List Range :=
  ((h.record r).fields.zip run.fields).map fun (f, p) => fieldBits m h L f p.offset p.bitOffset

/-- The virtual bases with a place of their own. -/
def Run.freshParts (run : Run m h L r) : List Range :=
  ((freshVBases m h L r).zip run.vbaseOffs).map fun (v, off) => classPart h L v off

theorem dataSize_known {c : Nat} {info : RecordInfo} (known : L c = some info) :
    dataSize h L c = if itaniumEmpty h c then 0 else info.nvsize := by
  simp [dataSize, known]

theorem startCursor_empties (rec_ : Record) (dynamic : Bool) (p : Primary) :
    (startCursor m rec_ dynamic p).empties = [] := by
  unfold startCursor
  split <;> simp

theorem startCursor_dsize (rec_ : Record) (dynamic : Bool) (p : Primary) :
    (startCursor m rec_ dynamic p).dsize = (if dynamic && p.idx.isNone then m.sizePtr else 0) ∧
      (startCursor m rec_ dynamic p).size = (startCursor m rec_ dynamic p).dsize := by
  unfold startCursor
  split
  · exact ⟨rfl, by simp⟩
  · exact ⟨rfl, rfl⟩

/-- What placing bases does to the measures. -/
structure BaseStep (c c' : Cursor) : Prop where
  dsize : c.dsize ≤ c'.dsize
  size : c.size ≤ c'.size
  align : c.align ≤ c'.align
  fits : c.dsize ≤ c.size → c'.dsize ≤ c'.size

theorem BaseStep.refl (c : Cursor) : BaseStep c c :=
  ⟨Nat.le_refl _, Nat.le_refl _, Nat.le_refl _, fun le => le⟩

theorem BaseStep.trans {a b c : Cursor} (ab : BaseStep a b) (bc : BaseStep b c) : BaseStep a c :=
  ⟨Nat.le_trans ab.dsize bc.dsize, Nat.le_trans ab.size bc.size, Nat.le_trans ab.align bc.align,
    fun le => bc.fits (ab.fits le)⟩

/-- What holds between two members: the data ends in the byte that `bits` is in. -/
structure MemberStep (c : Cursor) (s : Nat × Cursor) : Prop where
  dsize : s.2.dsize = (s.1 + 7) / 8
  data : c.dsize * 8 ≤ s.1
  size : c.size ≤ s.2.size
  align : c.align ≤ s.2.align
  fits : s.2.dsize ≤ s.2.size

theorem Run.head_alone (run : Run m h L r) (idx : (primaryBase m h L r).idx = none) :
    run.primaryOff = none ∧
      run.afterPrimary = startCursor m (h.record r) (isDynamic h r) (primaryBase m h L r) := by
  rcases placePrimary_some run.primary with ⟨-, off, eq⟩ | ⟨i, b, d, o, idx', -⟩
  · exact ⟨off, eq⟩
  · rw [idx] at idx'
    cases idx'

section

variable (sizes : m.Sizes) (laid : Laid m h L)
include sizes laid

/-! ### Phase by phase -/

/-- The head of a class with a primary base among its direct ones is that base's data, from
offset zero. -/
theorem Run.head_primary (run : Run m h L r) {i : Nat} (idx : (primaryBase m h L r).idx = some i) :
    ∃ b c, (h.record r).bases[i]? = some b ∧ b.cls = some c ∧ run.primaryOff = some 0 ∧
      run.afterPrimary.dsize = dataSize h L c ∧
      run.afterPrimary.size = max (startCursor m (h.record r) (isDynamic h r) (primaryBase m h L r)).size
        run.afterPrimary.dsize ∧
      run.afterPrimary.empties = eachEmpty m h L c 0 true := by
  obtain ⟨b, c, at_, cls, -, data, -⟩ := primaryBase_idx idx
  rcases placePrimary_some run.primary with ⟨alone, -⟩ | ⟨i', b', d, o, idx', at', cls', off, step⟩
  · rw [alone] at idx
    cases idx
  · rw [idx] at idx'
    cases idx'
    rw [at_] at at'
    cases at'
    rw [cls] at cls'
    cases cls'
    obtain ⟨bi, known, -, placed⟩ := laid.placeBase sizes step
    have start := startCursor_empties (m := m) (h.record r) (isDynamic h r) (primaryBase m h L r)
    have zero : o = 0 := placed.atStart rfl start
    subst zero
    have dsize : run.afterPrimary.dsize = bi.nvsize := by
      rw [placed.dsize, if_neg (by simp [data]), Nat.zero_add]
    refine ⟨b, c, at_, cls, off, ?_, ?_, ?_⟩
    · rw [dsize, dataSize_known known, if_neg (by simp [data])]
    · rw [placed.size, dsize, data]
      simp [RecordInfo.reserve]
    · rw [placed.empties, start, List.nil_append]

theorem Run.head_le_size (run : Run m h L r) : run.afterPrimary.dsize ≤ run.afterPrimary.size := by
  cases idx : (primaryBase m h L r).idx with
  | none =>
    rw [(run.head_alone idx).2, (startCursor_dsize _ _ _).2]
  | some i =>
    obtain ⟨b, c, -, -, -, -, size, -⟩ := run.head_primary sizes laid idx
    rw [size]
    omega

/-- Placing a base moves every measure up. -/
theorem Laid.baseStep {d : Nat} {c c' : Cursor} {off : Nat}
    (run : Vcx.Types.placeBase m h L d false c = some (off, c')) : BaseStep c c' := by
  obtain ⟨bi, -, -, placed⟩ := laid.placeBase sizes run
  refine ⟨?_, ?_, ?_, ?_⟩
  · rw [placed.dsize]
    split
    · exact Nat.le_refl _
    · rename_i data
      have := placed.after rfl (by simpa using data)
      omega
  · rw [placed.size]
    omega
  · rw [placed.align]
    omega
  · intro fits
    rw [placed.dsize, placed.size, RecordInfo.reserve]
    split <;> omega

/-- Placing a base adds its data behind what is there. -/
theorem Laid.serial_snoc {d : Nat} {c c' : Cursor} {off : Nat} {rs : List Range}
    (run : Vcx.Types.placeBase m h L d false c = some (off, c')) (serial : Serial rs (c.dsize * 8)) :
    Serial (rs ++ [(classPart h L d off).scale 8]) (c'.dsize * 8) := by
  have step := laid.baseStep sizes run
  obtain ⟨bi, known, -, placed⟩ := laid.placeBase sizes run
  refine serial.snoc (Nat.mul_le_mul_right 8 step.dsize) ?_ ?_
  · cases empty : itaniumEmpty h d with
    | true => exact .inl (by simp [classPart, Range.scale, dataSize, empty])
    | false => exact .inr (Nat.mul_le_mul_right 8 (placed.after rfl empty))
  · simp only [Range.Within, Range.scale, classPart, dataSize_known known, placed.dsize]
    split <;> omega

theorem Run.serial_bases (run : Run m h L r) (complete : ∀ c, h.Base r c → (h.record c).complete = true) :
    Serial ((run.head :: run.otherBases).map fun a => a.scale 8) (run.afterBases.dsize * 8) ∧
      BaseStep run.afterPrimary run.afterBases := by
  have history := thread_history
    (P := fun done c => Serial ((run.head :: done.map (otherBase h L (primaryBase m h L r))).map fun a => a.scale 8)
      (c.dsize * 8) ∧ BaseStep run.afterPrimary c) run.bases []
    ⟨⟨List.pairwise_singleton _ _, by simp [Run.head, Range.Within, Range.scale]⟩, BaseStep.refl _⟩ (by
      rintro done ⟨b, i⟩ hb c off c' ⟨serial, so⟩ step
      rw [List.map_append, ← List.cons_append, List.map_append, List.map_singleton, List.map_singleton]
      have mem := List.fst_mem_of_mem_zipIdx hb
      rcases placeBaseAt_some step with ⟨rfl, kept | ⟨-, rfl, passed⟩⟩ | ⟨d, kept, plain, step⟩
      · -- the primary base, counted at the head
        have idx : (primaryBase m h L r).idx = some i := by
          unfold keepPrimary at kept
          split at kept
          · rename_i idx
            exact idx
          · cases kept
        have part : ((otherBase h L (primaryBase m h L r) ((b, i), off)).scale 8).len = 0 := by
          simp [otherBase, idx, Range.scale]
        exact ⟨serial.snoc (Nat.le_refl _) (.inl part) (.inl part), so⟩
      · have none : b.plain = none := by
          cases plain : b.plain with
          | none => rfl
          | some d =>
            have := complete d ⟨b, mem, (BaseSpec.plain_eq_some.1 plain).2⟩
            rw [passed d plain] at this
            cases this
        have part : ((otherBase h L (primaryBase m h L r) ((b, i), 0)).scale 8).len = 0 := by
          simp only [otherBase, basePart, none, Range.scale]
          split <;> rfl
        exact ⟨serial.snoc (Nat.le_refl _) (.inl part) (.inl part), so⟩
      · have part : otherBase h L (primaryBase m h L r) ((b, i), off) =
            if (primaryBase m h L r).idx = some i then ⟨0, 0⟩ else classPart h L d off := by
          simp [otherBase, basePart, plain, classPart]
        have base := laid.baseStep sizes step
        refine ⟨?_, so.trans base⟩
        rw [part]
        split
        · exact serial.snoc (Nat.mul_le_mul_right 8 base.dsize) (.inl rfl) (.inl rfl)
        · exact laid.serial_snoc sizes step serial)
  simpa [Run.otherBases] using history

theorem Run.serial_members (run : Run m h L r) (fits : run.afterBases.dsize ≤ run.afterBases.size) {rs : List Range}
    (serial : Serial rs (run.afterBases.dsize * 8)) :
    Serial (rs ++ run.memberBits) run.bits ∧ MemberStep run.afterBases (run.bits, run.afterFields) := by
  have history := thread_history
    (P := fun done s => Serial (rs ++ done.map fun (f, p) => fieldBits m h L f p.offset p.bitOffset) s.1 ∧
      MemberStep run.afterBases s) run.members []
    ⟨by simpa using serial, ⟨by simp only; omega, Nat.le_refl _, Nat.le_refl _, Nat.le_refl _, fits⟩⟩ (by
      rintro done f hf s p s' ⟨serial, so⟩ step
      rw [List.map_append, ← List.append_assoc, List.map_singleton]
      have data := so.data
      have align := so.align
      have grew := so.size
      have inByte := so.dsize
      have inSize := so.fits
      obtain ⟨fs, ta, size, -, -, placed⟩ := laid.placeField sizes step
      rcases placed with ⟨bit, placed⟩ | ⟨fr, plain, empty, placed⟩ | ⟨plain, noEmpty, placed⟩
      · have start := le_bitStart s.1 f.width (fs * 8) (fieldAlign (h.record r) f ta * 8)
        have bits := placed.bits
        have range : fieldBits m h L f p.offset p.bitOffset =
            ⟨bitStart s.1 f.width (fs * 8) (fieldAlign (h.record r) f ta * 8), f.width⟩ := by
          simp only [fieldBits, bit, if_true, placed.bitOffset, Range.mk.injEq, and_true]
          omega
        refine ⟨?_, ⟨placed.dsize, by omega, by rw [placed.size]; omega, ?_, by rw [placed.dsize, placed.size]; omega⟩⟩
        · simp only [range]
          exact serial.snoc (by omega) (.inr start) (.inr (by simp only; omega))
        · rw [placed.align]
          split <;> omega
      · have range : (fieldBits m h L f p.offset p.bitOffset).len = 0 := by simp [fieldBits, plain, empty]
        refine ⟨?_, ⟨by rw [placed.dsize, placed.bits]; exact inByte, by rw [placed.bits]; exact data,
          by rw [placed.size]; omega, by rw [placed.align]; omega, by rw [placed.dsize, placed.size]; omega⟩⟩
        rw [placed.bits]
        exact serial.snoc (Nat.le_refl _) (.inl range) (.inl range)
      · have range : fieldBits m h L f p.offset p.bitOffset = ⟨p.offset * 8, fs * 8⟩ := by
          simp [fieldBits, plain, noEmpty, size]
        have after := placed.after
        have bits := placed.bits
        refine ⟨?_, ⟨by rw [placed.dsize, bits]; omega, by omega, by rw [placed.size]; omega,
          by rw [placed.align]; omega, by rw [placed.dsize, placed.size]; omega⟩⟩
        simp only [range]
        exact serial.snoc (by omega) (.inr after) (.inr (by simp only; omega)))
  simpa [Run.memberBits] using history

/-- The virtual bases, behind the members. -/
theorem Run.serial_vbases (run : Run m h L r) {rs : List Range} (serial : Serial rs (run.afterFields.dsize * 8)) :
    Serial (rs ++ run.freshParts.map fun a => a.scale 8) (run.last.dsize * 8) ∧ BaseStep run.afterFields run.last := by
  have history := thread_history
    (P := fun done c => Serial (rs ++ (done.map fun (v, off) => classPart h L v off).map fun a => a.scale 8)
      (c.dsize * 8) ∧ BaseStep run.afterFields c) run.vbases []
    ⟨by simpa using serial, BaseStep.refl _⟩ (by
      rintro done v hv c off c' ⟨serial, so⟩ step
      rw [List.map_append, List.map_append, ← List.append_assoc, List.map_singleton, List.map_singleton]
      exact ⟨laid.serial_snoc sizes step serial, so.trans (laid.baseStep sizes step)⟩)
  simpa [Run.freshParts] using history

/-- What a whole run comes to. -/
structure Run.Sound (run : Run m h L r) : Prop where
  serial : Serial ((run.head :: run.otherBases).map (fun a => a.scale 8) ++ run.memberBits ++
    run.freshParts.map fun a => a.scale 8) (run.last.dsize * 8)
  nonVirtual : Serial ((run.head :: run.otherBases).map (fun a => a.scale 8) ++ run.memberBits) run.bits
  bases : BaseStep run.afterPrimary run.afterBases
  members : MemberStep run.afterBases (run.bits, run.afterFields)
  vbases : BaseStep run.afterFields run.last
  fits : run.last.dsize ≤ run.last.size

/-- **The parts of a class lie one after the other, inside its size.** -/
theorem Run.sound (run : Run m h L r) (complete : ∀ c, h.Base r c → (h.record c).complete = true) : run.Sound := by
  obtain ⟨bases, first⟩ := run.serial_bases sizes laid complete
  obtain ⟨members, second⟩ := run.serial_members sizes laid (first.fits (run.head_le_size sizes laid)) bases
  have dsize := second.dsize
  obtain ⟨all, third⟩ := run.serial_vbases sizes laid (members.mono (by simp only at dsize; omega))
  exact ⟨all, members, first, second, third, third.fits second.fits⟩

end

end Vcx.Types
