import Vcx.Types.WellLaid

/-!
# An Itanium layout keeps its promises

The parts of a class are a row of bits; a base is in it at its own place or, as the primary
base, at the head. The rest is read off the run.
-/

namespace Vcx.Types
set_option autoImplicit false
open Vcx.Lib

variable {m : Model} {h : Hierarchy} {r : Nat} {info : RecordInfo}

section

variable {run : Run m h (layoutInfo m h) r}

/-- The row of bits a run lays down. -/
def Run.row (run : Run m h (layoutInfo m h) r) : List Range :=
  (run.head :: run.otherBases).map (fun a => a.scale 8) ++ run.memberBits

/-- Where the `i`th base is in the row. -/
def Run.basePos (_ : Run m h (layoutInfo m h) r) (i : Nat) : Nat :=
  if (primaryBase m h (layoutInfo m h) r).idx = some i then 0 else i + 1

theorem Run.basePos_ne {i j : Nat} (ne : i ≠ j) : run.basePos i ≠ run.basePos j := by
  unfold Run.basePos
  split <;> split <;> simp_all

theorem Run.field_at (abi : m.abi.isItanium = true) (j : Nat) : (fieldPartAt m h r run.info j).len = 0 ∨
    run.row[(h.record r).bases.length + 1 + j]? = some ((fieldPartAt m h r run.info j).scale 8) := by
  rcases fieldPartAt_cases (m := m) run.info j with none | ⟨f, here⟩
  · exact .inl none
  have len : ((run.head :: run.otherBases).map fun a => a.scale 8).length = (h.record r).bases.length + 1 := by
    simp [Run.otherBases, run.baseOffs_length]
  rw [fieldPartAt_eq here]
  cases bit : f.bitField with
  | true => exact .inl (by simp [fieldRoom, bit])
  | false =>
    right
    rw [Run.row, List.getElem?_append_right (by omega), len, Nat.add_sub_cancel_left, run.fieldOffsets_getD,
      run.memberBits_at here]
    simp only [fieldBits, bit, Bool.false_eq_true, if_false, Range.scale, fieldRoom, abi, Bool.true_and, Bool.false_or,
      Option.some.injEq, Range.mk.injEq, true_and]
    split <;> simp

variable (sizes : m.Sizes) (abi : m.abi.isItanium = true)
include sizes abi

theorem Run.base_at (i : Nat) : (basePartAt m h r run.info i).len = 0 ∨
    run.row[run.basePos i]? = some ((basePartAt m h r run.info i).scale 8) := by
  have laid : Laid m h (layoutInfo m h) := layoutInfo_itanium abi
  rcases basePartAt_cases (m := m) run.info i with none | ⟨b, c, here, plain⟩
  · exact .inl none
  obtain ⟨lt, -⟩ := List.getElem?_eq_some_iff.1 here
  obtain ⟨nonVirtual, cls⟩ := BaseSpec.plain_eq_some.1 plain
  have room : baseRoom m h c = dataSize h (layoutInfo m h) c := by rw [baseRoom, if_pos abi]
  rw [basePartAt_eq here plain, run.baseOffsets_plain here nonVirtual, room]
  right
  rw [Run.row, Run.basePos, List.map_cons]
  split
  · rename_i idx
    obtain ⟨b', c', here', cls', -, dsize, -⟩ := run.head_primary sizes laid idx
    rw [here] at here'
    cases here'
    rw [cls] at cls'
    cases cls'
    rw [run.baseOffs_primary sizes laid idx]
    simp [Run.head, dsize]
  · rename_i idx
    have lt' : i < run.baseOffs.length := by rw [run.baseOffs_length]; exact lt
    rw [List.cons_append, List.getElem?_cons_succ, List.getElem?_append_left (by simp [Run.otherBases, run.baseOffs_length, lt])]
    have zip : ((h.record r).bases.zipIdx.zip run.baseOffs)[i]? = some ((b, i), run.baseOffs[i]) :=
      List.getElem?_zip_eq_some.2 ⟨by simp [here], List.getElem?_eq_getElem lt'⟩
    simp [Run.otherBases, zip, otherBase, idx, basePart, plain, lt']

/-- A class with storage has a size before it is made at least one. -/
theorem Run.size_pos (complete : h.Complete m r) (stored : HasStorage m h r) :
    0 < run.last.size := by
  have laid : Laid m h (layoutInfo m h) := layoutInfo_itanium abi
  have whole : ∀ c, h.Base r c → (h.record c).complete = true := fun d e => ((complete.part (.inl e)).at).complete
  have sound := run.sound sizes laid whole
  have grown := sound.vbases.size
  have members : run.afterBases.size ≤ run.afterFields.size := sound.members.size
  rcases stored with ⟨f, hf, occupies⟩ | ⟨-, stored⟩
  · obtain ⟨i, here⟩ := List.getElem?_of_mem hf
    have inside : FieldIn m h (layoutInfo m h) (h.record r) f (run.placedAt i) run.afterFields :=
      run.fieldIn sizes laid _ (run.placedAt_mem here)
    rcases inside with ⟨fs, ta, bits, -, -, -, bit, -, -, -, fits, -⟩ | ⟨fs, ta, size, -, -, plain, -, fits, -⟩
    · rw [Occupies, if_pos bit] at occupies
      omega
    · rw [Occupies, if_neg (by simp [plain])] at occupies
      obtain ⟨fs', size', pos⟩ := occupies
      rw [size, Option.some.injEq] at size'
      omega
  · rw [if_pos abi] at stored
    cases dyn : isDynamic h r with
    | true =>
      have vptr := run.ptr_le_head sizes laid dyn complete
      have := sizes.ptr_pos
      have := sound.bases.size
      have := run.head_le_size sizes laid
      omega
    | false =>
      have some : (h.record r).bases ≠ [] := by simpa [dyn] using stored
      have alone : (primaryBase m h (layoutInfo m h) r).idx = none := by rw [primaryBase_of_static dyn]
      have history := thread_history (P := fun done c => done ≠ [] → 0 < c.size) run.bases [] (by simp) (by
        rintro done ⟨b, i⟩ hb c off c' - step -
        have mem := List.fst_mem_of_mem_zipIdx hb
        obtain ⟨d, cls⟩ := (complete.at).bases b mem
        have plain : b.plain = Option.some d := BaseSpec.plain_eq_some.2 ⟨plain_of_static dyn mem, cls⟩
        rcases placeBaseAt_some step with ⟨-, kept | ⟨-, -, passed⟩⟩ | ⟨d', -, plain', step⟩
        · simp [keepPrimary, alone] at kept
        · have := whole d ⟨b, mem, cls⟩
          rw [passed d plain] at this
          cases this
        · obtain ⟨bi, known, -, placed⟩ := laid.placeBase sizes step
          have pos := laid.positive sizes known
          have size := pos.size
          have nvsize := pos.nvsize
          rw [placed.size, RecordInfo.reserve]
          split <;> omega)
      have placed : 0 < run.afterBases.size := by
        apply history
        have len := run.baseOffs_length
        intro nil
        have zero := congrArg List.length nil
        simp only [List.nil_append, List.length_zip, List.length_zipIdx, len, Nat.min_self, List.length_nil] at zero
        exact some (List.length_eq_zero_iff.1 zero)
      omega

/-- A class without storage whose parts ask for no alignment has none. -/
theorem Run.align_one (struct : (h.record r).tag ≠ .union) (empty : ¬ HasStorage m h r)
    (flat : Unaligned m h r) : run.last.align = 1 := by
  have laid : Laid m h (layoutInfo m h) := layoutInfo_itanium abi
  have bare : isDynamic h r = false ∧ (h.record r).bases = [] := by
    simp only [HasStorage, abi, if_true, not_or, not_and] at empty
    have := empty.2 struct
    exact ⟨by simpa using this.1, by simpa using this.2⟩
  have alone : (primaryBase m h (layoutInfo m h) r).idx = none := by rw [primaryBase_of_static bare.1]
  have first : run.afterPrimary.align = 1 := by
    have := flat.head
    rw [(run.head_alone alone).2, startCursor, bare.1, Bool.false_and, if_neg (by simp), headCursor_align]
    omega
  have bases : run.afterBases = run.afterPrimary := by
    have := run.bases
    simp only [bare.2, List.zipIdx_nil, placeBases, thread, Option.some.injEq, Prod.mk.injEq] at this
    exact this.2.symm
  have fields : run.afterFields.align = 1 := by
    refine thread_invariant (P := fun s : Nat × Cursor => s.2.align = 1) run.members (by rw [bases]; exact first) ?_
    intro f hf s p s' one step
    obtain ⟨fs, ta, -, align, -, placed⟩ := laid.placeField sizes step
    have low := fun named => flat.fields f hf named ta align
    rcases placed with ⟨-, placed⟩ | ⟨fr, plain, -, placed⟩ | ⟨plain, -, placed⟩
    · rw [placed.align]
      split
      · exact one
      · rename_i named
        have := low (.inr named)
        omega
    · have := low (.inl plain)
      rw [placed.align]
      omega
    · have := low (.inl plain)
      rw [placed.align]
      omega
  have noVBase : freshVBases m h (layoutInfo m h) r = [] := by
    apply List.eq_nil_iff_forall_not_mem.2
    intro v hv
    exact not_vbase_of_not_dynamic bare.1 (mem_itaniumVBases.1 (List.mem_filter.1 hv).1)
  have last := run.vbases
  simp only [noVBase, placeVBases, thread, Option.some.injEq, Prod.mk.injEq] at last
  rw [← last.2]
  exact fields

/-- A direct base with data is at a multiple of its alignment. -/
theorem Run.baseAligned (complete : h.Complete m r) (known : layoutInfo m h r = some run.info)
    (shares : SharesAligned m h (layoutInfo m h) r) {i c : Nat} {b : BaseSpec} {bi : RecordInfo}
    (here : (h.record r).bases[i]? = some b) (cls : b.cls = some c) (data : itaniumEmpty h c = false)
    (knownBase : layoutInfo m h c = some bi) : bi.nvalign ∣ run.info.baseOffsets.getD i 0 := by
  have laid : Laid m h (layoutInfo m h) := layoutInfo_itanium abi
  cases virtual : b.virtual with
  | false =>
    have whole := ((complete.part (.inl ⟨b, List.mem_of_getElem? here, cls⟩)).at).complete
    rw [run.baseOffsets_plain here virtual]
    exact (run.plain_aligned sizes laid here (BaseSpec.plain_eq_some.2 ⟨virtual, cls⟩) data knownBase whole).1
  | true =>
    rw [run.baseOffsets_virtual here virtual cls]
    cases entry : run.info.vbaseOffsets.lookup c with
    | none => exact Nat.dvd_zero _
    | some off => exact run.vbase_aligned sizes laid abi known complete shares entry data knownBase

/-- **A class laid out by Itanium's rules.** -/
theorem Run.wellLaid (complete : h.Complete m r) (struct : (h.record r).tag ≠ .union)
    (known : layoutInfo m h r = some run.info) (orderly : Orderly m h r) : WellLaid m h r run.info := by
  have laid : Laid m h (layoutInfo m h) := layoutInfo_itanium abi
  have sound := run.sound sizes laid fun d e => ((complete.part (.inl e)).at).complete
  have positive := laid.positive sizes known
  have members := sound.members.dsize
  have inSize := sound.members.fits
  have grown := sound.vbases.size
  have sizeLe : run.last.size ≤ run.info.size := Nat.le_trans (le_roundUp _ _) (le_atLeastOne _)
  have within : ∀ {p : Range} {k : Nat}, p.len = 0 ∨ run.row[k]? = some (p.scale 8) → p.Within run.info.size := by
    intro p k at_
    rcases at_ with none | at_
    · exact .inl none
    · refine Range.Within.of_scale (k := 8) (by omega) ((sound.nonVirtual.within _ (List.mem_of_getElem? at_)).mono ?_)
      simp only at members inSize
      omega
  have basePos_lt : ∀ i, (basePartAt m h r run.info i).len = 0 ∨ run.basePos i < (h.record r).bases.length + 1 := by
    intro i
    rcases basePartAt_cases (m := m) run.info i with none | ⟨b, c, here, -⟩
    · exact .inl none
    · obtain ⟨lt, -⟩ := List.getElem?_eq_some_iff.1 here
      right
      unfold Run.basePos
      split <;> omega
  refine ⟨?_, ?_, ?_, ?_, ?_, ?_, ?_, ?_, positive.size, ?_, ?_, ?_⟩
  · exact fun _ i j ne => apart_of_row sound.nonVirtual.apart (run.basePos_ne ne) (run.base_at sizes abi i)
      (run.base_at sizes abi j)
  · exact fun _ i j ne => apart_of_row sound.nonVirtual.apart (by omega) (run.field_at abi i) (run.field_at abi j)
  · intro _ i j
    rcases basePos_lt i with none | lt
    · exact .inl none
    · exact apart_of_row sound.nonVirtual.apart (by omega) (run.base_at sizes abi i) (run.field_at abi j)
  · exact fun _ i => within (run.base_at sizes abi i)
  · exact fun _ i => within (run.field_at abi i)
  · intro i f ta here align
    rw [run.fieldOffsets_getD]
    have inside : FieldIn m h (layoutInfo m h) (h.record r) f (run.placedAt i) run.afterFields :=
      run.fieldIn sizes laid _ (run.placedAt_mem here)
    rcases inside with ⟨fs, ta', bits, size, align', pos, bit, offset, -⟩ | ⟨fs, ta', -, align', -, -, aligned, -⟩
    · rw [align, Option.some.injEq] at align'
      subst align'
      have fits := orderly.windows abi struct f (List.mem_of_getElem? here) bit fs size
      rw [offset]
      exact (bitUnit_spec (fieldAlign_pos (h.record r) f pos) fits).1
    · rw [align, Option.some.injEq] at align'
      subst align'
      exact aligned
  · intro i b c bi here cls data knownBase
    rw [RecordInfo.baseAlign, if_pos abi]
    exact run.baseAligned sizes abi complete known (orderly.shared abi) here cls data knownBase
  · intro v off vi entry data knownBase
    rw [RecordInfo.baseAlign, if_pos abi]
    exact run.vbase_aligned sizes laid abi known complete (orderly.shared abi) entry data knownBase
  · by_cases stored : HasStorage m h r
    · exact dvd_size positive.align (run.size_pos sizes abi complete stored)
    · rcases orderly.stored with stored' | flat
      · exact absurd stored' stored
      · have one : run.info.align = 1 := run.align_one sizes abi struct stored flat
        rw [one]
        exact Nat.one_dvd _
  · intro f hf named ta align
    obtain ⟨i, here⟩ := List.getElem?_of_mem hf
    have inside : FieldIn m h (layoutInfo m h) (h.record r) f (run.placedAt i) run.afterFields :=
      run.fieldIn sizes laid _ (run.placedAt_mem here)
    refine Nat.le_trans ?_ sound.vbases.align
    rcases inside with ⟨fs, ta', bits, -, align', -, bit, -, -, -, -, raised⟩ | ⟨fs, ta', -, align', -, -, -, -, raised⟩
    · rw [align, Option.some.injEq] at align'
      subst align'
      apply raised
      simpa [bit] using named
    · rw [align, Option.some.injEq] at align'
      subst align'
      exact raised
  · intro _
    exact laid.eachEmpty_nodup sizes complete known (orderly.empties abi)

end

/-- **A union laid out by Itanium's rules.** -/
theorem union_wellLaid (sizes : m.Sizes) (abi : m.abi.isItanium = true) (complete : h.Complete m r)
    (union : (h.record r).tag = .union) (known : layoutInfo m h r = some info) (orderly : Orderly m h r) :
    WellLaid m h r info := by
  have laid : Laid m h (layoutInfo m h) := layoutInfo_itanium abi
  have positive := laid.positive sizes known
  have empties := laid.eachEmpty_nodup sizes complete known (orderly.empties abi)
  have shown := known
  rw [laid r] at shown
  obtain ⟨ps, c, run, rfl⟩ := layoutItanium_union_some union shown
  have inside : ∀ {i f}, (h.record r).fields[i]? = some f →
      UnionFieldIn m h (layoutInfo m h) (h.record r) f (ps.getD i ⟨0, 0, 0⟩) c :=
    fun here => unionFieldIn run _ (mem_zip_of_getElem? _ here (thread_length run))
  refine ⟨fun e => (e union).elim, fun e => (e union).elim, fun e => (e union).elim, fun e => (e union).elim,
    fun e => (e union).elim, ?_, ?_, ?_, positive.size, ?_, ?_, fun _ => empties⟩
  · intro i f ta here _
    have offset : (finishUnion (h.record r) ps c).fieldOffsets.getD i 0 = 0 :=
      (List.getD_map ps ⟨0, 0, 0⟩ Placed.offset).trans (inside here).offset
    rw [offset]
    exact Nat.dvd_zero _
  · intro i b c bi here
    rw [h.union_bases r union] at here
    cases here
  · intro v off vi entry
    cases entry
  · by_cases some : 0 < c.size
    · exact dvd_size positive.align some
    · have one : c.align = 1 := by
        rcases orderly.stored with (⟨f, hf, occupies⟩ | ⟨struct, -⟩) | flat
        · obtain ⟨i, here⟩ := List.getElem?_of_mem hf
          have room := (inside here).room
          unfold Occupies at occupies
          split at occupies
          · rename_i bit
            obtain ⟨_, _, _, step⟩ := thread_step run hf
            obtain ⟨fs, -, size, -⟩ := unionField_some step
            have := room fs size
            rw [if_pos bit] at this
            omega
          · rename_i plain
            obtain ⟨fs, size, pos⟩ := occupies
            have := room fs size
            rw [if_neg plain] at this
            omega
        · exact absurd union struct
        · refine thread_invariant (P := fun c : Cursor => c.align = 1) run ?_ ?_
          · have := flat.head
            rw [headCursor_align]
            omega
          · intro f hf c p c' one step
            obtain ⟨fs, ta, -, align, -, high, -⟩ := unionField_some step
            rw [high]
            split
            · exact one
            · rename_i named
              have := flat.fields f hf (Classical.not_and_iff_not_or_not.1 named |>.imp (by simp) id) ta align
              omega
      rw [show (finishUnion (h.record r) ps c).align = c.align from rfl, one]
      exact Nat.one_dvd _
  · intro f hf named ta align
    obtain ⟨i, here⟩ := List.getElem?_of_mem hf
    exact (inside here).raised named ta align

end Vcx.Types
