import Vcx.Types.WellLaid

/-!
# A Microsoft layout keeps its promises

The parts of a class are a row of bytes, the bases in the order they are laid out in.
-/

namespace Vcx.Types
set_option autoImplicit false
open Vcx.Lib

variable {m : Model} {h : Hierarchy} {r : Nat} {info : RecordInfo}

theorem msStart_align (r : Nat) : 0 < (msStart m h r).align := by
  unfold msStart
  split
  · simp only [raiseTo_eq]
    omega
  · exact Nat.one_pos

theorem msHead_le (r : Nat) (s : MsBases) : s.cur ≤ (msHead m h r s).1 ∧ s.align ≤ (msHead m h r s).2 := by
  unfold msHead
  split
  · have := le_roundUp s.cur m.sizePtr
    simp only [raiseTo_eq]
    omega
  · exact ⟨Nat.le_refl _, Nat.le_refl _⟩

/-- Laying out bases moves both measures up. -/
theorem msBases_le {L : Layouts} {offs : List Nat} {s : MsBases}
    (run : thread (placeMsBase h L (hasVPtr h r)) (baseOrder h r) (msStart m h r) = some (offs, s)) :
    (msStart m h r).cur ≤ s.cur ∧ (msStart m h r).align ≤ s.align := by
  refine thread_invariant (P := fun s : MsBases => (msStart m h r).cur ≤ s.cur ∧ (msStart m h r).align ≤ s.align) run
    ⟨Nat.le_refl _, Nat.le_refl _⟩ ?_
  intro b hb s off s' old step
  have placed := placeMsBase_some step
  exact ⟨Nat.le_trans old.1 placed.cur_le, Nat.le_trans old.2 placed.align_le⟩

section

variable {run : MsRun m h (layoutInfo m h) r}

theorem MsRun.fields_le : (msHead m h r run.afterBases).1 ≤ run.afterFields.close.cur ∧
    (msHead m h r run.afterBases).2 ≤ run.afterFields.align := by
  refine thread_invariant (P := fun s : MsFields => (msHead m h r run.afterBases).1 ≤ s.close.cur ∧
    (msHead m h r run.afterBases).2 ≤ s.align) run.members ⟨Nat.le_refl _, Nat.le_refl _⟩ ?_
  intro f hf s p s' old step
  obtain ⟨fs, ta, size, align⟩ := placeMsField_sized step
  have placed := placeMsField_some size align step
  exact ⟨Nat.le_trans old.1 placed.close_le, Nat.le_trans old.2 placed.align_le⟩

theorem MsRun.align_le : run.afterFields.align ≤ run.info.align := by
  have vbases := (msVBasesEnd_le (h := h) (L := layoutInfo m h) r run.afterFields.close.cur
    (raiseTo run.afterFields.close.align (h.record r).align)).2
  refine Nat.le_trans ?_ vbases
  rw [raiseTo_eq, MsFields.close_align]
  omega

theorem MsRun.align_pos : 0 < run.info.align := by
  have := msStart_align (m := m) (h := h) r
  have := (msBases_le run.bases).2
  have := (msHead_le (m := m) (h := h) r run.afterBases).2
  have := run.fields_le.2
  have := run.align_le
  omega

/-- The row of bytes a run lays down. -/
def MsRun.row (run : MsRun m h (layoutInfo m h) r) : List Range :=
  ((baseOrder h r).zip run.baseOffs).map (fun p => msBasePart h (layoutInfo m h) p.1.1 p.2) ++
    ((h.record r).fields.zip run.fields).map fun (f, p) => msFieldPart m h (layoutInfo m h) f p.offset

theorem MsRun.serial_row (complete : h.Complete m r) (abi : m.abi.isItanium = false) (orderly : Orderly m h r) :
    Serial run.row run.info.size := by
  have bases := run.serial_bases (orderly.roomless abi) fun d e => ((complete.part (.inl e)).at).complete
  exact (run.serial_fields (bases.mono (msHead_le r run.afterBases).1)).mono run.cur_le_size

theorem MsRun.row_length : (((baseOrder h r).zip run.baseOffs).map fun p =>
    msBasePart h (layoutInfo m h) p.1.1 p.2).length = (h.record r).bases.length := by
  rw [List.length_map, List.length_zip, run.baseOffs_length, Nat.min_self, (baseOrder_perm r).length_eq, List.length_zipIdx]

theorem MsRun.field_at (abi : m.abi.isItanium = false) (j : Nat) : (fieldPartAt m h r run.info j).len = 0 ∨
    run.row[(h.record r).bases.length + j]? = some (fieldPartAt m h r run.info j) := by
  rcases fieldPartAt_cases (m := m) run.info j with none | ⟨f, here⟩
  · exact .inl none
  obtain ⟨lt, eq⟩ := List.getElem?_eq_some_iff.1 here
  have lt' : j < run.fields.length := by rw [thread_length run.members]; exact lt
  right
  rw [fieldPartAt_eq here, run.fieldOffsets_getD, MsRun.row, List.getElem?_append_right (by rw [run.row_length]; omega),
    run.row_length, Nat.add_sub_cancel_left]
  have zip : ((h.record r).fields.zip run.fields)[j]? = some (f, run.fields[j]) :=
    List.getElem?_zip_eq_some.2 ⟨here, List.getElem?_eq_getElem lt'⟩
  simp [zip, msFieldPart, fieldRoom, abi, MsRun.placedAt, lt']

theorem MsRun.base_at (abi : m.abi.isItanium = false) (i : Nat) : (basePartAt m h r run.info i).len = 0 ∨
    ∃ k : Nat, k < (h.record r).bases.length ∧ run.row[k]? = some (basePartAt m h r run.info i) ∧
      ∃ b, (baseOrder h r)[k]? = some (b, i) := by
  rcases basePartAt_cases (m := m) run.info i with none | ⟨b, c, here, plain⟩
  · exact .inl none
  right
  obtain ⟨nonVirtual, -⟩ := BaseSpec.plain_eq_some.1 plain
  obtain ⟨k, at_⟩ := run.baseOffsets_at here nonVirtual
  have lt := (List.getElem?_eq_some_iff.1 at_).1
  rw [List.length_zip, run.baseOffs_length, Nat.min_self, (baseOrder_perm r).length_eq, List.length_zipIdx] at lt
  refine ⟨k, lt, ?_, b, (List.getElem?_zip_eq_some.1 at_).1⟩
  rw [basePartAt_eq here plain, MsRun.row, List.getElem?_append_left (by rw [run.row_length]; exact lt), List.getElem?_map, at_]
  simp [msBasePart, plain, baseRoom, abi]

theorem placeMsBase_roomless {L : Layouts} {b : BaseSpec × Nat} {s s' : MsBases} {off : Nat}
    (complete : ∀ c, b.1.cls = some c → (h.record c).complete = true)
    (run : placeMsBase h L (hasVPtr h r) b s = some (off, s')) :
    s'.emptySoFar = s.emptySoFar + (if b.1.plain.any (msRoomless h r) then 1 else 0) ∧
      ((1 < s.emptySoFar → 0 < s.cur) → 1 < s'.emptySoFar → 0 < s'.cur) := by
  unfold placeMsBase at run
  split at run
  · rename_i passed
    cases run
    have none : b.1.plain = none := by
      cases plain : b.1.plain with
      | none => rfl
      | some c =>
        have cls := (BaseSpec.plain_eq_some.1 plain).2
        simp [cls, Option.filter, complete c cls] at passed
    simp [none]
  · rename_i c placed
    have cls := (Option.filter_eq_some_iff.1 placed).1
    split at run
    · cases run
    · rename_i bi known
      simp only at run
      split at run
      · rename_i virtual
        cases run
        simp [BaseSpec.plain, virtual]
      · rename_i plain
        have plain : b.1.plain = some c := BaseSpec.plain_eq_some.2 ⟨by simpa using plain, cls⟩
        split at run
        · rename_i roomless
          have roomless' : msRoomless h r c = true := roomless
          simp only [Option.some.injEq] at run
          unfold placeMsEmptyBase at run
          split at run
          · cases run
            simp [plain, roomless']
          · cases run
            rename_i first
            simp only at first
            simp only [plain, Option.any_some, roomless', if_true]
            exact ⟨trivial, fun _ two => absurd two (by omega)⟩
        · rename_i room
          cases run
          have room' : msRoomless h r c = false := by simpa [msRoomless] using room
          have := le_roundUp s.cur (layoutNonVirtual bi).2
          simp only [plain, Option.any_some, room', Bool.false_eq_true, if_false, Nat.add_zero, true_and]
          intro old two
          have := old two
          omega

theorem MsRun.bases_pos_of_data (complete : h.Complete m r) {b : BaseSpec} (hb : b ∈ (h.record r).bases) {c : Nat}
    {bi : RecordInfo} (plain : b.plain = some c) (known : layoutInfo m h c = some bi) (room : msRoomless h r c = false)
    (pos : 0 < (layoutNonVirtual bi).1) : 0 < run.afterBases.cur := by
  obtain ⟨i, here⟩ := List.getElem?_of_mem hb
  obtain ⟨nonVirtual, cls⟩ := BaseSpec.plain_eq_some.1 plain
  have history := thread_history (P := fun done s => (∃ p ∈ done, p.1.1 = b) → 0 < s.cur) run.bases [] (by simp) (by
    rintro done ⟨b', i'⟩ hb' s off s' old step ⟨p, hp, eq⟩
    have placed := placeMsBase_some step
    have grown := placed.cur_le
    rcases List.mem_append.1 hp with hp | hp
    · have := old ⟨p, hp, eq⟩
      omega
    · obtain rfl := List.mem_singleton.1 hp
      simp only at eq
      subst eq
      have done := ((complete.part (.inl ⟨b', hb, cls⟩)).at).complete
      rcases placed with ⟨incomplete, -, -⟩ | ⟨c', bi', -, -, virtual, -⟩ | ⟨c', bi', plain', -, roomless, -⟩ |
        ⟨c', bi', plain', known', -, -, cur, -⟩
      · rw [incomplete c cls] at done
        cases done
      · rw [nonVirtual] at virtual
        cases virtual
      · rw [plain, Option.some.injEq] at plain'
        subst plain'
        rw [room] at roomless
        cases roomless
      · rw [plain, Option.some.injEq] at plain'
        subst plain'
        rw [known, Option.some.injEq] at known'
        subst known'
        omega)
  apply history
  obtain ⟨k, at_⟩ := run.baseOffsets_at here nonVirtual
  exact ⟨_, by simpa using List.mem_of_getElem? at_, rfl⟩

/-- So do two without. -/
theorem MsRun.bases_pos_of_roomless (complete : h.Complete m r)
    (two : 1 < ((h.record r).bases.filter fun b => b.plain.any (msRoomless h r)).length) : 0 < run.afterBases.cur := by
  have start : (msStart m h r).emptySoFar = 0 := by
    unfold msStart
    split <;> rfl
  have history := thread_history
    (P := fun done s => s.emptySoFar = (done.filter fun p => p.1.1.plain.any (msRoomless h r)).length ∧
      (1 < s.emptySoFar → 0 < s.cur)) run.bases [] ⟨by simpa using start, by omega⟩ (by
      rintro done ⟨b', i'⟩ hb' s off s' ⟨count, room⟩ step
      have whole : ∀ c, b'.cls = some c → (h.record c).complete = true := fun c hc =>
        ((complete.part (.inl ⟨b', List.mem_of_getElem? (mem_baseOrder.1 hb'), hc⟩)).at).complete
      obtain ⟨more, keep⟩ := placeMsBase_roomless whole step
      refine ⟨?_, keep room⟩
      rw [more, count, List.filter_append, List.length_append]
      simp only [List.filter_singleton]
      cases b'.plain.any (msRoomless h r) <;> rfl)
  apply history.2
  rw [history.1, List.nil_append, ← List.countP_eq_length_filter]
  rw [← List.countP_eq_length_filter] at two
  calc 1 < (h.record r).bases.countP fun b => b.plain.any (msRoomless h r) := two
    _ = ((h.record r).bases.zipIdx.map Prod.fst).countP fun b => b.plain.any (msRoomless h r) := by
        rw [List.zipIdx_map_fst]
    _ = (h.record r).bases.zipIdx.countP fun p => p.1.plain.any (msRoomless h r) := List.countP_map
    _ = (baseOrder h r).countP fun p => p.1.plain.any (msRoomless h r) := ((baseOrder_perm r).countP_eq _).symm
    _ = (((baseOrder h r).zip run.baseOffs).map Prod.fst).countP fun p => p.1.plain.any (msRoomless h r) := by
        rw [List.map_fst_zip (by rw [run.baseOffs_length])]
    _ = ((baseOrder h r).zip run.baseOffs).countP fun p => p.1.1.plain.any (msRoomless h r) := List.countP_map

variable (sizes : m.Sizes) (abi : m.abi.isItanium = false)
include sizes abi

/-- A class with storage ends behind its start. -/
theorem MsRun.cur_pos (complete : h.Complete m r) (stored : HasStorage m h r) : 0 < run.afterFields.close.cur := by
  have ms : m.msBitfields = true := sizes.ms (by simpa [CXXABI.isItanium] using abi)
  have ptr := sizes.ptr_pos
  have started := (msBases_le run.bases).1
  have headed := (msHead_le (m := m) (h := h) r run.afterBases).1
  have ended := run.fields_le.1
  rcases stored with ⟨f, hf, occupies⟩ | ⟨-, stored⟩
  · obtain ⟨i, here⟩ := List.getElem?_of_mem hf
    have inside : MsFieldIn m h (layoutInfo m h) (h.record r) f (run.placedAt i) run.afterFields :=
      run.fieldIn _ (run.placedAt_mem here)
    rcases inside with ⟨fs, ta, size, -, bit, -, unit, -, fits, -⟩ | ⟨fs, ta, size, -, kind, -, -⟩
    · have integral := h.bitField_integral r f hf bit
      have align : alignof m h (layoutInfo m h) f.type = some fs := by rw [alignof_of_isIntegral integral, size]
      have pos : 0 < fs := alignof_pos sizes (by simp [Ty.recordElem_of_isIntegral integral]) align
      rw [unit ms] at fits
      omega
    · rcases kind with ⟨bit, none, -⟩ | ⟨plain, fits⟩
      · rw [Occupies, if_pos bit] at occupies
        omega
      · rw [Occupies, if_neg (by simp [plain])] at occupies
        obtain ⟨fs', size', pos⟩ := occupies
        rw [size, Option.some.injEq] at size'
        omega
  · rw [if_neg (by simp [abi])] at stored
    rcases stored with vptr | vbptr | ⟨b, hb, c, bi, plain, known, room, pos⟩ | two
    · have : (msStart m h r).cur = m.sizePtr := by rw [msStart, if_pos vptr]
      omega
    · have : (msHead m h r run.afterBases).1 = roundUp run.afterBases.cur m.sizePtr + m.sizePtr := by
        rw [msHead, if_pos vbptr]
      omega
    · have := run.bases_pos_of_data complete hb plain known room pos
      omega
    · have := run.bases_pos_of_roomless complete two
      omega

omit sizes in
/-- A class without storage whose parts ask for no alignment has none. -/
theorem MsRun.align_one (struct : (h.record r).tag ≠ .union) (empty : ¬ HasStorage m h r) (flat : Unaligned m h r) :
    run.info.align = 1 := by
  have bare : hasVPtr h r = false ∧ hasOwnVBPtr h r = false := by
    simp only [HasStorage, abi, Bool.false_eq_true, if_false, not_or, not_and] at empty
    have := empty.2 struct
    exact ⟨by simpa using this.1, by simpa using this.2.1⟩
  have low : ∀ c bi, h.Base r c → layoutInfo m h c = some bi → (layoutNonVirtual bi).2 ≤ 1 := by
    intro c bi step known
    have := flat.bases c (.single step) (Nat.ne_of_lt step.lt) bi known
    unfold layoutNonVirtual
    split <;> exact this
  have bases : run.afterBases.align = 1 := by
    refine thread_invariant (P := fun s : MsBases => s.align = 1) run.bases ?_ ?_
    · rw [msStart, if_neg (by simp [bare.1])]
    · rintro ⟨b, i⟩ hb s off s' one step
      have mem := List.mem_of_getElem? (mem_baseOrder.1 hb)
      rcases placeMsBase_some step with ⟨-, rfl, -⟩ | ⟨c, bi, cls, known, -, -, align, -⟩ |
        ⟨c, bi, plain, known, -, -, -, align⟩ | ⟨c, bi, plain, known, -, -, -, align⟩
      · exact one
      · have := low c bi ⟨b, mem, cls⟩ known
        omega
      · have := low c bi ⟨b, mem, (BaseSpec.plain_eq_some.1 plain).2⟩ known
        omega
      · have := low c bi ⟨b, mem, (BaseSpec.plain_eq_some.1 plain).2⟩ known
        omega
  have fields : run.afterFields.align = 1 := by
    refine thread_invariant (P := fun s : MsFields => s.align = 1) run.members ?_ ?_
    · rw [msHead, if_neg (by simp [bare.2])]
      exact bases
    · intro f hf s p s' one step
      obtain ⟨fs, ta, size, align⟩ := placeMsField_sized step
      have low := fun named => flat.fields f hf named ta align
      have unnamed : ∀ a, (a = if f.name = "" then s.align else max s.align (fieldAlign (h.record r) f ta)) → a = 1 := by
        rintro a rfl
        split
        · exact one
        · rename_i named
          have := low (.inr named)
          omega
      rcases placeMsField_some size align step with ⟨-, -, u, -, -, -, -, -, high⟩ | ⟨-, -, -, -, high⟩ |
        ⟨fs', kind, -, -, -, high⟩
      · exact unnamed _ high
      · exact unnamed _ high
      · rcases kind with ⟨bit, -⟩ | ⟨plain, -⟩
        · exact unnamed _ (by simpa [bit] using high)
        · have := low (.inl plain)
          rw [high, if_neg (by simp [plain])]
          omega
  have headed : raiseTo run.afterFields.close.align (h.record r).align = 1 := by
    have := flat.head
    rw [raiseTo_eq, MsFields.close_align, fields]
    omega
  show (msVBasesEnd h (layoutInfo m h) r run.afterFields.close.cur
    (raiseTo run.afterFields.close.align (h.record r).align)).align = 1
  rw [headed, msVBasesEnd]
  split
  · rfl
  · refine List.foldlRecOn (motive := fun s : MsVBases => s.align = 1) (virtualBases h r) (placeMsVBase h (layoutInfo m h)) rfl ?_
    intro s one v hv
    unfold placeMsVBase
    split
    · exact one
    · rename_i bi known
      have vbase := mem_virtualBases.1 hv
      have := flat.bases v vbase.derives (Nat.ne_of_lt vbase.lt) bi known
      have low : (layoutNonVirtual bi).2 ≤ 1 := by
        unfold layoutNonVirtual
        split <;> exact this
      simp only [raiseTo_eq]
      omega

/-- The open unit of the layout and the one the bit-fields before decide. -/
def SameUnit : Option MsUnit → Option OpenUnit → Prop :=
  Option.Rel fun u o => u.size = o.size ∧ u.used = o.used ∧ o.align ∣ u.offset

omit sizes abi in
theorem SameUnit.some_left {u : MsUnit} {o : Option OpenUnit} (same : SameUnit (some u) o) :
    ∃ o', o = some o' ∧ u.size = o'.size ∧ u.used = o'.used ∧ o'.align ∣ u.offset := by
  cases same with
  | some rel => exact ⟨_, rfl, rel⟩

omit abi in
/-- The unit open in the layout is the one the bit-fields decide, at a multiple of its alignment. -/
theorem msOpenUnit {fs : List Field} {start s : MsFields} {ps : List MsPlaced}
    (fields : ∀ f ∈ fs, f ∈ (h.record r).fields)
    (run : thread (placeMsField m h (layoutInfo m h) (h.record r)) fs start = some (ps, s)) (closed : start.unit = none) :
    SameUnit s.unit (openUnit m h (h.record r) fs) := by
  have history := thread_history (P := fun done s => SameUnit s.unit (openUnit m h (h.record r) (done.map Prod.fst)))
    run [] (by rw [closed]; exact .none) (by
    rintro done f hf s p s' old step
    obtain ⟨size, ta, fieldSize, align⟩ := placeMsField_sized step
    rw [List.map_append, openUnit, List.foldl_append, ← openUnit]
    simp only [List.map_cons, List.map_nil, List.foldl_cons, List.foldl_nil, noteUnit, fieldSize, align, Option.bind_some,
      Option.map_some]
    rcases placeMsField_some fieldSize align step with ⟨bit, wide, u, unit, room, same, -, next, -⟩ |
      ⟨bit, wide, -, next, -, full⟩ | ⟨fs', kind, -, -, unit, -⟩
    · -- it goes in the open unit
      rw [unit] at old
      obtain ⟨o, open_, sizes', used, multiple⟩ := old.some_left
      have takes : o.takes m f.width size = true := by
        simp only [OpenUnit.takes, Bool.and_eq_true, decide_eq_true_eq, Bool.or_eq_true, Bool.not_eq_true', beq_iff_eq]
        refine ⟨by omega, ?_⟩
        cases on : m.msBitfields with
        | false => exact .inl rfl
        | true => exact .inr (by rw [← sizes', same on])
      rw [next, if_pos (by simp [bit]; omega), open_]
      simp only [Option.filter_some, takes, if_true, Option.map_some, Option.getD_some]
      exact .some ⟨sizes', by simp only; omega, multiple⟩
    · -- it opens one
      have none : (openUnit m h (h.record r) (done.map Prod.fst)).filter (fun u => u.takes m f.width size) = Option.none := by
        rw [Option.filter_eq_none_iff]
        intro o open_ takes
        rw [open_] at old
        cases unit : s.unit with
        | none => rw [unit] at old; cases old
        | some u =>
          rw [unit] at old
          cases old with
          | some rel =>
            simp only [OpenUnit.takes, Bool.and_eq_true, decide_eq_true_eq, Bool.or_eq_true, Bool.not_eq_true',
              beq_iff_eq] at takes
            obtain ⟨on, other⟩ := full u unit (by omega)
            rcases takes.2 with off | same
            · rw [on] at off
              cases off
            · omega
      have integral := h.bitField_integral r f (fields f hf) bit
      have pos : 0 < ta := alignof_pos sizes (by simp [Ty.recordElem_of_isIntegral integral]) align
      rw [next, if_pos (by simp [bit]; omega), none]
      exact .some ⟨rfl, rfl, dvd_roundUp (fieldAlign_pos _ _ pos)⟩
    · rw [unit, if_neg]
      · exact .none
      · rcases kind with ⟨-, zero, -⟩ | ⟨plain, -⟩
        · simp [zero]
        · simp [plain])
  simpa [List.map_fst_zip, thread_length run] using history

/-- A bit-field is aligned in the unit it opens, and in one that is aligned enough for it. -/
theorem MsRun.bitField_aligned (units : UnitsAligned m h (h.record r)) {i : Nat} {f : Field}
    (here : (h.record r).fields[i]? = some f) (bit : f.bitField = true) {ta : Nat}
    (align : alignof m h (layoutInfo m h) f.type = some ta) : fieldAlign (h.record r) f ta ∣ (run.placedAt i).offset := by
  have ms : m.msBitfields = true := sizes.ms (by simpa [CXXABI.isItanium] using abi)
  obtain ⟨lt, eq⟩ := List.getElem?_eq_some_iff.1 here
  have split : (h.record r).fields = (h.record r).fields.take i ++ f :: (h.record r).fields.drop (i + 1) := by
    rw [← eq, List.cons_getElem_drop_succ, List.take_append_drop]
  have members := run.members
  rw [split] at members
  obtain ⟨before, after, s, first, rest, all⟩ := thread_append_eq_some members
  obtain ⟨p, s', after', step, -, rfl⟩ := thread_cons_eq_some rest
  have length : before.length = i := by
    rw [thread_length first, List.length_take]
    omega
  have placed : run.placedAt i = p := by
    rw [MsRun.placedAt, all, List.getD_eq_getElem?_getD, List.getElem?_append_right (by omega), length]
    simp
  have same := msOpenUnit sizes (fun f hf => List.mem_of_mem_take hf) first rfl
  obtain ⟨size, ta', fieldSize, align'⟩ := placeMsField_sized step
  have integral := h.bitField_integral r f (List.mem_of_getElem? here) bit
  have pos : 0 < ta := alignof_pos sizes (by simp [Ty.recordElem_of_isIntegral integral]) align
  rw [placed]
  rcases placeMsField_some fieldSize align step with ⟨-, wide, u, unit, room, fits, rfl, -, -⟩ |
    ⟨-, -, rfl, -, -, -⟩ | ⟨-, -, rfl, -, -, -⟩
  · rw [unit] at same
    obtain ⟨o, open_, sizes', used, multiple⟩ := same.some_left
    refine Nat.dvd_trans (units i f here bit (by omega) size ta fieldSize align o open_ ?_) multiple
    simp only [OpenUnit.takes, Bool.and_eq_true, decide_eq_true_eq, Bool.or_eq_true, Bool.not_eq_true', beq_iff_eq]
    exact ⟨by omega, .inr (by rw [← sizes', fits ms])⟩
  · exact dvd_roundUp (fieldAlign_pos _ _ pos)
  · exact dvd_roundUp (fieldAlign_pos _ _ pos)

/-! ### Aligned bases -/

omit sizes abi in
/-- The entries of virtual bases are at multiples of their alignment, and those laid out have one. -/
theorem msVBases_aligned (positive : ∀ c bi, layoutInfo m h c = some bi → 0 < bi.align) (vs : List Nat) (s : MsVBases) {v : Nat}
    {vi : RecordInfo} (known : layoutInfo m h v = some vi)
    (start : ∀ off, s.offs.lookup v = some off → vi.align ∣ off) :
    (∀ off, (vs.foldl (placeMsVBase h (layoutInfo m h)) s).offs.lookup v = some off → vi.align ∣ off) ∧
      (v ∈ vs ∨ (s.offs.lookup v).isSome → ((vs.foldl (placeMsVBase h (layoutInfo m h)) s).offs.lookup v).isSome) := by
  induction vs generalizing s with
  | nil => exact ⟨start, by simp⟩
  | cons w vs ih =>
    have step : (∀ off, (placeMsVBase h (layoutInfo m h) s w).offs.lookup v = some off → vi.align ∣ off) ∧
        (v = w ∨ (s.offs.lookup v).isSome → ((placeMsVBase h (layoutInfo m h) s w).offs.lookup v).isSome) := by
      unfold placeMsVBase
      by_cases same : v = w
      · subst same
        simp only [known, AList.lookup_insert, Option.some.injEq, Option.isSome_some, implies_true, and_true]
        rintro off rfl
        rw [layoutNonVirtual_align]
        exact dvd_roundUp (positive v vi known)
      · split
        · exact ⟨start, fun e => e.resolve_left same⟩
        · simp only [AList.lookup_insert_ne same]
          exact ⟨start, fun e => e.resolve_left same⟩
    obtain ⟨dvd, entered⟩ := ih (placeMsVBase h (layoutInfo m h) s w) step.1
    refine ⟨dvd, fun e => entered ?_⟩
    rcases e with mem | old
    · rcases List.mem_cons.1 mem with rfl | mem
      · exact .inr (step.2 (.inl rfl))
      · exact .inl mem
    · exact .inr (step.2 (.inr old))

omit sizes abi in
theorem MsRun.vbaseAligned (positive : ∀ c bi, layoutInfo m h c = some bi → 0 < bi.align) {v : Nat} {vi : RecordInfo}
    (known : layoutInfo m h v = some vi) : (∀ off, run.info.vbaseOffsets.lookup v = some off → vi.align ∣ off) ∧
      (v ∈ virtualBases h r → (run.info.vbaseOffsets.lookup v).isSome) := by
  simp only [MsRun.info, finishMs, msVBasesEnd]
  split
  · rename_i none
    rw [List.isEmpty_iff.1 none]
    refine ⟨fun off entry => ?_, fun mem => ?_⟩
    · cases entry
    · cases mem
  · have folded := msVBases_aligned positive (virtualBases h r)
      { cur := roundUp run.afterFields.close.cur (raiseTo run.afterFields.close.align (h.record r).align),
        align := raiseTo run.afterFields.close.align (h.record r).align } known (fun off entry => by cases entry)
    exact ⟨folded.1, fun mem => folded.2 (.inl mem)⟩

omit sizes abi in
/-- A direct base with data is at a multiple of its alignment. -/
theorem MsRun.baseAligned (empty : ∀ b ∈ (h.record r).bases, ∀ c, b.plain = some c → msRoomless h r c = true → itaniumEmpty h c = true)
    {i : Nat} {b : BaseSpec} {c : Nat} {bi : RecordInfo} (here : (h.record r).bases[i]? = some b) (cls : b.cls = some c)
    (data : itaniumEmpty h c = false) (known : layoutInfo m h c = some bi) (complete : (h.record c).complete = true)
    (positive : ∀ c bi, layoutInfo m h c = some bi → 0 < bi.align) : bi.align ∣ run.info.baseOffsets.getD i 0 := by
  cases virtual : b.virtual with
  | true =>
    obtain ⟨dvd, entered⟩ := run.vbaseAligned positive known
    have vbase : h.VBase r c := vbase_iff_bases.2 ⟨b, List.mem_of_getElem? here, c, cls, .inl ⟨virtual, rfl⟩⟩
    obtain ⟨off, entry⟩ := Option.isSome_iff_exists.1 (entered (mem_virtualBases.2 vbase))
    rw [run.baseOffsets_virtual here virtual cls entry]
    exact dvd off entry
  | false =>
    have plain : b.plain = some c := BaseSpec.plain_eq_some.2 ⟨virtual, cls⟩
    have answers := thread_answers (P := fun _ : MsBases => True)
      (Q := fun p off => p.1.plain = some c → bi.align ∣ off) run.bases trivial (by
        rintro ⟨b, i⟩ hb s off s' _ step
        refine ⟨?_, trivial⟩
        intro plain
        have mem := List.mem_of_getElem? (mem_baseOrder.1 hb)
        rcases placeMsBase_some step with ⟨incomplete, -, -⟩ | ⟨c', bi', -, -, virtual, -⟩ |
          ⟨c', bi', plain', -, roomless, -⟩ | ⟨c', bi', plain', known', -, place, -⟩
        · rw [incomplete c (BaseSpec.plain_eq_some.1 plain).2] at complete
          cases complete
        · rw [(BaseSpec.plain_eq_some.1 plain).1] at virtual
          cases virtual
        · simp only at plain plain'
          rw [plain, Option.some.injEq] at plain'
          subst plain'
          rw [empty b mem c plain roomless] at data
          cases data
        · simp only at plain plain'
          rw [plain, Option.some.injEq] at plain'
          subst plain'
          rw [known, Option.some.injEq] at known'
          subst known'
          rw [place, layoutNonVirtual_align]
          exact dvd_roundUp (positive c bi known))
    obtain ⟨k, at_⟩ := run.baseOffsets_at here virtual
    exact answers _ (List.mem_of_getElem? at_) plain

/-- **A class laid out by Microsoft's rules.** -/
theorem MsRun.wellLaid (complete : h.Complete m r) (struct : (h.record r).tag ≠ .union)
    (positive : ∀ c bi, layoutInfo m h c = some bi → 0 < bi.align) (orderly : Orderly m h r) :
    WellLaid m h r run.info := by
  have serial := run.serial_row complete abi orderly
  have within : ∀ {p : Range} {k : Nat}, run.row[k]? = some p → p.Within run.info.size :=
    fun at_ => serial.within _ (List.mem_of_getElem? at_)
  refine ⟨?_, ?_, ?_, ?_, ?_, ?_, ?_, ?_, atLeastOne_pos _, ?_, ?_, ?_⟩
  · intro _ i j ne
    rcases run.base_at abi i with none | ⟨k, -, at_, b, order⟩
    · exact .inl none
    rcases run.base_at abi j with none | ⟨k', -, at', b', order'⟩
    · exact .inr (.inl none)
    refine apart_of_ne serial.apart ?_ at_ at'
    rintro rfl
    rw [order, Option.some.injEq, Prod.mk.injEq] at order'
    exact ne order'.2
  · intro _ i j ne
    rcases run.field_at abi i with none | at_
    · exact .inl none
    rcases run.field_at abi j with none | at'
    · exact .inr (.inl none)
    exact apart_of_ne serial.apart (by omega) at_ at'
  · intro _ i j
    rcases run.base_at abi i with none | ⟨k, lt, at_, -⟩
    · exact .inl none
    rcases run.field_at abi j with none | at'
    · exact .inr (.inl none)
    exact apart_of_ne serial.apart (by omega) at_ at'
  · intro _ i
    rcases run.base_at abi i with none | ⟨k, -, at_, -⟩
    · exact .inl none
    · exact within at_
  · intro _ i
    rcases run.field_at abi i with none | at_
    · exact .inl none
    · exact within at_
  · intro i f ta here align
    rw [run.fieldOffsets_getD]
    have mem := List.mem_of_getElem? here
    cases bit : f.bitField with
    | true => exact run.bitField_aligned sizes abi (orderly.units abi struct) here bit align
    | false =>
      have inside : MsFieldIn m h (layoutInfo m h) (h.record r) f (run.placedAt i) run.afterFields :=
        run.fieldIn _ (run.placedAt_mem here)
      rcases inside with ⟨fs, ta', -, -, bit', -⟩ | ⟨fs, ta', -, align', -, aligned, -⟩
      · rw [bit] at bit'
        cases bit'
      · rw [align, Option.some.injEq] at align'
        subst align'
        exact aligned (fieldAlign_pos _ _ (alignof_pos sizes (fun c info _ => positive c info) align))
  · intro i b c bi here cls data known
    rw [RecordInfo.baseAlign, if_neg (by simp [abi])]
    exact run.baseAligned (orderly.roomless abi) here cls data known
      ((complete.part (.inl ⟨b, List.mem_of_getElem? here, cls⟩)).at).complete positive
  · intro v off vi entry _ known
    rw [RecordInfo.baseAlign, if_neg (by simp [abi])]
    exact (run.vbaseAligned positive known).1 off entry
  · by_cases stored : HasStorage m h r
    · have pos := run.cur_pos sizes abi complete stored
      have grown := (msVBasesEnd_le (h := h) (L := layoutInfo m h) r run.afterFields.close.cur
        (raiseTo run.afterFields.close.align (h.record r).align)).1
      exact dvd_size run.align_pos (by omega)
    · rcases orderly.stored with stored' | flat
      · exact absurd stored' stored
      · rw [run.align_one abi struct stored flat]
        exact Nat.one_dvd _
  · intro f hf named ta align
    obtain ⟨i, here⟩ := List.getElem?_of_mem hf
    have inside : MsFieldIn m h (layoutInfo m h) (h.record r) f (run.placedAt i) run.afterFields :=
      run.fieldIn _ (run.placedAt_mem here)
    refine Nat.le_trans ?_ run.align_le
    rcases inside with ⟨fs, ta', -, align', bit, -, -, -, -, raised⟩ | ⟨fs, ta', -, align', -, -, raised⟩
    · rw [align, Option.some.injEq] at align'
      subst align'
      apply raised
      simpa [bit] using named
    · rw [align, Option.some.injEq] at align'
      subst align'
      exact raised named
  · intro itanium
    rw [abi] at itanium
    cases itanium

end

/-- What placing the members of a union does. -/
theorem msUnionFieldIn {us : List Unit} {start t : Nat × Nat}
    (run : thread (msUnionField m h (layoutInfo m h) (h.record r)) (h.record r).fields start = some (us, t)) :
    start.2 ≤ t.2 ∧ ∀ f ∈ (h.record r).fields, ∃ fs ta, sizeof m h (layoutInfo m h) f.type = some fs ∧
      alignof m h (layoutInfo m h) f.type = some ta ∧ fs ≤ t.1 ∧ fieldAlign (h.record r) f ta ≤ t.2 := by
  have history := thread_history
    (P := fun done s => start.2 ≤ s.2 ∧ ∀ q ∈ done, ∃ fs ta, sizeof m h (layoutInfo m h) q.1.type = some fs ∧
      alignof m h (layoutInfo m h) q.1.type = some ta ∧ fs ≤ s.1 ∧ fieldAlign (h.record r) q.1 ta ≤ s.2)
    run [] ⟨Nat.le_refl _, by simp⟩ (by
      rintro done f hf s u s' ⟨grown, old⟩ step
      unfold msUnionField at step
      split at step
      · rename_i fs ta size align
        cases step
        simp only [raiseTo_eq]
        refine ⟨by omega, ?_⟩
        intro q hq
        rcases List.mem_append.1 hq with hq | hq
        · obtain ⟨fs', ta', size', align', room, raised⟩ := old q hq
          exact ⟨fs', ta', size', align', by omega, by omega⟩
        · obtain rfl := List.mem_singleton.1 hq
          exact ⟨fs, ta, size, align, Nat.le_max_right _ _, Nat.le_max_right _ _⟩
      · cases step)
  refine ⟨history.1, ?_⟩
  intro f hf
  obtain ⟨i, here⟩ := List.getElem?_of_mem hf
  exact history.2 _ (by simpa using mem_zip_of_getElem? () here (thread_length run))

/-- Every alignment is positive. -/
theorem msAlign_pos (abi : m.abi.isItanium = false) {c : Nat} {bi : RecordInfo} (known : layoutInfo m h c = some bi) :
    0 < bi.align := by
  rw [layoutInfo_microsoft abi] at known
  by_cases union : (h.record c).tag = .union
  · obtain ⟨offs, s, us, t, bases, members, rfl⟩ := layoutMicrosoft_union union known
    have := msStart_align (m := m) (h := h) c
    have := (msBases_le bases).2
    have := (msHead_le (m := m) (h := h) c s).2
    have := (msUnionFieldIn members).1
    simp only [finishMsUnion, raiseTo_eq]
    omega
  · obtain ⟨run, rfl⟩ := layoutMicrosoft_struct union known
    exact run.align_pos

/-- **A union laid out by Microsoft's rules.** -/
theorem msUnion_wellLaid (sizes : m.Sizes) (abi : m.abi.isItanium = false) (union : (h.record r).tag = .union)
    (known : layoutInfo m h r = some info) (orderly : Orderly m h r) : WellLaid m h r info := by
  have positive := msAlign_pos abi known
  rw [layoutInfo_microsoft abi] at known
  obtain ⟨offs, s, us, t, bases, members, rfl⟩ := layoutMicrosoft_union union known
  obtain ⟨grown, inside⟩ := msUnionFieldIn members
  refine ⟨fun e => (e union).elim, fun e => (e union).elim, fun e => (e union).elim, fun e => (e union).elim,
    fun e => (e union).elim, ?_, ?_, ?_, atLeastOne_pos _, ?_, ?_, ?_⟩
  · intro i f ta _ _
    have offset : ((h.record r).fields.map fun _ => 0).getD i 0 = 0 := by
      rw [List.getD_eq_getElem?_getD, List.getElem?_map]
      cases (h.record r).fields[i]? <;> rfl
    simp only [finishMsUnion, offset]
    exact Nat.dvd_zero _
  · intro i b c bi here
    rw [h.union_bases r union] at here
    cases here
  · intro v off vi entry
    cases entry
  · by_cases some : 0 < t.1
    · exact dvd_size positive some
    · have one : raiseTo t.2 (h.record r).align = 1 := by
        rcases orderly.stored with (⟨f, hf, occupies⟩ | ⟨struct, -⟩) | flat
        · obtain ⟨fs, ta, size, align, room, -⟩ := inside f hf
          have pos : 0 < fs := by
            unfold Occupies at occupies
            split at occupies
            · rename_i bit
              have integral := h.bitField_integral r f hf bit
              have align : alignof m h (layoutInfo m h) f.type = Option.some fs := by
                rw [alignof_of_isIntegral integral, size]
              exact alignof_pos sizes (by simp [Ty.recordElem_of_isIntegral integral]) align
            · obtain ⟨fs', size', pos⟩ := occupies
              rw [size, Option.some.injEq] at size'
              omega
          omega
        · exact absurd union struct
        · have noBases := h.union_bases r union
          have noVBPtr : hasOwnVBPtr h r = false := by
            have : virtualBases h r = [] := by
              apply List.eq_nil_iff_forall_not_mem.2
              intro v hv
              obtain ⟨b, hb, -⟩ := vbase_iff_bases.1 (mem_virtualBases.1 hv)
              rw [noBases] at hb
              cases hb
            simp [hasOwnVBPtr, this]
          have order : baseOrder h r = [] := by simp [baseOrder, noBases]
          have first : (msHead m h r s).2 = 1 := by
            simp only [order, thread, Option.some.injEq, Prod.mk.injEq] at bases
            rw [msHead, if_neg (by simp [noVBPtr]), ← bases.2, msStart, if_neg (by simp [flat.vptr union])]
          have fields : t.2 = 1 := by
            refine thread_invariant (P := fun s : Nat × Nat => s.2 = 1) members first ?_
            intro f hf s u s' one step
            unfold msUnionField at step
            split at step
            · rename_i fs ta size align
              cases step
              have plain : f.bitField = false := by
                -- a bit-field would have given the union a size
                by_contra bit
                have integral := h.bitField_integral r f hf (by simpa using bit)
                have pos : 0 < ta := alignof_pos sizes (by simp [Ty.recordElem_of_isIntegral integral]) align
                obtain ⟨fs', ta', size', -, room, -⟩ := inside f hf
                rw [alignof_of_isIntegral integral, size', Option.some.injEq] at align
                omega
              have := flat.fields f hf (.inl plain) ta align
              simp only [raiseTo_eq]
              omega
            · cases step
          have := flat.head
          rw [raiseTo_eq]
          omega
      simp only [finishMsUnion, one]
      exact Nat.one_dvd _
  · intro f hf _ ta align
    obtain ⟨fs, ta', -, align', -, raised⟩ := inside f hf
    rw [align, Option.some.injEq] at align'
    subst align'
    simp only [finishMsUnion, raiseTo_eq]
    omega
  · intro itanium
    rw [abi] at itanium
    cases itanium

end Vcx.Types
