import Vcx.Types.Itanium.Bounds
import Vcx.Types.Microsoft.Run

/-!
# Microsoft's layout within an `int64`

The same bound for the other layout. The `k`th empty base moves the cursor by `k`, so that
the bases together add the square of their number at most.
-/

namespace Vcx.Types
set_option autoImplicit false
open Vcx.Lib

variable {m : Model} {h : Hierarchy} {L : Layouts} {r : Nat}

/-- The metrics of a class are bounded by what it is made of. -/
structure RecordInfo.MsBounded (m : Model) (h : Hierarchy) (c : Nat) (info : RecordInfo) : Prop where
  size : info.size + alignBound h c ≤ wholeRoom h (room m h) c
  nonVirtual : (layoutNonVirtual info).1 ≤ room m h c
  align : info.align ≤ alignBound h c

theorem layoutNonVirtual_align (info : RecordInfo) : (layoutNonVirtual info).2 = info.align := by
  unfold layoutNonVirtual
  split <;> rfl

/-- A class with virtual bases ends, as a base, before the first of them. -/
theorem layoutNonVirtual_le (info : RecordInfo) {e : (_ : Nat) × Nat} (mem : e ∈ info.vbaseOffsets.entries) :
    (layoutNonVirtual info).1 ≤ e.2 := by
  have first : ∀ (es : List ((_ : Nat) × Nat)) (n : Nat),
      (es.foldl (fun first e => if e.2 < first then e.2 else first) n) ≤ n ∧
        ∀ e ∈ es, (es.foldl (fun first e => if e.2 < first then e.2 else first) n) ≤ e.2 := by
    intro es
    induction es with
    | nil => exact fun n => ⟨Nat.le_refl n, by simp⟩
    | cons e es ih =>
      intro n
      rw [List.foldl_cons]
      obtain ⟨low, all⟩ := ih (if e.2 < n then e.2 else n)
      have least : (if e.2 < n then e.2 else n) ≤ n ∧ (if e.2 < n then e.2 else n) ≤ e.2 := by
        split <;> omega
      refine ⟨Nat.le_trans low least.1, ?_⟩
      intro x hx
      rcases List.mem_cons.1 hx with rfl | hx
      · exact Nat.le_trans low least.2
      · exact all x hx
  unfold layoutNonVirtual
  rw [if_neg (by simpa using List.ne_nil_of_mem mem)]
  exact (first _ _).2 e mem

/-! ### Bases -/

/-- What a base adds, but for the empty ones before it. -/
def msPlacedRoom (m : Model) (h : Hierarchy) (r : Nat) (b : BaseSpec × Nat) : Nat :=
  (b.1.plain.map (room m h)).getD 0 + alignBound h r

theorem placeMsBase_le {vptr : Bool} {b : BaseSpec × Nat} {s s' : MsBases} {off : Nat} (hb : b.1 ∈ (h.record r).bases)
    (below : ∀ c, h.Contains r c → c ≠ r → ∀ ci, L c = some ci → ci.MsBounded m h c)
    (run : placeMsBase h L vptr b s = some (off, s')) :
    s'.emptySoFar ≤ s.emptySoFar + 1 ∧ s'.align ≤ max s.align (alignBound h r) ∧
      s'.cur ≤ s.cur + msPlacedRoom m h r b + s.emptySoFar + 1 := by
  unfold placeMsBase at run
  split at run
  · cases run
    omega
  · rename_i c placed
    have cls := (Option.filter_eq_some_iff.1 placed).1
    have base : h.Base r c := ⟨b.1, hb, cls⟩
    split at run
    · cases run
    · rename_i bi known
      have bound := below c (.single (.inl base)) base.lt.ne bi known
      have align := bound.align
      have lower := alignBound_part (.inl base)
      rw [← layoutNonVirtual_align] at align
      simp only at run
      split at run
      · cases run
        simp only [raiseTo_eq]
        omega
      · rename_i plain
        have plain : b.1.plain = some c := BaseSpec.plain_eq_some.2 ⟨by simpa using plain, cls⟩
        have size := bound.nonVirtual
        have rounded := roundUp_le s.cur (layoutNonVirtual bi).2
        split at run
        · simp only [Option.some.injEq] at run
          unfold placeMsEmptyBase at run
          split at run
          · cases run
            simp only [raiseTo_eq, msPlacedRoom]
            omega
          · cases run
            simp only [raiseTo_eq]
            omega
        · cases run
          simp only [raiseTo_eq, msPlacedRoom, plain, Option.map_some, Option.getD_some]
          omega

theorem sum_msRoom (r : Nat) : ((baseOrder h r).map (msPlacedRoom m h r)).sum +
    (h.record r).bases.length * (h.record r).bases.length ≤ ((h.record r).bases.map (baseRoomBound h (room m h) r)).sum := by
  have length : (h.record r).bases.length * (h.record r).bases.length =
      ((h.record r).bases.map fun _ => (h.record r).bases.length).sum := by simp
  rw [((baseOrder_perm r).map _).sum_eq, length]
  conv_lhs =>
    lhs
    rw [show msPlacedRoom m h r = (fun b : BaseSpec => (b.plain.map (room m h)).getD 0 + alignBound h r) ∘ Prod.fst from rfl,
      ← List.map_map, List.zipIdx_map_fst]
  rw [← List.sum_map_add]
  apply List.sum_le_sum
  intro b _
  simp only [baseRoomBound]
  omega

/-- The bases and the table pointers end within the room of the bases and three pointers. -/
theorem msBases_bound (sizes : m.Sizes) {offs : List Nat} {s : MsBases}
    (run : thread (placeMsBase h L (hasVPtr h r)) (baseOrder h r) (msStart m h r) = some (offs, s))
    (below : ∀ c, h.Contains r c → c ≠ r → ∀ ci, L c = some ci → ci.MsBounded m h c) :
    (msHead m h r s).2 ≤ alignBound h r ∧
      (msHead m h r s).1 ≤ 3 * m.sizePtr + ((h.record r).bases.map (baseRoomBound h (room m h) r)).sum := by
  have basic := sixteen_le_alignBound (h := h) r
  have ptr := sizes.ptr
  have start : (msStart m h r).cur ≤ m.sizePtr ∧ (msStart m h r).align ≤ alignBound h r ∧ (msStart m h r).emptySoFar = 0 := by
    unfold msStart
    split
    · exact ⟨Nat.le_refl _, by simp only [raiseTo_eq]; omega, rfl⟩
    · exact ⟨Nat.zero_le _, by simp only; omega, rfl⟩
  have history := thread_history
    (P := fun done s => s.emptySoFar ≤ done.length ∧ s.align ≤ alignBound h r ∧
      s.cur ≤ m.sizePtr + (done.map fun p => msPlacedRoom m h r p.1).sum + done.length * done.length) run []
    ⟨by omega, start.2.1, by simpa using start.1⟩ (by
      rintro done b hb s off s' ⟨count, align, cur⟩ step
      have mem : b.1 ∈ (h.record r).bases := List.mem_of_getElem? (mem_baseOrder.1 hb)
      obtain ⟨count', align', cur'⟩ := placeMsBase_le mem below step
      simp only [List.length_append, List.length_singleton, List.map_append, List.map_singleton, List.sum_append,
        List.sum_singleton, Nat.add_mul, Nat.mul_add]
      omega)
  obtain ⟨-, align, cur⟩ := history
  have total := sum_msRoom (m := m) (h := h) r
  have length : (baseOrder h r).length = (h.record r).bases.length := by
    simpa using (baseOrder_perm (h := h) r).length_eq
  have offsLength := thread_length run
  have sums : (((baseOrder h r).zip offs).map fun p => msPlacedRoom m h r p.1) = (baseOrder h r).map (msPlacedRoom m h r) := by
    rw [show (fun p : (BaseSpec × Nat) × Nat => msPlacedRoom m h r p.1) = msPlacedRoom m h r ∘ Prod.fst from rfl,
      ← List.map_map, List.map_fst_zip (by omega)]
  simp only [List.nil_append, sums, List.length_zip, offsLength, length, Nat.min_self] at cur
  have rounded := roundUp_le s.cur m.sizePtr
  unfold msHead
  split
  · simp only [raiseTo_eq]
    omega
  · simp only
    omega

/-! ### Members -/

theorem MsFieldPlaced.close_bound {f : Field} {fs fa : Nat} {s s' : MsFields} {p : MsPlaced}
    (e : MsFieldPlaced m f fs fa s p s') : s'.close.cur ≤ s.close.cur + fs + fa ∧ s'.align ≤ max s.align fa := by
  have rounded := roundUp_le s.close.cur fa
  rcases e with ⟨-, -, u, unit, -, -, -, next, align⟩ | ⟨-, -, -, next, align⟩ | ⟨fs', kind, -, cur, unit, align⟩
  · have same : s'.close.cur = s.close.cur := by simp [MsFields.close, unit, next]
    refine ⟨by omega, ?_⟩
    rw [align]
    split <;> omega
  · have opened : s'.close.cur = roundUp s.close.cur fa + fs := by rw [MsFields.close, next]
    refine ⟨by omega, ?_⟩
    rw [align]
    split <;> omega
  · have closed : s'.close.cur = roundUp s.close.cur fa + fs' := by
      rw [show s'.close.cur = s'.cur by rw [MsFields.close, unit], cur]
    refine ⟨by omega, ?_⟩
    rw [align]
    split <;> omega

theorem MsRun.fields_bound (sizes : m.Sizes) (run : MsRun m h L r)
    (below : ∀ c, h.Contains r c → c ≠ r → ∀ ci, L c = some ci → ci.MsBounded m h c) :
    run.afterFields.align ≤ alignBound h r ∧
      run.afterFields.close.cur + 3 * alignBound h r + 1 ≤ room m h r := by
  obtain ⟨align, cur⟩ := msBases_bound sizes run.bases below
  have weight := thread_weight (P := fun s : MsFields => s.align ≤ alignBound h r) (μ := fun s => s.close.cur)
    (w := fieldRoomBound m h (room m h) r) run.members align (by
      rintro f hf s p s' align step
      obtain ⟨fs, ta, fieldSize, typeAlign⟩ := placeMsField_sized step
      obtain ⟨fits, aligned⟩ := field_bound sizes hf (fun c elem ci known => by
        have part : h.Part r c := .inr ⟨f, hf, elem⟩
        have bound := below c (.single part) part.lt.ne ci known
        exact ⟨Nat.le_trans (Nat.le_add_right _ _) bound.size, bound.align⟩) fieldSize typeAlign
      have grew := (placeMsField_some fieldSize typeAlign step).close_bound
      simp only [fieldRoomBound]
      omega)
  refine ⟨weight.1, ?_⟩
  have basic := sixteen_le_alignBound (h := h) r
  have ptr := sizes.ptr
  have total : run.afterFields.close.cur ≤ (msHead m h r run.afterBases).1 +
      ((h.record r).fields.map (fieldRoomBound m h (room m h) r)).sum := weight.2
  rw [room_eq, roomBody]
  omega

/-! ### Virtual bases -/

theorem placeMsVBase_bound {s : MsVBases} {v : Nat} {vi : RecordInfo} (known : L v = some vi) (bound : vi.MsBounded m h v) :
    (placeMsVBase h L s v).cur ≤ s.cur + (room m h v + alignBound h v) ∧
      (placeMsVBase h L s v).align ≤ max s.align (alignBound h v) ∧
      ∃ off ≤ s.cur + alignBound h v, (placeMsVBase h L s v).offs = s.offs.insert v off := by
  have align := bound.align
  have size := bound.nonVirtual
  rw [← layoutNonVirtual_align] at align
  have rounded := roundUp_le s.cur (layoutNonVirtual vi).2
  simp only [placeMsVBase, known, raiseTo_eq]
  refine ⟨?_, by omega, _, by omega, rfl⟩
  split <;> omega

/-- The entry of the first virtual base stays, the keys of the others being different. -/
theorem msVBases_entry {bound : Nat} {vs : List Nat} {s : MsVBases} (nodup : vs.Nodup) (fresh : ∀ v ∈ vs, v ∉ s.offs)
    (known : ∀ v ∈ vs, ∃ vi, L v = some vi) (entry : ∃ e ∈ s.offs.entries, e.2 ≤ bound) :
    ∃ e ∈ (vs.foldl (placeMsVBase h L) s).offs.entries, e.2 ≤ bound := by
  induction vs generalizing s with
  | nil => exact entry
  | cons v vs ih =>
    obtain ⟨out, nodup⟩ := List.nodup_cons.1 nodup
    obtain ⟨vi, knownV⟩ := known v List.mem_cons_self
    obtain ⟨off, inserted⟩ : ∃ off, (placeMsVBase h L s v).offs = s.offs.insert v off := by
      simp only [placeMsVBase, knownV]
      exact ⟨_, rfl⟩
    refine ih nodup ?_ (fun v' hv' => known v' (List.mem_cons_of_mem v hv')) ?_
    · intro v' hv' mem
      rw [inserted, AList.mem_insert] at mem
      rcases mem with rfl | mem
      · exact out hv'
      · exact fresh v' (List.mem_cons_of_mem v hv') mem
    · obtain ⟨e, mem, le⟩ := entry
      refine ⟨e, ?_, le⟩
      rw [inserted, AList.entries_insert_of_notMem (fresh v List.mem_cons_self)]
      exact List.mem_cons_of_mem _ mem

theorem msVBasesEnd_bound (cur : Nat) {align : Nat} (le : align ≤ alignBound h r)
    (known : ∀ v ∈ virtualBases h r, ∃ vi, L v = some vi)
    (below : ∀ c, h.Contains r c → c ≠ r → ∀ ci, L c = some ci → ci.MsBounded m h c) :
    (msVBasesEnd h L r cur align).align ≤ alignBound h r ∧
      (msVBasesEnd h L r cur align).cur ≤ cur + alignBound h r +
        ((virtualBases h r).map fun v => room m h v + 2 * alignBound h v).sum ∧
      ((msVBasesEnd h L r cur align).offs.entries.isEmpty ∨
        ∃ e ∈ (msVBasesEnd h L r cur align).offs.entries, e.2 ≤ cur + 2 * alignBound h r) := by
  have bound : ∀ v ∈ virtualBases h r, ∃ vi, L v = some vi ∧ vi.MsBounded m h v ∧ alignBound h v ≤ alignBound h r := by
    intro v hv
    obtain ⟨vi, knownV⟩ := known v hv
    have vbase := mem_virtualBases.1 hv
    exact ⟨vi, knownV, below v vbase.derives.contains vbase.lt.ne vi knownV, alignBound_contains vbase.derives.contains⟩
  have run : ∀ (vs : List Nat) (s : MsVBases), (∀ v ∈ vs, v ∈ virtualBases h r) → s.align ≤ alignBound h r →
      (vs.foldl (placeMsVBase h L) s).align ≤ alignBound h r ∧ (vs.foldl (placeMsVBase h L) s).cur ≤
        s.cur + (vs.map fun v => room m h v + 2 * alignBound h v).sum := by
    intro vs
    induction vs with
    | nil => exact fun s _ le => ⟨le, Nat.le_add_right _ _⟩
    | cons v vs ih =>
      intro s sub le
      obtain ⟨vi, knownV, so, lower⟩ := bound v (sub v List.mem_cons_self)
      obtain ⟨cur', align', -⟩ := placeMsVBase_bound (s := s) knownV so
      obtain ⟨last, total⟩ := ih (placeMsVBase h L s v) (fun v' hv' => sub v' (List.mem_cons_of_mem v hv')) (by omega)
      refine ⟨last, ?_⟩
      rw [List.map_cons, List.sum_cons]
      simp only [List.foldl_cons]
      omega
  have rounded := roundUp_le cur align
  unfold msVBasesEnd
  split
  · exact ⟨le, by simp only; omega, .inl rfl⟩
  · obtain ⟨last, total⟩ := run (virtualBases h r) { cur := roundUp cur align, align } (fun _ hv => hv) le
    refine ⟨last, by simp only at total; omega, ?_⟩
    cases eq : virtualBases h r with
    | nil => exact .inl rfl
    | cons v vs =>
      right
      have nodup := virtualBases_nodup (h := h) r
      rw [eq] at nodup known bound
      obtain ⟨out, nodup⟩ := List.nodup_cons.1 nodup
      obtain ⟨vi, knownV, so, lower⟩ := bound v List.mem_cons_self
      obtain ⟨-, -, off, near, inserted⟩ := placeMsVBase_bound (s := { cur := roundUp cur align, align }) knownV so
      rw [List.foldl_cons]
      refine msVBases_entry nodup ?_ (fun v' hv' => known v' (List.mem_cons_of_mem v hv')) ⟨⟨v, off⟩, ?_, ?_⟩
      · intro v' hv' mem
        rw [inserted, AList.mem_insert] at mem
        rcases mem with rfl | mem
        · exact out hv'
        · cases mem
      · rw [inserted, AList.entries_insert]
        exact List.mem_cons_self
      · simp only at near ⊢
        omega

/-! ### A whole layout -/

theorem MsRun.bounded (sizes : m.Sizes) (run : MsRun m h L r) (known : ∀ v ∈ virtualBases h r, ∃ vi, L v = some vi)
    (below : ∀ c, h.Contains r c → c ≠ r → ∀ ci, L c = some ci → ci.MsBounded m h c) : run.info.MsBounded m h r := by
  obtain ⟨align, cur⟩ := run.fields_bound sizes below
  have head := head_le_alignBound (h := h) r
  have raised : raiseTo run.afterFields.close.align (h.record r).align ≤ alignBound h r := by
    rw [raiseTo_eq, MsFields.close_align]
    omega
  obtain ⟨lastAlign, lastCur, entries⟩ := msVBasesEnd_bound run.afterFields.close.cur raised known below
  have one : ∀ n, atLeastOne n ≤ n + 1 := by
    intro n
    unfold atLeastOne
    split <;> omega
  refine ⟨?_, ?_, lastAlign⟩
  · have rounded := roundUp_le (msVBasesEnd h L r run.afterFields.close.cur
      (raiseTo run.afterFields.close.align (h.record r).align)).cur (msVBasesEnd h L r run.afterFields.close.cur
      (raiseTo run.afterFields.close.align (h.record r).align)).align
    have first := one (roundUp (msVBasesEnd h L r run.afterFields.close.cur
      (raiseTo run.afterFields.close.align (h.record r).align)).cur (msVBasesEnd h L r run.afterFields.close.cur
      (raiseTo run.afterFields.close.align (h.record r).align)).align)
    simp only [MsRun.info, finishMs, wholeRoom]
    omega
  · rcases entries with none | ⟨e, mem, near⟩
    · have rounded := roundUp_le run.afterFields.close.cur run.afterFields.close.align
      have first := one (roundUp run.afterFields.close.cur run.afterFields.close.align)
      rw [MsFields.close_align] at rounded first
      rw [layoutNonVirtual, if_pos (show run.info.vbaseOffsets.entries.isEmpty = true from none)]
      simp only [MsRun.info, finishMs, MsFields.close_align]
      omega
    · exact Nat.le_trans (layoutNonVirtual_le run.info mem) (by omega)

theorem msUnion_bounded (sizes : m.Sizes) {info : RecordInfo} (union : (h.record r).tag = .union)
    (known : layoutMicrosoft m h L r = some info)
    (below : ∀ c, h.Contains r c → c ≠ r → ∀ ci, L c = some ci → ci.MsBounded m h c) : info.MsBounded m h r := by
  obtain ⟨offs, s, us, t, bases, members, rfl⟩ := layoutMicrosoft_union union known
  have basic := sixteen_le_alignBound (h := h) r
  have head := head_le_alignBound (h := h) r
  have start := (msBases_bound sizes bases below).1
  have weight := thread_weight (P := fun s : Nat × Nat => s.2 ≤ alignBound h r) (μ := Prod.fst)
    (w := fieldRoomBound m h (room m h) r) members start (by
      rintro f hf s u s' align step
      unfold msUnionField at step
      split at step
      · rename_i fs ta fieldSize typeAlign
        obtain ⟨fits, aligned⟩ := field_bound sizes hf (fun c elem ci known => by
          have part : h.Part r c := .inr ⟨f, hf, elem⟩
          have bound := below c (.single part) part.lt.ne ci known
          exact ⟨Nat.le_trans (Nat.le_add_right _ _) bound.size, bound.align⟩) fieldSize typeAlign
        cases step
        simp only [raiseTo_eq, fieldRoomBound]
        omega
      · cases step)
  obtain ⟨align, size⟩ := weight
  have raised : raiseTo t.2 (h.record r).align ≤ alignBound h r := by
    rw [raiseTo_eq]
    omega
  have rounded := roundUp_le t.1 (raiseTo t.2 (h.record r).align)
  have enough := room_le_whole (m := m) (h := h) r
  refine ⟨Nat.le_trans ?_ enough, Nat.zero_le _, raised⟩
  rw [room_eq, roomBody]
  simp only [finishMsUnion, atLeastOne] at size ⊢
  split <;> omega

/-- Everything in a complete class with a layout has a layout. -/
theorem MsLaid.known_contains (laid : MsLaid m h L) (complete : h.Complete m r) {info : RecordInfo}
    (known : L r = some info) {c : Nat} (e : h.Contains r c) : ∃ ci, L c = some ci := by
  induction r using Nat.strongRecOn generalizing info with
  | ind r ih =>
    rcases Relation.ReflTransGen.cases_head e with rfl | ⟨d, part, rest⟩
    · exact ⟨info, known⟩
    suffices first : ∃ di, L d = some di by
      obtain ⟨di, knownPart⟩ := first
      exact ih d part.lt (complete.part part) knownPart rest
    have completePart := ((complete.part part).at).complete
    rw [laid r] at known
    rcases part with ⟨b, hb, cls⟩ | ⟨f, hf, elem⟩
    · obtain ⟨run, rfl⟩ := layoutMicrosoft_struct (h.struct_of_base hb) known
      obtain ⟨i, here⟩ := List.mem_iff_getElem?.1 hb
      obtain ⟨s, off, s', step⟩ := thread_step run.bases (mem_baseOrder.2 here)
      rcases placeMsBase_some step with ⟨passed, -, -⟩ | ⟨c', bi, cls', knownBase, -, -, -, -⟩ |
        ⟨c', bi, plain, knownBase, -, -, -, -⟩ | ⟨c', bi, plain, knownBase, -, -, -, -⟩
      · rw [passed d cls] at completePart
        cases completePart
      · rw [cls] at cls'
        cases cls'
        exact ⟨bi, knownBase⟩
      all_goals
        have cls' := (BaseSpec.plain_eq_some.1 plain).2
        rw [cls] at cls'
        cases cls'
        exact ⟨bi, knownBase⟩
    · suffices sized : ∃ n, sizeof m h L f.type = some n by
        obtain ⟨n, size⟩ := sized
        exact known_of_sizeof size elem
      by_cases union : (h.record r).tag = .union
      · obtain ⟨offs, s, us, t, -, members, -⟩ := layoutMicrosoft_union union known
        obtain ⟨s, u, s', step⟩ := thread_step members hf
        unfold msUnionField at step
        split at step
        · rename_i fs ta size align
          exact ⟨fs, size⟩
        · cases step
      · obtain ⟨run, rfl⟩ := layoutMicrosoft_struct union known
        obtain ⟨s, p, s', step⟩ := thread_step run.members hf
        obtain ⟨fs, ta, size, -⟩ := placeMsField_sized step
        exact ⟨fs, size⟩

/-- **A layout comes to no more than what the class is made of.** -/
theorem MsLaid.bounded (sizes : m.Sizes) (laid : MsLaid m h L) (complete : h.Complete m r) {info : RecordInfo}
    (known : L r = some info) : info.MsBounded m h r := by
  induction r using Nat.strongRecOn generalizing info with
  | ind r ih =>
    have below : ∀ c, h.Contains r c → c ≠ r → ∀ ci, L c = some ci → ci.MsBounded m h c := by
      intro c path ne ci knownC
      have le := path.le
      exact ih c (by omega) (complete.contains path) knownC
    have shown := known
    rw [laid r] at shown
    by_cases union : (h.record r).tag = .union
    · exact msUnion_bounded sizes union shown below
    · obtain ⟨run, rfl⟩ := layoutMicrosoft_struct union shown
      exact run.bounded sizes (fun v hv =>
        laid.known_contains complete known (mem_virtualBases.1 hv).derives.contains) below

/-- **The layout of a small class stays within an `int64`.** -/
theorem layoutInfo_held (supported : m.Supported) (complete : h.Complete m r) (small : h.Small m r) {info : RecordInfo}
    (known : layoutInfo m h r = some info) : info.Held := by
  cases abi : m.abi.isItanium with
  | true => exact layoutItanium_held supported.sizes abi complete small known
  | false =>
    have bound := MsLaid.bounded supported.sizes (layoutInfo_microsoft abi) complete known
    have less := small r .refl
    have size := bound.size
    have align := bound.align
    unfold RecordInfo.Held
    omega

end Vcx.Types
