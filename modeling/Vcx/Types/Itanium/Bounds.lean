import Vcx.Types.Itanium.Inside
import Vcx.Types.Room

/-!
# The Itanium layout within an `int64`

A candidate offset that conflicts lies before the end of what is recorded, so no step of the
layout takes it further than an alignment and the size of what is placed, and what a class
comes to is bounded by its `room`. With that, the promises of the layout of a small class: it
ends, and its virtual bases are placed.
-/

namespace Vcx.Types
set_option autoImplicit false
open Vcx.Lib

variable {m : Model} {h : Hierarchy} {L : Layouts} {r : Nat}

section

variable (sizes : m.Sizes) (laid : Laid m h L)
include sizes laid

/-! ### One placement -/

/-- The data and the empties recorded so far lie in the size reached. -/
structure Cursor.Inside (c : Cursor) : Prop where
  data : c.dsize ≤ c.size
  empties : ∀ e ∈ c.empties, e.2 < c.size

omit sizes laid in
/-- An offset that conflicts lies before the end of what is recorded. -/
theorem Cursor.Inside.conflict_lt {c : Cursor} (inside : c.Inside) {cls off : Nat} {asBase : Bool}
    (clash : conflicts m h L c.empties cls off asBase = true) : off < c.size := by
  obtain ⟨e, mem, old⟩ := conflicts_iff.1 clash
  have := start_le_of_mem_eachEmpty mem
  have := inside.empties e old
  omega

omit sizes laid in
theorem Cursor.Inside.freeOffset_le {c : Cursor} (inside : c.Inside) {cls start a off : Nat} {asBase : Bool}
    (run : freeOffset m h L c cls start a asBase = some off) (le : start ≤ c.size + a) : off ≤ c.size + a := by
  obtain ⟨-, k, -, rfl, earlier⟩ := loop_spec run
  cases k with
  | zero => exact le
  | succ k =>
    have := inside.conflict_lt (earlier k (Nat.lt_succ_self k))
    rw [Function.iterate_succ_apply']
    omega

omit sizes laid in
theorem Cursor.Inside.emptyBaseOffset_le {c : Cursor} (inside : c.Inside) {cls nvalign off : Nat}
    (run : emptyBaseOffset m h L c cls nvalign = some off) : off ≤ c.size + nvalign := by
  rw [emptyBaseOffset_eq] at run
  obtain ⟨-, k, -, rfl, earlier⟩ := loop_spec run
  cases k with
  | zero => exact Nat.zero_le _
  | succ k =>
    have := inside.conflict_lt (earlier k (Nat.lt_succ_self k))
    have := inside.data
    rw [Function.iterate_succ_apply', nextEmptyOffset]
    split <;> split <;> omega

omit sizes laid in
theorem Cursor.Inside.raise {c : Cursor} (inside : c.Inside) (a : Nat) : (c.raise a).Inside :=
  ⟨inside.data, inside.empties⟩

omit sizes laid in
theorem placeBase_le {d : Nat} {bi : RecordInfo} {first : Bool} {c c' : Cursor} {off : Nat} (inside : c.Inside)
    (known : L d = some bi) (run : Vcx.Types.placeBase m h L d first c = some (off, c')) :
    off ≤ c.size + bi.nvalign := by
  have raised := inside.raise bi.nvalign
  simp only [Vcx.Types.placeBase, known] at run
  split at run
  · obtain ⟨off', found, eq⟩ := Option.map_eq_some_iff.1 run
    obtain ⟨rfl, -⟩ := Prod.mk.inj eq
    split at found
    · cases found
      exact Nat.zero_le _
    · exact raised.emptyBaseOffset_le found
  · obtain ⟨off', found, eq⟩ := Option.map_eq_some_iff.1 run
    obtain ⟨rfl, -⟩ := Prod.mk.inj eq
    refine raised.freeOffset_le found ?_
    have := roundUp_le c.dsize bi.nvalign
    have := inside.data
    simp only [Cursor.raise_dsize, Cursor.raise_size]
    split <;> omega

/-- Placing a base adds an alignment and its bytes at most. -/
theorem Laid.placeBase_inside {d : Nat} {first : Bool} {c c' : Cursor} {off : Nat} (complete : h.Complete m d)
    (inside : c.Inside) (run : Vcx.Types.placeBase m h L d first c = some (off, c')) :
    ∃ bi, L d = some bi ∧ c'.Inside ∧ c'.size ≤ c.size + (bi.nvalign + bi.reserve (itaniumEmpty h d)) ∧
      c'.align = max c.align bi.nvalign := by
  obtain ⟨bi, known, -, placed⟩ := laid.placeBase sizes run
  have le := placeBase_le inside known run
  have size := placed.size
  have data := inside.data
  refine ⟨bi, known, ⟨?_, ?_⟩, by omega, placed.align⟩
  · rw [placed.dsize, size, RecordInfo.reserve]
    split <;> omega
  · intro e mem
    rw [placed.empties] at mem
    rcases List.mem_append.1 mem with old | new
    · have := inside.empties e old
      omega
    · have := laid.eachEmpty_lt sizes complete known new
      simp only [if_true] at this
      omega

omit sizes laid in
theorem placeField_le {rec_ : Record} {f : Field} {s s' : Nat × Cursor} {p : Placed} {fs ta : Nat}
    (inside : s.2.Inside) (bits : s.2.dsize = (s.1 + 7) / 8) (plain : f.bitField = false)
    (size : sizeof m h L f.type = some fs) (align : alignof m h L f.type = some ta)
    (run : Vcx.Types.placeField m h L rec_ f s = some (p, s')) : p.offset ≤ s.2.size + fieldAlign rec_ f ta := by
  have raised := inside.raise (fieldAlign rec_ f ta)
  have start : roundUp ((s.1 + 7) / 8) (fieldAlign rec_ f ta) ≤ s.2.size + fieldAlign rec_ f ta := by
    have := roundUp_le ((s.1 + 7) / 8) (fieldAlign rec_ f ta)
    have := inside.data
    omega
  simp only [Vcx.Types.placeField, size, align, plain, Bool.false_eq_true, if_false] at run
  split at run
  · obtain ⟨off, found, eq⟩ := Option.map_eq_some_iff.1 run
    obtain ⟨rfl, -⟩ := Prod.mk.inj eq
    exact raised.freeOffset_le found start
  · obtain ⟨off, found, eq⟩ := Option.map_eq_some_iff.1 run
    obtain ⟨rfl, -⟩ := Prod.mk.inj eq
    unfold memberOffset at found
    split at found
    · cases found
      exact start
    · exact raised.freeOffset_le found start

/-- What holds of the state between two members. -/
structure FieldsInside (s : Nat × Cursor) : Prop where
  cursor : s.2.Inside
  bits : s.2.dsize = (s.1 + 7) / 8

/-- Placing a member adds an alignment, its bytes and its bits at most. -/
theorem Laid.placeField_inside {rec_ : Record} {f : Field} {s s' : Nat × Cursor} {p : Placed}
    (complete : ∀ c, f.type.recordElem = some c → h.Complete m c) (inside : FieldsInside s)
    (run : Vcx.Types.placeField m h L rec_ f s = some (p, s')) :
    ∃ fs ta, sizeof m h L f.type = some fs ∧ alignof m h L f.type = some ta ∧ FieldsInside s' ∧
      s'.2.size ≤ s.2.size + (fs + (f.width + 7) / 8 + fieldAlign rec_ f ta) ∧
      s'.2.align ≤ max s.2.align (fieldAlign rec_ f ta) := by
  obtain ⟨fs, ta, size, align, -, placed⟩ := laid.placeField sizes run
  have le := fun plain => placeField_le inside.cursor inside.bits plain size align run
  have data := inside.cursor.data
  have bits := inside.bits
  refine ⟨fs, ta, size, align, ?_⟩
  have recorded : ∀ fr, f.type.asRecord = some fr → ∀ e ∈ eachEmpty m h L fr p.offset false, e.2 < p.offset + fs := by
    intro fr as e mem
    have elem := Ty.recordElem_of_asRecord as
    obtain ⟨ci, known, -, count⟩ := sizeof_elemCount elem size
    rw [Ty.elemCount_of_asRecord as, Nat.one_mul] at count
    have := laid.eachEmpty_lt sizes (complete fr elem) known mem
    simp only [Bool.false_eq_true, if_false] at this
    omega
  rcases placed with ⟨bit, placed⟩ | ⟨fr, plain, empty, placed⟩ | ⟨plain, noEmpty, placed⟩
  · have width := placed.bits
    have start : bitStart s.1 f.width (fs * 8) (fieldAlign rec_ f ta * 8) ≤ s.1 + fieldAlign rec_ f ta * 8 := by
      have := roundUp_le s.1 (fieldAlign rec_ f ta * 8)
      unfold bitStart
      split
      · exact this
      · split <;> omega
    have size' := placed.size
    have dsize := placed.dsize
    have align' := placed.align
    refine ⟨⟨⟨by omega, ?_⟩, dsize⟩, by omega, by rw [align']; split <;> omega⟩
    intro e mem
    rw [placed.empties] at mem
    have := inside.cursor.empties e mem
    omega
  · have := le plain
    have size' := placed.size
    have dsize := placed.dsize
    have bits' := placed.bits
    have align' := placed.align
    refine ⟨⟨⟨by omega, ?_⟩, by omega⟩, by omega, by omega⟩
    intro e mem
    rw [placed.empties] at mem
    rcases List.mem_append.1 mem with old | new
    · have := inside.cursor.empties e old
      omega
    · unfold emptyMember at empty
      split at empty
      · have := recorded fr (Option.filter_eq_some_iff.1 empty).1 e new
        omega
      · cases empty
  · have := le plain
    have size' := placed.size
    have dsize := placed.dsize
    have bits' := placed.bits
    have align' := placed.align
    refine ⟨⟨⟨by omega, ?_⟩, by omega⟩, by omega, by omega⟩
    intro e mem
    rw [placed.empties] at mem
    rcases List.mem_append.1 mem with old | new
    · have := inside.cursor.empties e old
      omega
    · unfold memberEmpties at new
      split at new
      · cases new
      · rename_i fr as
        have := recorded fr as e new
        omega

/-! ### A whole layout -/

/-- The metrics of a class are bounded by what it is made of. -/
structure RecordInfo.Bounded (m : Model) (h : Hierarchy) (c : Nat) (info : RecordInfo) : Prop where
  size : info.size + alignBound h c ≤ wholeRoom h (room m h) c
  reserve : info.reserve (itaniumEmpty h c) ≤ room m h c
  align : info.align ≤ alignBound h c
  nvalign : info.nvalign ≤ alignBound h c

/-- Whether the data of a base is counted with the primary base. -/
def keptRoom (m : Model) (h : Hierarchy) (keep : Nat → Option Nat) (b : BaseSpec × Nat) : Nat :=
  if (keep b.2).isSome then (b.1.plain.map (room m h)).getD 0 else 0

/-- What a base adds when it is placed. -/
def placedRoom (m : Model) (h : Hierarchy) (r : Nat) (keep : Nat → Option Nat) (b : BaseSpec × Nat) : Nat :=
  if (keep b.2).isSome then 0 else (b.1.plain.map (room m h)).getD 0 + alignBound h r

omit sizes laid in
theorem sum_baseRoom_le (keep : Nat → Option Nat) (r : Nat) :
    ((h.record r).bases.zipIdx.map (placedRoom m h r keep)).sum + ((h.record r).bases.zipIdx.map (keptRoom m h keep)).sum ≤
      ((h.record r).bases.map (baseRoomBound h (room m h) r)).sum := by
  rw [← List.sum_map_add, ← List.zipIdx_map_fst 0 (h.record r).bases, List.map_map, List.zipIdx_map_fst]
  apply List.sum_le_sum
  intro b _
  simp only [placedRoom, keptRoom, baseRoomBound, Function.comp_apply]
  split <;> omega

omit sizes laid in
theorem startCursor_le (rec_ : Record) (dynamic : Bool) (p : Primary) :
    (startCursor m rec_ dynamic p).size ≤ m.sizePtr ∧
      (startCursor m rec_ dynamic p).align ≤ max (max rec_.align 1) m.sizePtr := by
  unfold startCursor
  split
  · simp
  · simp only [headCursor_size, headCursor_align]
    omega

/-- The head takes a vptr or the primary base's bytes. -/
theorem Run.head_bound (run : Run m h L r) (complete : h.Complete m r)
    (below : ∀ c, h.Contains r c → c ≠ r → ∀ ci, L c = some ci → ci.Bounded m h c) :
    run.afterPrimary.Inside ∧ run.afterPrimary.align ≤ alignBound h r ∧
      run.afterPrimary.size ≤ 2 * m.sizePtr + alignBound h r +
        ((h.record r).bases.zipIdx.map (keptRoom m h (keepPrimary (primaryBase m h L r) run.primaryOff))).sum := by
  have basic := sixteen_le_alignBound (h := h) r
  have head := head_le_alignBound (h := h) r
  have ptr := sizes.ptr
  obtain ⟨start, startAlign⟩ := startCursor_le (m := m) (h.record r) (isDynamic h r) (primaryBase m h L r)
  have none := startCursor_empties (m := m) (h.record r) (isDynamic h r) (primaryBase m h L r)
  have equal := (startCursor_dsize (m := m) (h.record r) (isDynamic h r) (primaryBase m h L r)).2
  have inside : (startCursor m (h.record r) (isDynamic h r) (primaryBase m h L r)).Inside :=
    ⟨by rw [equal], by rw [none]; simp⟩
  rcases placePrimary_some run.primary with ⟨-, -, eq⟩ | ⟨i, b, c, o, idx, here, cls, off, step⟩
  · rw [eq]
    exact ⟨inside, by omega, by omega⟩
  · have mem := List.mem_of_getElem? here
    have base : h.Base r c := ⟨b, mem, cls⟩
    obtain ⟨b', c', here', cls', -, data, side⟩ := primaryBase_idx idx
    rw [here] at here'
    cases here'
    rw [cls] at cls'
    cases cls'
    obtain ⟨bi, known, inside', grew, align⟩ := laid.placeBase_inside sizes (complete.part (.inl base)) inside step
    have bound := below c (.single (.inl base)) base.lt.ne bi known
    have lower := alignBound_part (.inl base)
    have nvalign := bound.nvalign
    refine ⟨inside', by omega, ?_⟩
    rcases side with ⟨-, plain⟩ | ⟨virt, -⟩
    · have counted : (bi.reserve (itaniumEmpty h c)) ≤
          ((h.record r).bases.zipIdx.map (keptRoom m h (keepPrimary (primaryBase m h L r) run.primaryOff))).sum := by
        refine Nat.le_trans bound.reserve (List.le_sum_of_mem (List.mem_map.2 ⟨(b, i), ?_, ?_⟩))
        · exact List.mem_zipIdx_iff_getElem?.2 here
        · simp [keptRoom, keepPrimary, idx, off, BaseSpec.plain, plain, cls]
      omega
    · obtain ⟨-, info, known', size⟩ := nearlyEmpty_spec (nearlyEmpty_of_virt virt).2
      rw [known] at known'
      cases known'
      simp only [RecordInfo.reserve, data, Bool.false_eq_true, if_false] at grew
      omega

theorem Run.bases_bound (run : Run m h L r) (complete : h.Complete m r)
    (below : ∀ c, h.Contains r c → c ≠ r → ∀ ci, L c = some ci → ci.Bounded m h c) :
    run.afterBases.Inside ∧ run.afterBases.align ≤ alignBound h r ∧ run.afterBases.size ≤
      2 * m.sizePtr + alignBound h r + ((h.record r).bases.map (baseRoomBound h (room m h) r)).sum := by
  obtain ⟨inside, align, size⟩ := run.head_bound sizes laid complete below
  have weight := thread_weight (P := fun c : Cursor => c.Inside ∧ c.align ≤ alignBound h r) (μ := Cursor.size)
    (w := placedRoom m h r (keepPrimary (primaryBase m h L r) run.primaryOff)) run.bases ⟨inside, align⟩ (by
      rintro ⟨b, i⟩ hb c off c' ⟨inside, align⟩ step
      rcases placeBaseAt_some step with ⟨rfl, -⟩ | ⟨d, kept, plain, step⟩
      · exact ⟨⟨inside, align⟩, Nat.le_add_right _ _⟩
      · have base : h.Base r d := ⟨b, List.fst_mem_of_mem_zipIdx hb, (BaseSpec.plain_eq_some.1 plain).2⟩
        obtain ⟨bi, known, inside', grew, align'⟩ := laid.placeBase_inside sizes (complete.part (.inl base)) inside step
        have bound := below d (.single (.inl base)) base.lt.ne bi known
        have lower := alignBound_part (.inl base)
        have nvalign := bound.nvalign
        have reserve := bound.reserve
        refine ⟨⟨inside', by omega⟩, ?_⟩
        simp only [placedRoom, kept, plain, Option.isSome_none, Bool.false_eq_true, if_false, Option.map_some,
          Option.getD_some]
        omega)
  have total := sum_baseRoom_le (m := m) (h := h) (keepPrimary (primaryBase m h L r) run.primaryOff) r
  exact ⟨weight.1.1, weight.1.2, by omega⟩

omit sizes laid in
theorem field_bound (sizes : m.Sizes) {f : Field} (hf : f ∈ (h.record r).fields)
    (below : ∀ c, f.type.recordElem = some c → ∀ ci, L c = some ci →
      ci.size ≤ wholeRoom h (room m h) c ∧ ci.align ≤ alignBound h c) {fs ta : Nat}
    (size : sizeof m h L f.type = some fs) (align : alignof m h L f.type = some ta) :
    fs ≤ f.type.room m h (wholeRoom h (room m h)) ∧ fieldAlign (h.record r) f ta ≤ alignBound h r := by
  refine ⟨sizeof_le_room (fun c ci elem known => (below c elem ci known).1) size, fieldAlign_le hf ?_⟩
  refine alignof_le sizes (sixteen_le_alignBound r) (fun c ci elem known => ?_) align
  exact Nat.le_trans (below c elem ci known).2 (alignBound_part (.inr ⟨f, hf, elem⟩))

theorem Run.fields_bound (run : Run m h L r) (complete : h.Complete m r)
    (below : ∀ c, h.Contains r c → c ≠ r → ∀ ci, L c = some ci → ci.Bounded m h c) :
    run.afterFields.Inside ∧ run.afterFields.align ≤ alignBound h r ∧
      run.afterFields.size + 3 * alignBound h r ≤ room m h r := by
  obtain ⟨inside, align, size⟩ := run.bases_bound sizes laid complete below
  have weight := thread_weight (P := fun s : Nat × Cursor => FieldsInside s ∧ s.2.align ≤ alignBound h r)
    (μ := fun s => s.2.size) (w := fieldRoomBound m h (room m h) r) run.members
    ⟨⟨inside, by simp only; omega⟩, align⟩ (by
      rintro f hf s p s' ⟨inside, align⟩ step
      have part : ∀ c, f.type.recordElem = some c → h.Part r c := fun c elem => .inr ⟨f, hf, elem⟩
      obtain ⟨fs, ta, fieldSize, typeAlign, inside', grew, align'⟩ := laid.placeField_inside sizes
        (fun c elem => complete.part (part c elem)) inside step
      obtain ⟨fits, aligned⟩ := field_bound sizes hf (fun c elem ci known => by
        have bound := below c (.single (part c elem)) (part c elem).lt.ne ci known
        exact ⟨Nat.le_trans (Nat.le_add_right _ _) bound.size, bound.align⟩) fieldSize typeAlign
      refine ⟨⟨inside', by omega⟩, ?_⟩
      simp only [fieldRoomBound]
      omega)
  refine ⟨weight.1.1.cursor, weight.1.2, ?_⟩
  have total := weight.2
  rw [room_eq, roomBody]
  simp only at total
  omega

theorem Run.bounded (run : Run m h L r) (struct : (h.record r).tag ≠ .union) (complete : h.Complete m r)
    (below : ∀ c, h.Contains r c → c ≠ r → ∀ ci, L c = some ci → ci.Bounded m h c) : run.info.Bounded m h r := by
  obtain ⟨inside, align, size⟩ := run.fields_bound sizes laid complete below
  have basic := sixteen_le_alignBound (h := h) r
  have weight := thread_weight (P := fun c : Cursor => c.Inside ∧ c.align ≤ alignBound h r) (μ := Cursor.size)
    (w := fun v => room m h v + 2 * alignBound h v) run.vbases ⟨inside, align⟩ (by
      rintro v hv c off c' ⟨inside, align⟩ step
      have vbase := mem_itaniumVBases.1 (List.mem_filter.1 hv).1
      have path := vbase.derives.contains
      obtain ⟨vi, known, inside', grew, align'⟩ := laid.placeBase_inside sizes (complete.contains path) inside step
      have bound := below v path vbase.lt.ne vi known
      have lower := alignBound_contains path
      have nvalign := bound.nvalign
      have reserve := bound.reserve
      exact ⟨⟨inside', by omega⟩, by omega⟩)
  have fresh : ((freshVBases m h L r).map fun v => room m h v + 2 * alignBound h v).sum ≤
      ((virtualBases h r).map fun v => room m h v + 2 * alignBound h v).sum := by
    rw [← ((vbases_perm r).map _).sum_eq]
    exact (List.Sublist.map _ List.filter_sublist).sum_le_sum fun _ _ => Nat.zero_le _
  have lastAlign := weight.1.2
  have lastSize := weight.2
  have rounded := roundUp_le run.last.size run.last.align
  have nvRounded := roundUp_le (atLeastOne run.afterFields.size) run.last.align
  have one : ∀ n, atLeastOne n ≤ n + 1 := by
    intro n
    unfold atLeastOne
    split <;> omega
  have first := one (roundUp run.last.size run.last.align)
  have second := one run.afterFields.size
  refine ⟨?_, ?_, lastAlign, align⟩
  · simp only [Run.info, finishLayout, wholeRoom]
    omega
  · unfold RecordInfo.reserve
    split
    · -- an empty class has no virtual bases
      rename_i empty
      have none : freshVBases m h L r = [] := by
        apply List.eq_nil_iff_forall_not_mem.2
        intro v hv
        have dyn := isDynamic_of_vbase (mem_itaniumVBases.1 (List.mem_filter.1 hv).1)
        rw [(itaniumEmpty_struct struct empty).2.1] at dyn
        cases dyn
      rw [none] at lastSize
      simp only [Run.info, finishLayout, List.map_nil, List.sum_nil] at lastSize ⊢
      omega
    · simp only [Run.info, finishLayout, Run.nonVirtual]
      split <;> omega

omit laid in
theorem union_bounded {info : RecordInfo} (union : (h.record r).tag = .union) (known : layoutItanium m h L r = some info)
    (below : ∀ c, h.Contains r c → c ≠ r → ∀ ci, L c = some ci → ci.Bounded m h c) : info.Bounded m h r := by
  obtain ⟨ps, c, run, rfl⟩ := layoutItanium_union_some union known
  have basic := sixteen_le_alignBound (h := h) r
  have head := head_le_alignBound (h := h) r
  have weight := thread_weight (P := fun c : Cursor => c.align ≤ alignBound h r) (μ := Cursor.size)
    (w := fieldRoomBound m h (room m h) r) run (by rw [headCursor_align]; omega) (by
      rintro f hf c p c' align step
      obtain ⟨fs, ta, fieldSize, typeAlign, -, align', size'⟩ := unionField_some step
      obtain ⟨fits, aligned⟩ := field_bound sizes hf (fun d elem di known => by
        have part : h.Part r d := .inr ⟨f, hf, elem⟩
        have bound := below d (.single part) part.lt.ne di known
        exact ⟨Nat.le_trans (Nat.le_add_right _ _) bound.size, bound.align⟩) fieldSize typeAlign
      simp only [fieldRoomBound]
      refine ⟨by rw [align']; split <;> omega, ?_⟩
      rw [size']
      split <;> omega)
  obtain ⟨align, size⟩ := weight
  have rounded := roundUp_le c.size c.align
  have bound : (finishUnion (h.record r) ps c).size + alignBound h r ≤ room m h r := by
    rw [room_eq, roomBody]
    simp only [finishUnion, atLeastOne, headCursor_size] at size ⊢
    split <;> omega
  refine ⟨Nat.le_trans bound (room_le_whole r), ?_, align, align⟩
  unfold RecordInfo.reserve
  split <;> exact Nat.le_trans (Nat.le_add_right _ _) bound

/-- **A layout comes to no more than what the class is made of.** -/
theorem Laid.bounded (complete : h.Complete m r) {info : RecordInfo} (known : L r = some info) : info.Bounded m h r := by
  induction r using Nat.strongRecOn generalizing info with
  | ind r ih =>
    have below : ∀ c, h.Contains r c → c ≠ r → ∀ ci, L c = some ci → ci.Bounded m h c := by
      intro c path ne ci knownC
      have le := path.le
      exact ih c (by omega) (complete.contains path) knownC
    rw [laid r] at known
    by_cases union : (h.record r).tag = .union
    · exact union_bounded sizes union known below
    · obtain ⟨run, rfl⟩ := (layoutItanium_iff_run union).1 known
      exact run.bounded sizes laid union complete below

end

/-- **The layout of a small class stays within an `int64`.** -/
theorem layoutItanium_held (sizes : m.Sizes) (abi : m.abi.isItanium = true) (complete : h.Complete m r)
    (small : h.Small m r) {info : RecordInfo} (known : layoutInfo m h r = some info) : info.Held := by
  have bound := Laid.bounded sizes (layoutInfo_itanium abi) complete known
  have less := small r .refl
  have size := bound.size
  have align := bound.align
  unfold RecordInfo.Held
  omega

/-! ### What the layout of a small class promises -/

/-- **`layoutItanium` ends for a small complete class, without leaving an `int64`, exactly when
neither the class nor anything in it is a class without a vptr two of whose leading empty
bases overlap.** -/
theorem layoutItanium_terminates_iff (supported : m.Supported) (abi : m.abi.isItanium = true)
    (complete : h.Complete m r) (small : h.Small m r) :
    (∃ info, layoutInfo m h r = some info ∧ info.Held) ↔ ∀ c, h.Contains r c → ¬ Clash h c := by
  rw [← Laid.isSome_iff supported.sizes (layoutInfo_itanium abi) complete, Option.isSome_iff_exists]
  constructor
  · rintro ⟨info, known, -⟩
    exact ⟨info, known⟩
  · rintro ⟨info, known⟩
    exact ⟨info, known, layoutItanium_held supported.sizes abi complete small known⟩

/-- `struct E {}; struct A : E {}; struct B : E {}; struct C : A, B {};` -/
def emptyDiamond : Hierarchy := .ofRecords
  [{ name := "E" }, { name := "A", bases := [{ type := .record 0 }] }, { name := "B", bases := [{ type := .record 0 }] },
    { name := "C", bases := [{ type := .record 1 }, { type := .record 2 }] }] (by decide)

theorem emptyDiamond_complete {r : Nat} (le : r ≤ 3) : emptyDiamond.Complete lp64 r :=
  Hierarchy.complete_of_all fun c hc => (by decide : ∀ c ≤ 3, emptyDiamond.completeAt lp64 c = true) c (by omega)

theorem emptyDiamond_small {r : Nat} (le : r ≤ 3) : emptyDiamond.Small lp64 r :=
  Hierarchy.small_of_all fun c hc =>
    (by decide : ∀ c ≤ 3, 8 * wholeRoom emptyDiamond (room lp64 emptyDiamond) c < 2 ^ 63) c (by omega)

/-- The layout of `C` loops: its base `B` meets the `E` of `A` at offset zero. -/
theorem layoutItanium_emptyDiamond_loops : ¬ ∀ (m : Model) (h : Hierarchy) (r : Nat), m.Supported →
    m.abi.isItanium = true → h.Complete m r → (layoutInfo m h r).isSome = true := by
  intro ends
  have := ends lp64 emptyDiamond 3 lp64_supported (by decide) (emptyDiamond_complete (by omega))
  rw [show layoutInfo lp64 emptyDiamond 3 = none by decide] at this
  cases this

/-- In the same program `B` alone has a layout, and `C` is what clashes. -/
theorem layoutItanium_terminates_emptyDiamond :
    (∀ c, emptyDiamond.Contains 2 c → ¬ Clash emptyDiamond c) ∧
      ¬ ∀ c, emptyDiamond.Contains 3 c → ¬ Clash emptyDiamond c := by
  have terminates := fun {r : Nat} (le : r ≤ 3) => layoutItanium_terminates_iff lp64_supported (by decide)
    (emptyDiamond_complete le) (emptyDiamond_small le)
  refine ⟨?_, ?_⟩
  · rw [← terminates (by omega)]
    have held : (layoutInfo lp64 emptyDiamond 2).any (fun info => 8 * (info.size + info.align) < 2 ^ 63) = true := by decide
    obtain ⟨info, known, held⟩ := (Option.any_eq_true ..).1 held
    exact ⟨info, known, by simpa [RecordInfo.Held] using held⟩
  · rw [← terminates (by omega)]
    rintro ⟨info, known, -⟩
    rw [show layoutInfo lp64 emptyDiamond 3 = none by decide] at known
    cases known

/-- **The virtual bases of a complete class are all placed, each in storage of its own or
sharing the address of a subobject it is the primary base of by virtual inheritance, exactly
when the layout ends and every one of them is settled.** -/
theorem vbases_placed_iff (supported : m.Supported) (abi : m.abi.isItanium = true) (complete : h.Complete m r)
    (small : h.Small m r) :
    (∃ info, layoutInfo m h r = some info ∧ info.Held ∧ VBasesPlaced m h (layoutInfo m h) r info) ↔
      (∀ c, h.Contains r c → ¬ Clash h c) ∧
        ∀ v ∈ itaniumVBases h r, v ∈ settledVBases m h (layoutInfo m h) r := by
  have laid : Laid m h (layoutInfo m h) := layoutInfo_itanium abi
  rw [← laid.isSome_iff supported.sizes complete, Option.isSome_iff_exists]
  constructor
  · rintro ⟨info, known, -, placed⟩
    exact ⟨⟨info, known⟩, (laid.vbasesPlaced_iff supported.sizes complete known).1 placed⟩
  · rintro ⟨⟨info, known⟩, settled⟩
    exact ⟨info, known, layoutItanium_held supported.sizes abi complete small known,
      (laid.vbasesPlaced_iff supported.sizes complete known).2 settled⟩

/-- `struct P { virtual void f(); int x; }; struct B : P {}; struct R : B, virtual P {};` -/
def plainAndVirtual : Hierarchy := .ofRecords
  [{ name := "P", methods := [{ name := "f", virtual := true }], fields := [{ name := "x", type := .basic .int }] },
    { name := "B", bases := [{ type := .record 0 }] },
    { name := "R", bases := [{ type := .record 1 }, { type := .record 0, virtual := true }] }] (by decide)

theorem plainAndVirtual_complete : plainAndVirtual.Complete lp64 2 :=
  Hierarchy.complete_of_all (by decide)

/-- `P` is the non-virtual primary base of `B` and a virtual base of `R`, and has no entry. -/
theorem vbases_plainAndVirtual_lost : ¬ ∀ (m : Model) (h : Hierarchy) (r : Nat), m.Supported →
    m.abi.isItanium = true → h.Complete m r →
    ∃ info, layoutInfo m h r = some info ∧ VBasesPlaced m h (layoutInfo m h) r info := by
  intro all
  obtain ⟨info, known, placed⟩ := all lp64 plainAndVirtual 2 lp64_supported (by decide) plainAndVirtual_complete
  obtain ⟨off, entry, -⟩ := placed 0 (by decide)
  have lost : (layoutInfo lp64 plainAndVirtual 2).map (fun info => info.vbaseOffsets.lookup 0) = some none := by decide
  rw [known, Option.map_some, entry] at lost
  cases lost

/-- `struct V { int x; }; struct A : virtual V {}; struct B : virtual V {}; struct D : A, B {};` -/
def virtualDiamond : Hierarchy := .ofRecords
  [{ name := "V", fields := [{ name := "x", type := .basic .int }] },
    { name := "A", bases := [{ type := .record 0, virtual := true }] },
    { name := "B", bases := [{ type := .record 0, virtual := true }] },
    { name := "D", bases := [{ type := .record 1 }, { type := .record 2 }] }] (by decide)

theorem virtualDiamond_complete : virtualDiamond.Complete lp64 3 :=
  Hierarchy.complete_of_all (by decide)

/-- The shared `V` of a diamond is placed. -/
theorem vbases_virtualDiamond_placed : ∃ info, layoutInfo lp64 virtualDiamond 3 = some info ∧ info.Held ∧
    VBasesPlaced lp64 virtualDiamond (layoutInfo lp64 virtualDiamond) 3 info := by
  refine (vbases_placed_iff lp64_supported (by decide) virtualDiamond_complete
    (Hierarchy.small_of_all (by decide))).2 ⟨?_, by decide⟩
  rw [← Laid.isSome_iff lp64_supported.sizes (layoutInfo_itanium (by decide)) virtualDiamond_complete]
  decide

end Vcx.Types
