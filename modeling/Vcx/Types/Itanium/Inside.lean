import Vcx.Types.Itanium.VBases

/-!
# Everything in a class lies inside it

The bases and members of a laid-out class lie in its non-virtual part, the virtual bases in its
size: those that share a subobject's address too, since a vptr fits into that subobject. Hence
every empty subobject of a class lies inside it, at any depth.
-/

namespace Vcx.Types
set_option autoImplicit false
open Vcx.Lib

variable {m : Model} {h : Hierarchy} {L : Layouts} {r : Nat}

/-- The parts of a laid-out class lie in its first `inner` bytes, the virtual bases in its size. -/
structure RecordInfo.Encloses (m : Model) (h : Hierarchy) (L : Layouts) (r : Nat) (info : RecordInfo) (inner : Nat) :
    Prop where
  bases : ∀ i b c bi, (h.record r).bases[i]? = some b → b.plain = some c → L c = some bi →
    info.baseOffsets.getD i 0 + bi.reserve (itaniumEmpty h c) ≤ inner
  fields : ∀ i f, (h.record r).fields[i]? = some f → f.bitField = false →
    ∃ fs, sizeof m h L f.type = some fs ∧ info.fieldOffsets.getD i 0 + fs ≤ inner
  vbases : ∀ v off vi, info.vbaseOffsets.lookup v = some off → L v = some vi →
    off + vi.reserve (itaniumEmpty h v) ≤ info.size
  reserve : inner ≤ info.reserve (itaniumEmpty h r)
  size : inner ≤ info.size

/-- The elements of an array of classes are as many as its size says. -/
theorem sizeof_elemCount {t : Ty} {c fs : Nat} (elem : t.recordElem = some c) (size : sizeof m h L t = some fs) :
    ∃ ci, L c = some ci ∧ sizeof m h L (.record c) = some ci.size ∧ fs = t.elemCount * ci.size := by
  fun_induction sizeof m h L t generalizing fs with
  | case2 q t plain ih =>
    rw [Ty.recordElem.eq_2 _ _ plain] at elem
    rw [Ty.elemCount.eq_2 _ _ plain]
    exact ih elem size
  | case13 e len incomplete closed ih =>
    obtain ⟨k, elemSize, rfl⟩ := Option.map_eq_some_iff.1 size
    obtain ⟨ci, known, whole, rfl⟩ := ih (by simpa [Ty.recordElem] using elem) elemSize
    exact ⟨ci, known, whole, by rw [Ty.elemCount, Nat.mul_comm len, Nat.mul_right_comm]⟩
  | case14 r complete =>
    obtain ⟨ci, known, rfl⟩ := Option.map_eq_some_iff.1 size
    simp only [Ty.recordElem, Option.some.injEq] at elem
    subst elem
    exact ⟨ci, known, by simp [sizeof, complete, known], by simp [Ty.elemCount]⟩
  | _ => simp_all [Ty.recordElem]

/-- **Every empty subobject lies inside its class**, when the parts of the classes do. -/
theorem eachEmpty_lt (positive : ∀ c info, L c = some info → 0 < info.reserve (itaniumEmpty h c) ∧ 0 < info.size)
    (encloses : ∀ c, h.Contains r c → ∃ info inner, L c = some info ∧ info.Encloses m h L c inner)
    {info : RecordInfo} (known : L r = some info) {start : Nat} {asBase : Bool} {e : Nat × Nat}
    (mem : e ∈ eachEmpty m h L r start asBase) :
    e.2 < start + if asBase then info.reserve (itaniumEmpty h r) else info.size := by
  induction r using Nat.strongRecOn generalizing info start asBase with
  | ind r ih =>
    obtain ⟨info', inner, known', so⟩ := encloses r .refl
    rw [known] at known'
    cases known'
    have reserve := so.reserve
    have size := so.size
    have part : ∀ c, h.Contains r c → c < r → ∃ ci, L c = some ci ∧ ∀ start asBase, e ∈ eachEmpty m h L c start asBase →
        e.2 < start + if asBase then ci.reserve (itaniumEmpty h c) else ci.size := by
      intro c path lt
      obtain ⟨ci, -, knownPart, -⟩ := encloses c path
      exact ⟨ci, knownPart, fun start asBase mem => ih c lt (fun d rest => encloses d (path.trans rest)) knownPart mem⟩
    have inside : e.2 < start + inner → e.2 < start + if asBase then info.reserve (itaniumEmpty h r) else info.size := by
      intro lt
      split <;> omega
    rcases mem_eachEmpty.1 mem with ⟨-, rfl⟩ | ⟨info', b, i, c, known', hb, hc, inBase⟩ |
      ⟨info', v, off, known', whole, hv, entry, inVBase⟩ | ⟨info', f, i, c, k, known', hf, hc, lt, inField⟩
    · have := positive r info known
      simp only
      split <;> omega
    · rw [known] at known'
      cases known'
      have base : h.Base r c := ⟨b, List.fst_mem_of_mem_zipIdx hb, (BaseSpec.plain_eq_some.1 hc).2⟩
      obtain ⟨ci, knownPart, below⟩ := part c (.single (.inl base)) base.lt
      have := below _ _ inBase
      have := so.bases i b c ci (List.mem_zipIdx_iff_getElem?.1 hb) hc knownPart
      simp only [if_true] at *
      exact inside (by omega)
    · rw [known] at known'
      cases known'
      subst whole
      have vbase := mem_itaniumVBases.1 hv
      obtain ⟨vi, knownPart, below⟩ := part v vbase.derives.contains vbase.lt
      have := below _ _ inVBase
      have := so.vbases v off vi entry knownPart
      simp only [if_true, Bool.false_eq_true, if_false] at *
      omega
    · rw [known] at known'
      cases known'
      have mem' := List.fst_mem_of_mem_zipIdx hf
      obtain ⟨ci, knownPart, below⟩ := part c (.single (.inr ⟨f, mem', hc⟩)) (h.member_lt r f mem' c hc)
      have plain : f.bitField = false := by
        cases bit : f.bitField with
        | false => rfl
        | true =>
          rw [Ty.recordElem_of_isIntegral (h.bitField_integral r f mem' bit)] at hc
          cases hc
      obtain ⟨fs, fieldSize, fits⟩ := so.fields i f (List.mem_zipIdx_iff_getElem?.1 hf) plain
      obtain ⟨ci', known', whole, rfl⟩ := sizeof_elemCount hc fieldSize
      rw [knownPart] at known'
      cases known'
      have := below _ _ inField
      have elems := Nat.mul_le_mul_right ci.size (Nat.succ_le_of_lt lt)
      simp only [whole, Option.getD_some, Bool.false_eq_true, if_false, Nat.succ_mul] at *
      exact inside (by omega)

theorem SubobjectAt.derives {f : Nat → Nat → Nat} {at_ : VBaseMap} {c off : Nat} (e : SubobjectAt h f at_ r c off) :
    h.Derives r c := by
  induction e with
  | self => exact .refl
  | plain _ here cls ih => exact ih.tail ⟨_, List.mem_of_getElem? here, (BaseSpec.plain_eq_some.1 cls).2⟩
  | virt _ here _ cls _ ih => exact ih.tail ⟨_, here, cls⟩

section

variable (sizes : m.Sizes) (laid : Laid m h L)
include sizes laid

theorem Run.bases_inside (run : Run m h L r) :
    ∀ p ∈ (h.record r).bases.zipIdx.zip run.baseOffs, ∀ c bi, p.1.1.plain = some c → (h.record c).complete = true →
      L c = some bi → p.2 + bi.reserve (itaniumEmpty h c) ≤ run.afterBases.size := by
  have history := thread_history
    (P := fun done cur => run.afterPrimary.size ≤ cur.size ∧ ∀ p ∈ done, ∀ c bi, p.1.1.plain = some c →
      (h.record c).complete = true → L c = some bi → p.2 + bi.reserve (itaniumEmpty h c) ≤ cur.size) run.bases []
    ⟨Nat.le_refl _, by simp⟩ (by
      rintro done ⟨b, i⟩ hb cur off cur' ⟨grew, old⟩ step
      suffices here : cur.size ≤ cur'.size ∧ ∀ c bi, b.plain = some c → (h.record c).complete = true →
          L c = some bi → off + bi.reserve (itaniumEmpty h c) ≤ cur'.size by
        refine ⟨Nat.le_trans grew here.1, ?_⟩
        intro p hp c bi plain complete known
        rcases List.mem_append.1 hp with hp | hp
        · exact Nat.le_trans (old p hp c bi plain complete known) here.1
        · obtain rfl := List.mem_singleton.1 hp
          exact here.2 c bi plain complete known
      rcases placeBaseAt_some step with ⟨rfl, kept | ⟨-, -, passed⟩⟩ | ⟨d, -, hd, step⟩
      · -- the primary base, at the start
        refine ⟨Nat.le_refl _, ?_⟩
        intro c bi plain _ known
        unfold keepPrimary at kept
        split at kept
        · rename_i idx
          obtain ⟨b', c', at', cls, zero, dsize, -, -⟩ := run.head_primary sizes laid idx
          obtain ⟨b'', c'', at'', cls', -, data, -⟩ := primaryBase_idx idx
          rw [List.mem_zipIdx_iff_getElem?.1 hb] at at' at''
          cases at'
          cases at''
          rw [(BaseSpec.plain_eq_some.1 plain).2] at cls cls'
          cases cls
          cases cls'
          rw [zero] at kept
          cases kept
          have := run.head_le_size sizes laid
          rw [dataSize_known known, data] at dsize
          simp only [RecordInfo.reserve, data, Bool.false_eq_true, if_false] at dsize ⊢
          omega
        · cases kept
      · refine ⟨Nat.le_refl _, ?_⟩
        intro c bi plain complete
        rw [passed c plain] at complete
        cases complete
      · obtain ⟨bi, known, -, placed⟩ := laid.placeBase sizes step
        have size := placed.size
        refine ⟨by omega, ?_⟩
        intro c bi' plain _ known'
        rw [hd] at plain
        cases plain
        rw [known] at known'
        cases known'
        omega)
  exact history.2

theorem Run.fields_inside (run : Run m h L r) :
    run.afterBases.size ≤ run.afterFields.size ∧ ∀ p ∈ (h.record r).fields.zip run.fields, p.1.bitField = false →
      ∃ fs, sizeof m h L p.1.type = some fs ∧ p.2.offset + fs ≤ run.afterFields.size := by
  have history := thread_history
    (P := fun done (s : Nat × Cursor) => run.afterBases.size ≤ s.2.size ∧ ∀ p ∈ done, p.1.bitField = false →
      ∃ fs, sizeof m h L p.1.type = some fs ∧ p.2.offset + fs ≤ s.2.size) run.members []
    ⟨Nat.le_refl _, by simp⟩ (by
      rintro done f hf s p s' ⟨grew, old⟩ step
      obtain ⟨fs, ta, size, -, -, placed⟩ := laid.placeField sizes step
      have here : s.2.size ≤ s'.2.size ∧ (f.bitField = false → p.offset + fs ≤ s'.2.size) := by
        rcases placed with ⟨bit, placed⟩ | ⟨fr, plain, empty, placed⟩ | ⟨plain, noEmpty, placed⟩
        · have size := placed.size
          exact ⟨by omega, by simp [bit]⟩
        · have size := placed.size
          exact ⟨by omega, fun _ => by omega⟩
        · have size := placed.size
          exact ⟨by omega, fun _ => by omega⟩
      refine ⟨Nat.le_trans grew here.1, ?_⟩
      intro q hq plain
      rcases List.mem_append.1 hq with hq | hq
      · obtain ⟨fs', size', le⟩ := old q hq plain
        exact ⟨fs', size', Nat.le_trans le here.1⟩
      · obtain rfl := List.mem_singleton.1 hq
        exact ⟨fs, size, here.2 plain⟩)
  simpa using history

theorem Run.fresh_inside (run : Run m h L r) :
    run.afterFields.size ≤ run.last.size ∧ ∀ p ∈ (freshVBases m h L r).zip run.vbaseOffs, ∀ vi, L p.1 = some vi →
      p.2 + vi.reserve (itaniumEmpty h p.1) ≤ run.last.size := by
  have history := thread_history
    (P := fun done (c : Cursor) => run.afterFields.size ≤ c.size ∧ ∀ p ∈ done, ∀ vi, L p.1 = some vi →
      p.2 + vi.reserve (itaniumEmpty h p.1) ≤ c.size) run.vbases []
    ⟨Nat.le_refl _, by simp⟩ (by
      rintro done v hv c off c' ⟨grew, old⟩ step
      obtain ⟨bi, known, -, placed⟩ := laid.placeBase sizes step
      have size := placed.size
      refine ⟨by omega, ?_⟩
      intro p hp vi known'
      rcases List.mem_append.1 hp with hp | hp
      · have := old p hp vi known'
        omega
      · obtain rfl := List.mem_singleton.1 hp
        rw [known] at known'
        cases known'
        simp only at *
        omega)
  simpa using history

/-- The head of a class whose primary base is `v` by virtual inheritance. -/
theorem Laid.ptr_le_reserve (complete : h.Complete m r) {info : RecordInfo} (known : L r = some info)
    (struct : (h.record r).tag ≠ .union) (dyn : isDynamic h r = true) : m.sizePtr ≤ info.reserve (itaniumEmpty h r) := by
  rw [laid r] at known
  obtain ⟨run, rfl⟩ := (layoutItanium_iff_run struct).1 known
  have head := run.ptr_le_head sizes laid dyn complete
  have first := run.head_le_size sizes laid
  have bases := (run.sound sizes laid fun d e => ((complete.part (.inl e)).at).complete).bases.size
  have members := (run.fields_inside sizes laid).1
  have one := le_atLeastOne run.afterFields.size
  have rounded := le_roundUp (atLeastOne run.afterFields.size) run.last.align
  simp only [RecordInfo.reserve, not_empty_of_dynamic struct dyn, Bool.false_eq_true, if_false, Run.info, finishLayout,
    Run.nonVirtual]
  split <;> omega

theorem Run.sizes_le (run : Run m h L r) (complete : h.Complete m r) :
    run.afterPrimary.size ≤ run.afterBases.size ∧ run.afterBases.size ≤ run.afterFields.size ∧
      run.afterFields.size ≤ run.last.size ∧ run.last.size ≤ run.info.size := by
  have sound := run.sound sizes laid fun d e => ((complete.part (.inl e)).at).complete
  have rounded := le_roundUp run.last.size run.last.align
  have one := le_atLeastOne (roundUp run.last.size run.last.align)
  exact ⟨sound.bases.size, (run.fields_inside sizes laid).1, (run.fresh_inside sizes laid).1, by
    simp only [Run.info, finishLayout]
    omega⟩

/-- A virtual base lies inside the class, in a place of its own or in that of the subobject it
shares. That subobject's class has a greater number, so the entries are taken from the
greatest number down. -/
theorem Run.vbases_inside (run : Run m h L r) (known : L r = some run.info) (complete : h.Complete m r)
    (below : ∀ d, h.Derives r d → d ≠ r → ∃ di inner, L d = some di ∧ di.Encloses m h L d inner) {v off : Nat}
    {vi : RecordInfo} (entry : run.info.vbaseOffsets.lookup v = some off) (knownV : L v = some vi) :
    off + vi.reserve (itaniumEmpty h v) ≤ run.info.size := by
  obtain ⟨first, second, third, fourth⟩ := run.sizes_le sizes laid complete
  have knownAll : ∀ d, h.Derives r d → d ≠ r → ∃ info, L d = some info :=
    fun d path _ => laid.known_contains complete known path.contains
  have so := run.sharing knownAll
  induction hn : r - v using Nat.strongRecOn generalizing v off vi with
  | ind n ih =>
    subst hn
    rcases so.shared v off entry with placed | ⟨d, e, virt⟩
    · rcases run.lookup_placed placed with fresh | ⟨virt, at_⟩
      · have := (run.fresh_inside sizes laid).2 (v, off) fresh vi knownV
        simp only at this
        omega
      · obtain ⟨rfl, i, idx⟩ := run.primaryOff_zero sizes laid at_
        obtain ⟨b, c, here, cls, -, dsize, -, -⟩ := run.head_primary sizes laid idx
        obtain ⟨b', c', here', cls', -, data, side⟩ := primaryBase_idx idx
        rw [here] at here'
        cases here'
        rw [cls] at cls'
        cases cls'
        rcases side with ⟨none, -⟩ | ⟨some, -⟩
        · rw [virt] at none
          cases none
        · rw [virt] at some
          cases some
          have := run.head_le_size sizes laid
          rw [dataSize_known knownV, data] at dsize
          simp only [RecordInfo.reserve, data, Bool.false_eq_true, if_false] at dsize ⊢
          omega
    · -- the holder's own bytes are enough for a vptr
      obtain ⟨vbase, nearly⟩ := nearlyEmpty_of_virt virt
      obtain ⟨dynV, vi', known', size⟩ := nearlyEmpty_spec nearly
      rw [knownV] at known'
      cases known'
      have data : itaniumEmpty h v = false := by
        obtain ⟨d', -, b, hb, -, cls⟩ := vbase
        exact not_empty_of_dynamic (h.union_base d' b hb v cls) dynV
      have room : ∀ c o, SubobjectAt h run.baseOffset run.info.vbaseOffsets r c o → v < c →
          ∃ ci, L c = some ci ∧
            o + (if c = r then run.afterFields.size else ci.reserve (itaniumEmpty h c)) ≤ run.info.size := by
        intro c o sub lt
        induction sub with
        | self => exact ⟨_, known, by simp only [if_true]; omega⟩
        | @plain d o i c b outer here cls ihOuter =>
          have mem := List.mem_of_getElem? here
          have base : h.Base d c := ⟨b, mem, (BaseSpec.plain_eq_some.1 cls).2⟩
          have lower := base.lt
          have path := outer.derives
          have bound := path.le
          obtain ⟨di, knownD, le⟩ := ihOuter (by omega)
          obtain ⟨ci, knownC⟩ := knownAll c (path.tail base) (by omega)
          refine ⟨ci, knownC, ?_⟩
          rw [if_neg (by omega)]
          by_cases eq : d = r
          · subst eq
            have complete' := ((complete.part (.inl base)).at).complete
            have inside := run.bases_inside sizes laid ((b, i), run.baseOffs.getD i 0)
              (mem_zip_of_getElem? 0 (by simp [here]) (by simp [run.baseOffs_length])) c ci cls complete' knownC
            simp only [Run.baseOffset, if_true] at inside le ⊢
            omega
          · obtain ⟨di', inner, known', so⟩ := below d path eq
            rw [knownD] at known'
            cases known'
            have inside := so.bases i b c ci here cls knownC
            have reserve := so.reserve
            simp only [Run.baseOffset, eq, if_false, Vcx.Types.baseOffset, knownD, Option.map_some, Option.getD_some]
              at le ⊢
            omega
        | @virt d o w o' b outer here virtual cls entry' _ =>
          have path := outer.derives
          have lower := h.base_lt d b here w cls
          have bound := path.le
          obtain ⟨wi, knownW⟩ := knownAll w (path.tail ⟨b, here, cls⟩) (by omega)
          refine ⟨wi, knownW, ?_⟩
          rw [if_neg (by omega)]
          exact ih (r - w) (by omega) entry' knownW rfl
      obtain ⟨ci, knownD, le⟩ := room d off e vbase.lt
      have dyn := isDynamic_of_vbase vbase
      have pointer : m.sizePtr ≤ if d = r then run.afterFields.size else ci.reserve (itaniumEmpty h d) := by
        split
        · rename_i eq
          subst eq
          have := run.ptr_le_head sizes laid dyn complete
          have := run.head_le_size sizes laid
          omega
        · exact laid.ptr_le_reserve sizes (complete.contains e.derives.contains) knownD vbase.struct dyn
      simp only [RecordInfo.reserve, data, Bool.false_eq_true, if_false, size]
      omega

theorem Run.encloses (run : Run m h L r) (known : L r = some run.info) (complete : h.Complete m r)
    (below : ∀ d, h.Derives r d → d ≠ r → ∃ di inner, L d = some di ∧ di.Encloses m h L d inner) :
    run.info.Encloses m h L r run.afterFields.size := by
  obtain ⟨first, second, third, fourth⟩ := run.sizes_le sizes laid complete
  refine ⟨?_, ?_, fun v off vi => run.vbases_inside sizes laid known complete below, ?_, by omega⟩
  · intro i b c bi here plain knownC
    obtain ⟨nonVirtual, cls⟩ := BaseSpec.plain_eq_some.1 plain
    have complete' := ((complete.part (.inl ⟨b, List.mem_of_getElem? here, cls⟩)).at).complete
    have inside := run.bases_inside sizes laid ((b, i), run.baseOffs.getD i 0)
      (mem_zip_of_getElem? 0 (by simp [here]) (by simp [run.baseOffs_length])) c bi plain complete' knownC
    rw [run.baseOffsets_plain here nonVirtual]
    simp only at inside
    omega
  · intro i f here plain
    obtain ⟨fs, size, le⟩ := (run.fields_inside sizes laid).2 (f, run.fields.getD i ⟨0, 0, 0⟩)
      (mem_zip_of_getElem? _ here run.fields_length) plain
    refine ⟨fs, size, ?_⟩
    obtain ⟨lt, -⟩ := List.getElem?_eq_some_iff.1 here
    have lt' : i < run.fields.length := by rw [run.fields_length]; exact lt
    simpa [Run.info, finishLayout, Run.nonVirtual, lt'] using le
  · have one := le_atLeastOne run.afterFields.size
    have rounded := le_roundUp (atLeastOne run.afterFields.size) run.last.align
    unfold RecordInfo.reserve
    split
    · omega
    · simp only [Run.info, finishLayout, Run.nonVirtual]
      split <;> omega

omit sizes laid in
theorem union_encloses {info : RecordInfo} (union : (h.record r).tag = .union)
    (known : layoutItanium m h L r = some info) : info.Encloses m h L r info.size := by
  obtain ⟨ps, c, run, rfl⟩ := layoutItanium_union_some union known
  have history := thread_history
    (P := fun done (c : Cursor) => ∀ p ∈ done, p.2.offset = 0 ∧ (p.1.bitField = false →
      ∃ fs, sizeof m h L p.1.type = some fs ∧ fs ≤ c.size)) run [] (by simp) (by
      rintro done f hf c p c' old step q hq
      obtain ⟨fs, ta, size, -, rfl, -, grew⟩ := unionField_some step
      rcases List.mem_append.1 hq with hq | hq
      · obtain ⟨zero, inside⟩ := old q hq
        refine ⟨zero, fun plain => ?_⟩
        obtain ⟨fs', size', le⟩ := inside plain
        exact ⟨fs', size', by omega⟩
      · obtain rfl := List.mem_singleton.1 hq
        refine ⟨rfl, fun plain => ⟨fs, size, ?_⟩⟩
        simp only at plain
        rw [plain] at grew
        simp only [Bool.false_eq_true, if_false] at grew
        omega)
  have rounded := le_roundUp c.size c.align
  have one := le_atLeastOne (roundUp c.size c.align)
  refine ⟨?_, ?_, ?_, ?_, Nat.le_refl _⟩
  · intro i b c bi here
    rw [h.union_bases r union] at here
    cases here
  · intro i f here plain
    have mem := mem_zip_of_getElem? (⟨0, 0, 0⟩ : Placed) here (thread_length run)
    obtain ⟨zero, inside⟩ := history _ mem
    obtain ⟨fs, size, le⟩ := inside plain
    refine ⟨fs, size, ?_⟩
    have offset : (finishUnion (h.record r) ps c).fieldOffsets.getD i 0 = (ps.getD i ⟨0, 0, 0⟩).offset :=
      List.getD_map ps (⟨0, 0, 0⟩ : Placed) Placed.offset
    simp only at zero
    rw [offset, zero]
    simp only [finishUnion]
    omega
  · intro v off vi entry
    cases entry
  · unfold RecordInfo.reserve
    split <;> exact Nat.le_refl _

/-- **The parts of a laid-out class lie inside it.** -/
theorem Laid.encloses (complete : h.Complete m r) {info : RecordInfo} (known : L r = some info) :
    ∃ inner, info.Encloses m h L r inner := by
  induction r using Nat.strongRecOn generalizing info with
  | ind r ih =>
    have shown := known
    rw [laid r] at shown
    by_cases union : (h.record r).tag = .union
    · exact ⟨_, union_encloses union shown⟩
    · obtain ⟨run, rfl⟩ := (layoutItanium_iff_run union).1 shown
      refine ⟨_, run.encloses sizes laid known complete ?_⟩
      intro d path ne
      have le := path.le
      obtain ⟨di, knownD⟩ := laid.known_contains complete known path.contains
      obtain ⟨inner, so⟩ := ih d (by omega) (complete.contains path.contains) knownD
      exact ⟨di, inner, knownD, so⟩

/-- **Every empty subobject lies inside its class.** -/
theorem Laid.eachEmpty_lt (complete : h.Complete m r) {info : RecordInfo} (known : L r = some info) {start : Nat}
    {asBase : Bool} {e : Nat × Nat} (mem : e ∈ eachEmpty m h L r start asBase) :
    e.2 < start + if asBase then info.reserve (itaniumEmpty h r) else info.size := by
  refine Vcx.Types.eachEmpty_lt ?_ ?_ known mem
  · intro c ci knownC
    have pos := laid.positive sizes knownC
    refine ⟨?_, pos.size⟩
    unfold RecordInfo.reserve
    split
    · exact pos.size
    · exact pos.nvsize
  · intro c path
    obtain ⟨ci, knownC⟩ := laid.known_contains complete known path
    obtain ⟨inner, so⟩ := laid.encloses sizes (complete.contains path) knownC
    exact ⟨ci, inner, knownC, so⟩

end

end Vcx.Types
