import Vcx.Types.Itanium.Inside
import Vcx.Types.Itanium.Powers

/-!
# Bases are aligned

A base that is placed goes to a multiple of its alignment. A virtual base that shares the
address of a subobject goes where that one is, and is aligned when that one is aligned at least
as much: so it is when the subobject's class has it as a direct base, and when it asks for no
more than a vptr.
-/

namespace Vcx.Types
set_option autoImplicit false
open Vcx.Lib

/-- The virtual bases that share the address of a base of `r` ask for no more than that base has. -/
def SharesAligned (m : Model) (h : Hierarchy) (L : Layouts) (r : Nat) : Prop :=
  ∀ d v, h.Derives r d → d ≠ r → (primaryBase m h L d).virt = some v →
    h.PowerAligned r ∧ ((primaryBase m h L d).idx = none → ∀ vi, L v = some vi → vi.nvalign ≤ m.sizePtr)

variable {m : Model} {h : Hierarchy} {L : Layouts} {r : Nat}

theorem SubobjectAt.eq_zero {f : Nat → Nat → Nat} {at_ : VBaseMap} {c off : Nat} (e : SubobjectAt h f at_ r c off)
    (whole : c = r) : off = 0 := by
  cases e with
  | self => rfl
  | plain outer here cls =>
    have below : h.Base _ c := ⟨_, List.mem_of_getElem? here, (BaseSpec.plain_eq_some.1 cls).2⟩
    have := below.lt
    have := outer.derives.le
    omega
  | virt outer here virtual cls entry =>
    have := h.base_lt _ _ here c cls
    have := outer.derives.le
    omega

/-- A direct virtual base is reported where its entry says. -/
theorem Run.baseOffsets_virtual (run : Run m h L r) {b : BaseSpec} {i c : Nat} (here : (h.record r).bases[i]? = some b)
    (virtual : b.virtual = true) (cls : b.cls = some c) :
    run.info.baseOffsets.getD i 0 = (run.info.vbaseOffsets.lookup c).getD 0 := by
  obtain ⟨lt, eq⟩ := List.getElem?_eq_some_iff.1 here
  have len := run.baseOffs_length
  simp only [Run.info, finishLayout, finalBaseOffsets, Run.nonVirtual]
  rw [List.getD_eq_getElem _ _ (by simp [len, lt])]
  simp [eq, virtual, cls]

section

variable (sizes : m.Sizes) (laid : Laid m h L)
include sizes laid

/-- The primary base is placed first, and so counts in the alignment. -/
theorem Run.primary_align (run : Run m h L r) {i c : Nat} {b : BaseSpec} {bi : RecordInfo}
    (idx : (primaryBase m h L r).idx = some i) (here : (h.record r).bases[i]? = some b) (cls : b.cls = some c)
    (known : L c = some bi) : bi.nvalign ≤ run.afterPrimary.align := by
  rcases placePrimary_some run.primary with ⟨alone, -⟩ | ⟨i', b', d, o, idx', here', cls', -, step⟩
  · rw [idx] at alone
    cases alone
  · rw [idx] at idx'
    cases idx'
    rw [here] at here'
    cases here'
    rw [cls] at cls'
    cases cls'
    obtain ⟨bi', known', -, placed⟩ := laid.placeBase sizes step
    rw [known] at known'
    cases known'
    rw [placed.align]
    exact Nat.le_max_right _ _

/-- A non-virtual base with data is at a multiple of its alignment, and the class is aligned at
least as much. -/
theorem Run.plain_aligned (run : Run m h L r) {i c : Nat} {b : BaseSpec} {bi : RecordInfo}
    (here : (h.record r).bases[i]? = some b) (plain : b.plain = some c) (data : itaniumEmpty h c = false)
    (known : L c = some bi) (complete : (h.record c).complete = true) :
    bi.nvalign ∣ run.baseOffs.getD i 0 ∧ bi.nvalign ≤ run.afterBases.align := by
  obtain ⟨nonVirtual, cls⟩ := BaseSpec.plain_eq_some.1 plain
  have history := thread_history
    (P := fun done cur => run.afterPrimary.align ≤ cur.align ∧ ∀ p ∈ done, p.1.1.plain = some c →
      (primaryBase m h L r).idx ≠ some p.1.2 → bi.nvalign ∣ p.2 ∧ bi.nvalign ≤ cur.align) run.bases []
    ⟨Nat.le_refl _, by simp⟩ (by
      rintro done ⟨b', i'⟩ hb cur off cur' ⟨grew, old⟩ step
      suffices here : cur.align ≤ cur'.align ∧ (b'.plain = some c → (primaryBase m h L r).idx ≠ some i' →
          bi.nvalign ∣ off ∧ bi.nvalign ≤ cur'.align) by
        refine ⟨Nat.le_trans grew here.1, ?_⟩
        intro p hp plain idx
        rcases List.mem_append.1 hp with hp | hp
        · obtain ⟨dvd, le⟩ := old p hp plain idx
          exact ⟨dvd, Nat.le_trans le here.1⟩
        · obtain rfl := List.mem_singleton.1 hp
          exact here.2 plain idx
      rcases placeBaseAt_some step with ⟨rfl, kept | ⟨-, -, passed⟩⟩ | ⟨d, -, plain', step⟩
      · refine ⟨Nat.le_refl _, fun _ idx => ?_⟩
        simp only [keepPrimary] at kept
        rw [if_neg idx] at kept
        cases kept
      · refine ⟨Nat.le_refl _, fun plain => ?_⟩
        rw [passed c plain] at complete
        cases complete
      · obtain ⟨bi', known', -, placed⟩ := laid.placeBase sizes step
        have align := placed.align
        refine ⟨by omega, fun plain _ => ?_⟩
        simp only at plain plain'
        rw [plain] at plain'
        cases plain'
        rw [known] at known'
        cases known'
        exact ⟨placed.aligned data, by omega⟩)
  by_cases idx : (primaryBase m h L r).idx = some i
  · rw [run.baseOffs_primary sizes laid idx]
    exact ⟨Nat.dvd_zero _, Nat.le_trans (run.primary_align sizes laid idx here cls known) history.1⟩
  · have mem : ((b, i), run.baseOffs.getD i 0) ∈ (h.record r).bases.zipIdx.zip run.baseOffs :=
      mem_zip_of_getElem? 0 (by simp [here]) (by simp [run.baseOffs_length])
    exact history.2 _ (by simpa using mem) plain idx

theorem Run.fresh_aligned (run : Run m h L r) {v off : Nat} {vi : RecordInfo}
    (fresh : (v, off) ∈ (freshVBases m h L r).zip run.vbaseOffs) (data : itaniumEmpty h v = false)
    (known : L v = some vi) : vi.nvalign ∣ off := by
  have answers := thread_answers (P := fun _ : Cursor => True) (Q := fun w off => w = v → vi.nvalign ∣ off)
    run.vbases trivial (by
      intro w hw c off c' _ step
      refine ⟨?_, trivial⟩
      rintro rfl
      obtain ⟨bi, known', -, placed⟩ := laid.placeBase sizes step
      rw [known] at known'
      cases known'
      exact placed.aligned data)
  exact answers _ fresh rfl

omit sizes laid in
/-- A dynamic class is aligned for its vptr, or as its primary base. -/
theorem Run.ptr_le_align (run : Run m h L r) (dyn : isDynamic h r = true) (alone : (primaryBase m h L r).idx = none) :
    m.sizePtr ≤ run.afterPrimary.align := by
  rw [(run.head_alone alone).2, startCursor, dyn, alone]
  simp

/-- The alignments in a laid-out class, from the start of its layout on. -/
theorem Run.aligns_le (run : Run m h L r) (complete : h.Complete m r) :
    run.afterPrimary.align ≤ run.afterBases.align ∧ run.afterBases.align ≤ run.info.nvalign := by
  have sound := run.sound sizes laid fun d e => ((complete.part (.inl e)).at).complete
  exact ⟨sound.bases.align, sound.members.align⟩

/-- A class is aligned at least as much as its primary virtual base, when that one is a direct base
or asks for no more than a vptr. -/
theorem Laid.primary_align (complete : h.Complete m r) {v : Nat} {info vi : RecordInfo}
    (virt : (primaryBase m h L r).virt = some v)
    (low : (primaryBase m h L r).idx = none → ∀ vi, L v = some vi → vi.nvalign ≤ m.sizePtr)
    (known : L r = some info) (knownV : L v = some vi) : vi.nvalign ≤ info.nvalign := by
  obtain ⟨vbase, -⟩ := nearlyEmpty_of_virt virt
  rw [laid r] at known
  obtain ⟨run, rfl⟩ := (layoutItanium_iff_run vbase.struct).1 known
  obtain ⟨first, second⟩ := run.aligns_le sizes laid complete
  cases idx : (primaryBase m h L r).idx with
  | none =>
    have ptr := run.ptr_le_align (isDynamic_of_vbase vbase) idx
    have := low idx vi knownV
    omega
  | some i =>
    obtain ⟨b, c, here, cls, -, -, side⟩ := primaryBase_idx idx
    rcases side with ⟨none, -⟩ | ⟨some, -⟩
    · rw [virt] at none
      cases none
    · rw [virt] at some
      cases some
      have := run.primary_align sizes laid idx here cls knownV
      omega

variable (abi : m.abi.isItanium = true)
include abi

/-- A subobject whose class has a number above `v` is aligned, when the virtual bases above `v`
are. -/
theorem Run.subobject_aligned (run : Run m h L r) (known : L r = some run.info) (complete : h.Complete m r)
    (power : h.PowerAligned r) {v c off : Nat} (entries : ∀ w o wi, v < w → run.info.vbaseOffsets.lookup w = some o →
      itaniumEmpty h w = false → L w = some wi → wi.nvalign ∣ o)
    (sub : SubobjectAt h run.baseOffset run.info.vbaseOffsets r c off) (lt : v < c) (dyn : isDynamic h c = true)
    (ne : c ≠ r) {ci : RecordInfo} (knownC : L c = some ci) : ci.nvalign ∣ off := by
  induction sub generalizing ci with
  | self => exact absurd rfl ne
  | @plain d o i c b outer here cls ih =>
    have mem := List.mem_of_getElem? here
    obtain ⟨nonVirtual, cls'⟩ := BaseSpec.plain_eq_some.1 cls
    have base : h.Base d c := ⟨b, mem, cls'⟩
    have lower := base.lt
    have path := outer.derives
    have completeD := complete.contains path.contains
    have whole := ((completeD.part (.inl base)).at).complete
    have empty := not_empty_of_dynamic (h.union_base d b mem c cls') dyn
    by_cases top : d = r
    · rw [outer.eq_zero top, Nat.zero_add, Run.baseOffset, if_pos top]
      subst top
      exact (run.plain_aligned sizes laid here cls empty knownC whole).1
    · obtain ⟨di, knownD⟩ := laid.known_contains complete known path.contains
      have shown := knownD
      rw [laid d] at shown
      obtain ⟨inner, rfl⟩ := (layoutItanium_iff_run (h.struct_of_base mem)).1 shown
      obtain ⟨dvd, le⟩ := inner.plain_aligned sizes laid here cls empty knownC whole
      have grown := (inner.aligns_le sizes laid completeD).2
      have powerD : h.PowerAligned d := fun x rest => power x (path.contains.trans rest)
      have powerC : h.PowerAligned c := fun x rest => powerD x (.head (.inl base) rest)
      have part : ci.nvalign ∣ inner.info.nvalign := dvd_of_isPowerOfTwo
        (laid.power sizes abi powerC knownC).2 (laid.power sizes abi powerD knownD).2 (by omega)
      have multiple := ih (by omega) (isDynamic_of_derives (.single base) dyn) top knownD
      simp only [Run.baseOffset, top, if_false, Vcx.Types.baseOffset, knownD, Option.map_some, Option.getD_some]
      rw [inner.baseOffsets_plain here nonVirtual]
      exact Nat.dvd_add (Nat.dvd_trans part multiple) dvd
  | @virt d o w o' b outer here virtual cls entry _ =>
    exact entries w o' ci lt entry (not_empty_of_dynamic (h.union_base d b here w cls) dyn) knownC

/-- **A virtual base is aligned**, in a place of its own or in that of the subobject it shares. That
subobject's class has a greater number, so the entries are taken from the greatest number down. -/
theorem Run.vbase_aligned (run : Run m h L r) (known : L r = some run.info) (complete : h.Complete m r)
    (shares : SharesAligned m h L r) {v off : Nat} {vi : RecordInfo}
    (entry : run.info.vbaseOffsets.lookup v = some off) (data : itaniumEmpty h v = false) (knownV : L v = some vi) :
    vi.nvalign ∣ off := by
  have knownAll : ∀ d, h.Derives r d → d ≠ r → ∃ info, L d = some info :=
    fun d path _ => laid.known_contains complete known path.contains
  have so := run.sharing knownAll
  induction hn : r - v using Nat.strongRecOn generalizing v off vi with
  | ind n ih =>
    subst hn
    rcases so.shared v off entry with placed | ⟨d, sub, virt⟩
    · rcases run.lookup_placed placed with fresh | ⟨-, at_⟩
      · exact run.fresh_aligned sizes laid fresh data knownV
      · obtain ⟨rfl, -⟩ := run.primaryOff_zero sizes laid at_
        exact Nat.dvd_zero _
    · by_cases top : d = r
      · rw [sub.eq_zero top]
        exact Nat.dvd_zero _
      · obtain ⟨power, low⟩ := shares d v sub.derives top virt
        obtain ⟨vbase, -⟩ := nearlyEmpty_of_virt virt
        have lower := vbase.lt
        have bound := sub.derives.le
        obtain ⟨di, knownD⟩ := knownAll d sub.derives top
        have le := laid.primary_align sizes (complete.contains sub.derives.contains) virt low knownD knownV
        have powerD : h.PowerAligned d := fun x rest => power x (sub.derives.contains.trans rest)
        have powerV : h.PowerAligned v := fun x rest => powerD x (vbase.derives.contains.trans rest)
        calc vi.nvalign ∣ di.nvalign := dvd_of_isPowerOfTwo (laid.power sizes abi powerV knownV).2
              (laid.power sizes abi powerD knownD).2 le
          _ ∣ off := by
            refine run.subobject_aligned sizes laid abi known complete power ?_ sub lower (isDynamic_of_vbase vbase) top knownD
            intro w o wi above entryW dataW knownW
            exact ih (r - w) (by omega) entryW dataW knownW rfl

end

end Vcx.Types
