import Vcx.Types.Complete
import Vcx.Types.Itanium.Members

/-!
# Alignments are powers of two

An `alignas` is a power of two or absent, and so is the ceiling of `#pragma pack` as
compilers accept it. Then so is every alignment a layout comes to, and of two alignments the
larger is a multiple of the smaller.
-/

namespace Vcx.Types
set_option autoImplicit false
open Vcx.Lib

/-- An alignment that was asked for, or none. -/
def AlignRequest (n : Nat) : Prop := n = 0 ∨ n.isPowerOfTwo

/-- Every alignment a class asks for, and its packing, is a power of two. -/
structure Record.PowerAligned (r : Record) : Prop where
  head : AlignRequest r.align
  pack : AlignRequest r.pack
  fields : ∀ f ∈ r.fields, AlignRequest f.align

/-- So in the class and everything in it. -/
def Hierarchy.PowerAligned (h : Hierarchy) (r : Nat) : Prop := ∀ c, h.Contains r c → (h.record c).PowerAligned

theorem dvd_of_isPowerOfTwo {a b : Nat} (ha : a.isPowerOfTwo) (hb : b.isPowerOfTwo) (le : a ≤ b) : a ∣ b := by
  obtain ⟨i, rfl⟩ := ha
  obtain ⟨j, rfl⟩ := hb
  exact Nat.pow_dvd_pow 2 ((Nat.pow_le_pow_iff_right (by omega)).1 le)

theorem isPowerOfTwo_max {a b : Nat} (ha : a.isPowerOfTwo) (hb : b.isPowerOfTwo) : (max a b).isPowerOfTwo := by
  rcases Nat.le_total a b with le | le
  · rwa [Nat.max_eq_right le]
  · rwa [Nat.max_eq_left le]

theorem isPowerOfTwo_of_mem {n : Nat} (mem : n ∈ [1, 2, 4, 8, 16]) : n.isPowerOfTwo := by
  simp only [List.mem_cons, List.not_mem_nil, or_false] at mem
  rcases mem with rfl | rfl | rfl | rfl | rfl
  · exact ⟨0, rfl⟩
  · exact ⟨1, rfl⟩
  · exact ⟨2, rfl⟩
  · exact ⟨3, rfl⟩
  · exact ⟨4, rfl⟩

variable {m : Model} {h : Hierarchy} {L : Layouts} {r : Nat}

theorem Model.Sizes.plainSize_power (sizes : m.Sizes) {k : Kind} {n : Nat} (other : k ≠ .longDouble)
    (size : m.plainSize k = some n) : n ∈ [1, 2, 4, 8, 16] := by
  have := sizes.ptr; have := sizes.short; have := sizes.int; have := sizes.long
  have := sizes.longLong; have := sizes.float; have := sizes.double
  simp only [List.mem_cons, List.not_mem_nil, or_false]
  cases k <;> simp only [Model.plainSize, Option.some.injEq, reduceCtorEq, ne_eq, not_true] at size other <;> omega

theorem Model.Sizes.basicAlign_power (sizes : m.Sizes) {k : Kind} {n : Nat} (align : m.basicAlign k = some n) :
    n.isPowerOfTwo := by
  apply isPowerOfTwo_of_mem
  unfold Model.basicAlign at align
  split at align
  · have := sizes.longDoubleAlign
    cases align
    simp only [List.mem_cons, List.not_mem_nil, or_false]
    omega
  · rename_i other
    unfold Model.basicSize at align
    split at align
    · refine sizes.plainSize_power ?_ align
      rcases sizes.wChar with eq | eq | eq <;> rw [eq] <;> decide
    · exact sizes.plainSize_power other align

/-- The alignment of a type is a power of two when its class's is. -/
theorem alignof_power (sizes : m.Sizes) (abi : m.abi.isItanium = true) {t : Ty} {n : Nat}
    (power : ∀ c info, t.recordElem = some c → L c = some info → info.align.isPowerOfTwo)
    (align : alignof m h L t = some n) : n.isPowerOfTwo := by
  have ptr : m.sizePtr.isPowerOfTwo := by
    have := sizes.ptr
    exact isPowerOfTwo_of_mem (by simp only [List.mem_cons, List.not_mem_nil, or_false]; omega)
  have int : m.sizeInt.isPowerOfTwo := by
    rw [sizes.int]
    exact ⟨2, rfl⟩
  fun_induction alignof m h L t with
  | case2 q t plain ih =>
    exact ih (fun c info hc => power c info (by rw [Ty.recordElem.eq_2 _ _ plain]; exact hc)) align
  | case3 k => exact sizes.basicAlign_power align
  | case9 cls elem le =>
    have size : memberPointerSize m h cls elem = m.sizePtr := by
      have := sizes.ptr_pos
      simp only [memberPointerSize, abi, if_true] at le ⊢
      split at le
      · omega
      · rename_i data
        rw [if_neg data]
    cases align
    rw [size]
    exact ptr
  | case10 _ _ k => exact sizes.basicAlign_power align
  | case13 elem len incomplete ih =>
    exact ih (fun c info hc => power c info (by simpa [Ty.recordElem] using hc)) align
  | case14 r complete =>
    obtain ⟨info, known, rfl⟩ := Option.map_eq_some_iff.1 align
    exact power r info (by simp [Ty.recordElem]) known
  | _ =>
    simp only [Option.some.injEq, reduceCtorEq] at align
    try (rw [← align]; assumption)

theorem fieldAlign_power {rec_ : Record} {f : Field} {ta : Nat} (power : rec_.PowerAligned) (hf : f ∈ rec_.fields)
    (ha : ta.isPowerOfTwo) : (fieldAlign rec_ f ta).isPowerOfTwo := by
  have asked : (if ta < f.align then f.align else ta).isPowerOfTwo := by
    split
    · rename_i lt
      rcases power.fields f hf with zero | asked
      · omega
      · exact asked
    · exact ha
  unfold fieldAlign
  generalize (if ta < f.align then f.align else ta) = n at asked
  unfold Record.memberAlign
  split
  · exact Nat.isPowerOfTwo_one
  split
  · rename_i packed
    rcases power.pack with zero | pack
    · omega
    · exact pack
  · exact asked

theorem headCursor_power {rec_ : Record} (power : rec_.PowerAligned) : (headCursor rec_).align.isPowerOfTwo := by
  rw [headCursor_align]
  rcases power.head with zero | head
  · rw [zero]
    exact Nat.isPowerOfTwo_one
  · exact isPowerOfTwo_max head Nat.isPowerOfTwo_one

/-- **The alignments of a laid-out class are powers of two.** -/
theorem Laid.power (sizes : m.Sizes) (abi : m.abi.isItanium = true) (laid : Laid m h L) (power : h.PowerAligned r)
    {info : RecordInfo} (known : L r = some info) : info.align.isPowerOfTwo ∧ info.nvalign.isPowerOfTwo := by
  induction r using Nat.strongRecOn generalizing info with
  | ind r ih =>
    rw [laid r] at known
    have here := power r .refl
    have below : ∀ c, h.Part r c → ∀ ci, L c = some ci → ci.align.isPowerOfTwo ∧ ci.nvalign.isPowerOfTwo :=
      fun c part ci known => ih c part.lt (fun d path => power d (.head part path)) known
    have field : ∀ f ∈ (h.record r).fields, ∀ ta, alignof m h L f.type = some ta →
        (fieldAlign (h.record r) f ta).isPowerOfTwo := by
      intro f hf ta align
      refine fieldAlign_power here hf (alignof_power sizes abi ?_ align)
      exact fun c ci hc known => (below c (.inr ⟨f, hf, hc⟩) ci known).1
    by_cases union : (h.record r).tag = .union
    · obtain ⟨ps, c, run, rfl⟩ := layoutItanium_union_some union known
      have last : c.align.isPowerOfTwo := by
        refine thread_invariant (P := fun c => c.align.isPowerOfTwo) run (headCursor_power here) ?_
        intro f hf c p c' old step
        obtain ⟨fs, ta, -, align, -, raised, -⟩ := unionField_some step
        rw [raised]
        split
        · exact old
        · exact isPowerOfTwo_max old (field f hf ta align)
      exact ⟨last, last⟩
    obtain ⟨run, rfl⟩ := (layoutItanium_iff_run union).1 known
    have base : ∀ c, h.Derives r c → c ≠ r → ∀ first cur off cur', Vcx.Types.placeBase m h L c first cur = some (off, cur') →
        cur.align.isPowerOfTwo → cur'.align.isPowerOfTwo := by
      intro c path ne first cur off cur' step old
      obtain ⟨bi, known, -, placed⟩ := laid.placeBase sizes step
      rw [placed.align]
      have lt : c < r := Nat.lt_of_le_of_ne path.le ne
      exact isPowerOfTwo_max old (ih c lt (fun d inner => power d (path.contains.trans inner)) known).2
    have direct : ∀ b ∈ (h.record r).bases, ∀ d, b.cls = some d → h.Derives r d ∧ d ≠ r := by
      intro b hb d hd
      have step : h.Base r d := ⟨b, hb, hd⟩
      exact ⟨.single step, Nat.ne_of_lt step.lt⟩
    have start : (startCursor m (h.record r) (isDynamic h r) (primaryBase m h L r)).align.isPowerOfTwo := by
      unfold startCursor
      split
      · rw [Cursor.fill_align, Cursor.raise_align]
        have := sizes.ptr
        exact isPowerOfTwo_max (headCursor_power here)
          (isPowerOfTwo_of_mem (by simp only [List.mem_cons, List.not_mem_nil, or_false]; omega))
      · exact headCursor_power here
    have first : run.afterPrimary.align.isPowerOfTwo := by
      rcases placePrimary_some run.primary with ⟨-, -, eq⟩ | ⟨i, b, d, o, -, at_, cls, -, step⟩
      · rw [eq]
        exact start
      · obtain ⟨path, ne⟩ := direct b (List.mem_of_getElem? at_) d cls
        exact base d path ne true _ o _ step start
    have second : run.afterBases.align.isPowerOfTwo := by
      refine thread_invariant (P := fun c => c.align.isPowerOfTwo) run.bases first ?_
      rintro ⟨b, i⟩ hb cur off cur' old step
      rcases placeBaseAt_some step with ⟨rfl, -⟩ | ⟨d, -, hd, step⟩
      · exact old
      · obtain ⟨path, ne⟩ := direct b (List.fst_mem_of_mem_zipIdx hb) d (BaseSpec.plain_eq_some.1 hd).2
        exact base d path ne false _ _ _ step old
    have third : run.afterFields.align.isPowerOfTwo := by
      refine thread_invariant (P := fun s => s.2.align.isPowerOfTwo) run.members second ?_
      intro f hf s p s' old step
      obtain ⟨fs, ta, -, align, -, placed⟩ := laid.placeField sizes step
      rcases placed with ⟨-, placed⟩ | ⟨fr, -, -, placed⟩ | ⟨-, -, placed⟩
      · rw [placed.align]
        split
        · exact old
        · exact isPowerOfTwo_max old (field f hf ta align)
      · rw [placed.align]
        exact isPowerOfTwo_max old (field f hf ta align)
      · rw [placed.align]
        exact isPowerOfTwo_max old (field f hf ta align)
    have last : run.last.align.isPowerOfTwo := by
      refine thread_invariant (P := fun c => c.align.isPowerOfTwo) run.vbases third ?_
      intro v hv cur off cur' old step
      have vbase := mem_itaniumVBases.1 (List.mem_filter.1 hv).1
      exact base v vbase.derives (Nat.ne_of_lt vbase.lt) false _ _ _ step old
    exact ⟨last, third⟩

end Vcx.Types
