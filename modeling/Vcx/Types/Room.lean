import Mathlib.Algebra.Order.BigOperators.Group.List
import Mathlib.Algebra.Ring.Nat
import Vcx.Types.Itanium.Graph
import Vcx.Types.Microsoft.Graph
import Vcx.Types.Sizes

/-!
# How much room a class can take

The source counts bytes and bits in `int64`, the model in natural numbers, and the two are the
same as long as nothing leaves the range of an `int64`. `room` adds up what a class is made of,
from the declarations alone: the sizes of its members and bases, for each of them the greatest
alignment in the class, which is more than any padding, and for each base the number of bases,
which is more than the bytes Microsoft's layout puts between empty ones. A class is `Small`
when that many bytes, counted in bits, fit an `int64`; the layouts of `Small` classes do.
-/

namespace Vcx.Types
set_option autoImplicit false
open Vcx.Lib

section

variable (m : Model) (h : Hierarchy)

/-- No alignment in a class is greater: those asked for in it, and those of fundamental types. -/
def alignBound : Nat → Nat :=
  fix (fun self r => ((h.record r).align :: (h.record r).fields.map Field.align ++
    ((h.record r).bases.filterMap BaseSpec.cls ++
      (h.record r).fields.filterMap fun f => f.type.recordElem).map self).foldr max 16) 16

/-- The bytes of a type, when a class takes `whole`. -/
def Ty.room (whole : Nat → Nat) : Ty → Nat
  | .qualified _ (.qualified _ _) => 0
  | .qualified _ t => t.room whole
  | .array elem len _ => elem.room whole * len
  | .record r => whole r
  | t => (sizeof m h (fun _ => none) t).getD 0

/-- A class with its virtual bases, when without them it takes `room`. -/
def wholeRoom (room : Nat → Nat) (r : Nat) : Nat :=
  room r + ((virtualBases h r).map fun v => room v + 2 * alignBound h v).sum

def baseRoomBound (room : Nat → Nat) (r : Nat) (b : BaseSpec) : Nat :=
  (b.plain.map room).getD 0 + 2 * alignBound h r + (h.record r).bases.length + 1

def fieldRoomBound (room : Nat → Nat) (r : Nat) (f : Field) : Nat :=
  f.type.room m h (wholeRoom h room) + (f.width + 7) / 8 + alignBound h r

/-- A class without its virtual bases, over the classes below. -/
def roomBody (self : Nat → Nat) (r : Nat) : Nat :=
  2 * m.sizePtr + 4 * alignBound h r + ((h.record r).bases.map (baseRoomBound h self r)).sum +
    ((h.record r).fields.map (fieldRoomBound m h self r)).sum

/-- The bytes of a class without its virtual bases, padding and all, are no more. -/
def room : Nat → Nat := fix (roomBody m h) 0

/-- What `r` and each class in it are made of comes to less than `2^60` bytes, whose bits an
`int64` counts. -/
def Hierarchy.Small (r : Nat) : Prop :=
  ∀ c, h.Contains r c → 8 * wholeRoom h (room m h) c < 2 ^ 63

/-- An `int64` counts the bits of the class up to an alignment past its end, which no offset
that is tried in its layout goes beyond. -/
def RecordInfo.Held (info : RecordInfo) : Prop := 8 * (info.size + info.align) < 2 ^ 63

end

variable {m : Model} {h : Hierarchy} {L : Layouts} {r c : Nat}

theorem Hierarchy.small_of_all (all : ∀ c ≤ r, 8 * wholeRoom h (room m h) c < 2 ^ 63) : h.Small m r :=
  fun c path => all c path.le

theorem Hierarchy.Small.contains (small : h.Small m r) (path : h.Contains r c) : h.Small m c :=
  fun d rest => small d (path.trans rest)

/-! ### Alignments -/

theorem le_foldr_max {l : List Nat} {a x : Nat} (mem : x ∈ l ∨ x = a) : x ≤ l.foldr max a := by
  induction l with
  | nil => simpa using (mem.resolve_left List.not_mem_nil).le
  | cons y ys ih =>
    rw [List.foldr_cons]
    rcases mem with mem | rfl
    · rcases List.mem_cons.1 mem with rfl | mem
      · exact Nat.le_max_left _ _
      · exact Nat.le_trans (ih (.inl mem)) (Nat.le_max_right _ _)
    · exact Nat.le_trans (ih (.inr rfl)) (Nat.le_max_right _ _)

theorem alignBound_eq (r : Nat) : alignBound h r = ((h.record r).align :: (h.record r).fields.map Field.align ++
    ((h.record r).bases.filterMap BaseSpec.cls ++
      (h.record r).fields.filterMap fun f => f.type.recordElem).map (alignBound h)).foldr max 16 := by
  apply fix_unfold
  intro f g agree
  congr 2
  apply List.map_congr_left
  intro c hc
  rcases List.mem_append.1 hc with hc | hc
  · obtain ⟨b, hb, cls⟩ := List.mem_filterMap.1 hc
    exact agree c (h.base_lt r b hb c cls)
  · obtain ⟨f, hf, elem⟩ := List.mem_filterMap.1 hc
    exact agree c (h.member_lt r f hf c elem)

theorem sixteen_le_alignBound (r : Nat) : 16 ≤ alignBound h r := by
  rw [alignBound_eq]
  exact le_foldr_max (.inr rfl)

theorem head_le_alignBound (r : Nat) : (h.record r).align ≤ alignBound h r := by
  rw [alignBound_eq]
  exact le_foldr_max (.inl (List.mem_append_left _ List.mem_cons_self))

theorem field_le_alignBound {f : Field} (hf : f ∈ (h.record r).fields) : f.align ≤ alignBound h r := by
  rw [alignBound_eq]
  exact le_foldr_max (.inl (List.mem_append_left _ (List.mem_cons_of_mem _ (List.mem_map_of_mem hf))))

theorem alignBound_part (part : h.Part r c) : alignBound h c ≤ alignBound h r := by
  rw [alignBound_eq r]
  refine le_foldr_max (.inl (List.mem_append_right _ (List.mem_map_of_mem ?_)))
  rcases part with ⟨b, hb, cls⟩ | ⟨f, hf, elem⟩
  · exact List.mem_append_left _ (List.mem_filterMap.2 ⟨b, hb, cls⟩)
  · exact List.mem_append_right _ (List.mem_filterMap.2 ⟨f, hf, elem⟩)

theorem alignBound_contains (path : h.Contains r c) : alignBound h c ≤ alignBound h r := by
  induction path with
  | refl => exact Nat.le_refl _
  | tail _ part ih => exact Nat.le_trans (alignBound_part part) ih

theorem Model.Sizes.plainSize_le (sizes : m.Sizes) {k : Kind} {n : Nat} (size : m.plainSize k = some n) : n ≤ 16 := by
  have := sizes.ptr; have := sizes.short; have := sizes.int; have := sizes.long
  have := sizes.longLong; have := sizes.float; have := sizes.double; have := sizes.longDouble
  cases k <;> simp only [Model.plainSize, Option.some.injEq, reduceCtorEq] at size <;> omega

theorem Model.Sizes.basicAlign_le (sizes : m.Sizes) {k : Kind} {n : Nat} (align : m.basicAlign k = some n) : n ≤ 16 := by
  have := sizes.longDoubleAlign
  unfold Model.basicAlign Model.basicSize at align
  split at align
  · cases align
    omega
  · split at align <;> exact sizes.plainSize_le align

/-- The alignment of a type is a fundamental one or that of a class. -/
theorem alignof_le (sizes : m.Sizes) {t : Ty} {n bound : Nat} (basic : 16 ≤ bound)
    (classes : ∀ c info, t.recordElem = some c → L c = some info → info.align ≤ bound)
    (align : alignof m h L t = some n) : n ≤ bound := by
  have ptr := sizes.ptr
  have int := sizes.int
  fun_induction alignof m h L t with
  | case2 q t plain ih =>
    exact ih (fun c info hc => classes c info (by rw [Ty.recordElem.eq_2 _ _ plain]; exact hc)) align
  | case3 k => exact Nat.le_trans (sizes.basicAlign_le align) basic
  | case10 _ _ k => exact Nat.le_trans (sizes.basicAlign_le align) basic
  | case13 elem len incomplete ih =>
    exact ih (fun c info hc => classes c info (by simpa [Ty.recordElem] using hc)) align
  | case14 r complete =>
    obtain ⟨info, known, rfl⟩ := Option.map_eq_some_iff.1 align
    exact classes r info (by simp [Ty.recordElem]) known
  | _ =>
    simp only [Option.some.injEq, reduceCtorEq] at align
    try omega

theorem fieldAlign_le {f : Field} {ta : Nat} (hf : f ∈ (h.record r).fields) (align : ta ≤ alignBound h r) :
    fieldAlign (h.record r) f ta ≤ alignBound h r := by
  have field := field_le_alignBound hf
  have basic := sixteen_le_alignBound (h := h) r
  unfold fieldAlign Record.memberAlign
  split
  · omega
  · split <;> split <;> omega

/-! ### Sizes -/

theorem Ty.room_congr {whole whole' : Nat → Nat} {t : Ty} (agree : ∀ c, t.recordElem = some c → whole c = whole' c) :
    t.room m h whole = t.room m h whole' := by
  fun_induction Ty.room m h whole t with
  | case2 q t plain ih =>
    rw [Ty.room.eq_2 _ _ _ _ _ plain]
    exact ih fun c hc => agree c (by rw [Ty.recordElem.eq_2 _ _ plain]; exact hc)
  | case3 elem len incomplete ih =>
    rw [Ty.room, ih fun c hc => agree c (by simpa [Ty.recordElem] using hc)]
  | case4 r => exact agree r (by simp [Ty.recordElem])
  | _ => simp_all [Ty.room]

/-- A size is no more than what the type is made of. -/
theorem sizeof_le_room {whole : Nat → Nat} {t : Ty} {n : Nat}
    (classes : ∀ c info, t.recordElem = some c → L c = some info → info.size ≤ whole c)
    (size : sizeof m h L t = some n) : n ≤ t.room m h whole := by
  fun_induction sizeof m h L t generalizing n with
  | case2 q t plain ih =>
    rw [Ty.room.eq_2 _ _ _ _ _ plain]
    exact ih (fun c info hc => classes c info (by rw [Ty.recordElem.eq_2 _ _ plain]; exact hc)) size
  | case13 elem len incomplete known ih =>
    obtain ⟨k, elemSize, rfl⟩ := Option.map_eq_some_iff.1 size
    exact Nat.mul_le_mul_right len (ih (fun c info hc => classes c info (by simpa [Ty.recordElem] using hc)) elemSize)
  | case14 r complete =>
    obtain ⟨info, known, rfl⟩ := Option.map_eq_some_iff.1 size
    exact classes r info (by simp [Ty.recordElem]) known
  | _ => simp_all [Ty.room, sizeof]

theorem room_eq (r : Nat) : room m h r = roomBody m h (room m h) r := by
  apply fix_unfold
  intro f g agree
  unfold roomBody
  congr 2
  · congr 1
    apply List.map_congr_left
    intro b hb
    unfold baseRoomBound
    cases plain : b.plain with
    | none => rfl
    | some c => simp only [Option.map_some, agree c (h.base_lt r b hb c (BaseSpec.plain_eq_some.1 plain).2)]
  · apply List.map_congr_left
    intro fd hf
    unfold fieldRoomBound
    rw [Ty.room_congr]
    intro c hc
    have lt := h.member_lt r fd hf c hc
    unfold wholeRoom
    rw [agree c lt]
    congr 2
    apply List.map_congr_left
    intro v hv
    rw [agree v (Nat.lt_trans (mem_virtualBases.1 hv).lt lt)]

theorem room_le_whole (r : Nat) : room m h r ≤ wholeRoom h (room m h) r := Nat.le_add_right _ _

/-- The two lists of virtual bases have the same members, each once. -/
theorem vbases_perm (r : Nat) : (itaniumVBases h r).Perm (virtualBases h r) :=
  (List.perm_ext_iff_of_nodup (itaniumVBases_nodup r) (virtualBases_nodup r)).2 fun v => by
    rw [mem_itaniumVBases, mem_virtualBases]

end Vcx.Types
