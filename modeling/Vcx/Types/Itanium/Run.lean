import Vcx.Types.Itanium.Local
import Vcx.Types.Itanium.Step

/-!
# A whole layout as a run

`Laid` says that `L` is the family of layouts the model computes. The layout of a class is
inverted once, into the four phases of `Run`: the primary base, the bases, the members, the
virtual bases. Every metric of a laid-out class is positive, which is what the loops need
to move on.
-/

namespace Vcx.Types
set_option autoImplicit false
open Vcx.Lib

/-- `L` is laid out by the Itanium rules, over itself. -/
def Laid (m : Model) (h : Hierarchy) (L : Layouts) : Prop := ∀ r, L r = layoutItanium m h L r

/-- The phases of one layout. -/
structure Run (m : Model) (h : Hierarchy) (L : Layouts) (r : Nat) where
  primaryOff : Option Nat
  afterPrimary : Cursor
  baseOffs : List Nat
  afterBases : Cursor
  fields : List Placed
  bits : Nat
  afterFields : Cursor
  vbaseOffs : List Nat
  last : Cursor
  primary : placePrimary m h L (h.record r) (primaryBase m h L r)
    (startCursor m (h.record r) (isDynamic h r) (primaryBase m h L r)) = some (primaryOff, afterPrimary)
  bases : placeBases m h L (keepPrimary (primaryBase m h L r) primaryOff) (h.record r).bases.zipIdx afterPrimary =
    some (baseOffs, afterBases)
  members : placeFields m h L (h.record r) (h.record r).fields (afterBases.dsize * 8, afterBases) =
    some (fields, bits, afterFields)
  vbases : placeVBases m h L (freshVBases m h L r) afterFields = some (vbaseOffs, last)

/-- The non-virtual part a run went through. -/
def Run.nonVirtual {m : Model} {h : Hierarchy} {L : Layouts} {r : Nat} (run : Run m h L r) : NonVirtual where
  primary := primaryBase m h L r
  primaryOff := run.primaryOff
  baseOffs := run.baseOffs
  fields := run.fields
  cursor := run.afterFields

/-- What the run comes to. -/
def Run.info {m : Model} {h : Hierarchy} {L : Layouts} {r : Nat} (run : Run m h L r) : RecordInfo :=
  finishLayout m h L r run.nonVirtual run.vbaseOffs run.last

variable {m : Model} {h : Hierarchy} {L : Layouts} {r : Nat}

/-- **A class that is not a union has a layout exactly when the four phases have a run.** -/
theorem layoutItanium_iff_run {info : RecordInfo} (struct : (h.record r).tag ≠ .union) :
    layoutItanium m h L r = some info ↔ ∃ run : Run m h L r, info = run.info := by
  rw [layoutItanium, if_neg struct]
  constructor
  · intro eq
    obtain ⟨nv, part, eq⟩ := Option.bind_eq_some_iff.1 eq
    obtain ⟨⟨offs, last⟩, vbases, rfl⟩ := Option.map_eq_some_iff.1 eq
    obtain ⟨⟨primaryOff, c1⟩, primary, part⟩ := Option.bind_eq_some_iff.1 part
    obtain ⟨⟨baseOffs, c2⟩, bases, part⟩ := Option.bind_eq_some_iff.1 part
    obtain ⟨⟨ps, bits, c3⟩, members, rfl⟩ := Option.map_eq_some_iff.1 part
    exact ⟨⟨primaryOff, c1, baseOffs, c2, ps, bits, c3, offs, last, primary, bases, members, vbases⟩, rfl⟩
  · rintro ⟨run, rfl⟩
    refine Option.bind_eq_some_iff.2 ⟨run.nonVirtual, ?_, Option.map_eq_some_iff.2 ⟨_, run.vbases, rfl⟩⟩
    refine Option.bind_eq_some_iff.2 ⟨_, run.primary, ?_⟩
    refine Option.bind_eq_some_iff.2 ⟨_, run.bases, ?_⟩
    exact Option.map_eq_some_iff.2 ⟨_, run.members, rfl⟩

theorem layoutItanium_union_some {info : RecordInfo} (union : (h.record r).tag = .union)
    (eq : layoutItanium m h L r = some info) :
    ∃ ps c, thread (unionField m h L (h.record r)) (h.record r).fields (headCursor (h.record r)) = some (ps, c) ∧
      info = finishUnion (h.record r) ps c := by
  rw [layoutItanium, if_pos union] at eq
  obtain ⟨⟨ps, c⟩, run, rfl⟩ := Option.map_eq_some_iff.1 eq
  exact ⟨ps, c, run, rfl⟩

/-! ### Primary bases -/

theorem primaryBase_eq (r : Nat) : primaryBase m h L r = primaryBaseBody m h L (primaryBase m h L) r := by
  apply fix_unfold
  intro f g agree
  unfold primaryBaseBody
  rw [indirectPrimaries_congr agree]

/-- What `primaryBase` answers. -/
inductive PrimarySpec (m : Model) (h : Hierarchy) (L : Layouts) (r : Nat) : Primary → Prop
  | none (alone : isDynamic h r = true → ∀ b ∈ (h.record r).bases, ∀ c, b.plain = some c → isDynamic h c = false) :
    PrimarySpec m h L r {}
  | plain (i c : Nat) (b : BaseSpec) (at_ : (h.record r).bases[i]? = some b) (cls : b.plain = some c)
    (dynamic : isDynamic h c = true) : PrimarySpec m h L r { idx := some i }
  | virt (v : Nat) (vbase : h.VBase r v) (nearly : nearlyEmpty m h L v = true) :
    PrimarySpec m h L r { idx := directIndex h r v, virt := some v }

theorem primaryBase_spec (r : Nat) : PrimarySpec m h L r (primaryBase m h L r) := by
  rw [primaryBase_eq, primaryBaseBody]
  split
  · rename_i static
    exact .none fun dyn => by simp [dyn] at static
  split
  · rename_i i found
    obtain ⟨lt, dyn, -⟩ := List.findIdx?_eq_some_iff_getElem.1 found
    obtain ⟨c, cls, dyn⟩ := (Option.any_eq_true ..).1 dyn
    exact .plain i c _ (List.getElem?_eq_getElem lt) cls dyn
  · rename_i none
    have chosen : ∀ v, v ∈ (itaniumVBases h r).filter (nearlyEmpty m h L) →
        PrimarySpec m h L r { idx := directIndex h r v, virt := some v } := by
      intro v hv
      obtain ⟨mem, nearly⟩ := List.mem_filter.1 hv
      exact .virt v (mem_itaniumVBases.1 mem) nearly
    simp only
    split
    · rename_i v found
      exact chosen v (List.mem_of_find?_eq_some found)
    · split
      · rename_i v found
        exact chosen v (List.mem_of_mem_head? found)
      · refine .none fun _ b hb c hc => ?_
        have := List.findIdx?_eq_none_iff.1 none b hb
        simpa [hc] using this

theorem nearlyEmpty_spec {v : Nat} (nearly : nearlyEmpty m h L v = true) :
    isDynamic h v = true ∧ ∃ info, L v = some info ∧ info.nvsize = m.sizePtr := by
  simp only [nearlyEmpty, Bool.and_eq_true, Option.any_eq_true, beq_iff_eq] at nearly
  exact nearly

theorem directIndex_some {v i : Nat} (e : directIndex h r v = some i) :
    ∃ b, (h.record r).bases[i]? = some b ∧ b.virtual = true ∧ b.cls = some v := by
  obtain ⟨lt, hit, -⟩ := List.findIdx?_eq_some_iff_getElem.1 e
  simp only [Bool.and_eq_true, beq_iff_eq] at hit
  exact ⟨_, List.getElem?_eq_getElem lt, hit⟩

theorem not_empty_of_dynamic {c : Nat} (struct : (h.record c).tag ≠ .union) (dyn : isDynamic h c = true) :
    itaniumEmpty h c = false := by
  cases empty : itaniumEmpty h c with
  | false => rfl
  | true =>
    rw [(itaniumEmpty_struct struct empty).2.1] at dyn
    cases dyn

theorem primaryBase_idx {i : Nat} (e : (primaryBase m h L r).idx = some i) :
    ∃ b c, (h.record r).bases[i]? = some b ∧ b.cls = some c ∧ isDynamic h c = true ∧ itaniumEmpty h c = false ∧
      ((primaryBase m h L r).virt = none ∧ b.virtual = false ∨
        (primaryBase m h L r).virt = some c ∧ b.virtual = true) := by
  have struct : ∀ b c, (h.record r).bases[i]? = some b → b.cls = some c → (h.record c).tag ≠ .union :=
    fun b c hb hc => h.union_base r b (List.mem_of_getElem? hb) c hc
  have spec := primaryBase_spec (m := m) (h := h) (L := L) r
  generalize primaryBase m h L r = p at e spec ⊢
  cases spec with
  | none => cases e
  | plain i' c b at_ cls dyn =>
    cases e
    obtain ⟨plain, cls⟩ := BaseSpec.plain_eq_some.1 cls
    exact ⟨b, c, at_, cls, dyn, not_empty_of_dynamic (struct b c at_ cls) dyn, .inl ⟨rfl, plain⟩⟩
  | virt v vbase nearly =>
    obtain ⟨b, at_, virt, cls⟩ := directIndex_some e
    obtain ⟨dyn, -⟩ := nearlyEmpty_spec nearly
    exact ⟨b, v, at_, cls, dyn, not_empty_of_dynamic (struct b v at_ cls) dyn, .inr ⟨rfl, virt⟩⟩

theorem indirectPrimaries_eq {p : Nat → Primary} (r : Nat) : indirectPrimaries h p r =
    (h.record r).bases.flatMap fun b => match b.cls with
      | none => []
      | some br => (p br).recorded h br ++ indirectPrimaries h p br := by
  apply fix_unfold
  intro f g agree
  apply List.flatMap_congr
  intro b hb
  cases hc : b.cls with
  | none => rfl
  | some c => simp only [agree c (h.base_lt r b hb c hc)]

theorem mem_indirectPrimaries {p : Nat → Primary} {v : Nat} : v ∈ indirectPrimaries h p r ↔
    ∃ c br, h.Derives r c ∧ h.Base c br ∧ v ∈ (p br).recorded h br := by
  constructor
  · intro mem
    induction r using Nat.strongRecOn with
    | ind r ih =>
      rw [indirectPrimaries_eq, List.mem_flatMap] at mem
      obtain ⟨b, hb, mem⟩ := mem
      cases hc : b.cls with
      | none => simp [hc] at mem
      | some c =>
        simp only [hc, List.mem_append] at mem
        rcases mem with here | below
        · exact ⟨r, c, .refl, ⟨b, hb, hc⟩, here⟩
        · obtain ⟨d, br, path, step, mem⟩ := ih c (h.base_lt r b hb c hc) below
          exact ⟨d, br, .head ⟨b, hb, hc⟩ path, step, mem⟩
  · rintro ⟨c, br, path, ⟨b, hb, hc⟩, mem⟩
    have last : v ∈ indirectPrimaries h p c := by
      rw [indirectPrimaries_eq, List.mem_flatMap]
      exact ⟨b, hb, by simp [hc, mem]⟩
    induction path using Relation.ReflTransGen.head_induction_on with
    | refl => exact last
    | head step _ ih =>
      obtain ⟨b', hb', hc'⟩ := step
      rw [indirectPrimaries_eq, List.mem_flatMap]
      exact ⟨b', hb', by simp [hc', ih]⟩

theorem mem_recorded {p : Primary} {br v : Nat} (mem : v ∈ p.recorded h br) :
    p.virt = some v ∨ p.virt = none ∧ ∃ i b, p.idx = some i ∧ (h.record br).bases[i]? = some b ∧ b.cls = some v := by
  unfold Primary.recorded at mem
  split at mem
  · rename_i v' virt
    obtain rfl := List.mem_singleton.1 mem
    exact .inl virt
  · rename_i i virt idx
    obtain ⟨b, at_, cls⟩ := Option.bind_eq_some_iff.1 (Option.mem_toList.1 mem)
    exact .inr ⟨virt, i, b, idx, at_, cls⟩
  · cases mem

/-- A class recorded as somebody's primary base by virtual inheritance has a layout. -/
theorem nearlyEmpty_of_virt {v : Nat} (e : (primaryBase m h L r).virt = some v) :
    h.VBase r v ∧ nearlyEmpty m h L v = true := by
  have spec := primaryBase_spec (m := m) (h := h) (L := L) r
  generalize primaryBase m h L r = p at e spec
  cases spec with
  | none => cases e
  | plain => cases e
  | virt v' vbase nearly =>
    cases e
    exact ⟨vbase, nearly⟩

/-! ### Positive metrics -/

/-- The metrics of a laid-out class are positive. -/
structure RecordInfo.Positive (info : RecordInfo) : Prop where
  size : 0 < info.size
  align : 0 < info.align
  nvsize : 0 < info.nvsize
  nvalign : 0 < info.nvalign

theorem startCursor_align_pos (rec_ : Record) (dynamic : Bool) (p : Primary) :
    0 < (startCursor m rec_ dynamic p).align := by
  unfold startCursor
  split
  · simp only [Cursor.fill_align, Cursor.raise_align, headCursor_align]
    omega
  · simp only [headCursor_align]
    omega

/-- A base can only be placed over a layout of its own. -/
theorem placeBaseAt_some {keep : Nat → Option Nat} {b : BaseSpec × Nat} {c c' : Cursor} {off : Nat}
    (run : placeBaseAt m h L keep b c = some (off, c')) :
    (c' = c ∧ (keep b.2 = some off ∨ keep b.2 = none ∧ off = 0 ∧
        ∀ d, b.1.plain = some d → (h.record d).complete = false)) ∨
      ∃ d, keep b.2 = none ∧ b.1.plain = some d ∧ placeBase m h L d false c = some (off, c') := by
  unfold placeBaseAt at run
  split at run
  · rename_i kept
    cases run
    exact .inl ⟨rfl, .inl kept⟩
  · rename_i kept
    split at run
    · rename_i passed
      cases run
      refine .inl ⟨rfl, .inr ⟨kept, rfl, ?_⟩⟩
      intro d hd
      simpa [hd, Option.filter] using passed
    · rename_i d placed
      exact .inr ⟨d, kept, (Option.filter_eq_some_iff.1 placed).1, run⟩

theorem placePrimary_some {p : Primary} {rec_ : Record} {c c' : Cursor} {off : Option Nat}
    (run : placePrimary m h L rec_ p c = some (off, c')) :
    (p.idx = none ∧ off = none ∧ c' = c) ∨
      ∃ i b d o, p.idx = some i ∧ rec_.bases[i]? = some b ∧ b.cls = some d ∧ off = some o ∧
        placeBase m h L d true c = some (o, c') := by
  unfold placePrimary at run
  split at run
  · rename_i alone
    cases run
    exact .inl ⟨alone, rfl, rfl⟩
  · rename_i i idx
    split at run
    · cases run
    · rename_i d cls
      obtain ⟨b, at_, cls⟩ := Option.bind_eq_some_iff.1 cls
      obtain ⟨⟨o, c''⟩, placed, eq⟩ := Option.map_eq_some_iff.1 run
      cases eq
      exact .inr ⟨i, b, d, o, idx, at_, cls, rfl, placed⟩

theorem unionField_some {rec_ : Record} {f : Field} {c c' : Cursor} {p : Placed}
    (run : unionField m h L rec_ f c = some (p, c')) :
    ∃ fs ta, sizeof m h L f.type = some fs ∧ alignof m h L f.type = some ta ∧
      p = { offset := 0, bitUnit := if f.bitField then (f.width + 7) / 8 else 0 } ∧
      c'.align = (if f.bitField = true ∧ f.name = "" then c.align else max c.align (fieldAlign rec_ f ta)) ∧
      c'.size = max c.size (if f.bitField then (f.width + 7) / 8 else fs) := by
  unfold unionField at run
  split at run
  · rename_i fs ta size align
    cases run
    refine ⟨fs, ta, size, align, ?_, ?_, ?_⟩
    · by_cases bit : f.bitField = true <;> simp [bit]
    · by_cases bit : f.bitField = true <;> by_cases unnamed : f.name = "" <;> simp [bit, unnamed]
    · by_cases bit : f.bitField = true <;> by_cases unnamed : f.name = "" <;> simp [bit, unnamed]
  · cases run

theorem fieldAlign_pos (rec_ : Record) (f : Field) {ta : Nat} (pos : 0 < ta) : 0 < fieldAlign rec_ f ta := by
  unfold fieldAlign
  apply Record.memberAlign_pos
  split <;> omega

theorem FieldPlaced.align_le {f : Field} {fs fa : Nat} {s s' : Nat × Cursor} {p : Placed}
    (placed : FieldPlaced m h L f fs fa s p s') : s.2.align ≤ s'.2.align := by
  rcases placed with ⟨-, placed⟩ | ⟨fr, -, -, placed⟩ | ⟨-, -, placed⟩
  · rw [placed.align]
    split <;> omega
  · rw [placed.align]
    omega
  · rw [placed.align]
    omega

theorem Run.info_positive (run : Run m h L r) (nv : 0 < run.afterFields.align) (last : 0 < run.last.align) :
    run.info.Positive := by
  refine ⟨atLeastOne_pos _, last, ?_, nv⟩
  simp only [Run.info, finishLayout]
  have pos := atLeastOne_pos run.nonVirtual.cursor.size
  split
  · exact roundUp_pos pos
  · exact pos

/-- **Every metric of a laid-out class is positive.** -/
theorem Laid.positive (sizes : m.Sizes) (laid : Laid m h L) {info : RecordInfo} (known : L r = some info) :
    info.Positive := by
  induction r using Nat.strongRecOn generalizing info with
  | ind r ih =>
    rw [laid r] at known
    have fieldPos : ∀ f ∈ (h.record r).fields, ∀ ta, alignof m h L f.type = some ta → 0 < ta := by
      intro f hf ta align
      exact alignof_pos sizes (fun c info hc known => (ih c (h.member_lt r f hf c hc) known).align) align
    by_cases union : (h.record r).tag = .union
    · obtain ⟨ps, c, run, rfl⟩ := layoutItanium_union_some union known
      have pos : 0 < c.align := by
        refine thread_invariant (P := fun c => 0 < c.align) run (by simp only [headCursor_align]; omega) ?_
        intro f hf c p c' pos step
        obtain ⟨fs, ta, -, -, -, align, -⟩ := unionField_some step
        rw [align]
        split <;> omega
      exact ⟨atLeastOne_pos _, pos, atLeastOne_pos _, pos⟩
    · obtain ⟨run, rfl⟩ := (layoutItanium_iff_run union).1 known
      have base : ∀ c < r, ∀ first cur off cur', placeBase m h L c first cur = some (off, cur') →
          cur.align ≤ cur'.align := by
        intro c lt first cur off cur' step
        obtain ⟨bi, known⟩ := placeBase_known step
        rw [(placeBase_some known (ih c lt known).nvalign step).align]
        omega
      have pos1 : 0 < run.afterPrimary.align := by
        have start := startCursor_align_pos (m := m) (h.record r) (isDynamic h r) (primaryBase m h L r)
        rcases placePrimary_some run.primary with ⟨-, -, eq⟩ | ⟨i, b, d, o, -, at_, cls, -, step⟩
        · rw [eq]
          exact start
        · have := base d (h.base_lt r b (List.mem_of_getElem? at_) d cls) true _ o _ step
          omega
      have pos2 : 0 < run.afterBases.align := by
        refine thread_invariant (P := fun c => 0 < c.align) run.bases pos1 ?_
        rintro ⟨b, i⟩ hb cur off cur' pos step
        rcases placeBaseAt_some step with ⟨rfl, -⟩ | ⟨d, -, hd, step⟩
        · exact pos
        · have lt := h.base_lt r b (List.fst_mem_of_mem_zipIdx hb) d (BaseSpec.plain_eq_some.1 hd).2
          have := base d lt false _ _ _ step
          omega
      have pos3 : 0 < run.afterFields.align := by
        refine thread_invariant (P := fun s => 0 < s.2.align) run.members pos2 ?_
        intro f hf s p s' pos step
        obtain ⟨fs, ta, size, align⟩ := placeField_sized step
        have := (placeField_some size align (fieldPos f hf ta align) step).align_le
        omega
      have pos4 : 0 < run.last.align := by
        refine thread_invariant (P := fun c => 0 < c.align) run.vbases pos3 ?_
        intro v hv cur off cur' pos step
        have lt := (mem_itaniumVBases.1 (List.mem_filter.1 hv).1).lt
        have := base v lt false _ _ _ step
        omega
      exact run.info_positive pos3 pos4

variable (sizes : m.Sizes) (laid : Laid m h L)
include sizes laid

theorem Laid.placeBase {br : Nat} {first : Bool} {c c' : Cursor} {off : Nat}
    (run : placeBase m h L br first c = some (off, c')) :
    ∃ bi, L br = some bi ∧ bi.Positive ∧ BasePlaced m h L br bi first c off c' := by
  obtain ⟨bi, known⟩ := placeBase_known run
  have pos := laid.positive sizes known
  exact ⟨bi, known, pos, placeBase_some known pos.nvalign run⟩

theorem Laid.alignof_pos {t : Ty} {ta : Nat} (align : alignof m h L t = some ta) : 0 < ta :=
  Vcx.Types.alignof_pos sizes (fun _ _ _ known => (laid.positive sizes known).align) align

theorem Laid.placeField {rec_ : Record} {f : Field} {s s' : Nat × Cursor} {p : Placed}
    (run : placeField m h L rec_ f s = some (p, s')) :
    ∃ fs ta, sizeof m h L f.type = some fs ∧ alignof m h L f.type = some ta ∧ 0 < ta ∧
      FieldPlaced m h L f fs (fieldAlign rec_ f ta) s p s' := by
  obtain ⟨fs, ta, size, align⟩ := placeField_sized run
  have pos := laid.alignof_pos sizes align
  exact ⟨fs, ta, size, align, pos, placeField_some size align pos run⟩

end Vcx.Types
