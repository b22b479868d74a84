import Vcx.Types.Complete
import Vcx.Types.Itanium.Run
import Vcx.Types.Layout

/-!
# When a layout ends

The loop that moves an empty base while it conflicts starts over from the data size. Before
there is any data that is offset zero again, and the loop never ends. This happens to a
class without a vptr two of whose leading empty bases have a class in common (`Clash`), and
to no other: an empty class has all its empty subobjects at its own offset, and the first
base or member with data moves the loop on.
-/

namespace Vcx.Types
set_option autoImplicit false
open Vcx.Lib

/-- The empty bases in front of the first base with data. -/
def leading (h : Hierarchy) (bs : List BaseSpec) : List Nat :=
  (bs.filterMap BaseSpec.cls).takeWhile (itaniumEmpty h)

/-- Two classes have a class in common: themselves or a base. -/
def Overlap (h : Hierarchy) (c d : Nat) : Prop := ∃ e, h.Derives c e ∧ h.Derives d e

/-- A class with no vptr, two of whose leading empty bases overlap. -/
def Clash (h : Hierarchy) (r : Nat) : Prop :=
  (h.record r).tag ≠ .union ∧ isDynamic h r = false ∧
    ¬ (leading h (h.record r).bases).Pairwise fun c d => ¬ Overlap h c d

variable {m : Model} {h : Hierarchy} {L : Layouts} {r : Nat}

theorem plain_of_static {b : BaseSpec} (static : isDynamic h r = false) (hb : b ∈ (h.record r).bases) :
    b.virtual = false := by
  cases virt : b.virtual with
  | false => rfl
  | true =>
    rw [isDynamic_iff.2 ⟨r, .refl, .inr ⟨b, hb, virt⟩⟩] at static
    cases static

theorem primaryBase_of_static (static : isDynamic h r = false) : primaryBase m h L r = {} := by
  rw [primaryBase_eq, primaryBaseBody, static]
  rfl

/-! ### A layout is made of layouts -/

/-- A direct non-virtual base of a class with a layout has one. -/
theorem Run.known_plain (run : Run m h L r) {b : BaseSpec} {d : Nat} (hb : b ∈ (h.record r).bases)
    (hd : b.plain = some d) (complete : (h.record d).complete = true) : ∃ bi, L d = some bi := by
  obtain ⟨i, lt, at_⟩ := List.getElem_of_mem hb
  have get : (h.record r).bases[i]? = some b := by simp [at_, lt]
  obtain ⟨c, off, c', step⟩ := thread_step run.bases (List.mk_mem_zipIdx_iff_getElem?.2 get)
  rcases placeBaseAt_some step with ⟨-, kept | ⟨-, -, passed⟩⟩ | ⟨e, -, he, step⟩
  · -- the primary base, which was placed first
    unfold keepPrimary at kept
    split at kept
    · rename_i idx
      rcases placePrimary_some run.primary with ⟨alone, -⟩ | ⟨i', b', d', o, idx', at', cls, -, step⟩
      · rw [alone] at idx
        cases idx
      · rw [idx] at idx'
        cases idx'
        rw [get] at at'
        cases at'
        rw [(BaseSpec.plain_eq_some.1 hd).2] at cls
        cases cls
        exact placeBase_known step
    · cases kept
  · rw [passed d hd] at complete
    cases complete
  · rw [hd] at he
    cases he
    exact placeBase_known step

/-- **Everything in a complete class with a layout has a layout.** -/
theorem Laid.known_contains (laid : Laid m h L) (complete : h.Complete m r) {info : RecordInfo}
    (known : L r = some info) {c : Nat} (e : h.Contains r c) : ∃ ci, L c = some ci := by
  induction r using Nat.strongRecOn generalizing info c with
  | ind r ih =>
    rcases Relation.ReflTransGen.cases_head e with rfl | ⟨d, part, rest⟩
    · exact ⟨info, known⟩
    suffices first : ∃ di, L d = some di by
      obtain ⟨di, knownPart⟩ := first
      exact ih d part.lt (complete.part part) knownPart rest
    rw [laid r] at known
    rcases part with ⟨b, hb, hd⟩ | ⟨f, hf, hd⟩
    · obtain ⟨run, rfl⟩ := (layoutItanium_iff_run (h.struct_of_base hb)).1 known
      have plain : ∀ b ∈ (h.record r).bases, ∀ d, b.plain = some d → ∃ di, L d = some di := by
        intro b hb d hd
        exact run.known_plain hb hd
          ((complete.part (.inl ⟨b, hb, (BaseSpec.plain_eq_some.1 hd).2⟩)).at).complete
      -- a direct virtual base, by induction from the last one down: a base between it and the
      -- class is one of the others
      have virtual : ∀ n d, r - d = n → ∀ b ∈ (h.record r).bases, b.virtual = true → b.cls = some d →
          ∃ di, L d = some di := by
        intro n
        induction n using Nat.strongRecOn with
        | ind n above =>
          intro d rank b hb virt hd
          have lt := h.base_lt r b hb d hd
          by_cases fresh : d ∈ freshVBases m h L r
          · obtain ⟨c, off, c', step⟩ := thread_step run.vbases fresh
            exact placeBase_known step
          · have mem : d ∈ itaniumVBases h r := mem_itaniumVBases_direct hb virt hd
            simp only [freshVBases, List.mem_filter, mem, true_and, Bool.not_eq_true', Bool.not_eq_false,
              Bool.or_eq_true, beq_iff_eq, List.contains_iff_mem] at fresh
            rcases fresh with primary | indirect
            · obtain ⟨-, info, known, -⟩ := nearlyEmpty_spec (nearlyEmpty_of_virt primary).2
              exact ⟨info, known⟩
            · obtain ⟨c, br, path, step, mem⟩ := mem_indirectPrimaries.1 indirect
              rcases mem_recorded mem with virt' | ⟨-, i, b', idx, at', cls⟩
              · obtain ⟨-, info, known, -⟩ := nearlyEmpty_spec (nearlyEmpty_of_virt virt').2
                exact ⟨info, known⟩
              · have inner : h.Base br d := ⟨b', List.mem_of_getElem? at', cls⟩
                have through : ∃ e, h.Base r e ∧ h.Derives e br := by
                  rcases Hierarchy.Derives.cases_base path with rfl | ⟨e, first, rest⟩
                  · exact ⟨br, step, .refl⟩
                  · exact ⟨e, first, rest.tail step⟩
                obtain ⟨e, ⟨b₁, hb₁, he⟩, rest⟩ := through
                have knownFirst : ∃ ei, L e = some ei := by
                  cases virt₁ : b₁.virtual with
                  | false => exact plain b₁ hb₁ e (BaseSpec.plain_eq_some.2 ⟨virt₁, he⟩)
                  | true =>
                    have := rest.le
                    have := inner.lt
                    have := h.base_lt r b₁ hb₁ e he
                    exact above (r - e) (by omega) e rfl b₁ hb₁ virt₁ he
                obtain ⟨ei, knownFirst⟩ := knownFirst
                exact ih e (h.base_lt r b₁ hb₁ e he) (complete.part (.inl ⟨b₁, hb₁, he⟩)) knownFirst
                  (Hierarchy.Derives.contains (rest.tail inner))
      cases virt : b.virtual with
      | false => exact plain b hb d (BaseSpec.plain_eq_some.2 ⟨virt, hd⟩)
      | true => exact virtual _ d rfl b hb virt hd
    · by_cases union : (h.record r).tag = .union
      · obtain ⟨ps, c, run, -⟩ := layoutItanium_union_some union known
        obtain ⟨s, p, s', step⟩ := thread_step run hf
        obtain ⟨fs, ta, size, -⟩ := unionField_some step
        exact known_of_sizeof size hd
      · obtain ⟨run, rfl⟩ := (layoutItanium_iff_run union).1 known
        obtain ⟨s, p, s', step⟩ := thread_step run.members hf
        obtain ⟨fs, ta, size, -⟩ := placeField_sized step
        exact known_of_sizeof size hd

theorem Laid.known_part (laid : Laid m h L) (complete : h.Complete m r) {info : RecordInfo}
    (known : L r = some info) {c : Nat} (e : h.Part r c) : ∃ ci, L c = some ci :=
  laid.known_contains complete known (.single e)

section

variable (sizes : m.Sizes) (laid : Laid m h L)
include sizes laid

/-! ### An empty class has its empty subobjects at its own offset -/

theorem Laid.baseOffsets_of_empty {info : RecordInfo} (known : L r = some info) (empty : itaniumEmpty h r = true) :
    ∀ i, info.baseOffsets.getD i 0 = 0 := by
  rw [laid r] at known
  by_cases union : (h.record r).tag = .union
  · obtain ⟨ps, c, -, rfl⟩ := layoutItanium_union_some union known
    intro i
    simp [finishUnion, h.union_bases r union]
  obtain ⟨run, rfl⟩ := (layoutItanium_iff_run union).1 known
  obtain ⟨-, static, bases⟩ := itaniumEmpty_struct union empty
  have alone := primaryBase_of_static (m := m) (L := L) static
  have start : run.afterPrimary.dsize = 0 ∧ run.primaryOff = none := by
    rcases placePrimary_some run.primary with ⟨-, off, eq⟩ | ⟨i, b, d, o, idx, -⟩
    · simp [eq, off, startCursor, static]
    · simp [alone] at idx
  have zero := thread_answers (P := fun c => c.dsize = 0) (Q := fun _ off => off = 0) run.bases start.1 (by
    rintro ⟨b, i⟩ hb c off c' none step
    have mem := List.fst_mem_of_mem_zipIdx hb
    rcases placeBaseAt_some step with ⟨rfl, kept | ⟨-, zero, -⟩⟩ | ⟨d, -, hd, step⟩
    · simp [keepPrimary, alone] at kept
    · exact ⟨zero, none⟩
    · obtain ⟨c', cls, emptyBase⟩ := bases b mem
      have eq : c' = d := by
        rw [(BaseSpec.plain_eq_some.1 hd).2] at cls
        exact (Option.some.inj cls).symm
      subst eq
      obtain ⟨bi, -, -, placed⟩ := laid.placeBase sizes step
      refine ⟨placed.noData emptyBase none, ?_⟩
      rw [placed.dsize, if_pos emptyBase]
      exact none)
  intro i
  rw [Run.info, finishLayout]
  simp only [finalBaseOffsets, Run.nonVirtual]
  by_cases lt : i < ((h.record r).bases.zip run.baseOffs).length
  · rw [List.getD_eq_getElem _ _ (by simpa using lt)]
    simp only [List.getElem_map, List.getElem_zip]
    rw [plain_of_static static (List.getElem_mem _)]
    simp only [Bool.false_eq_true, if_false]
    have len : i < ((h.record r).bases.zipIdx.zip run.baseOffs).length := by simpa using lt
    have := zero _ (List.getElem_mem len)
    simpa using this
  · rw [List.getD_eq_default _ _ (by rw [List.length_map]; omega)]

/-- **The empty subobjects of an empty class: it and its bases, all at its offset.** -/
theorem Laid.mem_eachEmpty_of_empty {info : RecordInfo} (known : L r = some info) (empty : itaniumEmpty h r = true)
    (complete : h.Complete m r) {start : Nat} {asBase : Bool} {e : Nat × Nat} :
    e ∈ eachEmpty m h L r start asBase ↔ h.Derives r e.1 ∧ e.2 = start := by
  induction r using Nat.strongRecOn generalizing info asBase with
  | ind r ih =>
    have zero := laid.baseOffsets_of_empty sizes known empty
    have below : ∀ b ∈ (h.record r).bases, ∀ d, b.cls = some d → ∀ asBase,
        (e ∈ eachEmpty m h L d start asBase ↔ h.Derives d e.1 ∧ e.2 = start) := by
      intro b hb d hd asBase
      obtain ⟨bi, knownBase⟩ := laid.known_part complete known (.inl ⟨b, hb, hd⟩)
      obtain ⟨d', hd', emptyBase⟩ := (itaniumEmpty_struct (h.struct_of_base hb) empty).2.2 b hb
      rw [hd] at hd'
      cases hd'
      exact ih d (h.base_lt r b hb d hd) knownBase emptyBase (complete.part (.inl ⟨b, hb, hd⟩))
    have noMembers : ∀ f ∈ (h.record r).fields, f.type.recordElem = none := by
      intro f hf
      by_cases union : (h.record r).tag = .union
      · rw [itaniumEmpty_eq, itaniumEmptyBody, if_pos union, List.isEmpty_iff] at empty
        rw [empty] at hf
        cases hf
      · exact Ty.recordElem_of_isIntegral
          (h.bitField_integral r f hf ((itaniumEmpty_struct union empty).1 f hf).1)
    constructor
    · intro mem
      rcases mem_eachEmpty.1 mem with ⟨-, rfl⟩ | ⟨info', b, i, d, known', hb, hd, mem⟩ |
        ⟨info', v, off, -, -, hv, -, mem⟩ | ⟨info', f, i, c, k, -, hf, hc, -, mem⟩
      · exact ⟨.refl, rfl⟩
      · rw [known] at known'
        cases known'
        have inBases := List.fst_mem_of_mem_zipIdx hb
        have cls := (BaseSpec.plain_eq_some.1 hd).2
        rw [zero i, Nat.add_zero, below b inBases d cls] at mem
        exact ⟨.head ⟨b, inBases, cls⟩ mem.1, mem.2⟩
      · have vbase := mem_itaniumVBases.1 hv
        exact absurd vbase (not_vbase_of_not_dynamic (itaniumEmpty_struct vbase.struct empty).2.1)
      · rw [noMembers f (List.fst_mem_of_mem_zipIdx hf)] at hc
        cases hc
    · rintro ⟨path, rfl⟩
      apply mem_eachEmpty.2
      rcases Hierarchy.Derives.cases_base path with eq | ⟨d, ⟨b, hb, hd⟩, rest⟩
      · exact .self empty (Prod.ext eq rfl)
      · obtain ⟨i, lt, at_⟩ := List.getElem_of_mem hb
        have plain := plain_of_static (itaniumEmpty_struct (h.struct_of_base hb) empty).2.1 hb
        refine .base info b i d known (List.mem_zipIdx_iff_getElem?.2 (by simp [at_, lt]))
          (BaseSpec.plain_eq_some.2 ⟨plain, hd⟩) ?_
        rw [zero i, Nat.add_zero, below b hb d hd]
        exact ⟨rest, rfl⟩

/-! ### The bases of a class -/

theorem Laid.placeBase_of_data {d : Nat} {bi : RecordInfo} (known : L d = some bi) {c : Cursor} (data : 0 < c.dsize) :
    ∃ off c', Vcx.Types.placeBase m h L d false c = some (off, c') ∧ 0 < c'.dsize := by
  have pos := laid.positive sizes known
  cases run : Vcx.Types.placeBase m h L d false c with
  | none =>
    obtain ⟨-, -, none, -⟩ := (placeBase_none_iff known pos.nvalign).1 run
    omega
  | some p =>
    obtain ⟨off, c'⟩ := p
    have placed := placeBase_some known pos.nvalign run
    refine ⟨off, c', rfl, ?_⟩
    have := pos.nvsize
    rw [placed.dsize]
    split <;> omega

theorem Laid.placeBases_of_data (keep : Nat → Option Nat) {bs : List (BaseSpec × Nat)}
    (known : ∀ b ∈ bs, ∀ d, b.1.plain = some d → ∃ bi, L d = some bi) {c : Cursor} (data : 0 < c.dsize) :
    ∃ offs c', placeBases m h L keep bs c = some (offs, c') ∧ 0 < c'.dsize := by
  refine thread_isSome (P := fun c : Cursor => 0 < c.dsize) _ _ data ?_
  intro b hb c data
  unfold placeBaseAt
  split
  · exact ⟨_, _, rfl, data⟩
  · split
    · exact ⟨_, _, rfl, data⟩
    · rename_i d placed
      obtain ⟨bi, known⟩ := known b hb d (Option.filter_eq_some_iff.1 placed).1
      exact laid.placeBase_of_data sizes known data

/-- Before there is data the bases find places exactly when the leading empty ones overlap
neither each other nor what is recorded. -/
theorem Laid.placeBases_iff {bs : List (BaseSpec × Nat)}
    (all : ∀ b ∈ bs, ∃ d bi, b.1.plain = some d ∧ L d = some bi ∧ h.Complete m d) {c : Cursor} (none : c.dsize = 0)
    (done : List Nat) (recorded : ∀ e, e ∈ c.empties ↔ ∃ d ∈ done, h.Derives d e.1 ∧ e.2 = 0) :
    (placeBases m h L (fun _ => Option.none) bs c).isSome = true ↔
      (∀ d ∈ done, ∀ e ∈ leading h (bs.map Prod.fst), ¬ Overlap h d e) ∧
        (leading h (bs.map Prod.fst)).Pairwise fun d e => ¬ Overlap h d e := by
  induction bs generalizing c done with
  | nil => simp [placeBases, thread, leading]
  | cons b bs ih =>
    obtain ⟨d, bi, plain, known, complete⟩ := all b List.mem_cons_self
    have rest := fun b' hb' => all b' (List.mem_cons_of_mem b hb')
    have cls := (BaseSpec.plain_eq_some.1 plain).2
    have pos := laid.positive sizes known
    have step : placeBaseAt m h L (fun _ => Option.none) b c = Vcx.Types.placeBase m h L d false c := by
      simp [placeBaseAt, plain, Option.filter, complete.at.complete]
    by_cases empty : itaniumEmpty h d = true
    · have clash : conflicts m h L c.empties d 0 true = true ↔ ∃ x ∈ done, Overlap h x d := by
        rw [conflicts_iff]
        constructor
        · rintro ⟨e, mem, old⟩
          obtain ⟨x, hx, left, -⟩ := (recorded e).1 old
          exact ⟨x, hx, e.1, left, ((laid.mem_eachEmpty_of_empty sizes known empty complete).1 mem).1⟩
        · rintro ⟨x, hx, e, left, right⟩
          exact ⟨(e, 0), (laid.mem_eachEmpty_of_empty sizes known empty complete).2 ⟨right, rfl⟩,
            (recorded (e, 0)).2 ⟨x, hx, left, rfl⟩⟩
      have lead : leading h ((b :: bs).map Prod.fst) = d :: leading h (bs.map Prod.fst) := by
        simp [leading, cls, empty]
      rw [lead, List.pairwise_cons]
      cases run : Vcx.Types.placeBase m h L d false c with
      | none =>
        obtain ⟨-, -, -, hit⟩ := (placeBase_none_iff known pos.nvalign).1 run
        obtain ⟨x, hx, overlap⟩ := clash.1 hit
        simp only [placeBases, thread, step, run, Option.isSome_none, Bool.false_eq_true, false_iff]
        exact fun ok => ok.1 x hx d List.mem_cons_self overlap
      | some p =>
        obtain ⟨off, c'⟩ := p
        have placed := placeBase_some known pos.nvalign run
        have zero := placed.noData empty none
        have clear : ∀ x ∈ done, ¬ Overlap h x d := by
          intro x hx overlap
          have hit := clash.2 ⟨x, hx, overlap⟩
          rw [conflicts_iff] at hit
          obtain ⟨e, mem, old⟩ := hit
          rw [← zero] at mem
          exact placed.free (.inl rfl) e mem old
        have same : (placeBases m h L (fun _ => Option.none) (b :: bs) c).isSome =
            (placeBases m h L (fun _ => Option.none) bs c').isSome := by
          simp only [placeBases, thread, step, run]
          cases thread (placeBaseAt m h L fun _ => Option.none) bs c' <;> rfl
        rw [same, ih rest (c := c') (by rw [placed.dsize, if_pos empty, none]) (done ++ [d]) ?_]
        · constructor
          · rintro ⟨cross, pairs⟩
            refine ⟨?_, ?_, pairs⟩
            · intro x hx e he
              rcases List.mem_cons.1 he with rfl | he
              · exact clear x hx
              · exact cross x (List.mem_append_left _ hx) e he
            · exact cross d (List.mem_append_right _ List.mem_cons_self)
          · rintro ⟨cross, here, pairs⟩
            refine ⟨?_, pairs⟩
            intro x hx e he
            rcases List.mem_append.1 hx with hx | hx
            · exact cross x hx e (List.mem_cons_of_mem d he)
            · obtain rfl := List.mem_singleton.1 hx
              exact here e he
        · intro e
          rw [placed.empties, List.mem_append, recorded, zero,
            laid.mem_eachEmpty_of_empty sizes known empty complete]
          constructor
          · rintro (⟨x, hx, both⟩ | here)
            · exact ⟨x, List.mem_append_left _ hx, both⟩
            · exact ⟨d, List.mem_append_right _ List.mem_cons_self, here⟩
          · rintro ⟨x, hx, both⟩
            rcases List.mem_append.1 hx with hx | hx
            · exact .inl ⟨x, hx, both⟩
            · obtain rfl := List.mem_singleton.1 hx
              exact .inr both
    · have lead : leading h ((b :: bs).map Prod.fst) = [] := by
        simp [leading, cls, empty]
      rw [lead]
      simp only [List.not_mem_nil, false_implies, implies_true, List.Pairwise.nil, and_self, iff_true]
      cases run : Vcx.Types.placeBase m h L d false c with
      | none =>
        obtain ⟨hit, -⟩ := (placeBase_none_iff known pos.nvalign).1 run
        exact absurd hit empty
      | some p =>
        obtain ⟨off, c'⟩ := p
        have placed := placeBase_some known pos.nvalign run
        have data : 0 < c'.dsize := by
          have := pos.nvsize
          rw [placed.dsize, if_neg empty]
          omega
        obtain ⟨offs, c'', more, -⟩ := laid.placeBases_of_data sizes (fun _ => Option.none) (by
          intro b' (hb' : b' ∈ bs) d' hd'
          obtain ⟨d'', bi', plain', known', -⟩ := rest b' hb'
          rw [hd'] at plain'
          cases plain'
          exact ⟨bi', known'⟩) data
        unfold placeBases at more ⊢
        rw [thread_cons_of (step.trans run) more]
        rfl

/-! ### The whole class -/

/-- The members always find places. -/
theorem Laid.placeFields_isSome (rec_ : Record) {fs : List Field} (complete : ∀ f ∈ fs, f.type.complete m h = true)
    (known : ∀ f ∈ fs, ∀ c, f.type.recordElem = some c → ∃ info, L c = some info) (s : Nat × Cursor) :
    ∃ ps s', placeFields m h L rec_ fs s = some (ps, s') := by
  obtain ⟨ps, s', run, -⟩ := thread_isSome (P := fun _ : Nat × Cursor => True) (s := s)
      (Vcx.Types.placeField m h L rec_) fs trivial (by
    intro f hf s _
    have known' := fun c hc => Option.isSome_iff_exists.2 (known f hf c hc)
    obtain ⟨n, size⟩ := Option.isSome_iff_exists.1 (sizeof_isSome (complete f hf) known')
    obtain ⟨ta, align⟩ := Option.isSome_iff_exists.1 (alignof_isSome (complete f hf) known')
    obtain ⟨p, s', run⟩ := placeField_isSome (r := rec_) (s := s) size align (laid.alignof_pos sizes align)
    exact ⟨p, s', run, trivial⟩)
  exact ⟨ps, s', run⟩

/-- A member never takes data away. -/
theorem Laid.placeFields_dsize {rec_ : Record} {fs : List Field} {c c' : Cursor} {ps : List Placed} {bits : Nat}
    (run : placeFields m h L rec_ fs (c.dsize * 8, c) = some (ps, bits, c')) : c.dsize ≤ c'.dsize := by
  have inv := thread_invariant
    (P := fun s : Nat × Cursor => c.dsize ≤ s.2.dsize ∧ s.2.dsize = (s.1 + 7) / 8) run ⟨Nat.le_refl _, by simp only; omega⟩ (by
      rintro f hf s p s' ⟨le, eq⟩ step
      obtain ⟨fs, ta, -, -, -, placed⟩ := laid.placeField sizes step
      rcases placed with ⟨-, placed⟩ | ⟨fr, -, -, placed⟩ | ⟨-, -, placed⟩
      · have grows := le_bitStart s.1 f.width (fs * 8) (fieldAlign rec_ f ta * 8)
        have := placed.bits
        exact ⟨by rw [placed.dsize]; omega, placed.dsize⟩
      · exact ⟨by rw [placed.dsize]; exact le, by rw [placed.dsize, placed.bits]; exact eq⟩
      · have := placed.after
        exact ⟨by rw [placed.dsize]; omega, by rw [placed.dsize, placed.bits]; omega⟩)
  exact inv.1

/-- A dynamic class has data from its vptr or its primary base on. -/
theorem Laid.placePrimary_of_dynamic (dyn : isDynamic h r = true) (known : ∀ c, h.Base r c → ∃ info, L c = some info) :
    ∃ off c, placePrimary m h L (h.record r) (primaryBase m h L r)
      (startCursor m (h.record r) (isDynamic h r) (primaryBase m h L r)) = some (off, c) ∧ 0 < c.dsize := by
  cases idx : (primaryBase m h L r).idx with
  | none =>
    refine ⟨_, _, by rw [placePrimary, idx], ?_⟩
    simpa [startCursor, dyn, idx] using sizes.ptr_pos
  | some i =>
    obtain ⟨b, c, at_, cls, -, data, -⟩ := primaryBase_idx idx
    obtain ⟨bi, knownBase⟩ := known c ⟨b, List.mem_of_getElem? at_, cls⟩
    have pos := laid.positive sizes knownBase
    generalize startCursor m (h.record r) (isDynamic h r) (primaryBase m h L r) = start
    cases run : Vcx.Types.placeBase m h L c true start with
    | none =>
      obtain ⟨-, contra, -⟩ := (placeBase_none_iff knownBase pos.nvalign).1 run
      cases contra
    | some p =>
      obtain ⟨off, c'⟩ := p
      have placed := placeBase_some knownBase pos.nvalign run
      refine ⟨some off, c', by simp [placePrimary, idx, at_, cls, run], ?_⟩
      have := pos.nvsize
      rw [placed.dsize, if_neg (by simp [data])]
      omega

/-- The members and the virtual bases follow when the bases have found places. -/
theorem Laid.run_of_bases (complete : h.Complete m r)
    (known : ∀ c, h.Contains r c → c ≠ r → ∃ info, L c = some info) {off : Option Nat} {c1 c2 : Cursor} {offs : List Nat}
    (primary : placePrimary m h L (h.record r) (primaryBase m h L r)
      (startCursor m (h.record r) (isDynamic h r) (primaryBase m h L r)) = some (off, c1))
    (bases : placeBases m h L (keepPrimary (primaryBase m h L r) off) (h.record r).bases.zipIdx c1 = some (offs, c2))
    (data : isDynamic h r = true → 0 < c2.dsize) : Nonempty (Run m h L r) := by
  obtain ⟨ps, ⟨bits, c3⟩, members⟩ := laid.placeFields_isSome sizes (h.record r)
    complete.at.fields (fun f hf c hc => by
      have part : h.Part r c := .inr ⟨f, hf, hc⟩
      exact known c (.single part) (Nat.ne_of_lt part.lt)) (c2.dsize * 8, c2)
  have grows := laid.placeFields_dsize sizes members
  by_cases dyn : isDynamic h r = true
  · have data' := data dyn
    obtain ⟨voffs, c4, vbases, -⟩ := thread_isSome (P := fun c : Cursor => 0 < c.dsize) (s := c3)
        (fun v c => Vcx.Types.placeBase m h L v false c) (freshVBases m h L r) (by omega) (by
      intro v hv c data
      have vbase := mem_itaniumVBases.1 (List.mem_filter.1 hv).1
      obtain ⟨bi, knownBase⟩ := known v vbase.derives.contains (Nat.ne_of_lt vbase.lt)
      exact laid.placeBase_of_data sizes knownBase data)
    exact ⟨⟨off, c1, offs, c2, ps, bits, c3, voffs, c4, primary, bases, members, vbases⟩⟩
  · have none : freshVBases m h L r = [] := by
      apply List.eq_nil_iff_forall_not_mem.2
      intro v hv
      exact not_vbase_of_not_dynamic (by simpa using dyn) (mem_itaniumVBases.1 (List.mem_filter.1 hv).1)
    exact ⟨⟨off, c1, offs, c2, ps, bits, c3, [], c3, primary, bases, members, by rw [none]; rfl⟩⟩

/-- **One class over the layouts of everything in it has a layout unless its leading empty
bases clash.** -/
theorem Laid.layoutItanium_isSome_iff (complete : h.Complete m r)
    (known : ∀ c, h.Contains r c → c ≠ r → ∃ info, L c = some info) :
    (layoutItanium m h L r).isSome = true ↔ ¬ Clash h r := by
  have knownBase : ∀ c, h.Base r c → ∃ info, L c = some info :=
    fun c e => known c (.single (.inl e)) (Nat.ne_of_lt e.lt)
  have ofRun : (h.record r).tag ≠ .union → ((layoutItanium m h L r).isSome = true ↔ Nonempty (Run m h L r)) := by
    intro struct
    rw [Option.isSome_iff_exists]
    constructor
    · rintro ⟨info, eq⟩
      obtain ⟨run, -⟩ := (layoutItanium_iff_run struct).1 eq
      exact ⟨run⟩
    · rintro ⟨run⟩
      exact ⟨run.info, (layoutItanium_iff_run struct).2 ⟨run, rfl⟩⟩
  by_cases union : (h.record r).tag = .union
  · refine ⟨fun _ clash => clash.1 union, fun _ => ?_⟩
    obtain ⟨ps, c, run, -⟩ := thread_isSome (P := fun _ : Cursor => True) (s := headCursor (h.record r))
        (unionField m h L (h.record r)) (h.record r).fields trivial (by
      intro f hf c _
      have known' : ∀ c, f.type.recordElem = some c → (L c).isSome = true := by
        intro c hc
        have part : h.Part r c := .inr ⟨f, hf, hc⟩
        exact Option.isSome_iff_exists.2 (known c (.single part) (Nat.ne_of_lt part.lt))
      obtain ⟨n, size⟩ := Option.isSome_iff_exists.1 (sizeof_isSome (complete.at.fields f hf) known')
      obtain ⟨ta, align⟩ := Option.isSome_iff_exists.1 (alignof_isSome (complete.at.fields f hf) known')
      exact ⟨_, _, by rw [unionField, size, align], trivial⟩)
    rw [layoutItanium, if_pos union, layoutItaniumUnion, run]
    rfl
  rw [ofRun union]
  by_cases dyn : isDynamic h r = true
  · refine ⟨fun _ clash => by simp [clash.2.1] at dyn, fun _ => ?_⟩
    obtain ⟨off, c1, primary, data⟩ := laid.placePrimary_of_dynamic sizes dyn knownBase
    obtain ⟨offs, c2, bases, data⟩ := laid.placeBases_of_data sizes (keepPrimary (primaryBase m h L r) off)
      (fun b (hb : b ∈ (h.record r).bases.zipIdx) d hd =>
        knownBase d ⟨b.1, List.fst_mem_of_mem_zipIdx hb, (BaseSpec.plain_eq_some.1 hd).2⟩) data
    exact laid.run_of_bases sizes complete known primary bases fun _ => data
  · have static : isDynamic h r = false := by simpa using dyn
    have alone := primaryBase_of_static (m := m) (L := L) static
    have keep : keepPrimary (primaryBase m h L r) none = fun _ => none := by
      funext i
      simp [keepPrimary]
    have iff := laid.placeBases_iff sizes (c := headCursor (h.record r)) (by
        intro b (hb : b ∈ (h.record r).bases.zipIdx)
        have mem := List.fst_mem_of_mem_zipIdx hb
        obtain ⟨d, hd⟩ := complete.at.bases b.1 mem
        obtain ⟨bi, knownBase⟩ := knownBase d ⟨b.1, mem, hd⟩
        exact ⟨d, bi, BaseSpec.plain_eq_some.2 ⟨plain_of_static static mem, hd⟩, knownBase,
          complete.part (.inl ⟨b.1, mem, hd⟩)⟩)
      rfl [] (by simp)
    have start : placePrimary m h L (h.record r) (primaryBase m h L r)
        (startCursor m (h.record r) (isDynamic h r) (primaryBase m h L r)) = some (none, headCursor (h.record r)) := by
      rw [alone, static]
      rfl
    rw [List.zipIdx_map_fst] at iff
    constructor
    · rintro ⟨run⟩ ⟨-, -, clash⟩
      have primary := run.primary
      rw [start] at primary
      have bases := run.bases
      obtain ⟨off, cur⟩ := Prod.mk.inj (Option.some.inj primary)
      rw [← off, ← cur, keep] at bases
      exact clash (iff.1 (by rw [bases]; rfl)).2
    · intro clear
      have pairs : (leading h (h.record r).bases).Pairwise fun c d => ¬ Overlap h c d := by
        by_contra clash
        exact clear ⟨union, static, clash⟩
      obtain ⟨⟨offs, c2⟩, bases⟩ := Option.isSome_iff_exists.1 (iff.2 ⟨by simp, pairs⟩)
      exact laid.run_of_bases sizes complete known start (by rw [keep]; exact bases) (by simp [static])

/-- **Layouts end exactly where nothing in the class clashes.** -/
theorem Laid.isSome_iff (complete : h.Complete m r) :
    (L r).isSome = true ↔ ∀ c, h.Contains r c → ¬ Clash h c := by
  constructor
  · intro some c path
    obtain ⟨info, known⟩ := Option.isSome_iff_exists.1 some
    have knownAll := fun c path => laid.known_contains complete known (c := c) path
    obtain ⟨ci, knownHere⟩ := knownAll c path
    rw [← laid.layoutItanium_isSome_iff sizes (complete.contains path) (fun d inner _ => knownAll d (path.trans inner)),
      ← laid c, knownHere]
    rfl
  · intro clear
    induction r using Nat.strongRecOn with
    | ind r ih =>
      rw [laid r, laid.layoutItanium_isSome_iff sizes complete ?_]
      · exact clear r .refl
      · intro c path ne
        have lt : c < r := Nat.lt_of_le_of_ne path.le ne
        exact Option.isSome_iff_exists.1
          (ih c lt (complete.contains path) fun d inner => clear d (path.trans inner))

end

end Vcx.Types
