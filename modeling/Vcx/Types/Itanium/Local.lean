import Vcx.Types.Itanium.Layout

/-!
# A layout looks only below

The layout of `r` reads the layouts of records below `r` and no others: two families that
agree there give the same result. This is what closes the recursion in `Vcx.Types.Layout`.
-/

namespace Vcx.Types
set_option autoImplicit false
open Vcx.Lib

variable {m : Model} {h : Hierarchy} {L L' : Layouts} {r : Nat}

/-- Two families of layouts agree below `r`. -/
def Agree (r : Nat) (L L' : Layouts) : Prop := ∀ j < r, L j = L' j

theorem Agree.mono {s : Nat} (agree : Agree r L L') (le : s ≤ r) : Agree s L L' :=
  fun j lt => agree j (by omega)

theorem nearlyEmpty_congr {v : Nat} (same : L v = L' v) : nearlyEmpty m h L v = nearlyEmpty m h L' v := by
  simp [nearlyEmpty, same]

theorem indirectPrimaries_congr {p p' : Nat → Primary} (agree : ∀ c < r, p c = p' c) :
    indirectPrimaries h p r = indirectPrimaries h p' r := by
  induction r using Nat.strongRecOn with
  | ind r ih =>
    rw [indirectPrimaries, indirectPrimaries, fix_eq, fix_eq]
    apply List.flatMap_congr
    intro b hb
    cases hc : b.cls with
    | none => rfl
    | some c =>
      have lt := h.base_lt r b hb c hc
      simp only [below_lt lt, agree c lt]
      congr 1
      exact ih c lt fun d ld => agree d (by omega)

theorem primaryBase_congr (agree : Agree r L L') : primaryBase m h L r = primaryBase m h L' r := by
  induction r using Nat.strongRecOn with
  | ind r ih =>
    rw [primaryBase, primaryBase, fix_eq, fix_eq, primaryBaseBody, primaryBaseBody]
    have nearly : (itaniumVBases h r).filter (nearlyEmpty m h L) =
        (itaniumVBases h r).filter (nearlyEmpty m h L') := by
      apply List.filter_congr
      intro v hv
      exact nearlyEmpty_congr (agree v (mem_itaniumVBases.1 hv).lt)
    have indirect : indirectPrimaries h (below (fix (primaryBaseBody m h L) {}) {} r) r =
        indirectPrimaries h (below (fix (primaryBaseBody m h L') {}) {} r) r := by
      apply indirectPrimaries_congr
      intro c lt
      rw [below_lt lt, below_lt lt]
      exact ih c lt (agree.mono (by omega))
    rw [nearly, indirect]

theorem eachEmpty_congr (agree : Agree (r + 1) L L') : eachEmpty m h L r = eachEmpty m h L' r := by
  induction r using Nat.strongRecOn with
  | ind r ih =>
    rw [eachEmpty, eachEmpty, fix_eq, fix_eq]
    funext start asBase
    have rec_ : ∀ c < r, below (fix (eachEmptyBody m h L) fun _ _ => []) (fun _ _ => []) r c =
        below (fix (eachEmptyBody m h L') fun _ _ => []) (fun _ _ => []) r c := by
      intro c lt
      rw [below_lt lt, below_lt lt]
      exact ih c lt (agree.mono (by omega))
    simp only [eachEmptyBody, agree r (by omega)]
    congr 1
    cases L' r with
    | none => rfl
    | some info =>
      simp only
      congr 1
      · congr 1
        · apply List.flatMap_congr
          rintro ⟨b, i⟩ hb
          have mem := List.fst_mem_of_mem_zipIdx hb
          cases hc : b.plain with
          | none => simp only
          | some c => simp only [rec_ c (h.base_lt r b mem c (BaseSpec.plain_eq_some.1 hc).2)]
        · split
          · rfl
          · apply List.flatMap_congr
            intro v hv
            simp only [rec_ v (mem_itaniumVBases.1 hv).lt]
      · apply List.flatMap_congr
        rintro ⟨f, i⟩ hf
        have mem := List.fst_mem_of_mem_zipIdx hf
        cases hc : f.type.recordElem with
        | none => rfl
        | some c =>
          have lt := h.member_lt r f mem c hc
          have size : sizeof m h L (.record c) = sizeof m h L' (.record c) := by
            simp [sizeof, agree c (by omega)]
          simp only [rec_ c lt, size]

/-- Searching and recording read the empties of the placed class alone. -/
theorem placeBase_congr {c : Nat} (agree : Agree r L L') (lt : c < r) :
    placeBase m h L c = placeBase m h L' c := by
  have empties := eachEmpty_congr (m := m) (h := h) (agree.mono (show c + 1 ≤ r by omega))
  funext first cur
  simp only [placeBase, placeEmptyBase, placeDataBase, agree c lt, emptyBaseOffset, freeOffset, conflicts,
    Cursor.record, empties]

theorem placeBases_congr {keep : Nat → Option Nat} {bs : List (BaseSpec × Nat)} (agree : Agree r L L')
    (below : ∀ b ∈ bs, ∀ c, b.1.cls = some c → c < r) :
    placeBases m h L keep bs = placeBases m h L' keep bs := by
  apply thread_congr
  intro b hb
  funext cur
  unfold placeBaseAt
  cases keep b.2 with
  | some off => rfl
  | none =>
    cases hc : b.1.plain.filter fun br => (h.record br).complete with
    | none => rfl
    | some c =>
      have plain := (Option.filter_eq_some_iff.1 hc).1
      simp only [placeBase_congr agree (below b hb c (BaseSpec.plain_eq_some.1 plain).2)]

theorem memberOffset_congr {t : Ty} (agree : Agree r L L') (below : ∀ c, t.recordElem = some c → c < r) :
    memberOffset m h L t = memberOffset m h L' t := by
  funext start fa cur
  unfold memberOffset
  cases hc : t.recordElem with
  | none => rfl
  | some c => simp only [freeOffset, conflicts, eachEmpty_congr (agree.mono (below c hc))]

theorem recordMember_congr {t : Ty} (agree : Agree r L L') (below : ∀ c, t.recordElem = some c → c < r) :
    recordMember m h L t = recordMember m h L' t := by
  funext off cur
  unfold recordMember
  cases hr : t.asRecord with
  | none => rfl
  | some c => simp only [Cursor.record, eachEmpty_congr (agree.mono (below c (Ty.recordElem_of_asRecord hr)))]

theorem emptyMember_spec {f : Field} {c : Nat} (e : emptyMember h f = some c) :
    f.noUniqueAddress = true ∧ f.type.asRecord = some c ∧ itaniumEmpty h c = true := by
  unfold emptyMember at e
  split at e
  · rename_i nua
    exact ⟨nua, Option.filter_eq_some_iff.1 e⟩
  · cases e

theorem placeField_congr {rec_ : Record} {f : Field} (agree : Agree r L L')
    (below : ∀ c, f.type.recordElem = some c → c < r) :
    placeField m h L rec_ f = placeField m h L' rec_ f := by
  have size := sizeof_congr (m := m) (h := h) (t := f.type) fun c hc => agree c (below c hc)
  have align := alignof_congr (m := m) (h := h) (t := f.type) fun c hc => agree c (below c hc)
  have empty : ∀ c, emptyMember h f = some c → placeEmptyMember m h L c = placeEmptyMember m h L' c := by
    intro c hc
    have lt := below c (Ty.recordElem_of_asRecord (emptyMember_spec hc).2.1)
    funext fs fa s
    simp only [placeEmptyMember, freeOffset, conflicts, Cursor.record, eachEmpty_congr (agree.mono lt)]
  have member : placeMember m h L f.type = placeMember m h L' f.type := by
    funext fs fa s
    simp only [placeMember, memberOffset_congr agree below, recordMember_congr agree below]
  funext s
  unfold placeField
  rw [size, align, member]
  cases hc : emptyMember h f with
  | none => rfl
  | some c => simp only [empty c hc]

theorem placeFields_congr {rec_ : Record} {fs : List Field} (agree : Agree r L L')
    (below : ∀ f ∈ fs, ∀ c, f.type.recordElem = some c → c < r) :
    placeFields m h L rec_ fs = placeFields m h L' rec_ fs :=
  thread_congr fun f hf => placeField_congr agree (below f hf)

theorem unionField_congr {rec_ : Record} {f : Field} (agree : Agree r L L')
    (below : ∀ c, f.type.recordElem = some c → c < r) :
    unionField m h L rec_ f = unionField m h L' rec_ f := by
  have size := sizeof_congr (m := m) (h := h) (t := f.type) fun c hc => agree c (below c hc)
  have align := alignof_congr (m := m) (h := h) (t := f.type) fun c hc => agree c (below c hc)
  funext c
  unfold unionField
  rw [size, align]

theorem placeVBases_congr {vs : List Nat} (agree : Agree r L L') (below : ∀ v ∈ vs, v < r) :
    placeVBases m h L vs = placeVBases m h L' vs :=
  thread_congr fun v hv => by rw [placeBase_congr agree (below v hv)]

theorem holderBases_congr {vb start : Nat} {at_ : VBaseMap} {offs : List Nat}
    {self self' : Nat → Nat → List Nat → Option Nat → Option Nat} {bs : List (BaseSpec × Nat)}
    (agree : Agree r L L') (below : ∀ b ∈ bs, ∀ c, b.1.cls = some c → c < r)
    (same : ∀ c < r, self c = self' c) :
    holderBases m h L vb at_ self start offs bs = holderBases m h L' vb at_ self' start offs bs := by
  induction bs with
  | nil => rfl
  | cons b bs ih =>
    have rest := ih fun b' hb' => below b' (List.mem_cons_of_mem _ hb')
    funext found
    cases hb : baseAt at_ start offs b with
    | none => simp only [holderBases, hb, rest]
    | some p =>
      obtain ⟨c, bat⟩ := p
      obtain ⟨c', hc, e⟩ := Option.bind_eq_some_iff.1 hb
      obtain ⟨off, -, e'⟩ := Option.map_eq_some_iff.1 e
      cases e'
      have lt := below b List.mem_cons_self c hc
      simp only [holderBases, hb, rest, same c lt, agree c lt,
        primaryBase_congr (m := m) (h := h) (agree.mono (show c ≤ r by omega))]

theorem primaryHolderOffset_congr {vb : Nat} {at_ : VBaseMap} {offs : List Nat} (agree : Agree r L L') :
    primaryHolderOffset m h L vb at_ r offs = primaryHolderOffset m h L' vb at_ r offs := by
  have walk : ∀ c ≤ r, fix (holderBody m h L vb at_) (fun _ _ found => found) c =
      fix (holderBody m h L' vb at_) (fun _ _ found => found) c := by
    intro c
    induction c using Nat.strongRecOn with
    | ind c ih =>
      intro le
      rw [fix_eq, fix_eq]
      funext start offs found
      unfold holderBody
      rw [holderBases_congr (agree.mono le)]
      · rintro ⟨b, i⟩ hb d hd
        exact h.base_lt c b (List.fst_mem_of_mem_zipIdx hb) d hd
      · intro d lt
        rw [below_lt lt, below_lt lt]
        exact ih d lt (by omega)
  unfold primaryHolderOffset
  rw [walk r (Nat.le_refl r)]

theorem placePrimary_congr {p : Primary} (agree : Agree r L L') :
    placePrimary m h L (h.record r) p = placePrimary m h L' (h.record r) p := by
  funext cur
  unfold placePrimary
  cases p.idx with
  | none => rfl
  | some i =>
    simp only
    cases hc : (h.record r).bases[i]?.bind BaseSpec.cls with
    | none => rfl
    | some d =>
      obtain ⟨b, hb, cls⟩ := Option.bind_eq_some_iff.1 hc
      simp only [placeBase_congr agree (h.base_lt r b (List.mem_of_getElem? hb) d cls)]

theorem layoutNonVirtualPart_congr (agree : Agree r L L') :
    layoutNonVirtualPart m h L r = layoutNonVirtualPart m h L' r := by
  have bases : ∀ keep, placeBases m h L keep (h.record r).bases.zipIdx =
      placeBases m h L' keep (h.record r).bases.zipIdx := by
    intro keep
    apply placeBases_congr agree
    rintro ⟨b, i⟩ hb c hc
    exact h.base_lt r b (List.fst_mem_of_mem_zipIdx hb) c hc
  have fields : placeFields m h L (h.record r) (h.record r).fields = placeFields m h L' (h.record r) (h.record r).fields :=
    placeFields_congr agree (h.member_lt r)
  simp only [layoutNonVirtualPart, primaryBase_congr agree, placePrimary_congr agree, bases, fields]

theorem indirect_congr (agree : Agree r L L') :
    indirectPrimaries h (primaryBase m h L) r = indirectPrimaries h (primaryBase m h L') r :=
  indirectPrimaries_congr fun _ lt => primaryBase_congr (agree.mono (by omega))

theorem freshVBases_congr (agree : Agree r L L') : freshVBases m h L r = freshVBases m h L' r := by
  unfold freshVBases
  rw [primaryBase_congr agree, indirect_congr agree]

theorem vbaseEntries_congr {nv : NonVirtual} {offs : List Nat} (agree : Agree r L L') :
    vbaseEntries m h L r nv offs = vbaseEntries m h L' r nv offs := by
  unfold vbaseEntries
  rw [freshVBases_congr agree, indirect_congr agree]
  congr 1
  funext at_ v
  unfold shareVBase
  rw [primaryHolderOffset_congr agree]

/-- **The Itanium layout of a record depends on the layouts below it only.** -/
theorem layoutItanium_congr (agree : Agree r L L') : layoutItanium m h L r = layoutItanium m h L' r := by
  have union : layoutItaniumUnion m h L r = layoutItaniumUnion m h L' r := by
    have fields : thread (unionField m h L (h.record r)) (h.record r).fields =
        thread (unionField m h L' (h.record r)) (h.record r).fields :=
      thread_congr fun f hf => unionField_congr agree (h.member_lt r f hf)
    unfold layoutItaniumUnion
    rw [fields]
  have vbases : placeVBases m h L (freshVBases m h L' r) = placeVBases m h L' (freshVBases m h L' r) :=
    placeVBases_congr agree fun v hv => (mem_itaniumVBases.1 (List.mem_filter.1 hv).1).lt
  unfold layoutItanium finishLayout
  rw [union, layoutNonVirtualPart_congr agree, freshVBases_congr agree, vbases]
  simp only [vbaseEntries_congr agree]

end Vcx.Types
