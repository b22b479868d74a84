import Mathlib.Data.List.Perm.Subperm
import Vcx.Types.Itanium.Members
import Vcx.Types.Itanium.VBases

/-!
# Empty subobjects of one type are at different addresses

The layout records the empty subobjects of everything it places and moves a base or a
member that would put one on another of its type. So the recorded ones are all different
(`Held`), and they are all the empty subobjects of the class, but for those in the elements
of an array and in a virtual base that shares the address of another subobject: these are
never recorded, and `EmptiesApart` asks that there are none.
-/

namespace Vcx.Types
set_option autoImplicit false
open Vcx.Lib

/-- Nothing in `c` is an empty class. -/
def NoEmpty (h : Hierarchy) (c : Nat) : Prop := ∀ d, h.Contains c d → itaniumEmpty h d = false

/-- What keeps the empty subobjects of one class apart beyond what the layout records: no
arrays of classes with empty ones, no shared virtual bases with empty ones, and no two
members of a union with one of the same type. -/
structure EmptiesApart (m : Model) (h : Hierarchy) (L : Layouts) (r : Nat) : Prop where
  arrays : ∀ f ∈ (h.record r).fields, f.type.asRecord = none → ∀ c, f.type.recordElem = some c → NoEmpty h c
  shared : ∀ v ∈ indirectPrimaries h (primaryBase m h L) r, h.VBase r v →
    (primaryBase m h L r).virt ≠ some v ∨ (primaryBase m h L r).idx = none → NoEmpty h v
  union : (h.record r).tag = .union → (h.record r).fields.Pairwise fun f g =>
    ∀ c d, f.type.recordElem = some c → g.type.recordElem = some d →
      ∀ e, h.Contains c e → h.Contains d e → itaniumEmpty h e = false

variable {m : Model} {h : Hierarchy} {L : Layouts} {r : Nat}

/-! ### The empty subobjects of a placed class -/

/-- Answers looked up by index are answers in order. -/
theorem zipIdx_zip {α β : Type} {l : List α} {bs : List β} (d : β) (len : bs.length = l.length) :
    l.zipIdx.zip bs = l.zipIdx.map fun p => (p, bs.getD p.2 d) := by
  apply List.ext_getElem
  · simp [len]
  · intro i lt lt'
    have lt'' : i < bs.length := by simpa [len] using lt'
    simp [lt'']

theorem zip_eq_zipIdx_map {α β : Type} {l : List α} {bs : List β} (d : β) (len : bs.length = l.length) :
    l.zip bs = l.zipIdx.map fun p => (p.1, bs.getD p.2 d) := by
  apply List.ext_getElem
  · simp [len]
  · intro i lt lt'
    have lt'' : i < bs.length := by simpa [len] using lt'
    simp [lt'']

/-- Moving a class moves its empty subobjects. -/
theorem eachEmpty_add (r start d : Nat) (asBase : Bool) : eachEmpty m h L r (start + d) asBase =
    (eachEmpty m h L r start asBase).map fun e => (e.1, e.2 + d) := by
  induction r using Nat.strongRecOn generalizing start asBase with
  | ind r ih =>
    rw [eachEmpty_eq, eachEmptyBody, eachEmptyBody, List.map_append]
    congr 1
    · split <;> simp
    cases L r with
    | none => rfl
    | some info =>
      simp only [List.map_append, List.map_flatMap]
      congr 1
      · congr 1
        · apply List.flatMap_congr
          rintro ⟨b, i⟩ hb
          cases hc : b.plain with
          | none => rfl
          | some c =>
            have lt := h.base_lt r b (List.fst_mem_of_mem_zipIdx hb) c (BaseSpec.plain_eq_some.1 hc).2
            simp only [← ih c lt]
            congr 1
            omega
        · split
          · rfl
          · rw [List.map_flatMap]
            apply List.flatMap_congr
            intro v hv
            cases info.vbaseOffsets.lookup v with
            | none => rfl
            | some off =>
              simp only [← ih v (mem_itaniumVBases.1 hv).lt]
              congr 1
              omega
      · apply List.flatMap_congr
        rintro ⟨f, i⟩ hf
        cases hc : f.type.recordElem with
        | none => rfl
        | some c =>
          simp only [List.map_flatMap]
          apply List.flatMap_congr
          intro k _
          rw [← ih c (h.member_lt r f (List.fst_mem_of_mem_zipIdx hf) c hc)]
          congr 1
          omega

/-- What is visited is empty and in the class. -/
theorem contains_of_mem_eachEmpty {start : Nat} {asBase : Bool} {e : Nat × Nat}
    (mem : e ∈ eachEmpty m h L r start asBase) : itaniumEmpty h e.1 = true ∧ h.Contains r e.1 := by
  induction r using Nat.strongRecOn generalizing start asBase with
  | ind r ih =>
    rcases mem_eachEmpty.1 mem with ⟨empty, rfl⟩ | ⟨info, b, i, c, -, hb, hc, mem⟩ | ⟨info, v, off, -, -, hv, -, mem⟩ |
      ⟨info, f, i, c, k, -, hf, hc, -, mem⟩
    · exact ⟨empty, .refl⟩
    · have step : h.Base r c := ⟨b, List.fst_mem_of_mem_zipIdx hb, (BaseSpec.plain_eq_some.1 hc).2⟩
      obtain ⟨empty, path⟩ := ih c step.lt mem
      exact ⟨empty, .head (.inl step) path⟩
    · have vbase := mem_itaniumVBases.1 hv
      obtain ⟨empty, path⟩ := ih v vbase.lt mem
      exact ⟨empty, vbase.derives.contains.trans path⟩
    · have mem' := List.fst_mem_of_mem_zipIdx hf
      obtain ⟨empty, path⟩ := ih c (h.member_lt r f mem' c hc) mem
      exact ⟨empty, .head (.inr ⟨f, mem', hc⟩) path⟩

theorem eachEmpty_eq_nil {c : Nat} (none : NoEmpty h c) (start : Nat) (asBase : Bool) :
    eachEmpty m h L c start asBase = [] := by
  apply List.eq_nil_iff_forall_not_mem.2
  intro e mem
  obtain ⟨empty, path⟩ := contains_of_mem_eachEmpty mem
  rw [none e.1 path] at empty
  cases empty

/-- As a base a class has no virtual bases in it. -/
theorem eachEmpty_sublist (c start : Nat) : (eachEmpty m h L c start true).Sublist (eachEmpty m h L c start false) := by
  rw [eachEmpty_eq, eachEmptyBody, eachEmptyBody]
  apply List.Sublist.append_left
  cases L c with
  | none => exact List.Sublist.refl _
  | some info =>
    simp only [if_true, List.append_nil]
    exact (List.sublist_append_left _ _).append_right _

/-- A class whose empty subobjects are apart has them apart wherever it is placed. -/
theorem eachEmpty_nodup_at {c : Nat} (nodup : (eachEmpty m h L c 0 false).Nodup) (start : Nat) (asBase : Bool) :
    (eachEmpty m h L c start asBase).Nodup := by
  have moved : (eachEmpty m h L c start false).Nodup := by
    have eq := eachEmpty_add (m := m) (h := h) (L := L) c 0 start false
    rw [Nat.zero_add] at eq
    rw [eq]
    apply nodup.map
    intro a b same
    simp only [Prod.mk.injEq] at same
    exact Prod.ext same.1 (by omega)
  cases asBase with
  | true => exact moved.sublist (eachEmpty_sublist c start)
  | false => exact moved

/-- The empty subobjects in a base, at the offset it was given. -/
def baseEmpties (m : Model) (h : Hierarchy) (L : Layouts) (b : BaseSpec) (off : Nat) : List (Nat × Nat) :=
  match b.plain with
  | none => []
  | some c => eachEmpty m h L c off true

/-- The empty subobjects in a member. -/
def fieldEmpties (m : Model) (h : Hierarchy) (L : Layouts) (t : Ty) (off : Nat) : List (Nat × Nat) :=
  match t.recordElem with
  | none => []
  | some c => (List.range t.elemCount).flatMap fun k =>
    eachEmpty m h L c (off + k * (sizeof m h L (.record c)).getD 0) false

theorem contains_of_mem_fieldEmpties {t : Ty} {off : Nat} {e : Nat × Nat} (mem : e ∈ fieldEmpties m h L t off) :
    ∃ c, t.recordElem = some c ∧ itaniumEmpty h e.1 = true ∧ h.Contains c e.1 := by
  unfold fieldEmpties at mem
  split at mem
  · cases mem
  · rename_i c elem
    obtain ⟨k, -, mem⟩ := List.mem_flatMap.1 mem
    exact ⟨c, elem, contains_of_mem_eachEmpty mem⟩

/-- The empty subobjects in a virtual base that has an entry. -/
def vbaseEmpties (m : Model) (h : Hierarchy) (L : Layouts) (at_ : VBaseMap) (v : Nat) : List (Nat × Nat) :=
  match at_.lookup v with
  | none => []
  | some off => eachEmpty m h L v off true

/-- The empty subobjects of a complete object, part by part. -/
theorem eachEmpty_whole {info : RecordInfo} (known : L r = some info) : eachEmpty m h L r 0 false =
    (if itaniumEmpty h r then [(r, 0)] else []) ++
      ((h.record r).bases.zipIdx.flatMap (fun p => baseEmpties m h L p.1 (info.baseOffsets.getD p.2 0)) ++
        (itaniumVBases h r).flatMap (vbaseEmpties m h L info.vbaseOffsets) ++
        (h.record r).fields.zipIdx.flatMap fun p => fieldEmpties m h L p.1.type (info.fieldOffsets.getD p.2 0)) := by
  rw [eachEmpty_eq, eachEmptyBody, known]
  simp only [Bool.false_eq_true, if_false, Nat.zero_add]
  rfl

theorem class_lt_of_mem_parts {offs offs' : List Nat} {at_ : VBaseMap} {e : Nat × Nat}
    (mem : e ∈ (h.record r).bases.zipIdx.flatMap (fun p => baseEmpties m h L p.1 (offs.getD p.2 0)) ++
      (itaniumVBases h r).flatMap (vbaseEmpties m h L at_) ++
      (h.record r).fields.zipIdx.flatMap fun p => fieldEmpties m h L p.1.type (offs'.getD p.2 0)) : e.1 < r := by
  have below : ∀ {c start asBase}, c < r → e ∈ eachEmpty m h L c start asBase → e.1 < r := by
    intro c start asBase lt mem
    have := (contains_of_mem_eachEmpty mem).2.le
    omega
  rcases List.mem_append.1 mem with mem | mem
  · rcases List.mem_append.1 mem with mem | mem
    · obtain ⟨⟨b, i⟩, hb, mem⟩ := List.mem_flatMap.1 mem
      unfold baseEmpties at mem
      split at mem
      · cases mem
      · rename_i c plain
        exact below (h.base_lt r b (List.fst_mem_of_mem_zipIdx hb) c (BaseSpec.plain_eq_some.1 plain).2) mem
    · obtain ⟨v, hv, mem⟩ := List.mem_flatMap.1 mem
      unfold vbaseEmpties at mem
      split at mem
      · cases mem
      · exact below (mem_itaniumVBases.1 hv).lt mem
  · obtain ⟨⟨f, i⟩, hf, mem⟩ := List.mem_flatMap.1 mem
    obtain ⟨c, elem, -, path⟩ := contains_of_mem_fieldEmpties mem
    have := h.member_lt r f (List.fst_mem_of_mem_zipIdx hf) c elem
    have := path.le
    omega

/-! ### What the layout recorded -/

/-- Different empty subobjects, all of them recorded. -/
structure Held (l es : List (Nat × Nat)) : Prop where
  nodup : l.Nodup
  recorded : ∀ e ∈ l, e ∈ es

theorem Held.snoc {l es new : List (Nat × Nat)} (held : Held l es) (nodup : new.Nodup) (free : ∀ e ∈ new, e ∉ es) :
    Held (l ++ new) (es ++ new) := by
  refine ⟨List.nodup_append'.2 ⟨held.nodup, nodup, ?_⟩, ?_⟩
  · intro e old here
    exact free e here (held.recorded e old)
  · intro e mem
    rcases List.mem_append.1 mem with mem | mem
    · exact List.mem_append_left _ (held.recorded e mem)
    · exact List.mem_append_right _ mem

theorem EmptiesApart.fieldEmpties_eq (apart : EmptiesApart m h L r) {f : Field} (hf : f ∈ (h.record r).fields) (off : Nat) :
    fieldEmpties m h L f.type off = memberEmpties m h L f.type off := by
  unfold fieldEmpties memberEmpties
  cases as : f.type.asRecord with
  | none =>
    cases elem : f.type.recordElem with
    | none => rfl
    | some c =>
      simp only [eachEmpty_eq_nil (apart.arrays f hf as c elem)]
      exact List.flatMap_eq_nil_iff.2 fun _ _ => rfl
  | some c =>
    rw [Ty.recordElem_of_asRecord as, Ty.elemCount_of_asRecord as]
    simp

theorem EmptiesApart.fieldEmpties_nodup (apart : EmptiesApart m h L r) {f : Field} (hf : f ∈ (h.record r).fields)
    (below : ∀ c, h.Part r c → (eachEmpty m h L c 0 false).Nodup) (off : Nat) :
    (fieldEmpties m h L f.type off).Nodup := by
  rw [apart.fieldEmpties_eq hf]
  unfold memberEmpties
  cases as : f.type.asRecord with
  | none => exact List.nodup_nil
  | some c => exact eachEmpty_nodup_at (below c (.inr ⟨f, hf, Ty.recordElem_of_asRecord as⟩)) off false

/-- The bases but the primary one, where the loop put them. -/
def Run.baseEmpties (run : Run m h L r) (p : BaseSpec × Nat) : List (Nat × Nat) :=
  if (primaryBase m h L r).idx = some p.2 then [] else Vcx.Types.baseEmpties m h L p.1 (run.baseOffs.getD p.2 0)

section

variable (sizes : m.Sizes) (laid : Laid m h L)
include sizes laid

/-- The primary base and the others, in the order they were placed. -/
theorem Run.held_bases (run : Run m h L r) (complete : ∀ c, h.Base r c → (h.record c).complete = true)
    (parts : ∀ c, h.Part r c → (eachEmpty m h L c 0 false).Nodup) :
    Held (run.afterPrimary.empties ++ (h.record r).bases.zipIdx.flatMap run.baseEmpties) run.afterBases.empties := by
  have head : Held run.afterPrimary.empties run.afterPrimary.empties := by
    refine ⟨?_, fun _ mem => mem⟩
    cases idx : (primaryBase m h L r).idx with
    | none =>
      rw [(run.head_alone idx).2, startCursor_empties]
      exact List.nodup_nil
    | some i =>
      obtain ⟨b, c, at_, cls, -, -, -, empties⟩ := run.head_primary sizes laid idx
      rw [empties]
      exact eachEmpty_nodup_at (parts c (.inl ⟨b, List.mem_of_getElem? at_, cls⟩)) 0 true
  have bases := thread_history
    (P := fun done c => Held (run.afterPrimary.empties ++ done.flatMap fun p =>
      if (primaryBase m h L r).idx = some p.1.2 then [] else Vcx.Types.baseEmpties m h L p.1.1 p.2) c.empties)
    run.bases [] (by simpa using head) (by
      rintro done ⟨b, i⟩ hb c off c' held step
      have mem := List.fst_mem_of_mem_zipIdx hb
      rw [List.flatMap_append, List.flatMap_singleton, ← List.append_assoc]
      rcases placeBaseAt_some step with ⟨rfl, kept | ⟨-, rfl, passed⟩⟩ | ⟨d, kept, plain, step⟩
      · have idx : (primaryBase m h L r).idx = some i := by
          unfold keepPrimary at kept
          split at kept
          · rename_i idx
            exact idx
          · cases kept
        simpa [idx] using held
      · have none : b.plain = none := by
          cases plain : b.plain with
          | none => rfl
          | some d =>
            have := complete d ⟨b, mem, (BaseSpec.plain_eq_some.1 plain).2⟩
            rw [passed d plain] at this
            cases this
        simpa [Vcx.Types.baseEmpties, none] using held
      · obtain ⟨bi, -, -, placed⟩ := laid.placeBase sizes step
        have idx : (primaryBase m h L r).idx ≠ some i := by
          intro idx
          obtain ⟨b', c', at_, cls, off, -⟩ := run.head_primary sizes laid idx
          simp [keepPrimary, idx, off] at kept
        rw [if_neg idx, placed.empties]
        simp only [Vcx.Types.baseEmpties, plain]
        exact held.snoc (eachEmpty_nodup_at (parts d (.inl ⟨b, mem, (BaseSpec.plain_eq_some.1 plain).2⟩)) off true)
          (placed.free (.inl rfl)))
  rw [List.nil_append, zipIdx_zip 0 run.baseOffs_length, List.flatMap_map] at bases
  exact bases

/-- The members, behind what is recorded. -/
theorem Run.held_fields (run : Run m h L r) (apart : EmptiesApart m h L r)
    (parts : ∀ c, h.Part r c → (eachEmpty m h L c 0 false).Nodup) {l : List (Nat × Nat)}
    (held : Held l run.afterBases.empties) :
    Held (l ++ ((h.record r).fields.zip run.fields).flatMap fun p => fieldEmpties m h L p.1.type p.2.offset)
      run.afterFields.empties := by
  have fields := thread_history
    (P := fun done s => Held (l ++ done.flatMap fun p => fieldEmpties m h L p.1.type p.2.offset) s.2.empties)
    run.members [] (by simpa using held) (by
      rintro done f hf s p s' held step
      obtain ⟨fs, ta, -, -, -, placed⟩ := laid.placeField sizes step
      have nodup := apart.fieldEmpties_nodup hf parts p.offset
      rw [List.flatMap_append, List.flatMap_singleton, ← List.append_assoc]
      rcases placed with ⟨bit, placed⟩ | ⟨fr, plain, empty, placed⟩ | ⟨plain, -, placed⟩
      · have none := Ty.recordElem_of_isIntegral (h.bitField_integral r f hf bit)
        rw [placed.empties]
        simpa [fieldEmpties, none] using held
      · have as : f.type.asRecord = some fr := by
          unfold emptyMember at empty
          split at empty
          · exact (Option.filter_eq_some_iff.1 empty).1
          · cases empty
        have eq : fieldEmpties m h L f.type p.offset = eachEmpty m h L fr p.offset false := by
          rw [apart.fieldEmpties_eq hf, memberEmpties, as]
        simp only [eq] at nodup ⊢
        rw [placed.empties]
        exact held.snoc nodup placed.free
      · simp only
        rw [apart.fieldEmpties_eq hf] at nodup ⊢
        rw [placed.empties]
        refine held.snoc nodup ?_
        intro e mem
        unfold memberEmpties at mem
        cases as : f.type.asRecord with
        | none => simp [as] at mem
        | some c =>
          rw [as] at mem
          exact placed.free c (Ty.recordElem_of_asRecord as) e mem)
  simpa using fields

/-- The virtual bases with a place of their own. -/
theorem Run.held_vbases (run : Run m h L r) (vbases : ∀ v, h.VBase r v → (eachEmpty m h L v 0 false).Nodup)
    {l : List (Nat × Nat)} (held : Held l run.afterFields.empties) :
    Held (l ++ ((freshVBases m h L r).zip run.vbaseOffs).flatMap fun p => eachEmpty m h L p.1 p.2 true)
      run.last.empties := by
  have all := thread_history
    (P := fun done c => Held (l ++ done.flatMap fun p => eachEmpty m h L p.1 p.2 true) c.empties)
    run.vbases [] (by simpa using held) (by
      rintro done v hv c off c' held step
      obtain ⟨bi, -, -, placed⟩ := laid.placeBase sizes step
      rw [List.flatMap_append, List.flatMap_singleton, ← List.append_assoc, placed.empties]
      have vbase := mem_itaniumVBases.1 (List.mem_filter.1 hv).1
      exact held.snoc (eachEmpty_nodup_at (vbases v vbase) off true) (placed.free (.inl rfl)))
  simpa using all

end

/-! ### All of them -/

/-- One element of a concatenation, taken out to the front. -/
theorem perm_flatMap_of_mem {α β : Type} {l : List α} (nodup : l.Nodup) {a : α} (ha : a ∈ l) {f g : α → List β}
    (same : ∀ x ∈ l, x ≠ a → f x = g x) (none : g a = []) : (l.flatMap f).Perm (f a ++ l.flatMap g) := by
  obtain ⟨s, t, rfl⟩ := List.append_of_mem ha
  obtain ⟨-, nodupTail, apart⟩ := List.nodup_append'.1 nodup
  have left : s.flatMap f = s.flatMap g := List.flatMap_congr fun x hx =>
    same x (List.mem_append_left _ hx) fun eq => apart hx (eq ▸ List.mem_cons_self)
  have right : t.flatMap f = t.flatMap g := List.flatMap_congr fun x hx =>
    same x (List.mem_append_right _ (List.mem_cons_of_mem a hx)) fun eq => (List.nodup_cons.1 nodupTail).1 (eq ▸ hx)
  rw [List.flatMap_append, List.flatMap_append, List.flatMap_cons, List.flatMap_cons, none, List.nil_append, left, right,
    ← List.append_assoc, ← List.append_assoc]
  exact (List.perm_append_comm).append_right _

theorem flatMap_filter_of_nil {α β : Type} {l : List α} {p : α → Bool} {f : α → List β}
    (none : ∀ x ∈ l, p x = false → f x = []) : l.flatMap f = (l.filter p).flatMap f := by
  induction l with
  | nil => rfl
  | cons a l ih =>
    have rest := ih fun x hx => none x (List.mem_cons_of_mem a hx)
    cases keep : p a with
    | true => rw [List.filter_cons_of_pos keep, List.flatMap_cons, List.flatMap_cons, rest]
    | false =>
      rw [List.filter_cons_of_neg (by simp [keep]), List.flatMap_cons, none a List.mem_cons_self keep, List.nil_append, rest]

/-- Sharing enters indirect primaries only. -/
theorem Run.entry_or_indirect (run : Run m h L r) {v off : Nat} (entry : run.info.vbaseOffsets.lookup v = some off) :
    run.placedEntries.lookup v = some off ∨ v ∈ indirectPrimaries h (primaryBase m h L) r := by
  have loop : ∀ (vs : List Nat) (at_ : VBaseMap), (vs.foldl
      (shareVBase m h L r (indirectPrimaries h (primaryBase m h L) r) run.baseOffs) at_).lookup v = some off →
      at_.lookup v = some off ∨ v ∈ indirectPrimaries h (primaryBase m h L) r := by
    intro vs
    induction vs with
    | nil => exact fun at_ entry => .inl entry
    | cons w vs ih =>
      intro at_ entry
      rcases ih _ entry with entry | indirect
      · unfold shareVBase at entry
        split at entry
        · exact .inl entry
        · rename_i open_
          split at entry
          · exact .inl entry
          · by_cases eq : v = w
            · subst eq
              right
              simp only [Bool.or_eq_true, Bool.not_eq_true', not_or, Bool.not_eq_false] at open_
              exact List.contains_iff_mem.1 open_.2
            · rw [AList.lookup_insert_ne eq] at entry
              exact .inl entry
      · exact .inr indirect
  exact loop _ _ entry

/-- A virtual base that is neither fresh nor the direct primary base adds nothing. -/
theorem Run.vbaseEmpties_shared (run : Run m h L r) (apart : EmptiesApart m h L r) {v : Nat} (vbase : h.VBase r v)
    (shared : v ∉ freshVBases m h L r) (other : (primaryBase m h L r).virt ≠ some v ∨ (primaryBase m h L r).idx = none) :
    vbaseEmpties m h L run.info.vbaseOffsets v = [] := by
  unfold vbaseEmpties
  cases entry : run.info.vbaseOffsets.lookup v with
  | none => rfl
  | some off =>
    apply eachEmpty_eq_nil
    rcases run.entry_or_indirect entry with placed | indirect
    · rcases run.lookup_placed placed with fresh | ⟨virt, direct⟩
      · exact absurd (List.of_mem_zip fresh).1 shared
      · rcases other with ne | none
        · exact absurd virt ne
        · have := run.primaryOff_isSome
          rw [direct, none] at this
          cases this
    · exact apart.shared v indirect vbase other

/-- The fresh virtual bases are where the run put them. -/
theorem Run.vbaseEmpties_fresh (run : Run m h L r) (known : ∀ d, h.Derives r d → d ≠ r → ∃ info, L d = some info) :
    (freshVBases m h L r).flatMap (vbaseEmpties m h L run.info.vbaseOffsets) =
      ((freshVBases m h L r).zip run.vbaseOffs).flatMap fun p => eachEmpty m h L p.1 p.2 true := by
  have so := run.sharing known
  conv_lhs => rw [← run.fresh_keys]
  rw [List.flatMap_map]
  apply List.flatMap_congr
  intro p hp
  simp only [vbaseEmpties, so.kept _ _ (run.lookup_fresh hp)]

section

variable (sizes : m.Sizes) (laid : Laid m h L)
include sizes laid

/-- The non-virtual bases hold what was recorded for them, a primary base among them first. -/
theorem Run.baseEmpties_perm (run : Run m h L r) :
    ((h.record r).bases.zipIdx.flatMap fun p => Vcx.Types.baseEmpties m h L p.1 (run.info.baseOffsets.getD p.2 0)).Perm
      ((if (primaryBase m h L r).virt = none then run.afterPrimary.empties else []) ++
        (h.record r).bases.zipIdx.flatMap run.baseEmpties) := by
  have stay : ∀ p ∈ (h.record r).bases.zipIdx, Vcx.Types.baseEmpties m h L p.1 (run.info.baseOffsets.getD p.2 0) =
      Vcx.Types.baseEmpties m h L p.1 (run.baseOffs.getD p.2 0) := by
    rintro ⟨b, i⟩ hb
    cases plain : b.plain with
    | none => simp [Vcx.Types.baseEmpties, plain]
    | some c =>
      simp only [run.baseOffsets_plain (List.mem_zipIdx_iff_getElem?.1 hb) (BaseSpec.plain_eq_some.1 plain).1]
  rw [List.flatMap_congr stay]
  cases idx : (primaryBase m h L r).idx with
  | none =>
    rw [(run.head_alone idx).2, startCursor_empties, ite_self, List.nil_append]
    have same : ∀ p ∈ (h.record r).bases.zipIdx, Vcx.Types.baseEmpties m h L p.1 (run.baseOffs.getD p.2 0) =
        run.baseEmpties p := fun p _ => by simp [Run.baseEmpties, idx]
    rw [List.flatMap_congr same]
  | some i =>
    obtain ⟨b, c, here, cls, -, -, -, empties⟩ := run.head_primary sizes laid idx
    obtain ⟨b', c', here', cls', -, -, kind⟩ := primaryBase_idx idx
    rw [here] at here'
    cases here'
    rw [cls] at cls'
    cases cls'
    have other : ∀ p ∈ (h.record r).bases.zipIdx, p ≠ (b, i) →
        Vcx.Types.baseEmpties m h L p.1 (run.baseOffs.getD p.2 0) = run.baseEmpties p := by
      rintro ⟨b', i'⟩ hb ne
      have ne' : i ≠ i' := by
        rintro rfl
        have := List.mem_zipIdx_iff_getElem?.1 hb
        rw [here] at this
        cases this
        exact ne rfl
      simp [Run.baseEmpties, idx, ne']
    rcases kind with ⟨virt, plain⟩ | ⟨virt, virtual⟩
    · have nodup : (h.record r).bases.zipIdx.Nodup :=
        List.Nodup.of_map Prod.snd (by rw [List.zipIdx_map_snd]; exact List.nodup_range')
      have moved := perm_flatMap_of_mem nodup (List.mem_zipIdx_iff_getElem?.2 here) other (by simp [Run.baseEmpties, idx])
      rw [if_pos virt, empties]
      simpa only [Vcx.Types.baseEmpties, BaseSpec.plain_eq_some.2 ⟨plain, cls⟩, run.baseOffs_primary sizes laid idx] using moved
    · -- a virtual base-specifier adds nothing here
      rw [if_neg (by simp [virt]), List.nil_append]
      have same : ∀ p ∈ (h.record r).bases.zipIdx, Vcx.Types.baseEmpties m h L p.1 (run.baseOffs.getD p.2 0) =
          run.baseEmpties p := by
        intro p hp
        by_cases eq : p = (b, i)
        · subst eq
          simp [Run.baseEmpties, idx, Vcx.Types.baseEmpties, BaseSpec.plain, virtual]
        · exact other p hp eq
      rw [List.flatMap_congr same]

theorem Run.vbaseEmpties_perm (run : Run m h L r) (apart : EmptiesApart m h L r)
    (known : ∀ d, h.Derives r d → d ≠ r → ∃ info, L d = some info) :
    ((itaniumVBases h r).flatMap (vbaseEmpties m h L run.info.vbaseOffsets)).Perm
      ((if (primaryBase m h L r).virt = none then [] else run.afterPrimary.empties) ++
        ((freshVBases m h L r).zip run.vbaseOffs).flatMap fun p => eachEmpty m h L p.1 p.2 true) := by
  have so := run.sharing known
  have out : ∀ v ∈ itaniumVBases h r, (fun v => !((primaryBase m h L r).virt == some v ||
      (indirectPrimaries h (primaryBase m h L) r).contains v)) v = false → v ∉ freshVBases m h L r := by
    intro v hv out fresh
    cases ((List.mem_filter.1 fresh).2).symm.trans out
  rw [← run.vbaseEmpties_fresh known]
  by_cases direct : ∃ i v, (primaryBase m h L r).idx = some i ∧ (primaryBase m h L r).virt = some v
  · obtain ⟨i, v, idx, virt⟩ := direct
    obtain ⟨b, c, here, cls, off, -, -, empties⟩ := run.head_primary sizes laid idx
    obtain ⟨b', c', here', cls', -, -, kind⟩ := primaryBase_idx idx
    rw [here] at here'
    cases here'
    rw [cls] at cls'
    cases cls'
    rcases kind with ⟨virt', -⟩ | ⟨virt', virtual⟩
    · rw [virt] at virt'
      cases virt'
    rw [virt] at virt'
    cases virt'
    have notFresh : v ∉ freshVBases m h L r := by
      intro fresh
      have := (List.mem_filter.1 fresh).2
      simp [virt] at this
    have entry : run.info.vbaseOffsets.lookup v = some 0 := by
      apply so.kept
      rw [Run.placedEntries, VBaseMap.lookup_enter_of_notMem (by rw [run.fresh_keys]; exact notFresh)]
      simp only [NonVirtual.entries, Run.nonVirtual, off, virt]
      exact AList.lookup_insert _
    have mem : v ∈ itaniumVBases h r := mem_itaniumVBases_direct (List.mem_of_getElem? here) virtual cls
    have moved := perm_flatMap_of_mem (itaniumVBases_nodup r) mem (f := vbaseEmpties m h L run.info.vbaseOffsets)
      (g := fun w => if w = v then [] else vbaseEmpties m h L run.info.vbaseOffsets w)
      (fun w _ ne => (if_neg ne).symm) (if_pos rfl)
    rw [if_neg (by simp [virt]), empties]
    refine moved.trans ?_
    have first : vbaseEmpties m h L run.info.vbaseOffsets v = eachEmpty m h L v 0 true := by
      simp [vbaseEmpties, entry]
    rw [first]
    apply List.Perm.append_left
    rw [flatMap_filter_of_nil (p := fun v => !((primaryBase m h L r).virt == some v ||
      (indirectPrimaries h (primaryBase m h L) r).contains v))]
    · rw [← freshVBases]
      refine List.Perm.of_eq (List.flatMap_congr ?_)
      intro w hw
      exact if_neg fun eq : w = v => notFresh (eq ▸ hw)
    · intro w hw not
      split
      · rfl
      · rename_i ne
        exact run.vbaseEmpties_shared apart (mem_itaniumVBases.1 hw) (out w hw not)
          (.inl fun eq => ne (Option.some.inj (virt.symm.trans eq)).symm)
  · have none : (if (primaryBase m h L r).virt = none then [] else run.afterPrimary.empties) = [] := by
      split
      · rfl
      · rename_i some
        have idx : (primaryBase m h L r).idx = none := by
          obtain ⟨v, virt⟩ := Option.ne_none_iff_exists'.1 some
          cases idx : (primaryBase m h L r).idx with
          | none => rfl
          | some i => exact absurd ⟨i, v, idx, virt⟩ direct
        rw [(run.head_alone idx).2, startCursor_empties]
    rw [none, List.nil_append, flatMap_filter_of_nil (p := fun v => !((primaryBase m h L r).virt == some v ||
      (indirectPrimaries h (primaryBase m h L) r).contains v)), ← freshVBases]
    intro v hv not
    refine run.vbaseEmpties_shared apart (mem_itaniumVBases.1 hv) (out v hv not) ?_
    by_cases virt : (primaryBase m h L r).virt = some v
    · right
      cases idx : (primaryBase m h L r).idx with
      | none => rfl
      | some i => exact absurd ⟨i, v, idx, virt⟩ direct
    · exact .inl virt

/-- **The empty subobjects of a class that is not a union are apart.** -/
theorem Run.eachEmpty_nodup (run : Run m h L r) (here : L r = some run.info) (apart : EmptiesApart m h L r)
    (complete : ∀ c, h.Base r c → (h.record c).complete = true)
    (known : ∀ d, h.Derives r d → d ≠ r → ∃ info, L d = some info)
    (parts : ∀ c, h.Part r c → (eachEmpty m h L c 0 false).Nodup)
    (vbases : ∀ v, h.VBase r v → (eachEmpty m h L v 0 false).Nodup) : (eachEmpty m h L r 0 false).Nodup := by
  have held := run.held_vbases sizes laid vbases (run.held_fields sizes laid apart parts
    (run.held_bases sizes laid complete parts))
  have fields : ((h.record r).fields.zipIdx.flatMap fun p => fieldEmpties m h L p.1.type (run.info.fieldOffsets.getD p.2 0)) =
      ((h.record r).fields.zip run.fields).flatMap fun p => fieldEmpties m h L p.1.type p.2.offset := by
    rw [zip_eq_zipIdx_map ⟨0, 0, 0⟩ run.fields_length, List.flatMap_map]
    apply List.flatMap_congr
    intro p _
    exact congrArg _ (List.getD_map run.fields (⟨0, 0, 0⟩ : Placed) Placed.offset)
  have inside : ((h.record r).bases.zipIdx.flatMap (fun p => Vcx.Types.baseEmpties m h L p.1 (run.info.baseOffsets.getD p.2 0)) ++
      (itaniumVBases h r).flatMap (vbaseEmpties m h L run.info.vbaseOffsets) ++
      (h.record r).fields.zipIdx.flatMap fun p => fieldEmpties m h L p.1.type (run.info.fieldOffsets.getD p.2 0)).Nodup := by
    rw [fields]
    have perm := (run.baseEmpties_perm sizes laid).append (run.vbaseEmpties_perm sizes laid apart known)
    rw [(perm.append_right _).nodup_iff]
    refine (List.perm_iff_count.2 ?_).nodup_iff.2 held.nodup
    intro e
    simp only [List.count_append]
    split
    · rw [List.count_nil]
      omega
    · rw [List.count_nil]
      omega
  rw [eachEmpty_whole here]
  refine List.nodup_append'.2 ⟨?_, inside, ?_⟩
  · split
    · exact List.nodup_singleton _
    · exact List.nodup_nil
  · intro e own mem
    have lt := class_lt_of_mem_parts mem
    split at own
    · rw [List.mem_singleton.1 own] at lt
      exact Nat.lt_irrefl r lt
    · cases own

omit sizes laid in
/-- Those of a union are in its members, all at the start. -/
theorem union_eachEmpty_nodup (union : (h.record r).tag = .union) {ps : List Placed} {c : Cursor}
    (here : L r = some (finishUnion (h.record r) ps c)) (start : ∀ i, (ps.getD i ⟨0, 0, 0⟩).offset = 0) (apart : EmptiesApart m h L r)
    (parts : ∀ c, h.Part r c → (eachEmpty m h L c 0 false).Nodup) : (eachEmpty m h L r 0 false).Nodup := by
  have offset : ∀ i, (finishUnion (h.record r) ps c).fieldOffsets.getD i 0 = 0 := by
    intro i
    exact (List.getD_map ps (⟨0, 0, 0⟩ : Placed) Placed.offset).trans (start i)
  have inside : ((h.record r).fields.zipIdx.flatMap fun p => fieldEmpties m h L p.1.type
      ((finishUnion (h.record r) ps c).fieldOffsets.getD p.2 0)).Nodup := by
    simp only [offset]
    rw [show (h.record r).fields.zipIdx.flatMap (fun p => fieldEmpties m h L p.1.type 0) =
      (h.record r).fields.flatMap fun f => fieldEmpties m h L f.type 0 by
        conv_rhs => rw [← List.zipIdx_map_fst 0 (h.record r).fields, List.flatMap_map]]
    refine List.nodup_flatMap.2 ⟨fun f hf => apart.fieldEmpties_nodup hf parts 0, ?_⟩
    refine (apart.union union).imp ?_
    intro f g common e left right
    obtain ⟨c, elem, empty, path⟩ := contains_of_mem_fieldEmpties left
    obtain ⟨d, elem', -, path'⟩ := contains_of_mem_fieldEmpties right
    rw [common c d elem elem' e.1 path path'] at empty
    cases empty
  have noVBase : itaniumVBases h r = [] := by
    apply List.eq_nil_iff_forall_not_mem.2
    intro v hv
    exact (mem_itaniumVBases.1 hv).struct union
  rw [eachEmpty_whole here]
  refine List.nodup_append'.2 ⟨?_, ?_, ?_⟩
  · split
    · exact List.nodup_singleton _
    · exact List.nodup_nil
  · simpa [h.union_bases r union, noVBase] using inside
  · intro e own mem
    have lt := class_lt_of_mem_parts mem
    split at own
    · rw [List.mem_singleton.1 own] at lt
      exact Nat.lt_irrefl r lt
    · cases own

/-- **Empty subobjects of one type are at different addresses**, when nothing in the class
has them where they are not recorded. -/
theorem Laid.eachEmpty_nodup (complete : h.Complete m r) {info : RecordInfo} (known : L r = some info)
    (apart : ∀ c, h.Contains r c → EmptiesApart m h L c) : (eachEmpty m h L r 0 false).Nodup := by
  induction r using Nat.strongRecOn generalizing info with
  | ind r ih =>
    have below : ∀ c, h.Contains r c → c ≠ r → (eachEmpty m h L c 0 false).Nodup := by
      intro c path ne
      obtain ⟨ci, knownHere⟩ := laid.known_contains complete known path
      exact ih c (Nat.lt_of_le_of_ne path.le ne) (complete.contains path) knownHere
        fun d inner => apart d (path.trans inner)
    have parts : ∀ c, h.Part r c → (eachEmpty m h L c 0 false).Nodup :=
      fun c step => below c (.single step) (Nat.ne_of_lt step.lt)
    by_cases union : (h.record r).tag = .union
    · have shown := known
      rw [laid r] at shown
      obtain ⟨ps, c, run, rfl⟩ := layoutItanium_union_some union shown
      refine union_eachEmpty_nodup union known ?_ (apart r .refl) parts
      intro i
      cases at_ : (h.record r).fields[i]? with
      | none =>
        rw [List.getD_eq_default _ _ (by rw [thread_length run]; exact List.getElem?_eq_none_iff.1 at_)]
      | some f => exact (unionFieldIn run _ (mem_zip_of_getElem? _ at_ (thread_length run))).offset
    · have shown := known
      rw [laid r] at shown
      obtain ⟨run, rfl⟩ := (layoutItanium_iff_run union).1 shown
      exact run.eachEmpty_nodup sizes laid known (apart r .refl) (fun c step => ((complete.part (.inl step)).at).complete)
        (fun d path _ => laid.known_contains complete known path.contains) parts
        (fun v vbase => below v vbase.derives.contains (Nat.ne_of_lt vbase.lt))

end

end Vcx.Types
