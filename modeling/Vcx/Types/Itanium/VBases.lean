import Vcx.Types.Itanium.Disjoint
import Vcx.Types.Itanium.Terminates

/-!
# Where the virtual bases go

A virtual base gets a place of its own behind the non-virtual part, or it is the primary
base of a subobject and shares that one's address. The code decides which by looking at the
primary bases of all bases, and finds the subobject to share with by a walk that enters a
virtual base only once it has an entry. `settledVBases` is that decision without the
offsets: the virtual bases it leaves out are those that end up without an entry.
-/

namespace Vcx.Types
set_option autoImplicit false
open Vcx.Lib

/-! ### What an entry may be -/

/-- `c` is the class of a subobject at `off` of an object of class `r`: `baseOff` places the
direct bases of each class, `at_` the virtual bases. -/
inductive SubobjectAt (h : Hierarchy) (baseOff : Nat → Nat → Nat) (at_ : VBaseMap) (r : Nat) : Nat → Nat → Prop
  | self : SubobjectAt h baseOff at_ r r 0
  | plain {d off i c : Nat} {b : BaseSpec} (outer : SubobjectAt h baseOff at_ r d off)
    (here : (h.record d).bases[i]? = some b) (cls : b.plain = some c) :
    SubobjectAt h baseOff at_ r c (off + baseOff d i)
  | virt {d off v o : Nat} {b : BaseSpec} (outer : SubobjectAt h baseOff at_ r d off)
    (here : b ∈ (h.record d).bases) (virtual : b.virtual = true) (cls : b.cls = some v)
    (entry : at_.lookup v = some o) : SubobjectAt h baseOff at_ r v o

section

variable (m : Model) (h : Hierarchy) (L : Layouts)

/-- Where a class has its `i`th direct base. -/
def baseOffset (d i : Nat) : Nat := ((L d).map fun info => info.baseOffsets.getD i 0).getD 0

/-- The bits of the non-virtual part: the vptr, the non-virtual bases and the members. -/
def nonVirtualParts (r : Nat) (info : RecordInfo) : List Range :=
  (if isDynamic h r then [⟨0, m.sizePtr * 8⟩] else []) ++
    ((h.record r).bases.zipIdx.map fun (b, i) => (basePart h L b (info.baseOffsets.getD i 0)).scale 8) ++
    (h.record r).fields.zipIdx.map fun (f, i) =>
      fieldBits m h L f (info.fieldOffsets.getD i 0) (info.bitOffsets.getD i 0)

/-- The entry of `v` is the offset of a subobject whose primary base `v` is by virtual
inheritance. -/
def Shares (r : Nat) (info : RecordInfo) (v off : Nat) : Prop :=
  ∃ d, SubobjectAt h (baseOffset L) info.vbaseOffsets r d off ∧ (primaryBase m h L d).virt = some v

/-- The entry of `v` is storage of its own. -/
structure Owns (r : Nat) (info : RecordInfo) (v off : Nat) : Prop where
  nonVirtual : ∀ p ∈ nonVirtualParts m h L r info, ((classPart h L v off).scale 8).Apart p
  others : ∀ v' off', v' ≠ v → info.vbaseOffsets.lookup v' = some off' →
    (classPart h L v off).Apart (classPart h L v' off') ∨ Shares m h L r info v' off'

/-- Every virtual base has an entry, its own storage or a share in a subobject's. -/
def VBasesPlaced (r : Nat) (info : RecordInfo) : Prop :=
  ∀ v ∈ itaniumVBases h r, ∃ off, info.vbaseOffsets.lookup v = some off ∧
    (Owns m h L r info v off ∨ Shares m h L r info v off)

/-! ### Which virtual bases get an entry -/

/-- Whether the walk for a holder of `v` finds one from `c`, entering only the virtual bases
in `S`. -/
def holderBelow (S : List Nat) (v : Nat) : Nat → Bool :=
  fix (fun self c => (h.record c).bases.any fun b => b.cls.any fun br =>
    (!b.virtual || S.contains br) && ((primaryBase m h L br).virt == some v || self br)) false

/-- One virtual base that has no place of its own. -/
def settle (r : Nat) (S : List Nat) (v : Nat) : List Nat :=
  if S.contains v || !(indirectPrimaries h (primaryBase m h L) r).contains v then S
  else if holderBelow m h L S v r then v :: S else S

/-- The virtual bases settled before any sharing: those with a place of their own, and the
primary base when it is a direct base. -/
def placedVBases (r : Nat) : List Nat :=
  (if (primaryBase m h L r).idx.isSome then (primaryBase m h L r).virt.toList else []) ++ freshVBases m h L r

/-- The virtual bases that end up with an entry. -/
def settledVBases (r : Nat) : List Nat :=
  (itaniumVBases h r).foldl (settle m h L r) (placedVBases m h L r)

end

variable {m : Model} {h : Hierarchy} {L : Layouts} {r : Nat}

/-! ### The walk for a holder -/

theorem holderBelow_eq (S : List Nat) (v c : Nat) : holderBelow m h L S v c =
    (h.record c).bases.any fun b => b.cls.any fun br =>
      (!b.virtual || S.contains br) && ((primaryBase m h L br).virt == some v || holderBelow m h L S v br) := by
  apply fix_unfold
  intro f g agree
  rw [Bool.eq_iff_iff, List.any_eq_true, List.any_eq_true]
  refine exists_congr fun b => and_congr_right fun hb => ?_
  cases hc : b.cls with
  | none => rfl
  | some d => simp only [Option.any_some, agree d (h.base_lt c b hb d hc)]

/-- The walk of `primaryHolderOffset` from a class. -/
abbrev holderWalk (m : Model) (h : Hierarchy) (L : Layouts) (v : Nat) (at_ : VBaseMap) :
    Nat → Nat → List Nat → Option Nat → Option Nat :=
  fix (holderBody m h L v at_) fun _ _ found => found

theorem baseAt_some {at_ : VBaseMap} {start : Nat} {offs : List Nat} {b : BaseSpec × Nat} {br bat : Nat}
    (e : baseAt at_ start offs b = some (br, bat)) : b.1.cls = some br ∧
      (b.1.virtual = true ∧ at_.lookup br = some bat ∨ b.1.virtual = false ∧ bat = start + offs.getD b.2 0) := by
  obtain ⟨c, cls, e⟩ := Option.bind_eq_some_iff.1 e
  obtain ⟨off, place, e⟩ := Option.map_eq_some_iff.1 e
  cases e
  refine ⟨cls, ?_⟩
  cases virt : b.1.virtual with
  | true => exact .inl ⟨rfl, by simpa [virt] using place⟩
  | false =>
    simp only [virt, Bool.false_eq_true, if_false, Option.some.injEq] at place
    exact .inr ⟨rfl, place.symm⟩

theorem baseAt_isSome {at_ : VBaseMap} {start : Nat} {offs : List Nat} {b : BaseSpec × Nat} :
    (baseAt at_ start offs b).isSome = true ↔
      ∃ br, b.1.cls = some br ∧ (b.1.virtual = false ∨ (at_.lookup br).isSome = true) := by
  unfold baseAt
  cases hc : b.1.cls with
  | none => simp
  | some br => cases b.1.virtual <;> simp

/-- The loop over the bases finds a holder when one of them is one or leads to one. -/
theorem holderBases_isSome {v start : Nat} {at_ : VBaseMap} {offs S : List Nat}
    {self : Nat → Nat → List Nat → Option Nat → Option Nat} {bs : List (BaseSpec × Nat)}
    (same : ∀ x, S.contains x = (at_.lookup x).isSome)
    (known : ∀ b ∈ bs, ∀ br, b.1.cls = some br → (L br).isSome = true)
    (spec : ∀ b ∈ bs, ∀ br, b.1.cls = some br → ∀ start offs found,
      (self br start offs found).isSome = (found.isSome || holderBelow m h L S v br)) (found : Option Nat) :
    (holderBases m h L v at_ self start offs bs found).isSome = (found.isSome || bs.any fun b => b.1.cls.any fun br =>
      (!b.1.virtual || S.contains br) && ((primaryBase m h L br).virt == some v || holderBelow m h L S v br)) := by
  induction bs generalizing found with
  | nil => simp [holderBases]
  | cons b bs ih =>
    have rest := ih (fun b' hb' => known b' (List.mem_cons_of_mem b hb'))
      (fun b' hb' => spec b' (List.mem_cons_of_mem b hb'))
    rw [List.any_cons]
    cases place : baseAt at_ start offs b with
    | none =>
      have out : (b.1.cls.any fun br => (!b.1.virtual || S.contains br) &&
          ((primaryBase m h L br).virt == some v || holderBelow m h L S v br)) = false := by
        cases hc : b.1.cls with
        | none => rfl
        | some br =>
          have := mt baseAt_isSome.2 (show ¬ (baseAt at_ start offs b).isSome = true by simp [place])
          simp only [hc, Option.some.injEq, exists_eq_left', not_or, Bool.not_eq_false] at this
          rw [Option.any_some, this.1, same br, Bool.eq_false_iff.2 this.2]
          rfl
      simp only [holderBases, place, rest, out, Bool.false_or]
    | some p =>
      obtain ⟨br, bat⟩ := p
      obtain ⟨cls, entered⟩ := baseAt_some place
      have enters : (!b.1.virtual || S.contains br) = true := by
        rcases entered with ⟨virt, entry⟩ | ⟨plain, -⟩
        · rw [virt, same br, entry]
          rfl
        · rw [plain]
          rfl
      obtain ⟨bi, knownBase⟩ := Option.isSome_iff_exists.1 (known b List.mem_cons_self br cls)
      simp only [holderBases, place, cls, Option.any_some, enters, Bool.true_and, knownBase]
      by_cases holds : (primaryBase m h L br).virt = some v
      · simp [holds]
      · rw [if_neg holds, rest, spec b List.mem_cons_self br cls]
        rw [beq_eq_false_iff_ne.2 holds, Bool.false_or, Bool.or_assoc]

/-- **The walk finds a holder exactly when there is one it can reach.** -/
theorem holderWalk_isSome {v : Nat} {at_ : VBaseMap} {S : List Nat}
    (same : ∀ x, S.contains x = (at_.lookup x).isSome) {c : Nat}
    (known : ∀ d, h.Derives c d → d ≠ c → (L d).isSome = true) (start : Nat) (offs : List Nat) (found : Option Nat) :
    (holderWalk m h L v at_ c start offs found).isSome = (found.isSome || holderBelow m h L S v c) := by
  induction c using Nat.strongRecOn generalizing start offs found with
  | ind c ih =>
    have step : ∀ b ∈ (h.record c).bases.zipIdx, ∀ d, b.1.cls = some d → h.Base c d :=
      fun b hb d hd => ⟨b.1, List.fst_mem_of_mem_zipIdx hb, hd⟩
    rw [holderWalk, fix_eq, holderBody]
    cases found with
    | some off => simp
    | none =>
      rw [if_neg (by simp), holderBases_isSome (m := m) (h := h) (L := L) (S := S) same]
      · rw [holderBelow_eq]
        congr 1
        rw [Bool.eq_iff_iff, List.any_eq_true, List.any_eq_true]
        constructor
        · rintro ⟨⟨b, i⟩, hb, hit⟩
          exact ⟨b, List.fst_mem_of_mem_zipIdx hb, hit⟩
        · rintro ⟨b, hb, hit⟩
          obtain ⟨i, lt, at'⟩ := List.getElem_of_mem hb
          exact ⟨(b, i), List.mk_mem_zipIdx_iff_getElem?.2 (by simp [at', lt]), hit⟩
      · intro b hb d hd
        have base := step b hb d hd
        exact known d (.single base) (Nat.ne_of_lt base.lt)
      · intro b hb d hd start offs found
        have base := step b hb d hd
        rw [below_lt base.lt]
        refine ih d base.lt ?_ start offs found
        intro e path ne
        have := Hierarchy.Derives.le path
        have := base.lt
        exact known e (.head base path) (by omega)

theorem holderWalk_sound {v : Nat} {at_ : VBaseMap} {f : Nat → Nat → Nat} {c start : Nat} {offs : List Nat}
    {found : Option Nat} {off : Nat} (here : SubobjectAt h f at_ r c start)
    (same : ∀ i, f c i = offs.getD i 0)
    (inner : ∀ d, h.Derives c d → d ≠ c → ∀ di, L d = some di → ∀ i, f d i = di.baseOffsets.getD i 0)
    (run : holderWalk m h L v at_ c start offs found = some off) :
    found = some off ∨ ∃ d, SubobjectAt h f at_ r d off ∧ (primaryBase m h L d).virt = some v := by
  induction c using Nat.strongRecOn generalizing start offs found with
  | ind c ih =>
    rw [holderWalk, fix_eq, holderBody] at run
    split at run
    · exact .inl run
    · -- over the bases, keeping what is found so far
      have loop : ∀ bs, (∀ b ∈ bs, b ∈ (h.record c).bases.zipIdx) → ∀ found,
          holderBases m h L v at_ (below (holderWalk m h L v at_) (fun _ _ found => found) c) start offs bs found =
            some off → found = some off ∨ ∃ d, SubobjectAt h f at_ r d off ∧ (primaryBase m h L d).virt = some v := by
        intro bs
        induction bs with
        | nil => exact fun _ found run => .inl run
        | cons b bs ihb =>
          intro sub found run
          have rest := ihb fun b' hb' => sub b' (List.mem_cons_of_mem b hb')
          cases place : baseAt at_ start offs b with
          | none =>
            simp only [holderBases, place] at run
            exact rest found run
          | some p =>
            obtain ⟨br, bat⟩ := p
            obtain ⟨cls, entered⟩ := baseAt_some place
            have mem := sub b List.mem_cons_self
            have inBases := List.fst_mem_of_mem_zipIdx mem
            have base : h.Base c br := ⟨b.1, inBases, cls⟩
            have there : SubobjectAt h f at_ r br bat := by
              rcases entered with ⟨virt, entry⟩ | ⟨plain, rfl⟩
              · exact .virt here inBases virt cls entry
              · rw [← same]
                exact .plain here (List.mem_zipIdx_iff_getElem?.1 mem) (BaseSpec.plain_eq_some.2 ⟨plain, cls⟩)
            simp only [holderBases, place] at run
            split at run
            · rename_i holds
              cases run
              exact .inr ⟨br, there, holds⟩
            · split at run
              · exact rest found run
              · rename_i bi knownBase
                rcases rest _ run with deeper | found'
                · rw [below_lt base.lt] at deeper
                  refine ih br base.lt there (inner br (.single base) (Nat.ne_of_lt base.lt) bi knownBase) ?_ deeper
                  intro d path ne
                  have := Hierarchy.Derives.le path
                  have := base.lt
                  exact inner d (.head base path) (by omega)
                · exact .inr found'
      exact loop _ (fun _ hb => hb) found run

theorem SubobjectAt.mono {f g : Nat → Nat → Nat} {at_ at' : VBaseMap} {c off : Nat} (e : SubobjectAt h f at_ r c off)
    (offs : ∀ d i b, (h.record d).bases[i]? = some b → b.virtual = false → f d i = g d i)
    (entries : ∀ v o, at_.lookup v = some o → at'.lookup v = some o) : SubobjectAt h g at' r c off := by
  induction e with
  | self => exact .self
  | plain outer here cls ih =>
    rw [offs _ _ _ here (BaseSpec.plain_eq_some.1 cls).1]
    exact .plain ih here cls
  | virt outer here virtual cls entry ih => exact .virt ih here virtual cls (entries _ _ entry)

/-! ### The entries -/

theorem VBaseMap.enter_cons (at_ : VBaseMap) (p : Nat × Nat) (ps : List (Nat × Nat)) :
    at_.enter (p :: ps) = VBaseMap.enter (at_.insert p.1 p.2) ps := rfl

/-- An entry that is not entered again stays. -/
theorem VBaseMap.lookup_enter_of_notMem {at_ : VBaseMap} {ps : List (Nat × Nat)} {v : Nat}
    (out : v ∉ ps.map Prod.fst) : (at_.enter ps).lookup v = at_.lookup v := by
  induction ps generalizing at_ with
  | nil => rfl
  | cons p ps ih =>
    simp only [List.map_cons, List.mem_cons, not_or] at out
    rw [VBaseMap.enter_cons, ih out.2, AList.lookup_insert_ne out.1]

/-- Each of different keys is entered with its own value. -/
theorem VBaseMap.lookup_enter_of_mem {at_ : VBaseMap} {ps : List (Nat × Nat)} {p : Nat × Nat}
    (nodup : (ps.map Prod.fst).Nodup) (mem : p ∈ ps) : (at_.enter ps).lookup p.1 = some p.2 := by
  induction ps generalizing at_ with
  | nil => cases mem
  | cons q ps ih =>
    simp only [List.map_cons, List.nodup_cons] at nodup
    rw [VBaseMap.enter_cons]
    rcases List.mem_cons.1 mem with rfl | mem
    · rw [VBaseMap.lookup_enter_of_notMem nodup.1, AList.lookup_insert]
    · exact ih nodup.2 mem

/-- The map before any sharing. -/
def Run.placedEntries (run : Run m h L r) : VBaseMap :=
  run.nonVirtual.entries.enter ((freshVBases m h L r).zip run.vbaseOffs)

theorem Run.fresh_keys (run : Run m h L r) :
    ((freshVBases m h L r).zip run.vbaseOffs).map Prod.fst = freshVBases m h L r := by
  rw [List.map_fst_zip]
  rw [thread_length run.vbases]

theorem freshVBases_nodup : (freshVBases m h L r).Nodup := (itaniumVBases_nodup r).filter _

theorem Run.lookup_fresh (run : Run m h L r) {p : Nat × Nat} (mem : p ∈ (freshVBases m h L r).zip run.vbaseOffs) :
    run.placedEntries.lookup p.1 = some p.2 :=
  VBaseMap.lookup_enter_of_mem (by rw [run.fresh_keys]; exact freshVBases_nodup) mem

theorem Run.lookup_placed (run : Run m h L r) {v off : Nat} (entry : run.placedEntries.lookup v = some off) :
    (v, off) ∈ (freshVBases m h L r).zip run.vbaseOffs ∨
      (primaryBase m h L r).virt = some v ∧ run.primaryOff = some off := by
  by_cases fresh : v ∈ freshVBases m h L r
  · rw [← run.fresh_keys] at fresh
    obtain ⟨⟨v', off'⟩, mem, rfl⟩ := List.mem_map.1 fresh
    rw [run.lookup_fresh mem] at entry
    cases entry
    exact .inl mem
  · rw [Run.placedEntries, VBaseMap.lookup_enter_of_notMem (by rw [run.fresh_keys]; exact fresh)] at entry
    unfold NonVirtual.entries at entry
    simp only [Run.nonVirtual] at entry
    split at entry
    · rename_i o v' off virt
      by_cases eq : v = v'
      · subst eq
        rw [AList.lookup_insert] at entry
        cases entry
        exact .inr ⟨virt, off⟩
      · rw [AList.lookup_insert_ne eq] at entry
        cases entry
    · cases entry

theorem Run.primaryOff_isSome (run : Run m h L r) :
    run.primaryOff.isSome = (primaryBase m h L r).idx.isSome := by
  rcases placePrimary_some run.primary with ⟨alone, off, -⟩ | ⟨i, b, d, o, idx, -, -, off, -⟩
  · rw [alone, off]
  · rw [idx, off]
    rfl

/-- A direct primary base is at the start of the class. -/
theorem Run.primaryOff_zero (sizes : m.Sizes) (laid : Laid m h L) (run : Run m h L r) {off : Nat}
    (at_ : run.primaryOff = some off) : off = 0 ∧ ∃ i, (primaryBase m h L r).idx = some i := by
  have direct : (primaryBase m h L r).idx.isSome = true := by
    rw [← run.primaryOff_isSome, at_]
    rfl
  obtain ⟨i, idx⟩ := Option.isSome_iff_exists.1 direct
  obtain ⟨b, c, -, -, zero, -⟩ := run.head_primary sizes laid idx
  rw [at_] at zero
  cases zero
  exact ⟨rfl, i, idx⟩

theorem Run.placed_isSome (run : Run m h L r) (v : Nat) :
    (placedVBases m h L r).contains v = (run.placedEntries.lookup v).isSome := by
  rw [Bool.eq_iff_iff, List.contains_iff_mem, Option.isSome_iff_exists, placedVBases, List.mem_append]
  constructor
  · rintro (primary | fresh)
    · by_cases fresh : v ∈ freshVBases m h L r
      · rw [← run.fresh_keys] at fresh
        obtain ⟨⟨v', off'⟩, mem, rfl⟩ := List.mem_map.1 fresh
        exact ⟨off', run.lookup_fresh mem⟩
      · split at primary
        · rename_i direct
          rw [Option.mem_toList] at primary
          rw [← run.primaryOff_isSome] at direct
          obtain ⟨o, off⟩ := Option.isSome_iff_exists.1 direct
          refine ⟨o, ?_⟩
          rw [Run.placedEntries, VBaseMap.lookup_enter_of_notMem (by rw [run.fresh_keys]; exact fresh)]
          simp only [NonVirtual.entries, Run.nonVirtual, off, primary]
          exact AList.lookup_insert _
        · cases primary
    · rw [← run.fresh_keys] at fresh
      obtain ⟨⟨v', off'⟩, mem, rfl⟩ := List.mem_map.1 fresh
      exact ⟨off', run.lookup_fresh mem⟩
  · rintro ⟨off, entry⟩
    rcases run.lookup_placed entry with fresh | ⟨virt, off⟩
    · exact .inr (List.of_mem_zip fresh).1
    · left
      rw [if_pos (by rw [← run.primaryOff_isSome, off]; rfl), virt]
      simp

/-- The offsets the walk for holders reads: the bases of `r` where this layout puts them. -/
def Run.baseOffset (run : Run m h L r) (d i : Nat) : Nat :=
  if d = r then run.baseOffs.getD i 0 else Vcx.Types.baseOffset L d i

/-- What the sharing loop keeps: the entries so far stay, the keys are the settled virtual
bases, and every new entry shares a subobject's address. -/
structure Run.Sharing (run : Run m h L r) (S : List Nat) (at_ : VBaseMap) : Prop where
  keys : ∀ v, S.contains v = (at_.lookup v).isSome
  kept : ∀ v o, run.placedEntries.lookup v = some o → at_.lookup v = some o
  shared : ∀ v o, at_.lookup v = some o → run.placedEntries.lookup v = some o ∨
    ∃ d, SubobjectAt h run.baseOffset at_ r d o ∧ (primaryBase m h L d).virt = some v

theorem Run.Sharing.step {run : Run m h L r} {S : List Nat} {at_ : VBaseMap} (so : run.Sharing S at_)
    (known : ∀ d, h.Derives r d → d ≠ r → ∃ info, L d = some info) (v : Nat) :
    run.Sharing (settle m h L r S v)
      (shareVBase m h L r (indirectPrimaries h (primaryBase m h L) r) run.baseOffs at_ v) := by
  have found := holderWalk_isSome (m := m) (v := v) so.keys (c := r)
    (fun d path ne => Option.isSome_iff_exists.2 (known d path ne)) 0 run.baseOffs none
  unfold settle shareVBase
  rw [so.keys v]
  split
  · exact so
  · rename_i open_
    simp only [Bool.or_eq_true, not_or, Bool.not_eq_true, Option.isSome_eq_false_iff, Option.isNone_iff_eq_none]
      at open_
    cases place : primaryHolderOffset m h L v at_ r run.baseOffs with
    | none =>
      rw [show holderWalk m h L v at_ r 0 run.baseOffs none = none from place] at found
      simp only [Option.isSome_none, Bool.false_or] at found
      rw [← found]
      simpa using so
    | some off =>
      rw [show holderWalk m h L v at_ r 0 run.baseOffs none = some off from place] at found
      simp only [Option.isSome_some, Option.isSome_none, Bool.false_or] at found
      rw [← found]
      have grown : ∀ x o, at_.lookup x = some o → (at_.insert v off).lookup x = some o := by
        intro x o entry
        have ne : x ≠ v := by
          rintro rfl
          rw [open_.1] at entry
          cases entry
        rw [AList.lookup_insert_ne ne]
        exact entry
      have carry : ∀ d o, SubobjectAt h run.baseOffset at_ r d o → SubobjectAt h run.baseOffset (at_.insert v off) r d o :=
        fun d o e => e.mono (fun _ _ _ _ _ => rfl) grown
      refine ⟨?_, fun x o entry => grown x o (so.kept x o entry), ?_⟩
      · intro x
        by_cases eq : x = v
        · subst eq
          simp
        · rw [AList.lookup_insert_ne eq, ← so.keys x]
          simp [eq]
      · intro x o entry
        by_cases eq : x = v
        · subst eq
          rw [AList.lookup_insert] at entry
          cases entry
          have here : SubobjectAt h run.baseOffset at_ r r 0 := .self
          have holder := holderWalk_sound here
            (by simp [Run.baseOffset]) (fun d path ne di known i => by
              simp [Run.baseOffset, ne, Vcx.Types.baseOffset, known]) place
          rcases holder with contra | ⟨d, e, virt⟩
          · cases contra
          · exact .inr ⟨d, carry d off e, virt⟩
        · rw [AList.lookup_insert_ne eq] at entry
          rcases so.shared x o entry with old | ⟨d, e, virt⟩
          · exact .inl old
          · exact .inr ⟨d, carry d o e, virt⟩

/-- **After the sharing loop the keys are the settled virtual bases.** -/
theorem Run.sharing (run : Run m h L r) (known : ∀ d, h.Derives r d → d ≠ r → ∃ info, L d = some info) :
    run.Sharing (settledVBases m h L r) run.info.vbaseOffsets := by
  have start : run.Sharing (placedVBases m h L r) run.placedEntries :=
    ⟨run.placed_isSome, fun _ _ entry => entry, fun _ _ entry => .inl entry⟩
  have loop : ∀ (vs S : List Nat) (at_ : VBaseMap), run.Sharing S at_ → run.Sharing (vs.foldl (settle m h L r) S)
      (vs.foldl (shareVBase m h L r (indirectPrimaries h (primaryBase m h L) r) run.baseOffs) at_) := by
    intro vs
    induction vs with
    | nil => exact fun _ _ so => so
    | cons v vs ih => exact fun S at_ so => ih _ _ (so.step known v)
  exact loop _ _ _ start

/-! ### The storage -/

theorem Run.baseOffs_length (run : Run m h L r) : run.baseOffs.length = (h.record r).bases.length := by
  simpa using thread_length run.bases

/-- A non-virtual base stays where it was placed. -/
theorem Run.baseOffsets_plain (run : Run m h L r) {b : BaseSpec} {i : Nat} (here : (h.record r).bases[i]? = some b)
    (plain : b.virtual = false) : run.info.baseOffsets.getD i 0 = run.baseOffs.getD i 0 := by
  obtain ⟨lt, eq⟩ := List.getElem?_eq_some_iff.1 here
  have len := run.baseOffs_length
  simp only [Run.info, finishLayout, finalBaseOffsets, Run.nonVirtual]
  rw [List.getD_eq_getElem _ _ (by simp [len, lt]), List.getD_eq_getElem _ _ (by omega)]
  simp [eq, plain]

theorem Run.fields_length (run : Run m h L r) : run.fields.length = (h.record r).fields.length :=
  thread_length run.members

section

variable (sizes : m.Sizes) (laid : Laid m h L)
include sizes laid

/-- A virtual base with a place of its own starts behind the non-virtual part. -/
theorem Run.fresh_after (run : Run m h L r) :
    ∀ p ∈ (freshVBases m h L r).zip run.vbaseOffs, (classPart h L p.1 p.2).len = 0 ∨ run.afterFields.dsize ≤ p.2 := by
  apply thread_answers (P := fun c : Cursor => run.afterFields.dsize ≤ c.dsize)
    (Q := fun v off => (classPart h L v off).len = 0 ∨ run.afterFields.dsize ≤ off) run.vbases (Nat.le_refl _)
  intro v hv c off c' le step
  have grows := laid.baseStep sizes step
  obtain ⟨bi, -, -, placed⟩ := laid.placeBase sizes step
  refine ⟨?_, Nat.le_trans le grows.dsize⟩
  cases empty : itaniumEmpty h v with
  | true => exact .inl (by simp [classPart, dataSize, empty])
  | false => exact .inr (Nat.le_trans le (placed.after rfl empty))

/-- A dynamic class starts with a vptr, its own or its primary base's. -/
theorem Run.ptr_le_head (run : Run m h L r) (dyn : isDynamic h r = true)
    (complete : h.Complete m r) : m.sizePtr ≤ run.afterPrimary.dsize := by
  induction r using Nat.strongRecOn with
  | ind r ih =>
    cases idx : (primaryBase m h L r).idx with
    | none =>
      rw [(run.head_alone idx).2, (startCursor_dsize _ _ _).1]
      simp [dyn, idx]
    | some i =>
      obtain ⟨b, c, at_, cls, -, dsize, -, -⟩ := run.head_primary sizes laid idx
      obtain ⟨b', c', at', cls', dynBase, data, -⟩ := primaryBase_idx idx
      rw [at_] at at'
      cases at'
      rw [cls] at cls'
      cases cls'
      have mem := List.mem_of_getElem? at_
      have base : h.Base r c := ⟨b, mem, cls⟩
      have completeBase := complete.part (.inl base)
      rcases placePrimary_some run.primary with ⟨alone, -⟩ | ⟨i', b', d, o, idx', at', cls', -, step⟩
      · rw [idx] at alone
        cases alone
      rw [idx] at idx'
      cases idx'
      rw [at_] at at'
      cases at'
      rw [cls] at cls'
      cases cls'
      obtain ⟨bi, known⟩ := placeBase_known step
      rw [dsize, dataSize_known known, if_neg (by simp [data])]
      rw [laid c] at known
      obtain ⟨inner, rfl⟩ := (layoutItanium_iff_run (h.union_base r b mem c cls)).1 known
      have head := ih c base.lt inner dynBase completeBase
      have sound := inner.sound sizes laid fun d e => ((completeBase.part (.inl e)).at).complete
      have bases := sound.bases.dsize
      have data := sound.members.data
      have dsize := sound.members.dsize
      have fits := sound.members.fits
      have one := le_atLeastOne inner.afterFields.size
      have rounded := le_roundUp (atLeastOne inner.afterFields.size) inner.last.align
      simp only at data dsize fits
      simp only [Run.info, finishLayout, Run.nonVirtual]
      split <;> omega

/-- A primary base among the direct ones is at the start. -/
theorem Run.baseOffs_primary (run : Run m h L r) {i : Nat} (idx : (primaryBase m h L r).idx = some i) :
    run.baseOffs.getD i 0 = 0 := by
  obtain ⟨b, c, here, -, off, -⟩ := run.head_primary sizes laid idx
  have answers := thread_answers (P := fun _ : Cursor => True)
    (Q := fun b off => ∀ o, keepPrimary (primaryBase m h L r) run.primaryOff b.2 = some o → off = o)
    run.bases trivial (by
      intro b hb c off c' _ step
      refine ⟨?_, trivial⟩
      intro o keep
      simp only [placeBaseAt, keep, Option.some.injEq, Prod.mk.injEq] at step
      exact step.1.symm)
  have mem : ((b, i), run.baseOffs.getD i 0) ∈ (h.record r).bases.zipIdx.zip run.baseOffs :=
    mem_zip_of_getElem? 0 (by simp [here]) (by simp [run.baseOffs_length])
  exact answers _ mem 0 (by simp [keepPrimary, idx, off])

theorem Run.nonVirtual_within (run : Run m h L r) (complete : h.Complete m r) :
    ∀ p ∈ nonVirtualParts m h L r run.info, p.Within (run.afterFields.dsize * 8) := by
  have sound := run.sound sizes laid fun d e => ((complete.part (.inl e)).at).complete
  have dsize := sound.members.dsize
  have data := sound.members.data
  have bases := sound.bases.dsize
  simp only at dsize data
  have within : ∀ p, p ∈ (run.head :: run.otherBases).map (fun a => a.scale 8) ++ run.memberBits →
      p.Within (run.afterFields.dsize * 8) :=
    fun p hp => (sound.nonVirtual.within p hp).mono (by omega)
  intro p hp
  simp only [nonVirtualParts, List.mem_append] at hp
  rcases hp with (vptr | base) | member
  · split at vptr
    · rename_i dyn
      obtain rfl := List.mem_singleton.1 vptr
      have := run.ptr_le_head sizes laid dyn complete
      exact .inr (by simp only; omega)
    · cases vptr
  · obtain ⟨⟨b, i⟩, hb, rfl⟩ := List.mem_map.1 base
    have here := List.mem_zipIdx_iff_getElem?.1 hb
    simp only at here ⊢
    cases plain : b.plain with
    | none => exact .inl (by simp [basePart, plain, Range.scale])
    | some c =>
      obtain ⟨nonVirtual, cls⟩ := BaseSpec.plain_eq_some.1 plain
      rw [run.baseOffsets_plain here nonVirtual]
      by_cases idx : (primaryBase m h L r).idx = some i
      · -- the primary base is the head
        obtain ⟨b', c', at', cls', off, dsize, -⟩ := run.head_primary sizes laid idx
        rw [here] at at'
        cases at'
        rw [cls] at cls'
        cases cls'
        rw [run.baseOffs_primary sizes laid idx]
        apply within
        refine List.mem_append_left _ (List.mem_cons.2 (.inl ?_))
        simp [basePart, plain, Run.head, dsize]
      · apply within
        refine List.mem_append_left _ (List.mem_cons_of_mem _ (List.mem_map.2 ⟨_, ?_, rfl⟩))
        refine List.mem_map.2 ⟨((b, i), run.baseOffs.getD i 0), ?_, by simp [otherBase, idx]⟩
        exact mem_zip_of_getElem? 0 (by simp [here]) (by simp [run.baseOffs_length])
  · obtain ⟨⟨f, i⟩, hf, rfl⟩ := List.mem_map.1 member
    have here := List.mem_zipIdx_iff_getElem?.1 hf
    apply within
    refine List.mem_append_right _ (List.mem_map.2 ⟨(f, run.fields.getD i ⟨0, 0, 0⟩), ?_, ?_⟩)
    · exact mem_zip_of_getElem? _ here run.fields_length
    · obtain ⟨lt, -⟩ := List.getElem?_eq_some_iff.1 here
      have lt' : i < run.fields.length := by rw [run.fields_length]; exact lt
      simp [Run.info, finishLayout, Run.nonVirtual, lt']

/-- **The entries of a laid-out class are storage of their own or shared.** -/
theorem Run.entry (run : Run m h L r) (known : L r = some run.info) (complete : h.Complete m r) {v off : Nat}
    (entry : run.info.vbaseOffsets.lookup v = some off) :
    Owns m h L r run.info v off ∨ Shares m h L r run.info v off := by
  have knownAll : ∀ d, h.Derives r d → d ≠ r → ∃ info, L d = some info :=
    fun d path _ => laid.known_contains complete known path.contains
  have so := run.sharing knownAll
  have sound := run.sound sizes laid fun d e => ((complete.part (.inl e)).at).complete
  have share : ∀ v o, run.info.vbaseOffsets.lookup v = some o →
      (v, o) ∈ (freshVBases m h L r).zip run.vbaseOffs ∨ Shares m h L r run.info v o := by
    intro v o entry
    rcases so.shared v o entry with placed | ⟨d, e, virt⟩
    · rcases run.lookup_placed placed with fresh | ⟨virt, off⟩
      · exact .inl fresh
      · obtain ⟨rfl, -⟩ := run.primaryOff_zero sizes laid off
        exact .inr ⟨r, .self, virt⟩
    · refine .inr ⟨d, e.mono ?_ (fun _ _ entry => entry), virt⟩
      intro d i b here plain
      unfold Run.baseOffset
      split
      · rename_i eq
        subst eq
        rw [← run.baseOffsets_plain here plain]
        simp [Vcx.Types.baseOffset, known]
      · rfl
  rcases share v off entry with fresh | shares
  · left
    refine ⟨?_, ?_⟩
    · intro p hp
      have within := run.nonVirtual_within sizes laid complete p hp
      rcases run.fresh_after sizes laid (v, off) fresh with none | after
      · exact .inl (by simp only at none; simp [Range.scale, none])
      · exact (Range.apart_of_boundary within (by simp only [Range.scale, classPart]; omega)).symm
    · intro v' off' ne entry'
      rcases share v' off' entry' with fresh' | shares
      · left
        have apart := (List.pairwise_append.1 sound.serial.apart).2.1
        -- two members of a pairwise disjoint row, at different places because the keys differ
        have keyed : ((freshVBases m h L r).zip run.vbaseOffs).Pairwise fun p q =>
            (classPart h L p.1 p.2).Apart (classPart h L q.1 q.2) := by
          unfold Run.freshParts at apart
          rw [List.pairwise_map, List.pairwise_map] at apart
          exact apart.imp fun e => e.of_scale (by omega)
        have symm : Std.Symm fun p q : Nat × Nat => (classPart h L p.1 p.2).Apart (classPart h L q.1 q.2) :=
          ⟨fun _ _ e => e.symm⟩
        exact keyed.forall fresh fresh' fun eq => ne (Prod.mk.inj eq).1.symm
      · exact .inr shares
  · exact .inr shares

/-- Every virtual base of a laid-out class is placed exactly when all of them are settled. -/
theorem Laid.vbasesPlaced_iff (complete : h.Complete m r) {info : RecordInfo} (known : L r = some info) :
    VBasesPlaced m h L r info ↔ ∀ v ∈ itaniumVBases h r, v ∈ settledVBases m h L r := by
  by_cases union : (h.record r).tag = .union
  · have none : itaniumVBases h r = [] := by
      apply List.eq_nil_iff_forall_not_mem.2
      intro v hv
      exact (mem_itaniumVBases.1 hv).struct union
    simp [VBasesPlaced, none]
  have known' := known
  rw [laid r] at known'
  obtain ⟨run, rfl⟩ := (layoutItanium_iff_run union).1 known'
  have so := run.sharing fun d path _ => laid.known_contains complete known path.contains
  constructor
  · intro placed v hv
    obtain ⟨off, entry, -⟩ := placed v hv
    exact List.contains_iff_mem.1 (by rw [so.keys v, entry]; rfl)
  · intro settled v hv
    have some := List.contains_iff_mem.2 (settled v hv)
    rw [so.keys v] at some
    obtain ⟨off, entry⟩ := Option.isSome_iff_exists.1 some
    exact ⟨off, entry, run.entry sizes laid known complete entry⟩

end

end Vcx.Types
