import Vcx.Types.Complete
import Vcx.Types.Itanium.Disjoint
import Vcx.Types.Microsoft.Layout

/-!
# A Microsoft layout as a run

The bases in their order, then the members. A run of bit-fields fills one unit from its low
end, so the data so far ends inside the open unit; the next member goes there or behind the
unit. `MsRun.sound` is the one statement everything else is read off.
-/

namespace Vcx.Types
set_option autoImplicit false
open Vcx.Lib

/-- `L` is laid out by Microsoft's rules, over itself. -/
def MsLaid (m : Model) (h : Hierarchy) (L : Layouts) : Prop := ∀ r, L r = layoutMicrosoft m h L r

/-- The two phases of one layout. -/
structure MsRun (m : Model) (h : Hierarchy) (L : Layouts) (r : Nat) where
  baseOffs : List Nat
  afterBases : MsBases
  fields : List MsPlaced
  afterFields : MsFields
  bases : thread (placeMsBase h L (hasVPtr h r)) (baseOrder h r) (msStart m h r) = some (baseOffs, afterBases)
  members : thread (placeMsField m h L (h.record r)) (h.record r).fields
    { cur := (msHead m h r afterBases).1, align := (msHead m h r afterBases).2 } = some (fields, afterFields)

def MsRun.info {m : Model} {h : Hierarchy} {L : Layouts} {r : Nat} (run : MsRun m h L r) : RecordInfo :=
  finishMs h L r (msBaseOffsets h r run.baseOffs) (msVBPtr m h r run.afterBases) run.fields run.afterFields.close

variable {m : Model} {h : Hierarchy} {L : Layouts} {r : Nat}

theorem layoutMicrosoft_struct {info : RecordInfo} (struct : (h.record r).tag ≠ .union)
    (eq : layoutMicrosoft m h L r = some info) : ∃ run : MsRun m h L r, info = run.info := by
  obtain ⟨⟨offs, s⟩, bases, eq⟩ := Option.bind_eq_some_iff.1 eq
  simp only [struct, if_false] at eq
  obtain ⟨⟨ps, fs⟩, members, rfl⟩ := Option.map_eq_some_iff.1 eq
  exact ⟨⟨offs, s, ps, fs, bases, members⟩, rfl⟩

theorem layoutMicrosoft_union {info : RecordInfo} (union : (h.record r).tag = .union)
    (eq : layoutMicrosoft m h L r = some info) :
    ∃ offs s us t, thread (placeMsBase h L (hasVPtr h r)) (baseOrder h r) (msStart m h r) = some (offs, s) ∧
      thread (msUnionField m h L (h.record r)) (h.record r).fields (0, (msHead m h r s).2) = some (us, t) ∧
      info = finishMsUnion h r (msBaseOffsets h r offs) (msVBPtr m h r s) t := by
  obtain ⟨⟨offs, s⟩, bases, eq⟩ := Option.bind_eq_some_iff.1 eq
  simp only [union, if_true] at eq
  obtain ⟨⟨us, t⟩, members, rfl⟩ := Option.map_eq_some_iff.1 eq
  exact ⟨offs, s, us, t, bases, members, rfl⟩

@[simp] theorem raiseTo_eq (align a : Nat) : raiseTo align a = max align a := by
  unfold raiseTo
  split <;> omega

/-! ### Bases -/

/-- The bytes of data a class has as a base. -/
def msDataSize (h : Hierarchy) (L : Layouts) (c : Nat) : Nat :=
  if itaniumEmpty h c then 0 else ((L c).map fun info => (layoutNonVirtual info).1).getD 0

/-- The bytes of a non-virtual direct base. -/
def msBasePart (h : Hierarchy) (L : Layouts) (b : BaseSpec) (off : Nat) : Range :=
  ⟨off, (b.plain.map (msDataSize h L)).getD 0⟩

/-- Whether the code lays a base out as one that takes no room. -/
def msRoomless (h : Hierarchy) (r c : Nat) : Bool := isEmptyRecord h c && !hasVPtr h r

/-- What placing one base does. -/
inductive MsBasePlaced (h : Hierarchy) (L : Layouts) (r : Nat) (b : BaseSpec) (s : MsBases) (off : Nat) (s' : MsBases) : Prop
  | skipped (incomplete : ∀ c, b.cls = some c → (h.record c).complete = false) (same : s' = s) (zero : off = 0)
  | virt (c : Nat) (bi : RecordInfo) (cls : b.cls = some c) (known : L c = some bi) (virtual : b.virtual = true)
    (cur : s'.cur = s.cur) (align : s'.align = max s.align (layoutNonVirtual bi).2) (zero : off = 0)
  | empty (c : Nat) (bi : RecordInfo) (plain : b.plain = some c) (known : L c = some bi)
    (roomless : msRoomless h r c = true) (after : s.cur ≤ off) (cur : off ≤ s'.cur)
    (align : s'.align = max s.align (layoutNonVirtual bi).2)
  | data (c : Nat) (bi : RecordInfo) (plain : b.plain = some c) (known : L c = some bi)
    (room : msRoomless h r c = false) (place : off = roundUp s.cur (layoutNonVirtual bi).2)
    (cur : s'.cur = off + (layoutNonVirtual bi).1) (align : s'.align = max s.align (layoutNonVirtual bi).2)

theorem placeMsBase_some {b : BaseSpec × Nat} {s s' : MsBases} {off : Nat}
    (run : placeMsBase h L (hasVPtr h r) b s = some (off, s')) : MsBasePlaced h L r b.1 s off s' := by
  unfold placeMsBase at run
  split at run
  · rename_i passed
    cases run
    refine .skipped ?_ rfl rfl
    intro c hc
    simpa [hc, Option.filter] using passed
  · rename_i c placed
    have cls := (Option.filter_eq_some_iff.1 placed).1
    split at run
    · cases run
    · rename_i bi known
      simp only at run
      split at run
      · rename_i virtual
        cases run
        exact .virt c bi cls known virtual rfl (by simp) rfl
      · rename_i plain
        have plain : b.1.plain = some c := BaseSpec.plain_eq_some.2 ⟨by simpa using plain, cls⟩
        split at run
        · rename_i roomless
          simp only [Option.some.injEq] at run
          unfold placeMsEmptyBase at run
          split at run
          · cases run
            exact .empty c bi plain known roomless (by simp) (by simp) (by simp)
          · cases run
            exact .empty c bi plain known roomless (by simp) (by simp) (by simp)
        · rename_i room
          cases run
          exact .data c bi plain known (by simpa [msRoomless] using room) rfl rfl (by simp)

theorem MsBasePlaced.cur_le {b : BaseSpec} {s s' : MsBases} {off : Nat} (e : MsBasePlaced h L r b s off s') :
    s.cur ≤ s'.cur := by
  rcases e with ⟨-, rfl, -⟩ | ⟨c, bi, -, -, -, cur, -, -⟩ | ⟨c, bi, -, -, -, after, cur, -⟩ |
    ⟨c, bi, -, -, -, place, cur, -⟩
  · exact Nat.le_refl _
  · omega
  · omega
  · have := le_roundUp s.cur (layoutNonVirtual bi).2
    omega

theorem MsBasePlaced.align_le {b : BaseSpec} {s s' : MsBases} {off : Nat} (e : MsBasePlaced h L r b s off s') :
    s.align ≤ s'.align := by
  rcases e with ⟨-, rfl, -⟩ | ⟨c, bi, -, -, -, -, align, -⟩ | ⟨c, bi, -, -, -, -, -, align⟩ |
    ⟨c, bi, -, -, -, -, -, align⟩
  all_goals omega

theorem mem_baseOrder {b : BaseSpec} {i : Nat} : (b, i) ∈ baseOrder h r ↔ (h.record r).bases[i]? = some b := by
  unfold baseOrder
  rw [List.mem_append, List.mem_filter, List.mem_filter, List.mem_zipIdx_iff_getElem?]
  cases leads h b <;> simp

theorem baseOrder_perm (r : Nat) : (baseOrder h r).Perm (h.record r).bases.zipIdx :=
  List.filter_append_perm _ _

/-- The bases lie behind the vfptr, one after the other, when the roomless ones are empty. -/
theorem MsRun.serial_bases (run : MsRun m h L r)
    (empty : ∀ b ∈ (h.record r).bases, ∀ c, b.plain = some c → msRoomless h r c = true → itaniumEmpty h c = true)
    (complete : ∀ c, h.Base r c → (h.record c).complete = true) :
    Serial (((baseOrder h r).zip run.baseOffs).map fun p => msBasePart h L p.1.1 p.2) run.afterBases.cur := by
  have history := thread_history
    (P := fun done s => Serial (done.map fun p => msBasePart h L p.1.1 p.2) s.cur) run.bases []
    (Serial.nil _) (by
      rintro done ⟨b, i⟩ hb s off s' serial step
      have mem := List.mem_of_getElem? (mem_baseOrder.1 hb)
      have placed := placeMsBase_some step
      have grows := placed.cur_le
      rw [List.map_append, List.map_singleton]
      have none : (msBasePart h L b off).len = 0 → Serial (done.map (fun p => msBasePart h L p.1.1 p.2) ++
          [msBasePart h L b off]) s'.cur := fun zero => serial.snoc grows (.inl zero) (.inl zero)
      rcases placed with ⟨incomplete, -, -⟩ | ⟨c, bi, -, -, virtual, -⟩ | ⟨c, bi, plain, -, roomless, -, -, -⟩ |
        ⟨c, bi, plain, known, -, place, cur, -⟩
      · apply none
        cases plain : b.plain with
        | none => simp [msBasePart, plain]
        | some c =>
          have cls := (BaseSpec.plain_eq_some.1 plain).2
          have := complete c ⟨b, mem, cls⟩
          rw [incomplete c cls] at this
          cases this
      · apply none
        simp only at virtual
        simp [msBasePart, BaseSpec.plain, virtual]
      · apply none
        simp only at plain
        simp [msBasePart, plain, msDataSize, empty b mem c plain roomless]
      · have := le_roundUp s.cur (layoutNonVirtual bi).2
        simp only at plain
        have len : (msBasePart h L b off).len ≤ (layoutNonVirtual bi).1 := by
          simp only [msBasePart, plain, Option.map_some, Option.getD_some, msDataSize, known]
          split <;> omega
        refine serial.snoc grows (.inr ?_) (.inr ?_)
        · simp only [msBasePart]
          omega
        · simp only [msBasePart] at len ⊢
          omega)
  simpa using history

theorem MsRun.baseOffs_length (run : MsRun m h L r) : run.baseOffs.length = (baseOrder h r).length :=
  thread_length run.bases

/-- The offset of a non-virtual base is the one the loop answered for it. -/
theorem MsRun.baseOffsets_at (run : MsRun m h L r) {i : Nat} {b : BaseSpec} (here : (h.record r).bases[i]? = some b)
    (plain : b.virtual = false) : ∃ k : Nat, ((baseOrder h r).zip run.baseOffs)[k]? = some ((b, i), run.info.baseOffsets.getD i 0) := by
  obtain ⟨lt, eq⟩ := List.getElem?_eq_some_iff.1 here
  obtain ⟨k, at_⟩ := List.getElem?_of_mem (mem_baseOrder.2 here)
  have some : (((baseOrder h r).zip run.baseOffs).find? fun p => p.1.2 == i).isSome = true := by
    rw [List.find?_isSome]
    exact ⟨_, mem_zip_of_getElem? 0 at_ run.baseOffs_length, by simp⟩
  obtain ⟨⟨⟨b', i'⟩, off⟩, found⟩ := Option.isSome_iff_exists.1 some
  obtain rfl : i' = i := by simpa using List.find?_some found
  have mem := List.mem_of_find?_eq_some found
  have same : b' = b := by
    have := mem_baseOrder.1 (List.of_mem_zip mem).1
    rw [here, Option.some.injEq] at this
    exact this.symm
  subst same
  have offset : run.info.baseOffsets.getD i' 0 = off := by
    simp [MsRun.info, finishMs, msFinalBaseOffsets, msBaseOffsets, List.getD_eq_getElem?_getD, eq, plain, lt, found]
  rw [offset]
  exact List.getElem?_of_mem mem

/-- A direct virtual base is reported where its entry says. -/
theorem MsRun.baseOffsets_virtual (run : MsRun m h L r) {i c off : Nat} {b : BaseSpec}
    (here : (h.record r).bases[i]? = some b) (virtual : b.virtual = true) (cls : b.cls = some c)
    (entry : run.info.vbaseOffsets.lookup c = some off) : run.info.baseOffsets.getD i 0 = off := by
  obtain ⟨lt, eq⟩ := List.getElem?_eq_some_iff.1 here
  simp only [MsRun.info, finishMs, raiseTo_eq] at entry
  simp [MsRun.info, finishMs, msFinalBaseOffsets, msBaseOffsets, List.getD_eq_getElem?_getD, eq, virtual, lt, cls, entry]

/-! ### Members -/

/-- Where the data ends, in bits: inside the open unit, or at the cursor. -/
def MsFields.bits (s : MsFields) : Nat :=
  match s.unit with
  | none => s.cur * 8
  | some u => u.offset * 8 + min u.used (u.size * 8)

theorem MsFields.bits_le_close (s : MsFields) : s.bits ≤ s.close.cur * 8 := by
  unfold MsFields.bits MsFields.close
  cases s.unit with
  | none => exact Nat.le_refl _
  | some u =>
    simp only
    omega

@[simp] theorem MsFields.close_align (s : MsFields) : s.close.align = s.align := by
  unfold MsFields.close
  cases s.unit <;> rfl

@[simp] theorem MsFields.close_unit (s : MsFields) : s.close.unit = none := by
  unfold MsFields.close
  cases unit : s.unit with
  | none => exact unit
  | some u => rfl

/-- The bits of a member; the padding an unnamed bit-field makes is nobody's. -/
def msFieldBits (m : Model) (h : Hierarchy) (L : Layouts) (f : Field) (offset bitOffset : Nat) : Range :=
  if f.bitField then ⟨offset * 8 + bitOffset, if f.name = "" then 0 else f.width⟩
  else ⟨offset * 8, (sizeof m h L f.type).getD 0 * 8⟩

/-- What placing one member does: the three kinds of step. -/
inductive MsFieldPlaced (m : Model) (f : Field) (fs fa : Nat) (s : MsFields) (p : MsPlaced) (s' : MsFields) : Prop
  | joined (bit : f.bitField = true) (wide : 0 < f.width) (u : MsUnit) (unit : s.unit = some u)
    (room : u.used + f.width ≤ u.size * 8) (same : m.msBitfields = true → u.size = fs)
    (place : p = { offset := u.offset, bitOffset := u.used, bitUnit := u.size })
    (next : s'.unit = some { u with used := u.used + f.width })
    (align : s'.align = if f.name = "" then s.align else max s.align fa)
  | opened (bit : f.bitField = true) (wide : 0 < f.width)
    (place : p = { offset := roundUp s.close.cur fa, bitOffset := 0, bitUnit := fs })
    (next : s'.unit = some { offset := roundUp s.close.cur fa, size := fs, used := f.width })
    (align : s'.align = if f.name = "" then s.align else max s.align fa)
    (full : ∀ u, s.unit = some u → u.used + f.width ≤ u.size * 8 → m.msBitfields = true ∧ u.size ≠ fs)
  | closed (fs' : Nat) (kind : f.bitField = true ∧ f.width = 0 ∧ fs' = 0 ∨ f.bitField = false ∧ fs' = fs)
    (place : p = { offset := roundUp s.close.cur fa }) (cur : s'.cur = roundUp s.close.cur fa + fs') (unit : s'.unit = none)
    (align : s'.align = if f.bitField = true ∧ f.name = "" then s.align else max s.align fa)

theorem placeMsField_sized {rec_ : Record} {f : Field} {s s' : MsFields} {p : MsPlaced}
    (run : placeMsField m h L rec_ f s = some (p, s')) :
    ∃ fs ta, sizeof m h L f.type = some fs ∧ alignof m h L f.type = some ta := by
  unfold placeMsField at run
  split at run
  · rename_i fs ta size align
    exact ⟨fs, ta, size, align⟩
  · cases run

/-- Raising the alignment leaves the unit alone. -/
theorem MsFields.close_with_align (s : MsFields) (a : Nat) :
    ({ s with align := a } : MsFields).close.cur = s.close.cur := by
  unfold MsFields.close
  cases s.unit <;> rfl

theorem placeMsField_some {rec_ : Record} {f : Field} {s s' : MsFields} {p : MsPlaced} {fs ta : Nat}
    (size : sizeof m h L f.type = some fs) (align : alignof m h L f.type = some ta)
    (run : placeMsField m h L rec_ f s = some (p, s')) : MsFieldPlaced m f fs (fieldAlign rec_ f ta) s p s' := by
  simp only [placeMsField, size, align] at run
  generalize fieldAlign rec_ f ta = fa at run ⊢
  generalize raised : ({ s with align := if (!f.bitField || f.name != "") = true then raiseTo s.align fa else s.align } : MsFields)
    = t at run
  have unit : t.unit = s.unit := by rw [← raised]
  have cur : t.close.cur = s.close.cur := by rw [← raised, MsFields.close_with_align]
  have high : t.align = if f.bitField = true ∧ f.name = "" then s.align else max s.align fa := by
    rw [← raised]
    by_cases bit : f.bitField = true <;> by_cases unnamed : f.name = "" <;> simp [bit, unnamed]
  split at run
  · rename_i bit
    have high' : t.align = if f.name = "" then s.align else max s.align fa := by
      rw [high]
      by_cases unnamed : f.name = "" <;> simp [bit, unnamed]
    split at run
    · rename_i none
      cases run
      exact .closed 0 (.inl ⟨bit, none, rfl⟩) (by rw [← cur]) (by simp [cur]) (by simp)
        (by rw [← high]; simp)
    · rename_i wide
      cases run
      cases open_ : t.openFor m f.width fs with
      | none =>
        have u : t.unitFor m f.width fs fa = { offset := roundUp s.close.cur fa, size := fs, used := 0 } := by
          simp [MsFields.unitFor, open_, cur]
        refine .opened bit (by omega) (by rw [u]) (by simp [u]) high' ?_
        intro v here room
        have spills := Option.filter_eq_none_iff.1 open_ v (by rw [unit]; exact here)
        simpa [Nat.not_lt.2 room] using spills
      | some u =>
        have u' : t.unitFor m f.width fs fa = u := by simp [MsFields.unitFor, open_]
        obtain ⟨here, fits⟩ := Option.filter_eq_some_iff.1 open_
        simp only [Bool.not_eq_true', Bool.or_eq_false_iff, decide_eq_false_iff_not, Bool.and_eq_false_iff,
          bne_eq_false_iff_eq] at fits
        refine .joined bit (by omega) u (by rw [← unit]; exact here) (by omega) ?_ (by rw [u']) (by simp [u']) high'
        intro on
        rcases fits.2 with off | same
        · rw [on] at off
          cases off
        · exact same
  · rename_i plain
    cases run
    have plain' : f.bitField = false := by simpa using plain
    exact .closed fs (.inr ⟨plain', rfl⟩) (by rw [← cur]) (by simp [cur]) (by simp) (by rw [← high]; simp)

theorem MsFieldPlaced.close_le {f : Field} {fs fa : Nat} {s s' : MsFields} {p : MsPlaced}
    (e : MsFieldPlaced m f fs fa s p s') : s.close.cur ≤ s'.close.cur := by
  rcases e with ⟨-, -, u, unit, -, -, -, next, -⟩ | ⟨-, -, -, next, -⟩ | ⟨fs', -, -, cur, unit, -⟩
  · simp [MsFields.close, unit, next]
  · have := le_roundUp s.close.cur fa
    rw [show s'.close.cur = roundUp s.close.cur fa + fs by rw [MsFields.close, next]]
    omega
  · have := le_roundUp s.close.cur fa
    rw [show s'.close.cur = s'.cur by rw [MsFields.close, unit], cur]
    omega

theorem MsFieldPlaced.align_le {f : Field} {fs fa : Nat} {s s' : MsFields} {p : MsPlaced}
    (e : MsFieldPlaced m f fs fa s p s') : s.align ≤ s'.align := by
  rcases e with ⟨-, -, u, -, -, -, -, -, align⟩ | ⟨-, -, -, -, align⟩ | ⟨fs', -, -, -, -, align⟩
  all_goals
    rw [align]
    split <;> omega

/-- A member placed as `p`, seen from a later state of the layout. -/
inductive MsFieldIn (m : Model) (h : Hierarchy) (L : Layouts) (r : Record) (f : Field) (p : MsPlaced) (s : MsFields) : Prop
  | bitField (fs ta : Nat) (size : sizeof m h L f.type = some fs) (align : alignof m h L f.type = some ta)
    (bit : f.bitField = true) (wide : 0 < f.width) (unit : m.msBitfields = true → p.bitUnit = fs)
    (room : f.width ≤ fs * 8 → p.bitOffset + f.width ≤ p.bitUnit * 8) (fits : p.offset + p.bitUnit ≤ s.close.cur)
    (raised : f.name ≠ "" → fieldAlign r f ta ≤ s.align)
  | other (fs ta : Nat) (size : sizeof m h L f.type = some fs) (align : alignof m h L f.type = some ta)
    (kind : f.bitField = true ∧ f.width = 0 ∧ p.bitUnit = 0 ∨ f.bitField = false ∧ p.offset + fs ≤ s.close.cur)
    (aligned : 0 < fieldAlign r f ta → fieldAlign r f ta ∣ p.offset)
    (raised : f.bitField = false ∨ f.name ≠ "" → fieldAlign r f ta ≤ s.align)

theorem MsFieldIn.mono {rec_ : Record} {f : Field} {p : MsPlaced} {s s' : MsFields} (e : MsFieldIn m h L rec_ f p s)
    (cur : s.close.cur ≤ s'.close.cur) (align : s.align ≤ s'.align) : MsFieldIn m h L rec_ f p s' := by
  rcases e with ⟨fs, ta, hs, ha, bit, wide, unit, room, fits, raised⟩ | ⟨fs, ta, hs, ha, kind, aligned, raised⟩
  · exact .bitField fs ta hs ha bit wide unit room (by omega) fun named => Nat.le_trans (raised named) align
  · refine .other fs ta hs ha ?_ aligned fun named => Nat.le_trans (raised named) align
    rcases kind with bit | ⟨plain, fits⟩
    · exact .inl bit
    · exact .inr ⟨plain, by omega⟩

theorem MsFieldPlaced.fieldIn {rec_ : Record} {f : Field} {fs ta : Nat} {s s' : MsFields} {p : MsPlaced}
    (size : sizeof m h L f.type = some fs) (align : alignof m h L f.type = some ta)
    (e : MsFieldPlaced m f fs (fieldAlign rec_ f ta) s p s') : MsFieldIn m h L rec_ f p s' := by
  rcases e with ⟨bit, wide, u, unit, room, same, rfl, next, high⟩ | ⟨bit, wide, rfl, next, high⟩ |
    ⟨fs', kind, rfl, cur, unit, high⟩
  · refine .bitField fs ta size align bit wide same (fun _ => room) ?_ ?_
    · rw [show s'.close.cur = u.offset + u.size by rw [MsFields.close, next]]
    · intro named
      rw [high, if_neg named]
      omega
  · refine .bitField fs ta size align bit wide (fun _ => rfl) (fun fits => by simpa using fits) ?_ ?_
    · rw [show s'.close.cur = roundUp s.close.cur (fieldAlign rec_ f ta) + fs by rw [MsFields.close, next]]
    · intro named
      rw [high, if_neg named]
      omega
  · refine .other fs ta size align ?_ (fun pos => dvd_roundUp pos) ?_
    · rw [show s'.close.cur = s'.cur by rw [MsFields.close, unit], cur]
      rcases kind with ⟨bit, none, -⟩ | ⟨plain, rfl⟩
      · exact .inl ⟨bit, none, rfl⟩
      · exact .inr ⟨plain, Nat.le_refl _⟩
    · intro named
      rw [high, if_neg (by rintro ⟨bit, unnamed⟩; simp [bit, unnamed] at named)]
      omega

/-- **Every member, against the finished class.** -/
theorem MsRun.fieldIn (run : MsRun m h L r) :
    ∀ q ∈ (h.record r).fields.zip run.fields, MsFieldIn m h L (h.record r) q.1 q.2 run.afterFields := by
  have history := thread_history
    (P := fun done s => ∀ q ∈ done, MsFieldIn m h L (h.record r) q.1 q.2 s) run.members [] (by simp) (by
      intro done f hf s p s' old step q hq
      obtain ⟨fs, ta, size, align⟩ := placeMsField_sized step
      have placed := placeMsField_some size align step
      rcases List.mem_append.1 hq with hq | hq
      · exact (old q hq).mono placed.close_le placed.align_le
      · obtain rfl := List.mem_singleton.1 hq
        exact placed.fieldIn size align)
  simpa using history

/-- A named bit-field no wider than its type. -/
def FitsType (m : Model) (h : Hierarchy) (L : Layouts) (f : Field) : Prop :=
  f.bitField = true → f.name ≠ "" → ∀ fs, sizeof m h L f.type = some fs → f.width ≤ fs * 8

/-- The bits of a member that its value is in: a bit-field has no more than its type. -/
def msValueBits (m : Model) (h : Hierarchy) (L : Layouts) (f : Field) (offset bitOffset : Nat) : Range :=
  if f.bitField then ⟨offset * 8 + bitOffset, if f.name = "" then 0 else min f.width ((sizeof m h L f.type).getD 0 * 8)⟩
  else ⟨offset * 8, (sizeof m h L f.type).getD 0 * 8⟩

/-- The members' values lie one after the other, behind the bases. -/
theorem MsRun.serial_values (run : MsRun m h L r) {rs : List Range}
    (serial : Serial rs ((msHead m h r run.afterBases).1 * 8)) :
    Serial (rs ++ ((h.record r).fields.zip run.fields).map fun (f, p) => msValueBits m h L f p.offset p.bitOffset)
      (run.afterFields.close.cur * 8) := by
  have history := thread_history
    (P := fun done s => Serial (rs ++ done.map fun (f, p) => msValueBits m h L f p.offset p.bitOffset) s.bits)
    run.members [] (by simpa [MsFields.bits] using serial) (by
      rintro done f hf s p s' serial step
      rw [List.map_append, ← List.append_assoc, List.map_singleton]
      obtain ⟨fs, ta, size, align⟩ := placeMsField_sized step
      have ended := s.bits_le_close
      have rounded := le_roundUp s.close.cur (fieldAlign (h.record r) f ta)
      rcases placeMsField_some size align step with ⟨bit, wide, u, unit, room, -, rfl, next, -⟩ |
        ⟨bit, wide, rfl, next, -⟩ | ⟨fs', kind, rfl, cur, unit, -⟩
      · have before : s.bits = u.offset * 8 + u.used := by
          simp only [MsFields.bits, unit]
          omega
        have after : s'.bits = u.offset * 8 + (u.used + f.width) := by
          simp only [MsFields.bits, next]
          omega
        refine serial.snoc (by omega) (.inr ?_) (.inr ?_)
        · simp [msValueBits, bit, before]
        · simp only [msValueBits, bit, if_true, after]
          split <;> omega
      · have after : s'.bits = roundUp s.close.cur (fieldAlign (h.record r) f ta) * 8 + min f.width (fs * 8) := by
          simp only [MsFields.bits, next]
        refine serial.snoc (by omega) (.inr ?_) (.inr ?_)
        · simp only [msValueBits, bit, if_true]
          omega
        · simp only [msValueBits, bit, if_true, after, size, Option.getD_some]
          split <;> omega
      · have after : s'.bits = (roundUp s.close.cur (fieldAlign (h.record r) f ta) + fs') * 8 := by
          simp only [MsFields.bits, unit, cur]
        have len : (msValueBits m h L f (roundUp s.close.cur (fieldAlign (h.record r) f ta)) 0).len ≤ fs' * 8 := by
          rcases kind with ⟨bit, none, rfl⟩ | ⟨plain, rfl⟩
          · simp [msValueBits, bit, none]
          · simp [msValueBits, plain, size]
        have lo : (msValueBits m h L f (roundUp s.close.cur (fieldAlign (h.record r) f ta)) 0).lo =
            roundUp s.close.cur (fieldAlign (h.record r) f ta) * 8 := by
          unfold msValueBits
          split <;> simp
        refine serial.snoc (by omega) (.inr ?_) (.inr ?_)
        · simp only [lo]
          omega
        · simp only [lo, after]
          omega)
  have := run.afterFields.bits_le_close
  exact (by simpa using history : Serial _ run.afterFields.bits).mono this

theorem MsRun.serial_members (run : MsRun m h L r) (fits : ∀ f ∈ (h.record r).fields, FitsType m h L f) {rs : List Range}
    (serial : Serial rs ((msHead m h r run.afterBases).1 * 8)) :
    Serial (rs ++ ((h.record r).fields.zip run.fields).map fun (f, p) => msFieldBits m h L f p.offset p.bitOffset)
      (run.afterFields.close.cur * 8) := by
  have whole : ((h.record r).fields.zip run.fields).map (fun (f, p) => msFieldBits m h L f p.offset p.bitOffset) =
      ((h.record r).fields.zip run.fields).map fun (f, p) => msValueBits m h L f p.offset p.bitOffset := by
    apply List.map_congr_left
    rintro ⟨f, p⟩ mem
    have hf := (List.of_mem_zip mem).1
    obtain ⟨_, _, _, step⟩ := thread_step run.members hf
    obtain ⟨fs, ta, size, align⟩ := placeMsField_sized step
    simp only [msFieldBits, msValueBits]
    split
    · rename_i bit
      split
      · rfl
      · rename_i named
        rw [size, Option.getD_some, Nat.min_eq_left (fits f hf bit named fs size)]
    · rfl
  rw [whole]
  exact run.serial_values serial

/-- The bytes of a member that is not a bit-field. -/
def msFieldPart (m : Model) (h : Hierarchy) (L : Layouts) (f : Field) (off : Nat) : Range :=
  ⟨off, if f.bitField then 0 else (sizeof m h L f.type).getD 0⟩

/-- Whatever the bit-fields do, the other members lie one after the other. -/
theorem MsRun.serial_fields (run : MsRun m h L r) {rs : List Range} (serial : Serial rs (msHead m h r run.afterBases).1) :
    Serial (rs ++ ((h.record r).fields.zip run.fields).map fun (f, p) => msFieldPart m h L f p.offset)
      run.afterFields.close.cur := by
  have history := thread_history
    (P := fun done s => Serial (rs ++ done.map fun (f, p) => msFieldPart m h L f p.offset) s.close.cur)
    run.members [] (by simpa [MsFields.close] using serial) (by
      rintro done f hf s p s' serial step
      rw [List.map_append, ← List.append_assoc, List.map_singleton]
      obtain ⟨fs, ta, size, align⟩ := placeMsField_sized step
      have placed := placeMsField_some size align step
      have grown := placed.close_le
      have rounded := le_roundUp s.close.cur (fieldAlign (h.record r) f ta)
      have bitField : f.bitField = true → Serial (rs ++ done.map (fun (f, p) => msFieldPart m h L f p.offset) ++
          [msFieldPart m h L f p.offset]) s'.close.cur :=
        fun bit => serial.snoc grown (.inl (by simp [msFieldPart, bit])) (.inl (by simp [msFieldPart, bit]))
      rcases placed with ⟨bit, -⟩ | ⟨bit, -⟩ | ⟨fs', kind, rfl, cur, unit, -⟩
      · exact bitField bit
      · exact bitField bit
      · rcases kind with ⟨bit, -⟩ | ⟨plain, rfl⟩
        · exact bitField bit
        · have after : s'.close.cur = roundUp s.close.cur (fieldAlign (h.record r) f ta) + fs' := by
            rw [MsFields.close, unit, cur]
          refine serial.snoc grown (.inr ?_) (.inr ?_)
          · simp only [msFieldPart]
            omega
          · simp [msFieldPart, plain, size, after])
  simpa using history

/-- The `i`th member as the run placed it. -/
def MsRun.placedAt (run : MsRun m h L r) (i : Nat) : MsPlaced := run.fields.getD i ⟨0, 0, 0⟩

theorem MsRun.fieldOffsets_getD (run : MsRun m h L r) (i : Nat) :
    run.info.fieldOffsets.getD i 0 = (run.placedAt i).offset :=
  List.getD_map run.fields (⟨0, 0, 0⟩ : MsPlaced) MsPlaced.offset

theorem MsRun.bitOffsets_getD (run : MsRun m h L r) (i : Nat) :
    run.info.bitOffsets.getD i 0 = ((run.placedAt i).bitOffset : Int) :=
  List.getD_map run.fields (⟨0, 0, 0⟩ : MsPlaced) fun p => (p.bitOffset : Int)

theorem MsRun.bitUnits_getD (run : MsRun m h L r) (i : Nat) : run.info.bitUnits.getD i 0 = (run.placedAt i).bitUnit :=
  List.getD_map run.fields (⟨0, 0, 0⟩ : MsPlaced) MsPlaced.bitUnit

theorem MsRun.placedAt_mem (run : MsRun m h L r) {i : Nat} {f : Field} (hf : (h.record r).fields[i]? = some f) :
    (f, run.placedAt i) ∈ (h.record r).fields.zip run.fields :=
  mem_zip_of_getElem? _ hf (thread_length run.members)

/-! ### Virtual bases -/

theorem placeMsVBase_le (s : MsVBases) (v : Nat) :
    s.cur ≤ (placeMsVBase h L s v).cur ∧ s.align ≤ (placeMsVBase h L s v).align := by
  unfold placeMsVBase
  split
  · exact ⟨Nat.le_refl _, Nat.le_refl _⟩
  · rename_i bi known
    have := le_roundUp s.cur (layoutNonVirtual bi).2
    simp only [raiseTo_eq]
    omega

theorem msVBasesEnd_le (r cur align : Nat) :
    cur ≤ (msVBasesEnd h L r cur align).cur ∧ align ≤ (msVBasesEnd h L r cur align).align := by
  unfold msVBasesEnd
  split
  · exact ⟨Nat.le_refl _, Nat.le_refl _⟩
  · have start := le_roundUp cur align
    have kept := List.foldlRecOn (motive := fun s => cur ≤ s.cur ∧ align ≤ s.align) (virtualBases h r) (placeMsVBase h L)
      (b := { cur := roundUp cur align, align }) ⟨start, Nat.le_refl _⟩ (by
        intro s old v _
        have := placeMsVBase_le (h := h) (L := L) s v
        omega)
    exact kept

/-- The members end inside the class. -/
theorem MsRun.cur_le_size (run : MsRun m h L r) : run.afterFields.close.cur ≤ run.info.size := by
  have vbases := (msVBasesEnd_le (h := h) (L := L) r run.afterFields.close.cur
    (raiseTo run.afterFields.close.align (h.record r).align)).1
  exact Nat.le_trans vbases (Nat.le_trans (le_roundUp _ _) (le_atLeastOne _))

end Vcx.Types
