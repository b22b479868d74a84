import Vcx.Types.Itanium.Search

/-!
# What one placement does

One description for each step of the layout: `BasePlaced` for a base, `BitFieldPlaced`,
`EmptyMemberPlaced` and `MemberPlaced` for a member. Invariants are proved from these and
never unfold the layout functions.
-/

namespace Vcx.Types
set_option autoImplicit false
open Vcx.Lib

section Cursor

variable (m : Model) (h : Hierarchy) (L : Layouts) (c : Cursor) (n : Nat)

@[simp] theorem Cursor.grow_align : (c.grow n).align = c.align := rfl
@[simp] theorem Cursor.grow_dsize : (c.grow n).dsize = c.dsize := rfl
@[simp] theorem Cursor.grow_empties : (c.grow n).empties = c.empties := rfl
@[simp] theorem Cursor.grow_size : (c.grow n).size = max c.size n := by
  simp only [Cursor.grow]
  split <;> omega

@[simp] theorem Cursor.raise_dsize : (c.raise n).dsize = c.dsize := rfl
@[simp] theorem Cursor.raise_empties : (c.raise n).empties = c.empties := rfl
@[simp] theorem Cursor.raise_size : (c.raise n).size = c.size := rfl
@[simp] theorem Cursor.raise_align : (c.raise n).align = max c.align n := by
  simp only [Cursor.raise]
  split <;> omega

@[simp] theorem Cursor.fill_align : (c.fill n).align = c.align := rfl
@[simp] theorem Cursor.fill_dsize : (c.fill n).dsize = n := rfl
@[simp] theorem Cursor.fill_empties : (c.fill n).empties = c.empties := rfl
@[simp] theorem Cursor.fill_size : (c.fill n).size = max c.size n := c.grow_size n

variable (r start : Nat) (asBase : Bool)

@[simp] theorem Cursor.record_align : (c.record m h L r start asBase).align = c.align := rfl
@[simp] theorem Cursor.record_dsize : (c.record m h L r start asBase).dsize = c.dsize := rfl
@[simp] theorem Cursor.record_size : (c.record m h L r start asBase).size = c.size := rfl
@[simp] theorem Cursor.record_empties :
    (c.record m h L r start asBase).empties = c.empties ++ eachEmpty m h L r start asBase := rfl

@[simp] theorem headCursor_align (rec_ : Record) : (headCursor rec_).align = max rec_.align 1 := by
  simp only [headCursor]
  split <;> omega
@[simp] theorem headCursor_dsize (rec_ : Record) : (headCursor rec_).dsize = 0 := rfl
@[simp] theorem headCursor_size (rec_ : Record) : (headCursor rec_).size = 0 := rfl
@[simp] theorem headCursor_empties (rec_ : Record) : (headCursor rec_).empties = [] := rfl

end Cursor

/-- How many bytes a class adds to the object it is a base of: an empty one keeps its size
in reserve, without data. -/
def RecordInfo.reserve (bi : RecordInfo) (empty : Bool) : Nat := if empty then bi.size else bi.nvsize

/-- `br` was placed at `off` as a base, which took the layout from `c` to `c'`. -/
structure BasePlaced (m : Model) (h : Hierarchy) (L : Layouts) (br : Nat) (bi : RecordInfo) (first : Bool)
    (c : Cursor) (off : Nat) (c' : Cursor) : Prop where
  align : c'.align = max c.align bi.nvalign
  empties : c'.empties = c.empties ++ eachEmpty m h L br off true
  dsize : c'.dsize = if itaniumEmpty h br then c.dsize else off + bi.nvsize
  size : c'.size = max c.size (off + bi.reserve (itaniumEmpty h br))
  after : first = false → itaniumEmpty h br = false → c.dsize ≤ off
  aligned : itaniumEmpty h br = false → bi.nvalign ∣ off
  free : first = false ∨ c.empties = [] → ∀ e ∈ eachEmpty m h L br off true, e ∉ c.empties
  atStart : first = true → c.empties = [] → off = 0
  noData : itaniumEmpty h br = true → c.dsize = 0 → off = 0

/-- `f`, a bit-field of a type of size `fs`, was placed as `p`. -/
structure BitFieldPlaced (f : Field) (fs fa : Nat) (s : Nat × Cursor) (p : Placed) (s' : Nat × Cursor) : Prop where
  offset : p.offset = bitUnitStart (bitStart s.1 f.width (fs * 8) (fa * 8)) f.width (fs * 8) (fa * 8)
  bitOffset : p.bitOffset = (bitStart s.1 f.width (fs * 8) (fa * 8) : Int) - p.offset * 8
  bitUnit : p.bitUnit = fs
  bits : s'.1 = bitStart s.1 f.width (fs * 8) (fa * 8) + f.width
  dsize : s'.2.dsize = (s'.1 + 7) / 8
  size : s'.2.size = max s.2.size ((s'.1 + 7) / 8)
  align : s'.2.align = if f.name = "" then s.2.align else max s.2.align fa
  empties : s'.2.empties = s.2.empties

/-- A `[[no_unique_address]]` member of the empty class `fr` was placed as `p`. -/
structure EmptyMemberPlaced (m : Model) (h : Hierarchy) (L : Layouts) (fr fs fa : Nat) (s : Nat × Cursor)
    (p : Placed) (s' : Nat × Cursor) : Prop where
  bits : s'.1 = s.1
  dsize : s'.2.dsize = s.2.dsize
  size : s'.2.size = max s.2.size (p.offset + fs)
  align : s'.2.align = max s.2.align fa
  empties : s'.2.empties = s.2.empties ++ eachEmpty m h L fr p.offset false
  free : ∀ e ∈ eachEmpty m h L fr p.offset false, e ∉ s.2.empties
  aligned : fa ∣ p.offset

/-- The empties a member of type `t` at `off` adds to the record. -/
def memberEmpties (m : Model) (h : Hierarchy) (L : Layouts) (t : Ty) (off : Nat) : List (Nat × Nat) :=
  match t.asRecord with
  | none => []
  | some fr => eachEmpty m h L fr off false

/-- A member of type `t` and size `fs` was placed as `p`. -/
structure MemberPlaced (m : Model) (h : Hierarchy) (L : Layouts) (t : Ty) (fs fa : Nat) (s : Nat × Cursor)
    (p : Placed) (s' : Nat × Cursor) : Prop where
  after : s.1 ≤ p.offset * 8
  bits : s'.1 = (p.offset + fs) * 8
  dsize : s'.2.dsize = p.offset + fs
  size : s'.2.size = max s.2.size (p.offset + fs)
  align : s'.2.align = max s.2.align fa
  empties : s'.2.empties = s.2.empties ++ memberEmpties m h L t p.offset
  free : ∀ fr, t.recordElem = some fr → ∀ e ∈ eachEmpty m h L fr p.offset false, e ∉ s.2.empties
  aligned : fa ∣ p.offset

/-- The three ways a member is placed. -/
inductive FieldPlaced (m : Model) (h : Hierarchy) (L : Layouts) (f : Field) (fs fa : Nat) (s : Nat × Cursor)
    (p : Placed) (s' : Nat × Cursor) : Prop
  | bitField (bit : f.bitField = true) (placed : BitFieldPlaced f fs fa s p s')
  | empty (fr : Nat) (plain : f.bitField = false) (empty : emptyMember h f = some fr)
    (placed : EmptyMemberPlaced m h L fr fs fa s p s')
  | member (plain : f.bitField = false) (data : emptyMember h f = none)
    (placed : MemberPlaced m h L f.type fs fa s p s')

variable {m : Model} {h : Hierarchy} {L : Layouts}

/-- A bit-field starts where the data ends or later. -/
theorem le_bitStart (bits width unitBits alignBits : Nat) : bits ≤ bitStart bits width unitBits alignBits := by
  unfold bitStart
  split
  · exact le_roundUp _ _
  split
  · exact le_roundUp _ _
  · exact Nat.le_refl _

theorem freeOffset_of_nil {c : Cursor} {r start a off : Nat} {asBase : Bool} (none : c.empties = [])
    (run : freeOffset m h L c r start a asBase = some off) : off = start := by
  have free : conflicts m h L c.empties r start asBase = false := by
    rw [none, conflicts_eq_false]
    simp
  rw [freeOffset, horizon, loop, free] at run
  simpa using run.symm

theorem dvd_of_dvd_sub_roundUp {a n off : Nat} (pos : 0 < a) (le : roundUp n a ≤ off)
    (dvd : a ∣ off - roundUp n a) : a ∣ off := by
  have := Nat.dvd_add dvd (dvd_roundUp (n := n) pos)
  rwa [Nat.sub_add_cancel le] at this

/-- **What `placeBase` does.** -/
theorem placeBase_some {br : Nat} {first : Bool} {c c' : Cursor} {off : Nat} {bi : RecordInfo}
    (known : L br = some bi) (pos : 0 < bi.nvalign) (run : placeBase m h L br first c = some (off, c')) :
    BasePlaced m h L br bi first c off c' := by
  simp only [placeBase, known] at run
  split at run
  · rename_i empty
    obtain ⟨off', found, eq⟩ := Option.map_eq_some_iff.1 run
    obtain ⟨rfl, rfl⟩ := Prod.mk.inj eq
    have free : first = false ∨ c.empties = [] → ∀ e ∈ eachEmpty m h L br off' true, e ∉ c.empties := by
      rintro (rfl | none)
      · rw [if_neg (by simp)] at found
        exact conflicts_eq_false.1 (emptyBaseOffset_some found).2
      · simp [none]
    have place : (first = true → c.empties = [] → off' = 0) ∧ (c.dsize = 0 → off' = 0) := by
      cases first with
      | true => simp_all
      | false =>
        refine ⟨by simp, ?_⟩
        intro none
        rcases Nat.eq_zero_or_pos off' with zero | data
        · exact zero
        · -- without data the loop never leaves offset zero
          rw [if_neg (by simp), emptyBaseOffset_eq] at found
          obtain ⟨-, k, -, eq, -⟩ := loop_spec found
          rw [Cursor.raise_dsize, none, iterate_nextEmptyOffset_zero] at eq
          exact eq
    exact ⟨by simp, by simp, by simp [empty], by simp [empty, RecordInfo.reserve], by simp [empty], by simp [empty],
      free, place.1, fun _ => place.2⟩
  · rename_i data
    obtain ⟨off', found, eq⟩ := Option.map_eq_some_iff.1 run
    obtain ⟨rfl, rfl⟩ := Prod.mk.inj eq
    obtain ⟨le, dvd, free⟩ := freeOffset_some pos found
    have rounded := le_roundUp c.dsize bi.nvalign
    refine ⟨by simp, by simp, by simp [data], by simp [data, RecordInfo.reserve], ?_, ?_, ?_, ?_, ?_⟩
    · rintro rfl -
      simp only [Bool.false_eq_true, if_false, Cursor.raise_dsize] at le
      omega
    · intro _
      cases first with
      | true => simpa using dvd
      | false =>
        simp only [Bool.false_eq_true, if_false, Cursor.raise_dsize] at le dvd
        exact dvd_of_dvd_sub_roundUp pos le dvd
    · intro _
      exact conflicts_eq_false.1 free
    · rintro rfl none
      exact freeOffset_of_nil none found
    · intro empty
      exact absurd empty data

theorem placeBase_none_iff {br : Nat} {first : Bool} {c : Cursor} {bi : RecordInfo} (known : L br = some bi)
    (pos : 0 < bi.nvalign) : placeBase m h L br first c = none ↔
      itaniumEmpty h br = true ∧ first = false ∧ c.dsize = 0 ∧ conflicts m h L c.empties br 0 true = true := by
  simp only [placeBase, known]
  split
  · rename_i empty
    rw [placeEmptyBase, Option.map_eq_none_iff]
    cases first with
    | true => simp
    | false =>
      rw [if_neg (by simp), emptyBaseOffset_none_iff _ _ _ pos]
      simp [empty]
  · rename_i data
    obtain ⟨off, run, -⟩ := freeOffset_spec (m := m) (h := h) (L := L) (c.raise bi.nvalign) br
      (if first then 0 else roundUp (c.raise bi.nvalign).dsize bi.nvalign) bi.nvalign true pos
    rw [placeDataBase, run]
    simp [data]

theorem placeBase_known {br : Nat} {first : Bool} {c c' : Cursor} {off : Nat}
    (run : placeBase m h L br first c = some (off, c')) : ∃ bi, L br = some bi := by
  unfold placeBase at run
  split at run
  · cases run
  · rename_i bi known
    exact ⟨bi, known⟩

/-- **What `placeField` does.** -/
theorem placeField_some {r : Record} {f : Field} {s s' : Nat × Cursor} {p : Placed} {fs ta : Nat}
    (size : sizeof m h L f.type = some fs) (align : alignof m h L f.type = some ta) (pos : 0 < ta)
    (run : placeField m h L r f s = some (p, s')) : FieldPlaced m h L f fs (fieldAlign r f ta) s p s' := by
  have fpos : 0 < fieldAlign r f ta := by
    unfold fieldAlign
    apply Record.memberAlign_pos
    split <;> omega
  have rounded := le_roundUp ((s.1 + 7) / 8) (fieldAlign r f ta)
  simp only [placeField, size, align] at run
  split at run
  · rename_i bit
    obtain ⟨rfl, rfl⟩ := Prod.mk.inj (Option.some.inj run)
    refine .bitField bit ⟨rfl, rfl, rfl, rfl, by simp, ?_, ?_, ?_⟩
    · by_cases unnamed : f.name = "" <;> simp [unnamed]
    · by_cases unnamed : f.name = "" <;> simp [unnamed]
    · by_cases unnamed : f.name = "" <;> simp [unnamed]
  · rename_i plain
    have plain' : f.bitField = false := by simpa using plain
    cases member : emptyMember h f with
    | some fr =>
      simp only [member] at run
      obtain ⟨off, found, eq⟩ := Option.map_eq_some_iff.1 run
      obtain ⟨rfl, rfl⟩ := Prod.mk.inj eq
      obtain ⟨le, dvd, free⟩ := freeOffset_some fpos found
      refine .empty fr plain' member ⟨rfl, by simp, by simp, by simp, by simp, ?_, ?_⟩
      · exact conflicts_eq_false.1 free
      · exact dvd_of_dvd_sub_roundUp fpos le dvd
    | none =>
      simp only [member] at run
      obtain ⟨off, found, eq⟩ := Option.map_eq_some_iff.1 run
      obtain ⟨rfl, rfl⟩ := Prod.mk.inj eq
      have place : roundUp ((s.1 + 7) / 8) (fieldAlign r f ta) ≤ off ∧ fieldAlign r f ta ∣ off ∧
          ∀ fr, f.type.recordElem = some fr → ∀ e ∈ eachEmpty m h L fr off false, e ∉ s.2.empties := by
        unfold memberOffset at found
        cases elem : f.type.recordElem with
        | none =>
          simp only [elem, Option.some.injEq] at found
          subst found
          exact ⟨Nat.le_refl _, dvd_roundUp fpos, by simp⟩
        | some fr =>
          simp only [elem] at found
          obtain ⟨le, dvd, free⟩ := freeOffset_some fpos found
          refine ⟨le, dvd_of_dvd_sub_roundUp fpos le dvd, ?_⟩
          intro fr' eq
          cases eq
          exact conflicts_eq_false.1 free
      have record : ∀ c : Cursor, (recordMember m h L f.type off c).align = c.align ∧
          (recordMember m h L f.type off c).size = c.size ∧
          (recordMember m h L f.type off c).empties = c.empties ++ memberEmpties m h L f.type off := by
        intro c
        unfold recordMember memberEmpties
        cases f.type.asRecord with
        | none => simp
        | some fr => simp
      obtain ⟨al, sz, em⟩ := record (s.2.raise (fieldAlign r f ta))
      refine .member plain' member ⟨?_, rfl, by simp, by simp [sz], by simp [al], by simp [em], ?_, ?_⟩
      · have := place.1
        simp only
        omega
      · exact place.2.2
      · exact place.2.1

/-- A member of a type with a size always finds a place. -/
theorem placeField_isSome {r : Record} {f : Field} {s : Nat × Cursor} {fs ta : Nat}
    (size : sizeof m h L f.type = some fs) (align : alignof m h L f.type = some ta) (pos : 0 < ta) :
    ∃ p s', placeField m h L r f s = some (p, s') := by
  have fpos : 0 < fieldAlign r f ta := by
    unfold fieldAlign
    apply Record.memberAlign_pos
    split <;> omega
  simp only [placeField, size, align]
  split
  · exact ⟨_, _, rfl⟩
  · cases emptyMember h f with
    | some fr =>
      obtain ⟨off, run, -⟩ := freeOffset_spec (m := m) (h := h) (L := L) (s.2.raise (fieldAlign r f ta)) fr
        (roundUp ((s.1 + 7) / 8) (fieldAlign r f ta)) (fieldAlign r f ta) false fpos
      simp [placeEmptyMember, run]
    | none =>
      cases elem : f.type.recordElem with
      | none => simp [placeMember, memberOffset, elem]
      | some fr =>
        obtain ⟨off, run, -⟩ := freeOffset_spec (m := m) (h := h) (L := L) (s.2.raise (fieldAlign r f ta)) fr
          (roundUp ((s.1 + 7) / 8) (fieldAlign r f ta)) (fieldAlign r f ta) false fpos
        simp [placeMember, memberOffset, elem, run]

theorem placeField_sized {r : Record} {f : Field} {s s' : Nat × Cursor} {p : Placed}
    (run : placeField m h L r f s = some (p, s')) :
    ∃ fs ta, sizeof m h L f.type = some fs ∧ alignof m h L f.type = some ta := by
  unfold placeField at run
  split at run
  · rename_i fs ta size align
    exact ⟨fs, ta, size, align⟩
  · cases run

end Vcx.Types
