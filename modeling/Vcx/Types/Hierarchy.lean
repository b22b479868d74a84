import Mathlib.Logic.Relation
import Vcx.Lib.Numbered
import Vcx.Types.Type

/-!
# Class hierarchies

A hierarchy is what the record pointers point at. C++ requires a class to be complete
where it is named as a base or as the type of a member, so the records can be numbered in
the order their definitions ended, and both kinds of edge go to smaller numbers: that is
the acyclicity the structure carries. It carries the two rules the layout takes for granted
as well: a bit-field is of integral or enumeration type and not empty when it has a name,
and a union has no bases and is none.
-/

namespace Vcx.Types
set_option autoImplicit false
open Vcx.Lib

/-- The records of a program, acyclic along bases and members. -/
structure Hierarchy where
  record : Nat → Record
  base_lt : ∀ r, ∀ b ∈ (record r).bases, ∀ c, b.cls = some c → c < r
  member_lt : ∀ r, ∀ f ∈ (record r).fields, ∀ c, f.type.recordElem = some c → c < r
  bitField_integral : ∀ r, ∀ f ∈ (record r).fields, f.bitField = true → f.type.isIntegral = true
  bitField_named : ∀ r, ∀ f ∈ (record r).fields, f.bitField = true → f.name ≠ "" → 0 < f.width
  union_bases : ∀ r, (record r).tag = .union → (record r).bases = []
  union_base : ∀ r, ∀ b ∈ (record r).bases, ∀ c, b.cls = some c → (record c).tag ≠ .union

/-- The `i`th record of a list keeps the rules, its bases and members being before it. -/
def wellFormedAt (rs : List Record) (r : Record) (i : Nat) : Bool :=
  r.bases.all (fun b => b.cls.all fun c => c < i && (rs.getD c {}).tag != .union) &&
    r.fields.all (fun f => f.type.recordElem.all (· < i)) &&
    r.fields.all (fun f => !f.bitField || (f.type.isIntegral && (f.name == "" || 0 < f.width))) &&
    (r.tag != .union || r.bases.isEmpty)

def wellFormed (rs : List Record) : Bool :=
  rs.zipIdx.all fun (r, i) => wellFormedAt rs r i

theorem wellFormed_at {rs : List Record} (ok : wellFormed rs = true) (r : Nat) :
    wellFormedAt rs (rs.getD r {}) r = true := by
  by_cases lt : r < rs.length
  · simp only [wellFormed, List.all_eq_true] at ok
    rw [List.getD_eq_getElem _ _ lt]
    exact ok (rs[r], r) (List.mem_zipIdx_iff_getElem?.2 (by simp [lt]))
  · rw [List.getD_eq_default _ _ (by omega)]
    simp [wellFormedAt]

/-- The hierarchy whose records are listed; every other pointer is an empty struct. -/
def Hierarchy.ofRecords (rs : List Record) (ok : wellFormed rs = true) : Hierarchy where
  record r := rs.getD r {}
  base_lt r b hb c hc := by
    have := wellFormed_at ok r
    simp only [wellFormedAt, Bool.and_eq_true, List.all_eq_true] at this
    have := this.1.1.1 b hb
    simp only [hc, Option.all_some, Bool.and_eq_true, decide_eq_true_eq] at this
    exact this.1
  member_lt r f hf c hc := by
    have := wellFormed_at ok r
    simp only [wellFormedAt, Bool.and_eq_true, List.all_eq_true] at this
    simpa [hc] using this.1.1.2 f hf
  bitField_integral r f hf bit := by
    have := wellFormed_at ok r
    simp only [wellFormedAt, Bool.and_eq_true, List.all_eq_true] at this
    have := this.1.2 f hf
    simp only [bit, Bool.not_true, Bool.false_or, Bool.and_eq_true] at this
    exact this.1
  bitField_named r f hf bit named := by
    have := wellFormed_at ok r
    simp only [wellFormedAt, Bool.and_eq_true, List.all_eq_true] at this
    have := this.1.2 f hf
    simp only [bit, Bool.not_true, Bool.false_or, Bool.and_eq_true, Bool.or_eq_true, beq_iff_eq, named, false_or,
      decide_eq_true_eq] at this
    exact this.2
  union_bases r union := by
    have := wellFormed_at ok r
    simp only [wellFormedAt, union, Bool.and_eq_true] at this
    simpa using this.2
  union_base r b hb c hc := by
    have := wellFormed_at ok r
    simp only [wellFormedAt, Bool.and_eq_true, List.all_eq_true] at this
    have := this.1.1.1 b hb
    simp only [hc, Option.all_some, Bool.and_eq_true, bne_iff_ne] at this
    exact this.2

variable (h : Hierarchy)

/-- `c` is a direct base of `r`. -/
def Hierarchy.Base (r c : Nat) : Prop :=
  ∃ b ∈ (h.record r).bases, b.cls = some c

/-- `c` is `r` or a base of it, direct or indirect. -/
def Hierarchy.Derives : Nat → Nat → Prop :=
  Relation.ReflTransGen h.Base

/-- `c` is a direct base of `r`, or the class of one of its members. -/
def Hierarchy.Part (r c : Nat) : Prop :=
  h.Base r c ∨ ∃ f ∈ (h.record r).fields, f.type.recordElem = some c

/-- `c` is `r` or a subobject's class, at any depth of bases and members. -/
def Hierarchy.Contains : Nat → Nat → Prop :=
  Relation.ReflTransGen h.Part

/-- `v` is named as a virtual base by `r` or by a base of it. -/
def Hierarchy.VBase (r v : Nat) : Prop :=
  ∃ d, h.Derives r d ∧ ∃ b ∈ (h.record d).bases, b.virtual = true ∧ b.cls = some v

variable {h}

theorem Hierarchy.struct_of_base {r : Nat} {b : BaseSpec} (mem : b ∈ (h.record r).bases) : (h.record r).tag ≠ .union := by
  intro union
  rw [h.union_bases r union] at mem
  cases mem

theorem Hierarchy.Base.lt {r c : Nat} (e : h.Base r c) : c < r := by
  obtain ⟨b, hb, hc⟩ := e
  exact h.base_lt r b hb c hc

theorem Hierarchy.Part.lt {r c : Nat} (e : h.Part r c) : c < r := by
  rcases e with e | ⟨f, hf, hc⟩
  · exact e.lt
  · exact h.member_lt r f hf c hc

theorem Hierarchy.Derives.le {r c : Nat} (e : h.Derives r c) : c ≤ r := by
  induction e with
  | refl => exact Nat.le_refl r
  | tail _ step ih =>
    have := step.lt
    omega

theorem Hierarchy.Contains.le {r c : Nat} (e : h.Contains r c) : c ≤ r := by
  induction e with
  | refl => exact Nat.le_refl r
  | tail _ step ih =>
    have := step.lt
    omega

theorem Hierarchy.Derives.contains {r c : Nat} (e : h.Derives r c) : h.Contains r c :=
  Relation.ReflTransGen.mono (fun _ _ step => Or.inl step) r c e

/-- A proper base is reached through a direct one. -/
theorem Hierarchy.Derives.cases_base {r c : Nat} (e : h.Derives r c) :
    c = r ∨ ∃ d, h.Base r d ∧ h.Derives d c := by
  rcases Relation.ReflTransGen.cases_head e with rfl | ⟨d, step, rest⟩
  · exact .inl rfl
  · exact .inr ⟨d, step, rest⟩

theorem Hierarchy.VBase.derives {r v : Nat} (e : h.VBase r v) : h.Derives r v := by
  obtain ⟨d, path, b, hb, -, hc⟩ := e
  exact path.tail ⟨b, hb, hc⟩

theorem Hierarchy.VBase.lt {r v : Nat} (e : h.VBase r v) : v < r := by
  obtain ⟨d, path, b, hb, -, hc⟩ := e
  have := Hierarchy.Derives.le path
  have := Hierarchy.Base.lt ⟨b, hb, hc⟩
  omega

end Vcx.Types
