import Mathlib.Data.List.Nodup
import Vcx.Types.Dynamic

/-!
# Empty classes and virtual bases

`itaniumEmpty` is the ABI's empty class. `itaniumVBases` lists the virtual bases of a
class in inheritance graph order, each at its first appearance.
-/

namespace Vcx.Types
set_option autoImplicit false
open Vcx.Lib

/-- One class of `itaniumEmpty`. -/
def itaniumEmptyBody (h : Hierarchy) (self : Nat → Bool) (r : Nat) : Bool :=
  if (h.record r).tag = .union then (h.record r).fields.isEmpty
  else (h.record r).fields.all (fun f => f.bitField && f.width == 0) && !isDynamic h r &&
    (h.record r).bases.all fun b => match b.cls with
      | none => false
      | some c => self c

/-- No data but zero-width bit-fields, nothing virtual, only empty bases. -/
def itaniumEmpty (h : Hierarchy) : Nat → Bool := fix (itaniumEmptyBody h) false

/-- The loop of `itaniumVBases` over one class's bases; a class is seen when it is out. -/
def vbasesWalk (self : Nat → List Nat → List Nat) : List BaseSpec → List Nat → List Nat
  | [], out => out
  | b :: bs, out => match b.cls with
    | none => vbasesWalk self bs out
    | some c => vbasesWalk self bs (self c (if b.virtual && !out.contains c then out ++ [c] else out))

/-- The walk from one class. -/
def vbasesFrom (h : Hierarchy) : Nat → List Nat → List Nat :=
  fix (fun self r out => vbasesWalk self (h.record r).bases out) fun out => out

/-- Every virtual base, depth first, left to right, a base before its own bases. -/
def itaniumVBases (h : Hierarchy) (r : Nat) : List Nat := vbasesFrom h r []

variable {h : Hierarchy}

theorem itaniumEmpty_eq (r : Nat) : itaniumEmpty h r = itaniumEmptyBody h (itaniumEmpty h) r := by
  apply fix_unfold
  intro f g agree
  unfold itaniumEmptyBody
  split
  · rfl
  · congr 1
    apply all_congr_mem
    intro b hb
    cases hc : b.cls with
    | none => rfl
    | some c => exact agree c (h.base_lt r b hb c hc)

theorem itaniumEmpty_struct {r : Nat} (struct : (h.record r).tag ≠ .union) (empty : itaniumEmpty h r = true) :
    (∀ f ∈ (h.record r).fields, f.bitField = true ∧ f.width = 0) ∧ isDynamic h r = false ∧
      (∀ b ∈ (h.record r).bases, ∃ c, b.cls = some c ∧ itaniumEmpty h c = true) := by
  rw [itaniumEmpty_eq, itaniumEmptyBody, if_neg struct] at empty
  simp only [Bool.and_eq_true, List.all_eq_true, Bool.not_eq_true', beq_iff_eq] at empty
  refine ⟨empty.1.1, empty.1.2, ?_⟩
  intro b hb
  have := empty.2 b hb
  cases hc : b.cls with
  | none => simp [hc] at this
  | some c => exact ⟨c, rfl, by simpa [hc] using this⟩

/-- What a walk from `c` does to the list. -/
structure Walked (new : Nat → Prop) (run : List Nat → List Nat) : Prop where
  mem : ∀ out v, v ∈ run out ↔ v ∈ out ∨ new v
  nodup : ∀ out, out.Nodup → (run out).Nodup

theorem vbasesWalk_walked {self : Nat → List Nat → List Nat} {bs : List BaseSpec}
    (spec : ∀ b ∈ bs, ∀ c, b.cls = some c → Walked (h.VBase c) (self c)) :
    Walked (fun v => ∃ b ∈ bs, ∃ c, b.cls = some c ∧ (b.virtual = true ∧ v = c ∨ h.VBase c v))
      (vbasesWalk self bs) := by
  induction bs with
  | nil => exact ⟨by simp [vbasesWalk], by simp [vbasesWalk]⟩
  | cons b bs ih =>
    have rest := ih fun b' hb' => spec b' (List.mem_cons_of_mem b hb')
    cases hc : b.cls with
    | none =>
      refine ⟨?_, ?_⟩
      · intro out v
        simp [vbasesWalk, hc, rest.mem]
      · intro out nodup
        simpa [vbasesWalk, hc] using rest.nodup out nodup
    | some c =>
      have first := spec b List.mem_cons_self c hc
      refine ⟨?_, ?_⟩
      · intro out v
        simp only [vbasesWalk, hc, rest.mem, first.mem, List.mem_cons, exists_eq_or_imp]
        by_cases add : (b.virtual && !out.contains c) = true
        · rw [if_pos add]
          simp only [Bool.and_eq_true] at add
          simp [add.1, or_assoc]
        · rw [if_neg add]
          simp only [Bool.and_eq_true, Bool.not_eq_true', List.contains_eq_mem,
            decide_eq_false_iff_not, not_and, not_not] at add
          constructor
          · rintro ((old | below) | later)
            · exact .inl old
            · exact .inr (.inl ⟨c, rfl, .inr below⟩)
            · exact .inr (.inr later)
          · rintro (old | ⟨c', eq, ⟨virt, rfl⟩ | below⟩ | later)
            · exact .inl (.inl old)
            · cases eq
              exact .inl (.inl (add virt))
            · cases eq
              exact .inl (.inr below)
            · exact .inr later
      · intro out nodup
        simp only [vbasesWalk, hc]
        apply rest.nodup
        apply first.nodup
        split
        · rename_i add
          simp only [Bool.and_eq_true, Bool.not_eq_true', List.contains_eq_mem,
            decide_eq_false_iff_not] at add
          exact List.Nodup.append nodup (List.nodup_singleton c) (by simpa using add.2)
        · exact nodup

/-- Peeling one level off the virtual bases of a class. -/
theorem vbase_iff_bases {r v : Nat} : h.VBase r v ↔
    ∃ b ∈ (h.record r).bases, ∃ c, b.cls = some c ∧ (b.virtual = true ∧ v = c ∨ h.VBase c v) := by
  constructor
  · rintro ⟨d, path, b, hb, virt, hc⟩
    rcases Hierarchy.Derives.cases_base path with rfl | ⟨e, ⟨b', hb', hc'⟩, rest⟩
    · exact ⟨b, hb, v, hc, .inl ⟨virt, rfl⟩⟩
    · exact ⟨b', hb', e, hc', .inr ⟨d, rest, b, hb, virt, hc⟩⟩
  · rintro ⟨b, hb, c, hc, ⟨virt, rfl⟩ | ⟨d, path, below⟩⟩
    · exact ⟨r, .refl, b, hb, virt, hc⟩
    · exact ⟨d, .head ⟨b, hb, hc⟩ path, below⟩

theorem Hierarchy.VBase.struct {r v : Nat} (vbase : h.VBase r v) : (h.record r).tag ≠ .union := by
  obtain ⟨b, hb, -⟩ := vbase_iff_bases.1 vbase
  exact h.struct_of_base hb

theorem vbasesFrom_walked (r : Nat) : Walked (h.VBase r) (vbasesFrom h r) := by
  induction r using Nat.strongRecOn with
  | ind r ih =>
    have spec : ∀ b ∈ (h.record r).bases, ∀ c, b.cls = some c →
        Walked (h.VBase c) (below (vbasesFrom h) (fun out => out) r c) := by
      intro b hb c hc
      have lt := h.base_lt r b hb c hc
      rw [below_lt lt]
      exact ih c lt
    have walked := vbasesWalk_walked spec
    rw [vbasesFrom, fix_eq]
    refine ⟨?_, walked.nodup⟩
    intro out v
    exact (walked.mem out v).trans (or_congr_right vbase_iff_bases.symm)

theorem mem_itaniumVBases {r v : Nat} : v ∈ itaniumVBases h r ↔ h.VBase r v := by
  rw [itaniumVBases, (vbasesFrom_walked r).mem]
  simp

theorem itaniumVBases_nodup (r : Nat) : (itaniumVBases h r).Nodup :=
  (vbasesFrom_walked r).nodup [] List.nodup_nil

theorem mem_itaniumVBases_direct {r c : Nat} {b : BaseSpec} (hb : b ∈ (h.record r).bases)
    (virt : b.virtual = true) (hc : b.cls = some c) : c ∈ itaniumVBases h r :=
  mem_itaniumVBases.2 ⟨r, .refl, b, hb, virt, hc⟩

/-- An empty class has no virtual bases. -/
theorem not_vbase_of_not_dynamic {r v : Nat} (static : isDynamic h r = false) : ¬ h.VBase r v := by
  intro e
  rw [isDynamic_of_vbase e] at static
  cases static

end Vcx.Types
