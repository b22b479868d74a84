import Mathlib.Data.Finset.Basic
import Mathlib.Data.List.Sort

/-!
# Hide sets

`HideSet`: the macros a token may not be replaced by, as their IDs in ascending order. The nil
set is the empty one.
-/

namespace Vcx.Preprocessor
set_option autoImplicit false

/-- The search of `Has`: the IDs ascend, so it stops at the first larger one. -/
def hasId (id : Nat) : List Nat → Bool
  | [] => false
  | x :: xs => if x = id then true else if x > id then false else hasId id xs

/-- The loop of `Add`: `id` goes before the first larger one. -/
def insertId (id : Nat) : List Nat → List Nat
  | [] => [id]
  | x :: xs => if x > id then id :: x :: xs else x :: insertId id xs

theorem mem_insertId {id x : Nat} {ids : List Nat} : x ∈ insertId id ids ↔ x = id ∨ x ∈ ids := by
  induction ids with
  | nil => simp [insertId]
  | cons y ys ih =>
    rw [insertId]
    split
    · simp
    · simp only [List.mem_cons, ih]
      tauto

theorem hasId_iff {id : Nat} {ids : List Nat} (sorted : ids.Pairwise (· < ·)) :
    hasId id ids = true ↔ id ∈ ids := by
  induction ids with
  | nil => simp [hasId]
  | cons x xs ih =>
    obtain ⟨above, sorted'⟩ := List.pairwise_cons.1 sorted
    rw [hasId]
    split
    · simp_all
    · rename_i ne
      split
      · rename_i larger
        refine ⟨fun no => absurd no (by simp), fun mem => ?_⟩
        rcases List.mem_cons.1 mem with rfl | mem
        · exact absurd rfl ne
        · have := above id mem
          omega
      · rw [ih sorted', List.mem_cons]
        exact ⟨.inr, fun mem => mem.resolve_left fun eq => ne eq.symm⟩

theorem insertId_pairwise {id : Nat} {ids : List Nat} (sorted : ids.Pairwise (· < ·)) (fresh : id ∉ ids) :
    (insertId id ids).Pairwise (· < ·) := by
  induction ids with
  | nil => simp [insertId]
  | cons x xs ih =>
    obtain ⟨above, sorted'⟩ := List.pairwise_cons.1 sorted
    rw [insertId]
    split
    · rename_i larger
      refine List.pairwise_cons.2 ⟨fun y mem => ?_, sorted⟩
      rcases List.mem_cons.1 mem with rfl | mem
      · exact larger
      · have := above y mem
        omega
    · rename_i le
      simp only [List.mem_cons, not_or] at fresh
      refine List.pairwise_cons.2 ⟨fun y mem => ?_, ih sorted' fresh.2⟩
      rcases mem_insertId.1 mem with rfl | mem
      · omega
      · exact above y mem

/-- `HideSet`. -/
structure HideSet where
  ids : List Nat
  sorted : ids.Pairwise (· < ·)
  deriving DecidableEq

namespace HideSet

/-- The nil set. -/
def none : HideSet := ⟨[], List.Pairwise.nil⟩

/-- `Has`. -/
def has (h : HideSet) (id : Nat) : Bool := hasId id h.ids

theorem has_iff {h : HideSet} {id : Nat} : h.has id = true ↔ id ∈ h.ids := hasId_iff h.sorted

/-- `Add`. -/
def add (h : HideSet) (id : Nat) : HideSet :=
  if fresh : h.has id = true then h
  else ⟨insertId id h.ids, insertId_pairwise h.sorted fun mem => fresh (has_iff.2 mem)⟩

/-- `hsUnion`. -/
def union (a b : HideSet) : HideSet := b.ids.foldl add a

/-- `hsInter`. -/
def inter (a b : HideSet) : HideSet := ⟨a.ids.filter b.has, a.sorted.filter b.has⟩

/-- The set. -/
def toFinset (h : HideSet) : Finset Nat := h.ids.toFinset

theorem mem_toFinset {h : HideSet} {id : Nat} : id ∈ h.toFinset ↔ h.has id = true := by
  rw [toFinset, List.mem_toFinset, has_iff]

@[simp] theorem toFinset_add (h : HideSet) (id : Nat) : (h.add id).toFinset = insert id h.toFinset := by
  ext x
  unfold add
  split
  · rename_i mem
    rw [Finset.insert_eq_of_mem (mem_toFinset.2 mem)]
  · simp [toFinset, mem_insertId]

@[simp] theorem toFinset_inter (a b : HideSet) : (a.inter b).toFinset = a.toFinset ∩ b.toFinset := by
  ext x
  rw [Finset.mem_inter, mem_toFinset, mem_toFinset (h := b), has_iff, toFinset, List.mem_toFinset, inter,
    List.mem_filter]

theorem toFinset_foldl_add (ids : List Nat) (a : HideSet) :
    (ids.foldl add a).toFinset = a.toFinset ∪ ids.toFinset := by
  induction ids generalizing a with
  | nil => simp
  | cons id ids ih =>
    rw [List.foldl_cons, ih, toFinset_add, List.toFinset_cons]
    ext x
    simp only [Finset.mem_union, Finset.mem_insert]
    tauto

@[simp] theorem toFinset_union (a b : HideSet) : (a.union b).toFinset = a.toFinset ∪ b.toFinset :=
  toFinset_foldl_add b.ids a

end HideSet
end Vcx.Preprocessor
