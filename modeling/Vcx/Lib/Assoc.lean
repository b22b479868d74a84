import Mathlib.Data.List.Basic

/-!
# Bindings

Association lists that only grow: a key that is bound keeps what it is bound to.
-/

namespace Vcx.Lib
set_option autoImplicit false

variable {κ α : Type} [BEq κ]

/-- What the first binds, the second binds to the same. -/
def Extends (b c : List (κ × α)) : Prop := ∀ k x, b.lookup k = some x → c.lookup k = some x

theorem Extends.refl (b : List (κ × α)) : Extends b b := fun _ _ bound => bound

theorem Extends.trans {b c d : List (κ × α)} (first : Extends b c) (second : Extends c d) : Extends b d :=
  fun k x bound => second k x (first k x bound)

/-- A key that is not bound can be. -/
theorem Extends.cons [LawfulBEq κ] {b : List (κ × α)} {k : κ} (none : b.lookup k = none) (x : α) : Extends b ((k, x) :: b) := by
  intro k' y bound
  rw [List.lookup_cons]
  by_cases same : k' = k
  · rw [same, none] at bound
    cases bound
  · rwa [beq_false_of_ne same]

/-- What holds of every key and what it is bound to. -/
def AllBound (p : κ → α → Prop) (b : List (κ × α)) : Prop := ∀ k x, b.lookup k = some x → p k x

theorem AllBound.nil (p : κ → α → Prop) : AllBound p ([] : List (κ × α)) := by
  intro k x bound
  cases bound

theorem AllBound.cons [LawfulBEq κ] {p : κ → α → Prop} {b : List (κ × α)} (all : AllBound p b) {k : κ} {x : α} (holds : p k x) :
    AllBound p ((k, x) :: b) := by
  intro k' y bound
  rw [List.lookup_cons] at bound
  split at bound
  · rename_i same
    cases bound
    rwa [beq_iff_eq.1 same]
  · exact all k' y bound

end Vcx.Lib
