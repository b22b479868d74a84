/-!
# Binary search

`sort.Search`: the search in `[0, n)` for the first index at which a predicate holds that, once
it holds, goes on holding.
-/

namespace Vcx.Lib
set_option autoImplicit false

/-- The loop of `Search`, between `i` and `j`. -/
def searchBetween (p : Nat → Bool) (i j : Nat) : Nat :=
  if i < j then
    if p ((i + j) / 2) then searchBetween p i ((i + j) / 2) else searchBetween p ((i + j) / 2 + 1) j
  else i
termination_by j - i
decreasing_by all_goals omega

/-- `Search`. -/
def search (n : Nat) (p : Nat → Bool) : Nat := searchBetween p 0 n

/-- Below a bound, the predicate holds from some index on. -/
def HoldsOn (n : Nat) (p : Nat → Bool) : Prop := ∀ i j, i ≤ j → j < n → p i = true → p j = true

variable {n : Nat} {p : Nat → Bool}

theorem searchBetween_spec (holdsOn : HoldsOn n p) (i j : Nat) (le : i ≤ j) (bound : j ≤ n)
    (before : ∀ k < i, p k = false) :
    i ≤ searchBetween p i j ∧ searchBetween p i j ≤ j ∧ (∀ k < searchBetween p i j, p k = false) ∧
      (searchBetween p i j < j → p (searchBetween p i j) = true) := by
  fun_induction searchBetween p i j with
  | case1 i j lt here ih =>
    obtain ⟨low, high, none, found⟩ := ih (by omega) (by omega) before
    refine ⟨low, by omega, none, fun within => ?_⟩
    by_cases same : searchBetween p i ((i + j) / 2) = (i + j) / 2
    · rw [same]
      exact here
    · exact found (by omega)
  | case2 i j lt there ih =>
    have passed : ∀ k < (i + j) / 2 + 1, p k = false := by
      intro k below
      cases holds : p k with
      | false => rfl
      | true => exact absurd (holdsOn k _ (by omega) (by omega) holds) there
    obtain ⟨low, high, none, found⟩ := ih (by omega) bound passed
    exact ⟨by omega, high, none, found⟩
  | case3 i j stop => exact ⟨Nat.le_refl _, le, before, fun within => absurd within stop⟩

/-- **The result is the first index that satisfies the predicate**, or `n`. -/
theorem search_eq_iff (holdsOn : HoldsOn n p) {m : Nat} :
    search n p = m ↔ m ≤ n ∧ (∀ k < m, p k = false) ∧ (m < n → p m = true) := by
  obtain ⟨-, le, none, found⟩ := searchBetween_spec holdsOn 0 n (Nat.zero_le n) (Nat.le_refl n) (by simp)
  unfold search
  constructor
  · rintro rfl
    exact ⟨le, none, found⟩
  · rintro ⟨le', none', found'⟩
    apply Nat.le_antisymm
    · apply Nat.le_of_not_lt
      intro lt
      have holds := found' (by omega)
      rw [none m lt] at holds
      cases holds
    · apply Nat.le_of_not_lt
      intro lt
      have holds := found (by omega)
      rw [none' _ lt] at holds
      cases holds

end Vcx.Lib
