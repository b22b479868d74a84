import Mathlib.Logic.Function.Iterate

/-!
# Unbounded search loops

`for cond s { s = next s }` has no bound of its own. `loop cond next n s` runs it for at
most `n` rounds; `Stops` says that some number of rounds ends it. A loop that is still
running after `n` rounds never ends once `n` rounds are known to be enough whenever any
number is (`loop_eq_none_iff`).
-/

namespace Vcx.Lib
set_option autoImplicit false

variable {σ : Type}

/-- The loop, cut off after `n` rounds. -/
def loop (cond : σ → Bool) (next : σ → σ) : Nat → σ → Option σ
  | 0, s => if cond s then none else some s
  | n + 1, s => if cond s then loop cond next n (next s) else some s

/-- Some number of rounds reaches a state where the condition fails. -/
def Stops (cond : σ → Bool) (next : σ → σ) (s : σ) : Prop :=
  ∃ n, cond (next^[n] s) = false

variable {cond : σ → Bool} {next : σ → σ}

/-- What a loop answers is a state of the run where the condition fails. -/
theorem loop_spec {n : Nat} {s t : σ} (h : loop cond next n s = some t) :
    cond t = false ∧ ∃ k ≤ n, t = next^[k] s ∧ ∀ j < k, cond (next^[j] s) = true := by
  induction n generalizing s with
  | zero =>
    simp only [loop] at h
    split at h
    · cases h
    · rename_i stop
      cases h
      exact ⟨by simpa using stop, 0, Nat.le_refl 0, rfl, by omega⟩
  | succ n ih =>
    simp only [loop] at h
    split at h
    · rename_i go
      obtain ⟨stop, k, le, rfl, before⟩ := ih h
      refine ⟨stop, k + 1, by omega, rfl, ?_⟩
      intro j lt
      cases j with
      | zero => exact go
      | succ j => exact before j (by omega)
    · rename_i stop
      cases h
      exact ⟨by simpa using stop, 0, by omega, rfl, by omega⟩

/-- A loop that ends within `n` rounds answers when it is allowed `n`. -/
theorem loop_of_stop {n k : Nat} {s : σ} (le : k ≤ n) (stop : cond (next^[k] s) = false) :
    ∃ t, loop cond next n s = some t := by
  induction n generalizing s k with
  | zero =>
    obtain rfl : k = 0 := by omega
    exact ⟨s, by simpa [loop] using stop⟩
  | succ n ih =>
    by_cases go : cond s = true
    · cases k with
      | zero => simp [go] at stop
      | succ k =>
        obtain ⟨t, run⟩ := ih (s := next s) (k := k) (by omega) stop
        exact ⟨t, by simp [loop, go, run]⟩
    · exact ⟨s, by simp [loop, go]⟩

/-- Where `n` rounds are enough, being cut off is not stopping at all. -/
theorem loop_eq_none_iff {n : Nat} {s : σ}
    (enough : Stops cond next s → ∃ k ≤ n, cond (next^[k] s) = false) :
    loop cond next n s = none ↔ ¬ Stops cond next s := by
  constructor
  · intro cut stops
    obtain ⟨k, le, stop⟩ := enough stops
    obtain ⟨t, run⟩ := loop_of_stop le stop
    rw [run] at cut
    cases cut
  · intro never
    cases run : loop cond next n s with
    | none => rfl
    | some t =>
      obtain ⟨stop, k, -, rfl, -⟩ := loop_spec run
      exact absurd ⟨k, stop⟩ never

end Vcx.Lib
