import Mathlib.Data.List.Basic

/-!
# The best of a sequence

A running best over `v 0, v 1, …`, under a relation `beats` of which nothing is known, and
the check that it beats all others. What comes out is the one entry that beats every other and
that no later entry beats.
-/

namespace Vcx.Lib
set_option autoImplicit false

variable {α : Type} (beats : α → α → Bool) (v : Nat → α)

/-- The running best after entry `k`. -/
def runningBest : Nat → Nat
  | 0 => 0
  | k + 1 => if beats (v (k + 1)) (v (runningBest k)) then k + 1 else runningBest k

/-- Entry `c` beats the other entries below `n`. -/
def BeatsAll (n c : Nat) : Prop := ∀ i < n, i ≠ c → beats (v c) (v i) = true

/-- No entry after `c` beats it. -/
def StaysBest (n c : Nat) : Prop := ∀ i < n, c < i → beats (v i) (v c) = false

attribute [local simp] runningBest

theorem runningBest_le (k : Nat) : runningBest beats v k ≤ k := by
  induction k with
  | zero => exact Nat.le_refl 0
  | succ k ih =>
    rw [runningBest]
    split <;> omega

/-- The running best was not beaten since. -/
theorem runningBest_stays (k : Nat) : StaysBest beats v (k + 1) (runningBest beats v k) := by
  induction k with
  | zero =>
    intro i below after
    simp only [runningBest] at after
    omega
  | succ k ih =>
    intro i below after
    rw [runningBest] at after ⊢
    split at after
    · omega
    · rename_i kept
      rw [if_neg kept]
      rcases Nat.lt_succ_iff_lt_or_eq.1 below with earlier | rfl
      · exact ih i earlier after
      · simpa using kept

/-- An entry that beats all others becomes the running best and stays it if nothing later
beats it. -/
theorem runningBest_of_beatsAll {k c : Nat} (le : c ≤ k) (all : BeatsAll beats v (k + 1) c)
    (stays : StaysBest beats v (k + 1) c) : runningBest beats v k = c := by
  induction k with
  | zero =>
    rw [runningBest]
    omega
  | succ k ih =>
    rw [runningBest]
    rcases Nat.lt_or_ge c (k + 1) with earlier | last
    · rw [ih (by omega) (fun i hi => all i (by omega)) (fun i hi => stays i (by omega))]
      rw [if_neg (by simp [stays (k + 1) (by omega) earlier])]
    · obtain rfl : c = k + 1 := by omega
      have below := runningBest_le beats v k
      rw [if_pos (all _ (by omega) (by omega))]

end Vcx.Lib
