import Mathlib.Algebra.Order.Group.Nat
import Mathlib.Tactic.Ring

/-!
# Rounding up and half-open ranges

`roundUp n a` is the least multiple of `a` that is at least `n`; rounding to zero leaves
the number alone. A `Range` is a run of bytes (or bits) `[lo, lo + len)`; an empty run is
apart from every other.
-/

namespace Vcx.Lib
set_option autoImplicit false

/-- The least multiple of `a` from `n` on. -/
def roundUp (n a : Nat) : Nat :=
  if a = 0 then n else (n + a - 1) / a * a

theorem le_roundUp (n a : Nat) : n ≤ roundUp n a := by
  unfold roundUp
  split
  · exact Nat.le_refl n
  · have h := Nat.div_add_mod (n + a - 1) a
    have lt := Nat.mod_lt (n + a - 1) (show 0 < a by omega)
    rw [Nat.mul_comm] at h
    omega

theorem roundUp_le (n a : Nat) : roundUp n a ≤ n + a := by
  unfold roundUp
  split
  · exact Nat.le_add_right _ _
  · have := Nat.div_mul_le_self (n + a - 1) a
    omega

theorem dvd_roundUp {n a : Nat} (h : 0 < a) : a ∣ roundUp n a := by
  rw [roundUp, if_neg (by omega)]
  exact Nat.dvd_mul_left a _

@[simp] theorem roundUp_one (n : Nat) : roundUp n 1 = n := by
  simp [roundUp]

theorem roundUp_pos {n a : Nat} (h : 0 < n) : 0 < roundUp n a :=
  Nat.lt_of_lt_of_le h (le_roundUp n a)

/-- A run `[lo, lo + len)`. -/
structure Range where
  lo : Nat
  len : Nat
  deriving DecidableEq, Repr

/-- Two runs share nothing. -/
def Range.Apart (a b : Range) : Prop :=
  a.len = 0 ∨ b.len = 0 ∨ a.lo + a.len ≤ b.lo ∨ b.lo + b.len ≤ a.lo

instance (a b : Range) : Decidable (a.Apart b) :=
  inferInstanceAs (Decidable (_ ∨ _ ∨ _ ∨ _))

/-- A run lies in `[0, n)`; an empty one always does. -/
def Range.Within (a : Range) (n : Nat) : Prop :=
  a.len = 0 ∨ a.lo + a.len ≤ n

instance (a : Range) (n : Nat) : Decidable (a.Within n) :=
  inferInstanceAs (Decidable (_ ∨ _))

theorem Range.Apart.symm {a b : Range} (h : a.Apart b) : b.Apart a := by
  unfold Range.Apart at *
  omega

theorem Range.Within.mono {a : Range} {n k : Nat} (h : a.Within n) (le : n ≤ k) : a.Within k := by
  unfold Range.Within at *
  omega

/-- Runs on the two sides of a boundary are apart. -/
theorem Range.apart_of_boundary {a b : Range} {n : Nat} (ha : a.Within n) (hb : n ≤ b.lo) :
    a.Apart b := by
  unfold Range.Apart Range.Within at *
  omega

/-- The run counted in units of `1 / k`: bytes as bits. -/
def Range.scale (a : Range) (k : Nat) : Range := ⟨a.lo * k, a.len * k⟩

@[simp] theorem Range.scale_one (a : Range) : a.scale 1 = a := by
  simp [Range.scale]

theorem Range.Apart.of_scale {a b : Range} {k : Nat} (pos : 0 < k) (h : (a.scale k).Apart (b.scale k)) : a.Apart b := by
  simp only [Range.Apart, Range.scale, Nat.mul_eq_zero] at h ⊢
  rcases h with h | h | h | h
  · omega
  · omega
  · rw [← Nat.add_mul] at h
    exact .inr (.inr (.inl (Nat.le_of_mul_le_mul_right h pos)))
  · rw [← Nat.add_mul] at h
    exact .inr (.inr (.inr (Nat.le_of_mul_le_mul_right h pos)))

theorem Range.Within.of_scale {a : Range} {k n : Nat} (pos : 0 < k) (h : (a.scale k).Within (n * k)) : a.Within n := by
  simp only [Range.Within, Range.scale, Nat.mul_eq_zero] at h ⊢
  rcases h with h | h
  · omega
  · rw [← Nat.add_mul] at h
    exact .inr (Nat.le_of_mul_le_mul_right h pos)

/-- Runs laid one after the other, the last ending at `stop` at most. -/
structure Serial (rs : List Range) (stop : Nat) : Prop where
  apart : rs.Pairwise Range.Apart
  within : ∀ r ∈ rs, r.Within stop

theorem Serial.nil (stop : Nat) : Serial [] stop := ⟨.nil, by simp⟩

theorem Serial.mono {rs : List Range} {n k : Nat} (s : Serial rs n) (le : n ≤ k) : Serial rs k :=
  ⟨s.apart, fun r hr => (s.within r hr).mono le⟩

/-- A run that starts where the others end is one more in the row; an empty one always is. -/
theorem Serial.snoc {rs : List Range} {r : Range} {n k : Nat} (s : Serial rs n) (le : n ≤ k)
    (lo : r.len = 0 ∨ n ≤ r.lo) (hi : r.Within k) : Serial (rs ++ [r]) k := by
  refine ⟨?_, ?_⟩
  · refine List.pairwise_append.2 ⟨s.apart, List.pairwise_singleton _ _, ?_⟩
    intro a ha b hb
    obtain rfl := List.mem_singleton.1 hb
    rcases lo with none | lo
    · exact .inr (.inl none)
    · exact Range.apart_of_boundary (s.within a ha) lo
  · intro a ha
    rcases List.mem_append.1 ha with ha | ha
    · exact (s.within a ha).mono le
    · obtain rfl := List.mem_singleton.1 ha
      exact hi

/-- Two runs of a row at different places are apart. -/
theorem apart_of_ne {rs : List Range} (apart : rs.Pairwise Range.Apart) {i j : Nat} {a b : Range} (ne : i ≠ j)
    (ha : rs[i]? = some a) (hb : rs[j]? = some b) : a.Apart b := by
  obtain ⟨hi, rfl⟩ := List.getElem?_eq_some_iff.1 ha
  obtain ⟨hj, rfl⟩ := List.getElem?_eq_some_iff.1 hb
  rcases Nat.lt_or_gt_of_ne ne with lt | gt
  · exact List.pairwise_iff_getElem.1 apart i j hi hj lt
  · exact (List.pairwise_iff_getElem.1 apart j i hj hi gt).symm

/-- Shorter runs stay apart. -/
theorem Range.Apart.shrink {a b a' b' : Range} (h : a.Apart b) (la : a'.lo = a.lo) (lb : b'.lo = b.lo)
    (ha : a'.len ≤ a.len) (hb : b'.len ≤ b.len) : a'.Apart b' := by
  unfold Range.Apart at *
  omega

end Vcx.Lib
