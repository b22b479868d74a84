/-!
# Parts of a list

The elements from one offset to another, and how adjoining parts compose.
-/

namespace Vcx.Lib
set_option autoImplicit false

variable {α : Type}

/-- `s[lo:hi]`. -/
def part (s : List α) (lo hi : Nat) : List α := (s.take hi).drop lo

theorem length_part (s : List α) (lo hi : Nat) : (part s lo hi).length = min hi s.length - lo := by
  rw [part, List.length_drop, List.length_take]

@[simp] theorem part_self (s : List α) (at_ : Nat) : part s at_ at_ = [] := by
  apply List.eq_nil_of_length_eq_zero
  rw [length_part]
  omega

@[simp] theorem part_zero (s : List α) (hi : Nat) : part s 0 hi = s.take hi := rfl

/-- Parts that adjoin are one part. -/
theorem part_append (s : List α) {lo mid hi : Nat} (le : lo ≤ mid) (le' : mid ≤ hi) :
    part s lo mid ++ part s mid hi = part s lo hi := by
  have short : s.take mid = (s.take hi).take mid := by
    rw [List.take_take, Nat.min_eq_left le']
  rw [part, part, part, short]
  have whole : ((s.take hi).take mid ++ (s.take hi).drop mid).drop lo = _ := List.drop_append
  rw [List.take_append_drop] at whole
  rw [whole]
  by_cases within : mid ≤ (s.take hi).length
  · have none : lo - ((s.take hi).take mid).length = 0 := by
      rw [List.length_take, Nat.min_eq_left within, Nat.sub_eq_zero_of_le le]
    rw [none, List.drop_zero]
  · rw [List.drop_eq_nil_of_le (i := mid) (by omega), List.drop_nil]

theorem take_append_part (s : List α) {lo hi : Nat} (le : lo ≤ hi) : s.take lo ++ part s lo hi = s.take hi :=
  part_append s (Nat.zero_le lo) le

/-- A part by way of the text that is left at either end. -/
theorem part_of_suffix {s a b : List α} (left : a <:+ s) (right : b <:+ a) :
    part s (s.length - a.length) (s.length - b.length) ++ b = a := by
  obtain ⟨front, rfl⟩ := left
  obtain ⟨middle, rfl⟩ := right
  have first : (front ++ (middle ++ b)).length - (middle ++ b).length = front.length := by
    rw [List.length_append, Nat.add_sub_cancel]
  have second : (front ++ (middle ++ b)).length - b.length = (front ++ middle).length := by
    rw [← List.append_assoc, List.length_append, Nat.add_sub_cancel]
  rw [part, first, second, ← List.append_assoc, List.take_left, List.drop_left]

end Vcx.Lib
