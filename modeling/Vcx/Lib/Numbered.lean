import Mathlib.Data.List.GetD

/-!
# Recursion along a numbering

A recursive function over a graph whose edges go from larger to smaller numbers is
written open: its body `F` receives the function itself. `fix F d` closes it. The values
at the numbers below `n` are kept in a table, so `fix` is structural, evaluates, and needs
no termination argument; a call at a number that is not below the caller answers the
default `d`. `fix_eq` is the unfolding equation, and `fix_unfold` removes the cut-off for
a body that only looks below its argument.
-/

namespace Vcx.Lib
set_option autoImplicit false

variable {α : Type}

/-- The values of the recursion at `0, …, n - 1`. -/
def table (F : (Nat → α) → Nat → α) (d : α) : Nat → List α
  | 0 => []
  | n + 1 => table F d n ++ [F (fun j => (table F d n).getD j d) n]

/-- The recursive function with body `F`. -/
def fix (F : (Nat → α) → Nat → α) (d : α) (n : Nat) : α :=
  F (fun j => (table F d n).getD j d) n

/-- A function cut off at `n`: the default from there on. -/
def below (f : Nat → α) (d : α) (n : Nat) (j : Nat) : α :=
  if j < n then f j else d

theorem below_lt {f : Nat → α} {d : α} {n j : Nat} (h : j < n) : below f d n j = f j := by
  simp [below, h]

@[simp] theorem table_length (F : (Nat → α) → Nat → α) (d : α) (n : Nat) :
    (table F d n).length = n := by
  induction n with
  | zero => rfl
  | succ n ih => simp [table, ih]

theorem table_getD (F : (Nat → α) → Nat → α) (d : α) (n j : Nat) :
    (table F d n).getD j d = below (fix F d) d n j := by
  induction n with
  | zero => simp [table, below]
  | succ n ih =>
    rcases Nat.lt_trichotomy j n with h | h | h
    · rw [table, List.getD_append _ _ _ _ (by simpa using h), ih, below_lt h, below_lt (by omega)]
    · subst h
      rw [table, List.getD_append_right _ _ _ _ (by simp), below_lt (by omega)]
      simp [fix]
    · rw [below, if_neg (by omega), List.getD_eq_default _ _ (by simp; omega)]

/-- The unfolding equation: one step of the body over the values below. -/
theorem fix_eq (F : (Nat → α) → Nat → α) (d : α) (n : Nat) :
    fix F d n = F (below (fix F d) d n) n := by
  rw [fix]
  congr 1
  funext j
  exact table_getD F d n j

/-- A body that looks only below its argument unfolds without the cut-off. -/
theorem fix_unfold {F : (Nat → α) → Nat → α} {d : α} {n : Nat}
    (local_ : ∀ f g : Nat → α, (∀ j < n, f j = g j) → F f n = F g n) :
    fix F d n = F (fix F d) n := by
  rw [fix_eq]
  exact local_ _ _ fun j h => below_lt h

/-- A test over a list depends on its values at the members only. -/
theorem all_congr_mem {β : Type} {l : List β} {p q : β → Bool} (agree : ∀ b ∈ l, p b = q b) :
    l.all p = l.all q := by
  induction l with
  | nil => rfl
  | cons b l ih =>
    rw [List.all_cons, List.all_cons, agree b List.mem_cons_self,
      ih fun c hc => agree c (List.mem_cons_of_mem b hc)]

end Vcx.Lib
