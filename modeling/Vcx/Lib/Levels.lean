import Mathlib.Data.List.Basic

/-!
# Entries told by their level

A chain of scopes is a list, innermost entry first. An entry's level is the number of those around it: it stays
the same as entries come and go inside.
-/

namespace Vcx.Lib
set_option autoImplicit false

variable {α : Type} {p : Nat → α → Bool} {a b : α} {env inner : List α} {l n : Nat}

/-- The innermost entry that passes a test, with its level. -/
def resolve (p : Nat → α → Bool) : List α → Option (Nat × α)
  | [] => none
  | a :: env => if p env.length a then some (env.length, a) else resolve p env

@[simp] theorem resolve_nil : resolve p [] = none := rfl

theorem resolve_cons : resolve p (a :: env) = if p env.length a then some (env.length, a) else resolve p env := rfl

theorem resolve_lt (found : resolve p env = some (l, a)) : l < env.length := by
  induction env with
  | nil => cases found
  | cons b env ih =>
    rw [resolve_cons] at found
    split_ifs at found
    · cases found
      exact Nat.lt_succ_self _
    · exact Nat.lt_succ_of_lt (ih found)

theorem resolve_passes (found : resolve p env = some (l, a)) : p l a = true := by
  induction env with
  | nil => cases found
  | cons b env ih =>
    rw [resolve_cons] at found
    split_ifs at found with passes
    · cases found
      exact passes
    · exact ih found

/-- Tests that agree on what is there find the same. -/
theorem resolve_congr {q : Nat → α → Bool} (same : ∀ l < env.length, ∀ a, p l a = q l a) :
    resolve p env = resolve q env := by
  induction env with
  | nil => rfl
  | cons b env ih =>
    rw [resolve_cons, resolve_cons, same _ (Nat.lt_succ_self _), ih fun l lt => same l (Nat.lt_succ_of_lt lt)]

/-- The entry at a level. -/
def atLevel (env : List α) (l : Nat) : Option α := env.reverse[l]?

theorem atLevel_append (lt : l < env.length) : atLevel (inner ++ env) l = atLevel env l := by
  unfold atLevel
  rw [List.reverse_append, List.getElem?_append_left (by rwa [List.length_reverse])]

theorem atLevel_of_resolve (found : resolve p env = some (l, a)) : atLevel env l = some a := by
  induction env with
  | nil => cases found
  | cons b env ih =>
    rw [resolve_cons] at found
    split_ifs at found
    · cases found
      simp [atLevel]
    · rw [← List.singleton_append, atLevel_append (resolve_lt found)]
      exact ih found

/-- What is found outside the inner entries is found without them. -/
theorem resolve_of_append (found : resolve p (inner ++ env) = some (l, a)) (lt : l < env.length) :
    resolve p env = some (l, a) := by
  induction inner with
  | nil => exact found
  | cons b inner ih =>
    rw [List.cons_append, resolve_cons] at found
    split_ifs at found
    · cases found
      rw [List.length_append] at lt
      omega
    · exact ih found

/-- What is found outside the inner entries is passed by none of them. -/
theorem not_passes_of_append (found : resolve p (inner ++ env) = some (l, a)) (lt : l < env.length) (mem : b ∈ inner) :
    ∃ k, env.length ≤ k ∧ p k b = false := by
  induction inner with
  | nil => cases mem
  | cons c inner ih =>
    rw [List.cons_append, resolve_cons] at found
    split_ifs at found with passes
    · cases found
      rw [List.length_append] at lt
      omega
    · obtain rfl | later := List.mem_cons.1 mem
      · refine ⟨(inner ++ env).length, ?_, Bool.not_eq_true _ ▸ passes⟩
        rw [List.length_append]
        exact Nat.le_add_left _ _
      · exact ih found later

end Vcx.Lib
