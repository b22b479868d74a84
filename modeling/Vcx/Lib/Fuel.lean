import Mathlib.Logic.Basic

/-!
# Functions with fuel

A recursive function that has no measure is given fuel, and what it answers is what it settles on: the answer it gives
from some amount of fuel on. `Settles` composes as the functions do, so that no amount is ever counted.
-/

namespace Vcx.Lib
set_option autoImplicit false

variable {α β : Type}

/-- From some amount of fuel on, `f` answers `a`. -/
def Settles (f : Nat → α) (a : α) : Prop := ∃ n, ∀ m, n ≤ m → f m = a

theorem Settles.const (a : α) : Settles (fun _ => a) a := ⟨0, fun _ _ => rfl⟩

/-- A function that answers with a unit of fuel more what another does. -/
theorem Settles.succ {f g : Nat → α} {a : α} (step : ∀ m, f (m + 1) = g m) (settles : Settles g a) : Settles f a := by
  obtain ⟨n, from_⟩ := settles
  refine ⟨n + 1, fun m le => ?_⟩
  obtain ⟨k, rfl⟩ : ∃ k, m = k + 1 := ⟨m - 1, by omega⟩
  rw [step, from_ k (by omega)]

/-- It settles on one answer. -/
theorem Settles.unique {f : Nat → α} {a b : α} (left : Settles f a) (right : Settles f b) : a = b := by
  obtain ⟨n, fromA⟩ := left
  obtain ⟨k, fromB⟩ := right
  rw [← fromA (max n k) (Nat.le_max_left n k), fromB (max n k) (Nat.le_max_right n k)]

theorem Settles.bind {f : Nat → Option α} {k : α → Nat → Option β} {a : α} {b : Option β} (first : Settles f (some a))
    (second : Settles (k a) b) : Settles (fun m => (f m).bind fun x => k x m) b := by
  obtain ⟨n, fromA⟩ := first
  obtain ⟨l, fromB⟩ := second
  refine ⟨max n l, fun m le => ?_⟩
  show (f m).bind (fun x => k x m) = b
  rw [fromA m (Nat.le_trans (Nat.le_max_left n l) le), Option.bind_some, fromB m (Nat.le_trans (Nat.le_max_right n l) le)]

theorem Settles.map {f : Nat → Option α} {g : α → β} {a : α} (first : Settles f (some a)) :
    Settles (fun m => (f m).map g) (some (g a)) := by
  obtain ⟨n, from_⟩ := first
  exact ⟨n, fun m le => by show (f m).map g = some (g a); rw [from_ m le, Option.map_some]⟩

end Vcx.Lib
