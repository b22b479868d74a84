import Mathlib.Order.Basic

/-!
# Taking shortcuts

Two deterministic machines on one type of states, of which the one may reach in one step what
the other reaches in several. They halt in the same states.
-/

namespace Vcx.Lib
set_option autoImplicit false

variable {σ : Type}

/-- The state after `n` steps, if the machine has not stopped before. -/
def steps (f : σ → Option σ) : Nat → σ → Option σ
  | 0, s => some s
  | n + 1, s => (f s).bind (steps f n)

/-- `t` is reached from `s`. -/
def Reaches (f : σ → Option σ) (s t : σ) : Prop := ∃ n, steps f n s = some t

/-- The machine stops in `x`. -/
def HaltsIn (f : σ → Option σ) (s x : σ) : Prop := Reaches f s x ∧ f x = none

/-- The fast machine does what the slow one does, or what that does in several steps. -/
inductive Shortcut (fast slow : σ → Option σ) (s : σ) : Prop
  | same (eq : fast s = slow s)
  | skips (t : σ) (n : Nat) (eq : fast s = some t) (reached : steps slow (n + 1) s = some t)

variable {f fast slow : σ → Option σ}

attribute [local simp] steps

theorem steps_add {n k : Nat} {s t : σ} (first : steps f n s = some t) : steps f (n + k) s = steps f k t := by
  induction n generalizing s with
  | zero =>
    obtain rfl : s = t := Option.some.inj first
    rw [Nat.zero_add]
  | succ n ih =>
    obtain ⟨u, step, rest⟩ := Option.bind_eq_some_iff.1 first
    rw [Nat.succ_add, steps, step, Option.bind_some]
    exact ih rest

theorem steps_succ (n : Nat) (s : σ) : steps f (n + 1) s = (steps f n s).bind f := by
  induction n generalizing s with
  | zero =>
    rw [steps, steps, Option.bind_some]
    cases f s <;> rfl
  | succ n ih =>
    rw [steps, steps]
    cases f s with
    | none => rfl
    | some t => exact ih t

theorem Reaches.refl (s : σ) : Reaches f s s := ⟨0, rfl⟩

theorem Reaches.trans {s t u : σ} (first : Reaches f s t) (second : Reaches f t u) : Reaches f s u := by
  obtain ⟨n, first⟩ := first
  obtain ⟨k, second⟩ := second
  exact ⟨n + k, (steps_add first).trans second⟩

theorem Reaches.step {s t : σ} (step : f s = some t) : Reaches f s t := ⟨1, by simp [steps, step]⟩

/-- What holds at first and after every step of the run holds in every state reached. -/
theorem Reaches.invariant {P : σ → Prop} {s x : σ} (reached : Reaches f s x) (start : P s)
    (keep : ∀ t u, Reaches f s t → P t → f t = some u → P u) : P x := by
  obtain ⟨n, run⟩ := reached
  induction n generalizing x with
  | zero =>
    obtain rfl : s = x := Option.some.inj run
    exact start
  | succ n ih =>
    rw [steps_succ] at run
    obtain ⟨t, before, last⟩ := Option.bind_eq_some_iff.1 run
    exact keep t x ⟨n, before⟩ (ih before) last

theorem Reaches.of_shortcut {s t : σ} (step : fast s = some t) (shortcut : Shortcut fast slow s) :
    Reaches slow s t := by
  cases shortcut with
  | same eq => exact .step (eq.symm.trans step)
  | skips u n eq reached =>
    obtain rfl : t = u := Option.some.inj (step.symm.trans eq)
    exact ⟨n + 1, reached⟩

/-- A halting run passes through everything it reaches. -/
theorem HaltsIn.of_reaches {s t x : σ} {n k : Nat} (halts : steps f n s = some x) (stop : f x = none)
    (reached : steps f k s = some t) : k ≤ n ∧ steps f (n - k) t = some x := by
  have le : k ≤ n := by
    by_contra more
    obtain ⟨d, rfl⟩ : ∃ d, k = n + (d + 1) := ⟨k - n - 1, by omega⟩
    rw [steps_add halts, steps, stop] at reached
    cases reached
  refine ⟨le, ?_⟩
  rw [← steps_add reached, Nat.add_sub_cancel' le]
  exact halts

/-- **A shortcut loses nothing**: where every step of the fast run is one, the two runs halt in the
same states. -/
theorem haltsIn_iff_of_shortcut {s : σ} (ok : ∀ t, Reaches fast s t → Shortcut fast slow t) (x : σ) :
    HaltsIn fast s x ↔ HaltsIn slow s x := by
  constructor
  · rintro ⟨⟨n, run⟩, stop⟩
    refine ⟨?_, ?_⟩
    · induction n generalizing s with
      | zero =>
        obtain rfl : s = x := Option.some.inj run
        exact .refl s
      | succ n ih =>
        obtain ⟨t, step, rest⟩ := Option.bind_eq_some_iff.1 run
        have here := ok s (.refl s)
        exact (Reaches.of_shortcut step here).trans (ih (fun u reached => ok u ((Reaches.step step).trans reached)) rest)
    · cases ok x ⟨n, run⟩ with
      | same eq => exact eq.symm.trans stop
      | skips t k eq reached => rw [stop] at eq; cases eq
  · rintro ⟨⟨n, run⟩, stop⟩
    induction n using Nat.strongRecOn generalizing s with
    | ind n ih =>
      cases ok s (.refl s) with
      | same eq =>
        cases n with
        | zero =>
          obtain rfl : s = x := Option.some.inj run
          exact ⟨.refl s, eq.trans stop⟩
        | succ n =>
          obtain ⟨t, step, rest⟩ := Option.bind_eq_some_iff.1 run
          have step' : fast s = some t := eq.trans step
          obtain ⟨reached, stopped⟩ := ih n (by omega) (fun u reached => ok u ((Reaches.step step').trans reached)) rest
          exact ⟨(Reaches.step step').trans reached, stopped⟩
      | skips t k eq reached =>
        obtain ⟨le, rest⟩ := HaltsIn.of_reaches run stop reached
        obtain ⟨reached', stopped⟩ := ih (n - (k + 1)) (by omega) (fun u reached => ok u ((Reaches.step eq).trans reached)) rest
        exact ⟨(Reaches.step eq).trans reached', stopped⟩

/-- A run computed to its end. -/
theorem HaltsIn.of_steps {s : σ} (n : Nat) {P : σ → Bool}
    (halted : (steps f n s).any (fun x => (f x).isNone && P x) = true) : ∃ x, HaltsIn f s x ∧ P x = true := by
  obtain ⟨x, run, last⟩ := (Option.any_eq_true _ _).1 halted
  rw [Bool.and_eq_true, Option.isNone_iff_eq_none] at last
  exact ⟨x, ⟨⟨n, run⟩, last.1⟩, last.2⟩

theorem HaltsIn.unique {s x y : σ} (first : HaltsIn f s x) (second : HaltsIn f s y) : x = y := by
  obtain ⟨⟨n, run⟩, stop⟩ := first
  obtain ⟨⟨k, run'⟩, stop'⟩ := second
  obtain ⟨le, rest⟩ := HaltsIn.of_reaches run stop run'
  cases more : n - k with
  | zero =>
    rw [more] at rest
    exact (Option.some.inj rest).symm
  | succ d =>
    rw [more, steps, stop'] at rest
    cases rest

/-- What holds at each of the `n` steps of a run holds of everything it reaches. -/
theorem forall_reaches {s x : σ} {P : σ → Bool} {n : Nat} (run : steps f n s = some x) (stop : f x = none)
    (each : ∀ k, k < n + 1 → (steps f k s).all P = true) {t : σ} (reached : Reaches f s t) : P t = true := by
  obtain ⟨k, run'⟩ := reached
  have here := each k (Nat.lt_succ_of_le (HaltsIn.of_reaches run stop run').1)
  rwa [run'] at here

end Vcx.Lib
