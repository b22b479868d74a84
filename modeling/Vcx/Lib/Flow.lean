import Mathlib.Data.Set.Lattice

/-!
# Behaviours of structured statements

A behaviour is a set of event sequences, each with how control leaves at its end. `Fut` is the
set of sequences of a behaviour followed by what a continuation allows for each way of leaving;
its rules take a behaviour apart from the front, as a translation that writes it block by block
does.
-/

namespace Vcx.Lib
set_option autoImplicit false

/-- How control leaves a statement. -/
inductive Outcome
  | normal
  | brk
  | cont
  | ret
  deriving Repr, DecidableEq

/-- A pass of a loop after which the loop goes on. -/
def Outcome.goesOn : Outcome → Prop
  | .normal | .cont => True
  | .brk | .ret => False

variable {ε : Type}

/-- What a statement may do. -/
def Beh (ε : Type) := List ε → Outcome → Prop

namespace Beh

/-- Leaves at once. -/
def just (o : Outcome) : Beh ε := fun w o' => w = [] ∧ o' = o

/-- `pre` before and `post` after, however control leaves. -/
def wrap (pre post : List ε) (B : Beh ε) : Beh ε := fun w o => ∃ t, B t o ∧ w = pre ++ t ++ post

def either (A B : Beh ε) : Beh ε := fun w o => A w o ∨ B w o

def seq (A B : Beh ε) : Beh ε := fun w o =>
  (A w o ∧ o ≠ .normal) ∨ ∃ a b, A a .normal ∧ B b o ∧ w = a ++ b

/-- `post` after a pass after which the loop goes on. -/
def followed (post : List ε) (B : Beh ε) : Beh ε := fun w o =>
  ∃ t, B t o ∧ ((o.goesOn ∧ w = t ++ post) ∨ (¬o.goesOn ∧ w = t))

/-- A statement that a `break` leaves. -/
def broken (B : Beh ε) : Beh ε := fun w o =>
  (B w o ∧ o ≠ .brk) ∨ (B w .brk ∧ o = .normal)

/-- A loop: it ends where its condition fails, or (`late`) after a pass, or by a `break`. -/
inductive Loop (exits : Set (List ε)) (late : Prop) (pass : Beh ε) : List ε → Outcome → Prop
  | exit {w : List ε} (fails : w ∈ exits) : Loop exits late pass w .normal
  | again {t u : List ε} {o p : Outcome} (did : pass t o) (on : o.goesOn) (rest : Loop exits late pass u p) :
      Loop exits late pass (t ++ u) p
  | last {t : List ε} {o : Outcome} (isLate : late) (did : pass t o) (on : o.goesOn) : Loop exits late pass t .normal
  | leave {t : List ε} (did : pass t .brk) : Loop exits late pass t .normal
  | returns {t : List ε} (did : pass t .ret) : Loop exits late pass t .ret

end Beh

open Beh

/-- The sequences of a behaviour, each followed by one that the continuation has for the way it
ended. -/
def Fut (B : Beh ε) (K : Outcome → Set (List ε)) : Set (List ε) :=
  {w | ∃ t o r, B t o ∧ r ∈ K o ∧ w = t ++ r}

/-- What starts with `post` and goes on as `X` allows. -/
def led (post : List ε) (X : Set (List ε)) : Set (List ε) := {w | ∃ r ∈ X, w = post ++ r}

/-- The continuation that does `post` first. -/
def after (post : List ε) (K : Outcome → Set (List ε)) : Outcome → Set (List ε) := fun o => led post (K o)

/-- The continuation of a loop's body: on to `next`, or out to `exit`. -/
def inLoop (next exit : Set (List ε)) (K : Outcome → Set (List ε)) : Outcome → Set (List ε)
  | .normal | .cont => next
  | .brk => exit
  | .ret => K .ret

/-- The continuation of a statement before another. -/
def thenOn (next : Set (List ε)) (K : Outcome → Set (List ε)) : Outcome → Set (List ε)
  | .normal => next
  | o => K o

variable {B A : Beh ε} {K : Outcome → Set (List ε)} {w pre post : List ε}

theorem fut_just {o : Outcome} (mem : w ∈ K o) : w ∈ Fut (just o) K := ⟨[], o, w, ⟨rfl, rfl⟩, mem, rfl⟩

theorem fut_wrap (mem : w ∈ Fut B (after post K)) : pre ++ w ∈ Fut (wrap pre post B) K := by
  obtain ⟨t, o, -, did, ⟨r, mem, rfl⟩, rfl⟩ := mem
  exact ⟨pre ++ t ++ post, o, r, ⟨t, did, rfl⟩, mem, by simp only [List.append_assoc]⟩

theorem fut_left (mem : w ∈ Fut A K) : w ∈ Fut (either A B) K := by
  obtain ⟨t, o, r, did, mem, eq⟩ := mem
  exact ⟨t, o, r, .inl did, mem, eq⟩

theorem fut_right (mem : w ∈ Fut B K) : w ∈ Fut (either A B) K := by
  obtain ⟨t, o, r, did, mem, eq⟩ := mem
  exact ⟨t, o, r, .inr did, mem, eq⟩

theorem fut_seq (mem : w ∈ Fut A (thenOn (Fut B K) K)) : w ∈ Fut (seq A B) K := by
  obtain ⟨t, o, r, did, mem, rfl⟩ := mem
  by_cases isNormal : o = .normal
  · subst isNormal
    obtain ⟨u, p, r, then_, mem, rfl⟩ := mem
    exact ⟨t ++ u, p, r, .inr ⟨t, u, did, then_, rfl⟩, mem, (List.append_assoc ..).symm⟩
  · have same : thenOn (Fut B K) K o = K o := by cases o <;> first | rfl | contradiction
    rw [same] at mem
    exact ⟨t, o, r, .inl ⟨did, isNormal⟩, mem, rfl⟩

theorem fut_followed {next exit : Set (List ε)}
    (mem : w ∈ Fut B (inLoop (led post next) exit K)) : w ∈ Fut (followed post B) (inLoop next exit K) := by
  obtain ⟨t, o, r, did, mem, rfl⟩ := mem
  cases o with
  | normal =>
    obtain ⟨r, mem, rfl⟩ := mem
    exact ⟨t ++ post, .normal, r, ⟨t, did, .inl ⟨trivial, rfl⟩⟩, mem, (List.append_assoc ..).symm⟩
  | cont =>
    obtain ⟨r, mem, rfl⟩ := mem
    exact ⟨t ++ post, .cont, r, ⟨t, did, .inl ⟨trivial, rfl⟩⟩, mem, (List.append_assoc ..).symm⟩
  | brk => exact ⟨t, .brk, r, ⟨t, did, .inr ⟨id, rfl⟩⟩, mem, rfl⟩
  | ret => exact ⟨t, .ret, r, ⟨t, did, .inr ⟨id, rfl⟩⟩, mem, rfl⟩

/-- The continuation of a statement that a `break` leaves: to `exit`, which is where it ends. -/
def inBroken (K : Outcome → Set (List ε)) : Outcome → Set (List ε)
  | .brk => K .normal
  | o => K o

theorem fut_broken (mem : w ∈ Fut B (inBroken K)) : w ∈ Fut (broken B) K := by
  obtain ⟨t, o, r, did, mem, rfl⟩ := mem
  by_cases isBrk : o = .brk
  · subst isBrk
    exact ⟨t, .normal, r, .inr ⟨did, rfl⟩, mem, rfl⟩
  · have same : inBroken K o = K o := by cases o <;> first | rfl | contradiction
    rw [same] at mem
    exact ⟨t, o, r, .inl ⟨did, isBrk⟩, mem, rfl⟩

section loops
variable {exits : Set (List ε)} {late : Prop} {pass : Beh ε}

theorem fut_loop_exit {e r : List ε} (fails : e ∈ exits) (mem : r ∈ K .normal) :
    e ++ r ∈ Fut (Loop exits late pass) K := ⟨e, .normal, r, .exit fails, mem, rfl⟩

/-- One pass: the body goes on to the loop again, or (`late`) out of it. -/
theorem fut_loop_pass (next : Set (List ε)) (goes : ∀ r ∈ next, r ∈ Fut (Loop exits late pass) K ∨ (late ∧ r ∈ K .normal))
    (mem : w ∈ Fut pass (inLoop next (K .normal) K)) : w ∈ Fut (Loop exits late pass) K := by
  obtain ⟨t, o, r, did, mem, rfl⟩ := mem
  have on : o.goesOn → r ∈ next → t ++ r ∈ Fut (Loop exits late pass) K := by
    intro isOn mem
    obtain ⟨u, p, r', rest, mem, eq⟩ | ⟨isLate, mem⟩ := goes r mem
    · rw [eq]
      exact ⟨t ++ u, p, r', .again did isOn rest, mem, (List.append_assoc ..).symm⟩
    · exact ⟨t, .normal, r, .last isLate did isOn, mem, rfl⟩
  cases o with
  | normal => exact on trivial mem
  | cont => exact on trivial mem
  | brk => exact ⟨t, .normal, r, .leave did, mem, rfl⟩
  | ret => exact ⟨t, .ret, r, .returns did, mem, rfl⟩

end loops

end Vcx.Lib
