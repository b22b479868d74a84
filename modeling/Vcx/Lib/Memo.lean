import Mathlib.Logic.Function.Basic

/-!
# A shared memo

Machines that ask for values by key and share one table of the answers. Whoever asks first computes
the answer itself. Where that answer depends on the key alone, no machine can tell the table from
computing everything itself, in whatever order the machines take turns.
-/

namespace Vcx.Lib
set_option autoImplicit false

/-- One move of a machine: it stops, goes on, or asks for a key, with its own way to the value. -/
inductive Move (σ κ ν : Type) where
  | halt
  | go (s : σ)
  | ask (key : κ) (own : ν) (next : ν → σ)

variable {κ ν : Type}

/-- A move without a table. -/
def Move.alone {σ : Type} : Move σ κ ν → Option σ
  | .halt => none
  | .go s => some s
  | .ask _ own next => some (next own)

/-- The state of a machine after some moves without a table; one that has stopped stays. -/
def aloneAfter {σ : Type} (m : σ → Move σ κ ν) : Nat → σ → σ
  | 0, s => s
  | n + 1, s => aloneAfter m n ((m s).alone.getD s)

theorem aloneAfter_add {σ : Type} (m : σ → Move σ κ ν) (n k : Nat) (s : σ) :
    aloneAfter m (n + k) s = aloneAfter m k (aloneAfter m n s) := by
  induction n generalizing s with
  | zero => rw [Nat.zero_add, aloneAfter]
  | succ n ih =>
    rw [Nat.succ_add, aloneAfter, aloneAfter]
    exact ih _

theorem aloneAfter_halt {σ : Type} {m : σ → Move σ κ ν} {s : σ} (halts : m s = .halt) (n : Nat) : aloneAfter m n s = s := by
  induction n with
  | zero => rfl
  | succ n ih =>
    rw [aloneAfter, halts]
    exact ih

/-- The answers a machine computes are those that belong to the keys. -/
def Answers {σ : Type} (answer : κ → ν) (m : σ → Move σ κ ν) : Prop :=
  ∀ s key own next, m s = .ask key own next → own = answer key

/-- Every entry of the table is the answer to its key. -/
def MemoValid (answer : κ → ν) (memo : κ → Option ν) : Prop :=
  ∀ key v, memo key = some v → v = answer key

variable [DecidableEq κ]

/-- The entry of a key, made by the first who asks. -/
def entryOf (memo : κ → Option ν) (key : κ) (own : ν) : ν × (κ → Option ν) :=
  match memo key with
  | some v => (v, memo)
  | none => (own, Function.update memo key (some own))

theorem entryOf_valid {answer : κ → ν} {memo : κ → Option ν} (valid : MemoValid answer memo) {key : κ} {own : ν}
    (eq : own = answer key) : (entryOf memo key own).1 = own ∧ MemoValid answer (entryOf memo key own).2 := by
  unfold entryOf
  split
  · rename_i v found
    exact ⟨(valid key v found).trans eq.symm, valid⟩
  · refine ⟨rfl, fun key' v found => ?_⟩
    by_cases here : key' = key
    · subst here
      simp only [Function.update_self] at found
      exact (Option.some.inj found).symm.trans eq
    · simp only [Function.update_of_ne here] at found
      exact valid key' v found

/-- A move with the table. -/
def Move.shared {σ : Type} (memo : κ → Option ν) : Move σ κ ν → Option σ × (κ → Option ν)
  | .halt => (none, memo)
  | .go s => (some s, memo)
  | .ask key own next => (some (next (entryOf memo key own).1), (entryOf memo key own).2)

theorem Move.shared_eq {σ : Type} {answer : κ → ν} {m : σ → Move σ κ ν} (answers : Answers answer m)
    {memo : κ → Option ν} (valid : MemoValid answer memo) (s : σ) :
    ((m s).shared memo).1 = (m s).alone ∧ MemoValid answer ((m s).shared memo).2 := by
  cases move : m s with
  | halt => exact ⟨rfl, valid⟩
  | go s' => exact ⟨rfl, valid⟩
  | ask key own next =>
    obtain ⟨same, valid'⟩ := entryOf_valid valid (answers s key own next move)
    exact ⟨by rw [Move.shared, same, Move.alone], valid'⟩

/-! ### Many machines -/

variable {ι : Type} [DecidableEq ι] {σ : ι → Type}

/-- The states of all machines, and the table. -/
structure Crowd (σ : ι → Type) (κ ν : Type) where
  memo : κ → Option ν
  states : (i : ι) → σ i

/-- One machine takes its turn. -/
def Crowd.turn (ms : (i : ι) → σ i → Move (σ i) κ ν) (c : Crowd σ κ ν) (i : ι) : Crowd σ κ ν :=
  let r := (ms i (c.states i)).shared c.memo
  { memo := r.2, states := Function.update c.states i (r.1.getD (c.states i)) }

/-- The turns of a schedule. -/
def Crowd.turns (ms : (i : ι) → σ i → Move (σ i) κ ν) (c : Crowd σ κ ν) (schedule : List ι) : Crowd σ κ ν :=
  schedule.foldl (Crowd.turn ms) c

/-- **A shared memo is transparent**: after any schedule each machine is where it would be alone. -/
theorem Crowd.turns_states {answer : κ → ν} {ms : (i : ι) → σ i → Move (σ i) κ ν}
    (answers : ∀ i, Answers answer (ms i)) (schedule : List ι) (c : Crowd σ κ ν) (valid : MemoValid answer c.memo) (i : ι) :
    (c.turns ms schedule).states i = aloneAfter (ms i) (schedule.count i) (c.states i) := by
  induction schedule generalizing c with
  | nil => rfl
  | cons j schedule ih =>
    obtain ⟨same, valid'⟩ := Move.shared_eq (answers j) valid (c.states j)
    have rest := ih (c.turn ms j) valid'
    rw [Crowd.turns, List.foldl_cons]
    refine rest.trans ?_
    by_cases here : j = i
    · subst here
      simp only [List.count_cons_self, aloneAfter, Crowd.turn, Function.update_self, same]
    · simp only [List.count_cons_of_ne here, Crowd.turn, Function.update_of_ne (Ne.symm here)]

end Vcx.Lib
