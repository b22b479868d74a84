import Mathlib.Logic.Basic

/-!
# Programs of actions

A program fails or returns, or it does an action and goes on with what the action answers. The actions of a machine are
its primitives, which a state answers at once, and queries, each of which runs a program of its own; a machine that is
given fuel answers a query or runs out. What every primitive keeps, every query keeps.
-/

namespace Vcx.Lib
set_option autoImplicit false

variable {Prim Query : Type} {Reply : Prim → Type} {Result : Query → Type} {ε σ α β : Type}

inductive Act (Prim Query : Type) : Type where
  | prim (p : Prim)
  | ask (q : Query)

/-- What an action answers: a query may fail. -/
abbrev Answer (Reply : Prim → Type) (Result : Query → Type) (ε : Type) : Act Prim Query → Type
  | .prim p => Reply p
  | .ask q => Except ε (Result q)

inductive Program (Reply : Prim → Type) (Result : Query → Type) (ε α : Type) : Type where
  | done (r : Except ε α)
  | act (a : Act Prim Query) (k : Answer Reply Result ε a → Program Reply Result ε α)

/-- What an action answers and leaves; nothing when it does not end. -/
abbrev Handler (Reply : Prim → Type) (Result : Query → Type) (ε σ : Type) : Type :=
  (a : Act Prim Query) → σ → Option (Answer Reply Result ε a × σ)

namespace Program

def bind (p : Program Reply Result ε α) (f : α → Program Reply Result ε β) : Program Reply Result ε β :=
  match p with
  | done (.ok a) => f a
  | done (.error e) => done (.error e)
  | act a k => act a fun x => (k x).bind f

instance : Monad (Program Reply Result ε) where
  pure a := done (.ok a)
  bind := bind

/-- The program that fails. -/
def fail (e : ε) : Program Reply Result ε α := done (.error e)

/-- The program that does what was worked out already. -/
def ofExcept (r : Except ε α) : Program Reply Result ε α := done r

def run (handle : Handler Reply Result ε σ) : Program Reply Result ε α → σ → Option (Except ε α × σ)
  | done r, s => some (r, s)
  | act a k, s => (handle a s).bind fun x => (k x.1).run handle x.2

/-- The program comes to do the action in the state. -/
def Does (handle : Handler Reply Result ε σ) : Program Reply Result ε α → σ → Act Prim Query → σ → Prop
  | done _, _, _, _ => False
  | act a k, s, a', s' => (a = a' ∧ s = s') ∨ ∃ x, handle a s = some x ∧ (k x.1).Does handle x.2 a' s'

@[simp] theorem bind_ok (a : α) (f : α → Program Reply Result ε β) : (done (.ok a) >>= f) = f a := rfl

@[simp] theorem bind_error (e : ε) (f : α → Program Reply Result ε β) :
    ((done (.error e) : Program Reply Result ε α) >>= f) = done (.error e) := rfl

@[simp] theorem bind_act {a : Act Prim Query} (k : Answer Reply Result ε a → Program Reply Result ε α)
    (f : α → Program Reply Result ε β) : (act a k >>= f) = act a fun x => k x >>= f := rfl

@[simp] theorem pure_eq (a : α) : (pure a : Program Reply Result ε α) = done (.ok a) := rfl

variable {handle handle' : Handler Reply Result ε σ}

theorem run_act {a : Act Prim Query} {k : Answer Reply Result ε a → Program Reply Result ε α} {s : σ}
    {r : Except ε α × σ} : (act a k).run handle s = some r ↔ ∃ x, handle a s = some x ∧ (k x.1).run handle x.2 = some r :=
  Option.bind_eq_some_iff

/-- A sequence runs its parts in order, the second unless the first fails. -/
theorem run_bind (p : Program Reply Result ε α) (f : α → Program Reply Result ε β) (s : σ) :
    (p >>= f).run handle s = (p.run handle s).bind fun x =>
      match x with
      | (.ok a, s') => (f a).run handle s'
      | (.error e, s') => some (.error e, s') := by
  induction p generalizing s with
  | done r => cases r <;> rfl
  | act a k ih =>
    rw [bind_act, run, run, Option.bind_assoc]
    exact congrArg _ (funext fun x => ih x.1 x.2)

/-- A sequence returns what its second part returns after the first. -/
theorem run_bind_ok {p : Program Reply Result ε α} {f : α → Program Reply Result ε β} {s s' : σ} {b : β} :
    (p >>= f).run handle s = some (.ok b, s') ↔
      ∃ a t, p.run handle s = some (.ok a, t) ∧ (f a).run handle t = some (.ok b, s') := by
  rw [run_bind, Option.bind_eq_some_iff]
  constructor
  · rintro ⟨⟨_ | a, t⟩, ran, rest⟩
    · cases rest
    · exact ⟨a, t, ran, rest⟩
  · rintro ⟨a, t, ran, rest⟩
    exact ⟨(.ok a, t), ran, rest⟩

/-- A sequence does what its first part does, and after it what the second does. -/
theorem does_bind {p : Program Reply Result ε α} {f : α → Program Reply Result ε β} {s t : σ} {a : Act Prim Query}
    (does : (p >>= f).Does handle s a t) :
    p.Does handle s a t ∨ ∃ b u, p.run handle s = some (.ok b, u) ∧ (f b).Does handle u a t := by
  induction p generalizing s with
  | done r =>
    cases r with
    | error => cases does
    | ok b => exact .inr ⟨b, s, rfl, does⟩
  | act b k ih =>
    rcases does with here | ⟨x, first, later⟩
    · exact .inl (.inl here)
    · rcases ih x.1 later with inside | ⟨b, u, ran, rest⟩
      · exact .inl (.inr ⟨x, first, inside⟩)
      · exact .inr ⟨b, u, run_act.2 ⟨x, first, ran⟩, rest⟩

/-- What a handler answers, a handler that answers more answers. -/
theorem run_mono (more : ∀ a s x, handle a s = some x → handle' a s = some x) {p : Program Reply Result ε α} {s : σ}
    {r : Except ε α × σ} (ran : p.run handle s = some r) : p.run handle' s = some r := by
  induction p generalizing s with
  | done => exact ran
  | act a k ih =>
    obtain ⟨x, first, rest⟩ := run_act.1 ran
    exact run_act.2 ⟨x, more a s x first, ih x.1 rest⟩

theorem does_mono (more : ∀ a s x, handle a s = some x → handle' a s = some x) {p : Program Reply Result ε α} {s s' : σ}
    {a : Act Prim Query} (does : p.Does handle s a s') : p.Does handle' s a s' := by
  induction p generalizing s with
  | done => cases does
  | act b k ih =>
    rcases does with here | ⟨x, first, later⟩
    · exact .inl here
    · exact .inr ⟨x, more b s x first, ih x.1 later⟩

/-- **What every action keeps.** A preorder that every action of a program is in, the run of the program is in. -/
theorem run_rel {R : σ → σ → Prop} (refl : ∀ s, R s s) (trans : ∀ s t u, R s t → R t u → R s u) {p : Program Reply Result ε α}
    {s s' : σ} {r : Except ε α} (ran : p.run handle s = some (r, s'))
    (keeps : ∀ a t x, p.Does handle s a t → handle a t = some x → R t x.2) : R s s' := by
  induction p generalizing s with
  | done =>
    cases ran
    exact refl _
  | act a k ih =>
    obtain ⟨x, first, rest⟩ := run_act.1 ran
    exact trans _ _ _ (keeps a s x (.inl ⟨rfl, rfl⟩) first)
      (ih x.1 rest fun b t y does answered => keeps b t y (.inr ⟨x, first, does⟩) answered)

/-- The state an action is done in is one that the actions before it have left. -/
theorem does_rel {R : σ → σ → Prop} (refl : ∀ s, R s s) (trans : ∀ s t u, R s t → R t u → R s u) {p : Program Reply Result ε α}
    {s s' : σ} {b : Act Prim Query} (does : p.Does handle s b s')
    (keeps : ∀ a t x, p.Does handle s a t → handle a t = some x → R t x.2) : R s s' := by
  induction p generalizing s with
  | done => cases does
  | act a k ih =>
    rcases does with ⟨rfl, rfl⟩ | ⟨x, first, later⟩
    · exact refl s
    · exact trans _ _ _ (keeps a s x (.inl ⟨rfl, rfl⟩) first)
        (ih x.1 later fun b t y does answered => keeps b t y (.inr ⟨x, first, does⟩) answered)

/-- An action that is done in a run that ends has an answer, and the run goes on from there. -/
theorem rest_rel {R : σ → σ → Prop} (refl : ∀ s, R s s) (trans : ∀ s t u, R s t → R t u → R s u)
    {p : Program Reply Result ε α} {s s₁ s' : σ} {r : Except ε α} {a : Act Prim Query} (ran : p.run handle s = some (r, s'))
    (does : p.Does handle s a s₁) (keeps : ∀ a t x, p.Does handle s a t → handle a t = some x → R t x.2) :
    ∃ x, handle a s₁ = some x ∧ R x.2 s' := by
  induction p generalizing s with
  | done => cases does
  | act b k ih =>
    obtain ⟨x, first, rest⟩ := run_act.1 ran
    have keeps' : ∀ b t y, (k x.1).Does handle x.2 b t → handle b t = some y → R t y.2 :=
      fun b t y does answered => keeps b t y (.inr ⟨x, first, does⟩) answered
    rcases does with ⟨rfl, rfl⟩ | ⟨y, first', later⟩
    · exact ⟨x, first, run_rel refl trans rest keeps'⟩
    · cases first.symm.trans first'
      exact ih x.1 rest later keeps'

/-! ### What a program may do -/

/-- All the actions of a program, whatever they answer. -/
def All (P : Act Prim Query → Prop) : Program Reply Result ε α → Prop
  | done _ => True
  | act a k => P a ∧ ∀ x, (k x).All P

variable {P : Act Prim Query → Prop}

theorem all_pure (a : α) : (pure a : Program Reply Result ε α).All P := trivial

theorem all_fail (e : ε) : (fail e : Program Reply Result ε α).All P := trivial

theorem all_ofExcept (r : Except ε α) : (ofExcept r : Program Reply Result ε α).All P := trivial

theorem all_bind {p : Program Reply Result ε α} {f : α → Program Reply Result ε β} (first : p.All P) (rest : ∀ a, (f a).All P) :
    (p >>= f).All P := by
  induction p with
  | done r =>
    cases r with
    | error e => trivial
    | ok a => exact rest a
  | act a k ih => exact ⟨first.1, fun x => ih x (first.2 x)⟩

/-- What a program does is among what it may do. -/
theorem All.does {p : Program Reply Result ε α} (all : p.All P) {s t : σ} {a : Act Prim Query} (does : p.Does handle s a t) :
    P a := by
  induction p generalizing s with
  | done => cases does
  | act b k ih =>
    rcases does with ⟨rfl, -⟩ | ⟨x, -, later⟩
    · exact all.1
    · exact ih x.1 (all.2 x.1) later

end Program

/-- A machine: what its primitives do, and the programs of its queries with what is done around them. Leaving a query
is told the state it was entered in. -/
structure Machine (Reply : Prim → Type) (Result : Query → Type) (ε σ : Type) where
  prim : (p : Prim) → σ → Reply p × σ
  enter : Query → σ → σ
  leave : Query → σ → σ → σ
  body : (q : Query) → Program Reply Result ε (Result q)

namespace Machine

variable (M : Machine Reply Result ε σ)

/-- The machine with fuel. -/
def exec : Nat → Handler Reply Result ε σ
  | _, .prim p, s => some (M.prim p s)
  | 0, .ask _, _ => none
  | n + 1, .ask q, s => ((M.body q).run (exec n) (M.enter q s)).map fun x => (x.1, M.leave q s x.2)

variable {M}

theorem exec_succ {n : Nat} {a : Act Prim Query} {s : σ} {x : Answer Reply Result ε a × σ} (answered : M.exec n a s = some x) :
    M.exec (n + 1) a s = some x := by
  induction n generalizing a s with
  | zero =>
    cases a with
    | prim => exact answered
    | ask => cases answered
  | succ n ih =>
    cases a with
    | prim => exact answered
    | ask q =>
      obtain ⟨r, ran, rfl⟩ := Option.map_eq_some_iff.1 answered
      exact Option.map_eq_some_iff.2 ⟨r, Program.run_mono (fun b t y => ih) ran, rfl⟩

/-- More fuel answers no less. -/
theorem exec_mono {n m : Nat} (le : n ≤ m) {a : Act Prim Query} {s : σ} {x : Answer Reply Result ε a × σ}
    (answered : M.exec n a s = some x) : M.exec m a s = some x := by
  induction le with
  | refl => exact answered
  | step _ ih => exact exec_succ ih

/-- There is one answer. -/
theorem exec_unique {n m : Nat} {a : Act Prim Query} {s : σ} {x y : Answer Reply Result ε a × σ}
    (left : M.exec n a s = some x) (right : M.exec m a s = some y) : x = y :=
  Option.some.inj ((exec_mono (Nat.le_max_left n m) left).symm.trans (exec_mono (Nat.le_max_right n m) right))

theorem exec_ask {n : Nat} {q : Query} {s s' : σ} {r : Except ε (Result q)} :
    M.exec (n + 1) (.ask q) s = some (r, s') ↔
      ∃ t, (M.body q).run (M.exec n) (M.enter q s) = some (r, t) ∧ M.leave q s t = s' := by
  rw [exec, Option.map_eq_some_iff]
  constructor
  · rintro ⟨⟨r', t⟩, ran, eq⟩
    cases eq
    exact ⟨t, ran, rfl⟩
  · rintro ⟨t, ran, rfl⟩
    exact ⟨(r, t), ran, rfl⟩

variable (M)

/-- A query that is asked in the run of another, and the state it is asked in. -/
inductive Within : Query → σ → Query → σ → Prop where
  | self (q : Query) (s : σ) : Within q s q s
  | inner {q q₁ q' : Query} {s s₁ s' : σ} {n : Nat} (does : (M.body q).Does (M.exec n) (M.enter q s) (.ask q₁) s₁)
      (within : Within q₁ s₁ q' s') : Within q s q' s'

/-- An action that is done in the run of a query. -/
def Occurs (q : Query) (s : σ) (a : Act Prim Query) (t : σ) : Prop :=
  ∃ q' s' n, M.Within q s q' s' ∧ (M.body q').Does (M.exec n) (M.enter q' s') a t

variable {M}

theorem Within.trans {q q₁ q₂ : Query} {s s₁ s₂ : σ} (first : M.Within q s q₁ s₁) (second : M.Within q₁ s₁ q₂ s₂) :
    M.Within q s q₂ s₂ := by
  induction first with
  | self => exact second
  | inner does _ ih => exact .inner does (ih second)

theorem Within.occurs {q q₁ : Query} {s s₁ t : σ} {a : Act Prim Query} (within : M.Within q s q₁ s₁)
    (occurs : M.Occurs q₁ s₁ a t) : M.Occurs q s a t := by
  obtain ⟨q', s', m, inner, last⟩ := occurs
  exact ⟨q', s', m, within.trans inner, last⟩

theorem Occurs.of_does {q : Query} {s t : σ} {n : Nat} {a : Act Prim Query}
    (does : (M.body q).Does (M.exec n) (M.enter q s) a t) : M.Occurs q s a t := ⟨q, s, n, .self q s, does⟩

/-- A query that is asked in a run is within it. -/
theorem Occurs.within {q q' : Query} {s t : σ} (occurs : M.Occurs q s (.ask q') t) : M.Within q s q' t := by
  obtain ⟨q₁, s₁, n, outer, does⟩ := occurs
  exact outer.trans (.inner does (.self q' t))

/-! ### Rules -/

/-- **The run rule.** A preorder that the primitives of a run are in, and that is kept around its queries, the run is in. -/
theorem exec_rel {R : σ → σ → Prop} (refl : ∀ s, R s s) (trans : ∀ s t u, R s t → R t u → R s u) {G : Prim → σ → Prop}
    {C : Query → σ → Prop} (prim : ∀ p s, G p s → R s (M.prim p s).2)
    (around : ∀ q s t n r, C q s → (M.body q).run (M.exec n) (M.enter q s) = some (r, t) → R (M.enter q s) t →
      R s (M.leave q s t)) {n : Nat} {q : Query} {s s' : σ} {r : Except ε (Result q)}
    (answered : M.exec n (.ask q) s = some (r, s')) (prims : ∀ p t, M.Occurs q s (.prim p) t → G p t)
    (queries : ∀ q' t, M.Within q s q' t → C q' t) : R s s' := by
  induction n generalizing q s s' with
  | zero => cases answered
  | succ n ih =>
    obtain ⟨t, ran, rfl⟩ := exec_ask.1 answered
    refine around q s t n r (queries q s (.self q s)) ran (Program.run_rel refl trans ran fun a u x does done => ?_)
    cases a with
    | prim p =>
      have eq : M.exec 0 (.prim p) u = some (M.prim p u) := rfl
      rw [← exec_unique eq done]
      exact prim p u (prims p u (.of_does does))
    | ask q₁ =>
      have within : M.Within q s q₁ u := .inner does (.self q₁ u)
      exact ih done (fun p v occurs => prims p v (within.occurs occurs)) fun q' v inner => queries q' v (within.trans inner)

/-- **What follows an action.** What holds when an action of a run has been answered, and is kept by every later action
and by leaving the queries that the action is in, holds at the end of the run. -/
theorem Occurs.follow {R : σ → σ → Prop} (refl : ∀ s, R s s) (trans : ∀ s t u, R s t → R t u → R s u) {I : σ → Prop}
    (keeps : ∀ s t, R s t → I s → I t) {q : Query} {s u v : σ} {n : Nat} {r : Except ε (Result q)} {a : Act Prim Query}
    (occurs : M.Occurs q s a u) (related : ∀ b t m x, M.Occurs q s b t → M.exec m b t = some x → R t x.2)
    (leave : ∀ q' t n r w, M.Occurs q s (.ask q') t → M.Occurs q' t a u →
      (M.body q').run (M.exec n) (M.enter q' t) = some (r, w) → I w → I (M.leave q' t w))
    (after : ∀ m x, M.exec m a u = some x → I x.2) (ran : (M.body q).run (M.exec n) (M.enter q s) = some (r, v)) : I v := by
  obtain ⟨q₀, s₀, m, within, does⟩ := occurs
  induction within generalizing v n with
  | self q s =>
    have ran' := Program.run_mono (fun _ _ _ => exec_mono (Nat.le_max_left n m)) ran
    have does' := Program.does_mono (fun _ _ _ => exec_mono (Nat.le_max_right n m)) does
    obtain ⟨x, answered, rest⟩ := Program.rest_rel refl trans ran' does' fun b t y does answered =>
      related b t _ y (.of_does does) answered
    exact keeps _ _ rest (after _ x answered)
  | @inner q q₁ _ s s₁ _ k first within ih =>
    have ran' := Program.run_mono (fun _ _ _ => exec_mono (Nat.le_max_left n k)) ran
    have first' := Program.does_mono (fun _ _ _ => exec_mono (Nat.le_max_right n k)) first
    obtain ⟨⟨r₁, s₁'⟩, answered, rest⟩ := Program.rest_rel refl trans ran' first' fun b t y does answered =>
      related b t _ y (.of_does does) answered
    have outer : M.Within q s q₁ s₁ := .inner first (.self _ _)
    refine keeps _ _ rest ?_
    obtain ⟨m', bound⟩ : ∃ m', max n k = m' + 1 := by
      cases eq : max n k with
      | zero => rw [eq] at answered; cases answered
      | succ m' => exact ⟨m', rfl⟩
    rw [bound] at answered
    obtain ⟨w, ran₁, rfl⟩ := exec_ask.1 answered
    refine leave q₁ s₁ m' r₁ w (.of_does first) ⟨_, _, m, within, does⟩ ran₁ ?_
    exact ih (fun b t j x occurs => related b t j x (outer.occurs occurs))
      (fun q' t j r' w' occurs => leave q' t j r' w' (outer.occurs occurs)) ran₁ does

/-- **What precedes an action.** What holds when a query is entered, and is kept by the actions of its run and by entering
the queries that an action is in, holds where the action is done. -/
theorem Occurs.reach {R : σ → σ → Prop} (refl : ∀ s, R s s) (trans : ∀ s t u, R s t → R t u → R s u) {J : σ → Prop}
    (keeps : ∀ s t, R s t → J s → J t) (enter : ∀ q s, J s → J (M.enter q s)) {q : Query} {s u : σ} {a : Act Prim Query}
    (occurs : M.Occurs q s a u) (related : ∀ b t m x, M.Occurs q s b t → M.exec m b t = some x → R t x.2)
    (start : J (M.enter q s)) : J u := by
  obtain ⟨q', s', n, within, does⟩ := occurs
  induction within with
  | self q s =>
    exact keeps _ _ (Program.does_rel refl trans does fun b t x before done => related b t n x (.of_does before) done) start
  | @inner q q₁ _ s s₁ _ k first _ ih =>
    have here := keeps _ _ (Program.does_rel refl trans first fun b t x before done => related b t k x (.of_does before) done) start
    have outer : M.Within q s q₁ s₁ := .inner first (.self q₁ s₁)
    exact ih (fun b t m x occurs => related b t m x (outer.occurs occurs)) (enter q₁ s₁ here) does

end Machine

end Vcx.Lib
