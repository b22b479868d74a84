import Vcx.Lower.Scopes
import Vcx.Lib.Flow

/-!
# Lifetimes of automatic objects

What the statements of a function may do, block by block: the objects that a block, a statement or
a pass of a loop declares are constructed in it and destroyed when control leaves it, however it
does, the last first. `Tidy` says that the lowered function does nothing else on any path.
-/

namespace Vcx.Lower
set_option autoImplicit false
open Vcx.Lib Vcx.Lib.Beh

def destroys (objs : List Obj) : List Event := objs.map .destroy

def evals (e : Option Nat) : List Event := e.toList.map .eval

def constructs (objs : List Obj) : List Event := objs.map .construct

def Simple.events : Simple → List Event
  | .empty => []
  | .expr e => [.eval e]
  | .decl objs => constructs objs

def Simple.objs : Simple → List Obj
  | .decl objs => objs
  | .empty | .expr _ => []

def Cond.events : Cond → List Event
  | .expr e => [.eval e]
  | .decl obj => constructs obj.toList

def Cond.objs : Cond → List Obj
  | .decl obj => obj.toList
  | .expr _ => []

/-- The objects that a statement declares in the scope it stands in. -/
def Stmt.objs : Stmt → List Obj
  | .simple s => s.objs
  | _ => []

/-! ### What may happen -/

/-- `events` construct the objects, which live until control leaves. -/
def lives (events : List Event) (objs : List Obj) (B : Beh Event) : Beh Event := wrap events (destroys objs.reverse) B

def when (p : Prop) (B : Beh Event) : Beh Event := fun w o => p ∧ B w o

/-- A statement in a list: what it declares lives to the end of the list. -/
def sequel (s : Stmt) (B rest : Beh Event) : Beh Event :=
  match s with
  | .simple d => lives d.events d.objs rest
  | _ => seq B rest

mutual

def runs : Stmt → Beh Event
  | .simple s => lives s.events s.objs (just .normal)
  | .compound body => runsAll body
  | .ifStmt init c arm =>
      lives (init.events ++ c.events) (init.objs ++ c.objs) (either (runs arm) (just .normal))
  | .ifElse init c arm els =>
      lives (init.events ++ c.events) (init.objs ++ c.objs) (either (runs arm) (runs els))
  | .ifConst init taken => lives init.events init.objs (sequel taken (runs taken) (just .normal))
  | .whileStmt c body => Loop {c.events ++ destroys c.objs.reverse} False (lives c.events c.objs (runs body))
  | .doStmt body e => Loop ∅ True (followed [.eval e] (runs body))
  | .forStmt init c post body =>
      lives init.events init.objs
        (Loop {w | c.isSome = true ∧ w = evals c} False (wrap (evals c) [] (followed (evals post) (runs body))))
  | .rangeForStmt init range var body =>
      lives (init.events ++ constructs range.objs) (init.objs ++ range.objs)
        (Loop {[]} False (lives (constructs var.toList) var.toList (sequel body (runs body) (just .normal))))
  | .switchStmt init e body =>
      lives (init.events ++ [.eval e]) init.objs
        (broken (either (runsItems body false) (when (∀ g ∈ caseGroups body, .dflt ∉ g) (just .normal))))
  | .breakStmt => just .brk
  | .continueStmt => just .cont
  | .returnStmt value => wrap (evals value) [] (just .ret)

def runsAll : Stmts → Beh Event
  | .nil => just .normal
  | .cons s rest => sequel s (runs s) (runsAll rest)

/-- The statements of a switch body from where control is in it, or from any labelled one. -/
def runsItems : Items → Bool → Beh Event
  | .nil, within => when (within = true) (just .normal)
  | .cons labels s rest, within =>
      either (when (within = true ∨ labels ≠ []) (sequel s (runs s) (runsItems rest true)))
        (when (within = false) (runsItems rest false))

end

/-! ### Lifetimes as a stack -/

/-- The objects alive after a sequence of events, the last constructed first; none if an object
is destroyed that is not the last one. -/
def replay : List Event → List Obj → Option (List Obj)
  | [], alive => some alive
  | .eval _ :: w, alive => replay w alive
  | .construct x :: w, alive => replay w (x :: alive)
  | .destroy x :: w, alive =>
    match alive with
    | [] => none
    | y :: alive => if x = y then replay w alive else none

/-- On every path from the entry to a return the function does what its body may do and then
destroys its parameters, and each destruction is that of the last object alive. -/
def Tidy (params : List Obj) (body : Stmts) : Prop :=
  ∀ w, Path (lowered params body).code 0 w →
    (∃ t o, (o = .normal ∨ o = .ret) ∧ runs (.compound body) t o ∧ w = t ++ destroys params) ∧
    replay w params = some []

attribute [local simp] replay

theorem replay_append (v w : List Event) (alive : List Obj) :
    replay (v ++ w) alive = (replay v alive).bind (replay w) := by
  induction v, alive using replay.induct with
  | case1 alive => rfl
  | case2 e v alive ih => exact ih
  | case3 x v alive ih => exact ih
  | case4 x v => rfl
  | case5 v y alive ih => simpa [replay] using ih
  | case6 x v y alive ne => simp [replay, ne]

theorem replay_constructs (objs alive : List Obj) : replay (constructs objs) alive = some (objs.reverse ++ alive) := by
  induction objs generalizing alive with
  | nil => rfl
  | cons x objs ih =>
    rw [constructs, List.map_cons, replay]
    rw [constructs] at ih
    rw [ih, List.reverse_cons, List.append_assoc]
    rfl

theorem replay_destroys (objs alive : List Obj) : replay (destroys objs) (objs ++ alive) = some alive := by
  induction objs with
  | nil => rfl
  | cons x objs ih => simpa [destroys, replay] using ih

theorem replay_evals (e : Option Nat) (alive : List Obj) : replay (evals e) alive = some alive := by
  cases e <;> rfl

theorem Simple.replay_events (s : Simple) (alive : List Obj) : replay s.events alive = some (s.objs.reverse ++ alive) := by
  cases s with
  | empty => rfl
  | expr e => rfl
  | decl objs => exact replay_constructs objs alive

theorem Cond.replay_events (c : Cond) (alive : List Obj) : replay c.events alive = some (c.objs.reverse ++ alive) := by
  cases c with
  | expr e => rfl
  | decl obj => exact replay_constructs obj.toList alive

/-- Whatever a behaviour does, in the end the objects alive are those that were. -/
def Balanced (B : Beh Event) : Prop := ∀ w o, B w o → ∀ alive, replay w alive = some alive

theorem balanced_just (o : Outcome) : Balanced (just o) := by
  intro w o' did alive
  rw [did.1]
  rfl

theorem Balanced.either {A B : Beh Event} (a : Balanced A) (b : Balanced B) : Balanced (either A B) := by
  intro w o did
  obtain did | did := did
  · exact a w o did
  · exact b w o did

theorem Balanced.when {p : Prop} {B : Beh Event} (b : Balanced B) : Balanced (when p B) :=
  fun w o did => b w o did.2

theorem Balanced.broken {B : Beh Event} (b : Balanced B) : Balanced (broken B) := by
  intro w o did
  obtain ⟨did, -⟩ | ⟨did, -⟩ := did
  · exact b w o did
  · exact b w _ did

theorem replay_append_of {v w : List Event} {alive : List Obj} (first : replay v alive = some alive)
    (second : replay w alive = some alive) : replay (v ++ w) alive = some alive := by
  rw [replay_append, first]
  exact second

theorem Balanced.seq {A B : Beh Event} (a : Balanced A) (b : Balanced B) : Balanced (seq A B) := by
  intro w o did alive
  obtain ⟨did, -⟩ | ⟨v, u, did, then_, rfl⟩ := did
  · exact a w o did alive
  · exact replay_append_of (a v _ did alive) (b u o then_ alive)

theorem Balanced.lives {events : List Event} {objs : List Obj} {B : Beh Event} (b : Balanced B)
    (opens : ∀ alive, replay events alive = some (objs.reverse ++ alive)) : Balanced (lives events objs B) := by
  intro w o did alive
  obtain ⟨t, did, rfl⟩ := did
  rw [replay_append, replay_append, opens, Option.bind_some, b t o did, Option.bind_some, replay_destroys]

theorem Balanced.wrap_evals {e : Option Nat} {B : Beh Event} (b : Balanced B) : Balanced (wrap (evals e) [] B) := by
  intro w o did alive
  obtain ⟨t, did, rfl⟩ := did
  rw [List.append_nil]
  exact replay_append_of (replay_evals e alive) (b t o did alive)

theorem Balanced.followed {e : Option Nat} {B : Beh Event} (b : Balanced B) : Balanced (followed (evals e) B) := by
  intro w o did alive
  obtain ⟨t, did, ⟨-, rfl⟩ | ⟨-, rfl⟩⟩ := did
  · exact replay_append_of (b t o did alive) (replay_evals e alive)
  · exact b _ o did alive

theorem Balanced.loop {exits : Set (List Event)} {late : Prop} {pass : Beh Event} (b : Balanced pass)
    (out : ∀ w ∈ exits, ∀ alive, replay w alive = some alive) : Balanced (Loop exits late pass) := by
  intro w o did alive
  induction did with
  | exit fails => exact out _ fails alive
  | again did _ _ ih => exact replay_append_of (b _ _ did alive) ih
  | last _ did _ => exact b _ _ did alive
  | leave did => exact b _ _ did alive
  | returns did => exact b _ _ did alive

theorem Balanced.sequel {s : Stmt} {B rest : Beh Event} (b : Balanced B) (r : Balanced rest) : Balanced (sequel s B rest) := by
  unfold Lower.sequel
  split
  · rename_i d
    exact r.lives d.replay_events
  · exact b.seq r

theorem opens_append {v w : List Event} {xs ys : List Obj} (first : ∀ alive, replay v alive = some (xs.reverse ++ alive))
    (second : ∀ alive, replay w alive = some (ys.reverse ++ alive)) (alive : List Obj) :
    replay (v ++ w) alive = some ((xs ++ ys).reverse ++ alive) := by
  rw [replay_append, first, Option.bind_some, second, List.reverse_append, List.append_assoc]

mutual

/-- **Whatever a statement may do keeps the objects alive.** -/
theorem balanced_runs : ∀ s, Balanced (runs s)
  | .simple s => (balanced_just .normal).lives s.replay_events
  | .compound body => balanced_runsAll body
  | .ifStmt init c arm =>
      ((balanced_runs arm).either (balanced_just .normal)).lives (opens_append init.replay_events c.replay_events)
  | .ifElse init c arm els =>
      ((balanced_runs arm).either (balanced_runs els)).lives (opens_append init.replay_events c.replay_events)
  | .ifConst init taken => ((balanced_runs taken).sequel (balanced_just .normal)).lives init.replay_events
  | .whileStmt c body => by
      apply ((balanced_runs body).lives c.replay_events).loop
      intro w out alive
      rw [Set.mem_singleton_iff.1 out, replay_append, c.replay_events, Option.bind_some, replay_destroys]
  | .doStmt body e => ((balanced_runs body).followed (e := some e)).loop (by simp)
  | .forStmt init c post body => by
      apply Balanced.lives _ init.replay_events
      apply (balanced_runs body).followed.wrap_evals.loop
      intro w out alive
      rw [out.2]
      exact replay_evals c alive
  | .rangeForStmt init range var body => by
      apply Balanced.lives _ (opens_append init.replay_events (replay_constructs range.objs))
      apply (((balanced_runs body).sequel (balanced_just .normal)).lives (replay_constructs var.toList)).loop
      intro w out alive
      rw [Set.mem_singleton_iff.1 out]
      rfl
  | .switchStmt init e body => by
      have evaluated : ∀ alive, replay [Event.eval e] alive = some (([] : List Obj).reverse ++ alive) := fun _ => rfl
      have opens := opens_append init.replay_events evaluated
      rw [List.append_nil] at opens
      exact ((balanced_runsItems body false).either (balanced_just .normal).when).broken.lives opens
  | .breakStmt => balanced_just .brk
  | .continueStmt => balanced_just .cont
  | .returnStmt value => (balanced_just .ret).wrap_evals

theorem balanced_runsAll : ∀ body, Balanced (runsAll body)
  | .nil => balanced_just .normal
  | .cons s rest => (balanced_runs s).sequel (balanced_runsAll rest)

theorem balanced_runsItems : ∀ items within, Balanced (runsItems items within)
  | .nil, _ => (balanced_just .normal).when
  | .cons _ s rest, _ =>
      ((balanced_runs s).sequel (balanced_runsItems rest true)).when.either (balanced_runsItems rest false).when

end

end Vcx.Lower
