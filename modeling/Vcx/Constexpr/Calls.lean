import Vcx.Constexpr.Condition

/-!
# What a call leaves behind

`callFunction` puts back the scopes, the unit and the depth on every way out. The scope of the
call itself is dropped and not popped, so that what is declared in it, the parameters, stays
alive; `PopScope` ends what an inner scope has at its end, and a name that was declared twice
has lost its first object by then.
-/

namespace Vcx.ConstEval
set_option autoImplicit false
open Vcx.Lib Vcx.Types
open Vcx.Constexpr (Error)

variable {E : Env}

/-! ### Expressions and scopes -/

/-- The scopes, the unit and the call depth are what they were. -/
structure Restored (s t : State) : Prop where
  scopes : t.scopes = s.scopes
  unit : t.unit = s.unit
  callDepth : t.callDepth = s.callDepth

theorem Restored.refl (s : State) : Restored s s := ⟨rfl, rfl, rfl⟩

theorem Restored.trans (s t u : State) (first : Restored s t) (second : Restored t u) : Restored s u :=
  ⟨second.scopes.trans first.scopes, second.unit.trans first.unit, second.callDepth.trans first.callDepth⟩

/-- The queries of expressions. -/
def Query.isExpr : Query → Prop
  | .value _ | .place _ | .binaryOp .. | .callBody .. | .equal .. => True
  | _ => False

/-- What expressions do: they declare nothing and ask for no statement. -/
def ofExpr : Act Prim Query → Prop
  | .prim p => p.quiet
  | .ask q => q.isExpr

theorem permits_ofExpr (xs : List Expr) : Permits ofExpr xs :=
  ⟨fun _ _ => trivial, fun _ _ => trivial, fun _ _ _ => trivial, fun _ _ => trivial, fun _ quiet => quiet⟩

theorem all_ofExpr {q : Query} (expr : q.isExpr) (other : ∀ fn args, q ≠ .callBody fn args) : (body E q).All ofExpr := by
  cases q with
  | value e => exact ⟨trivial, fun r => by cases r <;> first | trivial | exact (permits_ofExpr e.operands).all_afterStep (List.Subset.refl _)⟩
  | place e => exact (permits_ofExpr e.operands).all_placeOf (List.Subset.refl _)
  | binaryOp op l r => exact all_evalBinaryOp (fun _ _ => trivial) op l r
  | equal l r => exact all_evalEqual (fun _ _ => trivial) (fun _ quiet => quiet) l r
  | callBody fn args => exact absurd rfl (other fn args)
  | _ => exact expr.elim

/-- What an expression's query leaves: a call in it puts back what it changes. -/
theorem restored_of_exec {n : Nat} {q : Query} {s s' : State} {r : Except Error (Result q)} (expr : q.isExpr)
    (answered : (machine E).exec n (.ask q) s = some (r, s')) : Restored s s' := by
  induction n generalizing q s s' with
  | zero => cases answered
  | succ n ih =>
    have depth := (follows_of_exec answered).depth
    obtain ⟨t, ran, rfl⟩ := Machine.exec_ask.1 answered
    by_cases call : ∃ fn args, q = .callBody fn args
    · obtain ⟨fn, args, rfl⟩ := call
      exact ⟨rfl, rfl, depth⟩
    · simp only [not_exists] at call
      have around : (machine E).enter q s = s ∧ (machine E).leave q s t = t := by
        cases q <;> first | exact ⟨rfl, rfl⟩ | exact expr.elim | exact absurd rfl (call _ _)
      rw [around.1] at ran
      rw [around.2]
      refine Program.run_rel Restored.refl Restored.trans ran fun a u x does done => ?_
      have permitted : ofExpr a := (all_ofExpr expr call).does does
      cases a with
      | prim p =>
        have eq : (machine E).exec 0 (.prim p) u = some (doPrim E p u) := rfl
        rw [← Machine.exec_unique eq done]
        have steady := steady_prim (E := E) permitted u
        exact ⟨steady.scopes, steady.unit, steady.callDepth⟩
      | ask q₁ => exact ih permitted done

/-- **A call restores the scopes, the unit and the depth, whatever it returns.** -/
theorem callFunction_restores {n : Nat} {fn : FuncInfo} {args : List Expr} {s s' : State} {r : Except Error Value}
    (ran : (callFunction E fn args).run ((machine E).exec n) s = some (r, s')) : Restored s s' := by
  refine Program.run_rel Restored.refl Restored.trans ran fun a u x does done => ?_
  have permitted : ofExpr a := ((permits_ofExpr args).all_callFunction (List.Subset.refl _) fn).does does
  cases a with
  | prim p =>
    have eq : (machine E).exec 0 (.prim p) u = some (doPrim E p u) := rfl
    rw [← Machine.exec_unique eq done]
    have steady := steady_prim (E := E) permitted u
    exact ⟨steady.scopes, steady.unit, steady.callDepth⟩
  | ask q₁ => exact restored_of_exec permitted done

/-! ### What a run declares -/

/-- An object that is declared in the run of a query. -/
def Created (E : Env) (q : Query) (s : State) (x : Nat) : Prop :=
  ∃ name typ val isConst t, (machine E).Occurs q s (.prim (.declare name typ val isConst)) t ∧ x = t.objects.length

theorem sound_enter (q : Query) (s : State) (before : s.Sound) : ((machine E).enter q s).Sound := by
  cases q with
  | callBody => exact ⟨fun _ mem => absurd mem List.not_mem_nil, fun _ mem => absurd mem List.not_mem_nil, List.nodup_nil⟩
  | _ => exact ⟨before.range, before.alive, before.nodup⟩

/-- A call has no scope but its own. -/
theorem sound_call (fn : FuncInfo) (args : List Value) (s : State) : ((machine E).enter (.callBody fn args) s).Sound :=
  ⟨fun _ mem => absurd mem List.not_mem_nil, fun _ mem => absurd mem List.not_mem_nil, List.nodup_nil⟩

theorem sound_of_occurs {q : Query} {s t : State} {a : Act Prim Query} (occurs : (machine E).Occurs q s a t)
    (start : ((machine E).enter q s).Sound) : t.Sound :=
  occurs.reach Follows.refl Follows.trans (fun _ _ run => run.sound) sound_enter (fun _ _ _ _ _ done => follows_of_act done) start

theorem length_of_occurs {q : Query} {s t : State} {a : Act Prim Query} (occurs : (machine E).Occurs q s a t) :
    s.objects.length ≤ t.objects.length := by
  have entered : ∀ (q : Query) (w : State), ((machine E).enter q w).objects = w.objects := fun q w => by cases q <;> rfl
  refine occurs.reach (J := fun w => s.objects.length ≤ w.objects.length) Follows.refl Follows.trans
    (fun _ _ run before => before.trans run.grows) (fun q w before => ?_) (fun _ _ _ _ _ done => follows_of_act done) ?_
  · rwa [entered]
  · rw [entered]

theorem Created.ge {q : Query} {s : State} {x : Nat} (created : Created E q s x) : s.objects.length ≤ x := by
  obtain ⟨name, typ, val, isConst, t, occurs, rfl⟩ := created
  exact length_of_occurs occurs

theorem popScope_held {w : State} {x : Nat} (mem : x ∈ w.popScope.held) : x ∈ w.held := by
  unfold State.popScope at mem
  split at mem
  · rename_i frame parent rest eq
    rw [State.held, eq, heldIn_cons]
    exact List.mem_append_right _ mem
  · exact mem

/-- The scopes gain nothing but what the run of `q` declares. -/
def Gains (E : Env) (q : Query) (s u v : State) : Prop := ∀ x ∈ v.held, x ∈ u.held ∨ Created E q s x

section
variable {q : Query} {s : State}

theorem Gains.refl (u : State) : Gains E q s u u := fun _ mem => .inl mem

theorem Gains.trans (u v w : State) (first : Gains E q s u v) (second : Gains E q s v w) : Gains E q s u w := fun x mem =>
  (second x mem).elim (first x) .inr

theorem gains_prim (p : Prim) (t : State) (occurs : (machine E).Occurs q s (.prim p) t) : Gains E q s t (doPrim E p t).2 := by
  by_cases quiet : p.quiet
  · exact fun x mem => .inl (by rwa [State.held, ← (steady_prim (E := E) quiet t).scopes])
  · cases p with
    | declare name typ val isConst =>
      intro x mem
      rcases declareVar_held t name typ val isConst mem with rfl | mem
      · exact .inr ⟨name, typ, val, isConst, t, occurs, rfl⟩
      · exact .inl mem
    | enterNames => exact fun x mem => .inl mem
    | _ => exact absurd trivial quiet

theorem gains_around (q' : Query) (t w : State) (run : Gains E q s ((machine E).enter q' t) w) :
    Gains E q s t ((machine E).leave q' t w) := by
  cases q' with
  | block | inScope | iteration => exact fun x mem => run x (popScope_held mem)
  | callBody => exact fun x mem => .inl mem
  | _ => exact run

theorem gains_of_act {b : Act Prim Query} {t : State} {m : Nat} {x : Answer Reply Result Error b × State}
    (occurs : (machine E).Occurs q s b t) (done : (machine E).exec m b t = some x) : Gains E q s t x.2 := by
  cases b with
  | prim p =>
    have eq : (machine E).exec 0 (.prim p) t = some (doPrim E p t) := rfl
    rw [← Machine.exec_unique eq done]
    exact gains_prim p t occurs
  | ask q' =>
    exact Machine.exec_rel (G := fun p u => (machine E).Occurs q s (.prim p) u) (C := fun _ _ => True) Gains.refl Gains.trans
      gains_prim (fun q' t w _ _ _ _ run => gains_around q' t w run) done (fun p u inner => occurs.within.occurs inner)
      fun _ _ _ => trivial

theorem created_of_held {fn : FuncInfo} {args : List Value} {t : State} {a : Act Prim Query} {x : Nat}
    (occurs : (machine E).Occurs (.callBody fn args) s a t) (mem : x ∈ t.held) : Created E (.callBody fn args) s x := by
  refine occurs.reach (J := fun w => ∀ x ∈ w.held, Created E (.callBody fn args) s x) Gains.refl Gains.trans
    (fun u v gains before x mem => (gains x mem).elim (before x) id) (fun q w before x mem => ?_)
    (fun _ _ _ _ occurs done => gains_of_act occurs done) (fun x mem => by cases mem) x mem
  cases q with
  | callBody => cases mem
  | _ => exact before x mem

end

/-! ### Declarations in order -/

/-- A declaration is made in a scope within the call's own, under a name that this scope does not have. -/
def Orderly : Prim → State → Prop
  | .declare name .., t => ∃ frame parent rest, t.scopes = frame :: parent :: rest ∧ frame.lookup name = none
  | _, _ => True

/-- Every declaration of a run is in order. -/
def Tidy (E : Env) (q : Query) (s : State) : Prop := ∀ p t, (machine E).Occurs q s (.prim p) t → Orderly p t

theorem inner_push {s : State} {x : Nat} (mem : x ∈ s.inner) : x ∈ s.pushScope.inner := by
  rw [State.inner] at mem
  rw [State.inner, State.pushScope]
  cases eq : s.scopes with
  | nil => rw [eq] at mem; cases mem
  | cons frame rest => rwa [List.dropLast_cons_cons, heldIn_cons, List.map_nil, List.nil_append, ← eq]

/-- The end of a scope ends what it has and leaves the rest where it is. -/
theorem popScope_inner {w : State} {x : Nat} (mem : x ∈ w.inner) :
    x ∈ w.popScope.inner ∨ (w.popScope.object x).isAlive = false := by
  rw [State.inner] at mem
  rcases eq : w.scopes with - | ⟨frame, - | ⟨parent, rest⟩⟩
  · rw [eq] at mem; cases mem
  · rw [eq] at mem; cases mem
  · rw [eq, List.dropLast_cons_cons, heldIn_cons, List.mem_append] at mem
    rw [popScope_eq eq]
    exact mem.symm.imp_right endLifetimes_held

theorem popScope_dead {w : State} {x : Nat} (dead : (w.object x).isAlive = false) : (w.popScope.object x).isAlive = false := by
  unfold State.popScope
  split
  · exact (endLifetimes_flags _ w x).1 dead
  · exact dead

theorem popScope_outside {w : State} {x : Nat} (outside : x ∉ w.inner) :
    w.popScope.object x = w.object x ∧ x ∉ w.popScope.inner := by
  unfold State.popScope
  split
  · rename_i frame parent rest eq
    rw [State.inner, eq, List.dropLast_cons_cons, heldIn_cons, List.mem_append, not_or] at outside
    exact ⟨endLifetimes_other outside.1, outside.2⟩
  · exact ⟨rfl, outside⟩

theorem popScope_length (w : State) : w.popScope.objects.length = w.objects.length := by
  unfold State.popScope
  split
  · exact endLifetimes_length ..
  · rfl

/-- At its end a call has its own scope only. -/
theorem Follows.inner_call {fn : FuncInfo} {args : List Value} {s w : State} (run : Follows (enter (.callBody fn args) s) w) :
    w.inner = [] := by
  obtain ⟨some, tail⟩ := run.shape (List.cons_ne_nil _ _)
  obtain ⟨frame, rest, eq⟩ := List.exists_cons_of_ne_nil some
  obtain rfl : rest = [] := by simpa [eq, enter] using tail
  rw [State.inner, eq]
  rfl

/-- What an orderly run leaves: what an inner scope had is in one still, or it is dead. -/
structure Kept (u v : State) : Prop extends Follows u v where
  kept : ∀ x < u.objects.length, x ∈ u.inner → x ∈ v.inner ∨ (v.object x).isAlive = false

theorem Kept.refl (u : State) : Kept u u := ⟨.refl u, fun _ _ mem => .inl mem⟩

theorem Kept.trans (u v w : State) (first : Kept u v) (second : Kept v w) : Kept u w := by
  refine ⟨.trans u v w first.toFollows second.toFollows, fun x old mem => ?_⟩
  have old' := old.trans_le first.grows
  exact (first.kept x old mem).elim (second.kept x old') fun dead => .inr (second.dead x old' dead)

theorem kept_prim (p : Prim) (t : State) (orderly : Orderly p t) : Kept t (doPrim E p t).2 := by
  refine ⟨follows_prim p t, fun x _ mem => .inl ?_⟩
  by_cases quiet : p.quiet
  · rwa [State.inner, (steady_prim (E := E) quiet t).scopes]
  · cases p with
    | declare name typ val isConst =>
      obtain ⟨frame, parent, rest, eq, fresh⟩ := orderly
      rw [State.inner, eq, List.dropLast_cons_cons, heldIn_cons, List.mem_append] at mem
      change x ∈ (t.declareVar name typ val isConst).2.inner
      rw [State.inner, declareVar_scopes, eq]
      simp only [bindVar_fresh fresh, List.dropLast_cons_cons, heldIn_cons, List.map_append, List.mem_append]
      exact mem.imp_left .inl
    | enterNames => exact mem
    | _ => exact absurd trivial quiet

theorem kept_around (q : Query) (t w : State) (run : Kept ((machine E).enter q t) w) : Kept t ((machine E).leave q t w) := by
  refine ⟨follows_around run.toFollows, ?_⟩
  cases q with
  | block | inScope | iteration =>
    exact fun x old mem => (run.kept x old (inner_push mem)).elim popScope_inner fun dead => .inr (popScope_dead dead)
  | callBody => exact fun x _ mem => .inl mem
  | _ => exact run.kept

theorem kept_of_act {q : Query} {s : State} (tidy : Tidy E q s) {b : Act Prim Query} {t : State} {m : Nat}
    {x : Answer Reply Result Error b × State} (occurs : (machine E).Occurs q s b t) (done : (machine E).exec m b t = some x) :
    Kept t x.2 := by
  cases b with
  | prim p =>
    have eq : (machine E).exec 0 (.prim p) t = some (doPrim E p t) := rfl
    rw [← Machine.exec_unique eq done]
    exact kept_prim p t (tidy p t occurs)
  | ask q' =>
    exact Machine.exec_rel (G := Orderly) (C := fun _ _ => True) Kept.refl Kept.trans kept_prim
      (fun q' t w _ _ _ _ run => kept_around q' t w run) done (fun p u inner => tidy p u (occurs.within.occurs inner))
      fun _ _ _ => trivial

section
variable {fn : FuncInfo} {args : List Value} {s s' : State} {r : Except Error Value} {n : Nat}

/-- Behind an orderly call what it declared is dead. -/
theorem dead_of_tidy (answered : (machine E).exec n (.ask (.callBody fn args)) s = some (r, s'))
    (tidy : Tidy E (.callBody fn args) s) {x : Nat} (created : Created E (.callBody fn args) s x) :
    (s'.object x).isAlive = false := by
  cases n with
  | zero => cases answered
  | succ n =>
    obtain ⟨v, ran, rfl⟩ := Machine.exec_ask.1 answered
    obtain ⟨name, typ, val, isConst, t, occurs, rfl⟩ := created
    have gone : ∀ {fn args} {u w : State}, Follows (enter (.callBody fn args) u) w →
        (t.objects.length ∈ w.inner ∨ (w.object t.objects.length).isAlive = false) → (w.object t.objects.length).isAlive = false := by
      intro fn args u w run held
      rw [run.inner_call] at held
      exact held.resolve_left List.not_mem_nil
    -- in the scope it is declared in, or dead, until its call is left
    obtain ⟨-, held⟩ := occurs.follow (I := fun w => t.objects.length < w.objects.length ∧
        (t.objects.length ∈ w.inner ∨ (w.object t.objects.length).isAlive = false)) Kept.refl Kept.trans
      (fun u w kept before => ⟨before.1.trans_le kept.grows,
        before.2.elim (kept.kept _ before.1) fun dead => .inr (kept.dead _ before.1 dead)⟩)
      (fun b u m x occurs done => kept_of_act tidy occurs done)
      (fun q' u k r w asked within ran before => by
        have run : Follows (enter q' u) w := follows_of_run ran
        cases q' with
        | block | inScope | iteration =>
          exact ⟨(popScope_length w).symm ▸ before.1, before.2.elim popScope_inner fun dead => .inr (popScope_dead dead)⟩
        | callBody =>
          have dead := gone run before.2
          exact ⟨before.1, .inr dead⟩
        | _ => exact before)
      (fun m x done => by
        have eq : (machine E).exec 0 (.prim (.declare name typ val isConst)) t = some (t.declareVar name typ val isConst) := rfl
        rw [← Machine.exec_unique eq done]
        obtain ⟨frame, parent, rest, eq, fresh⟩ := tidy _ t occurs
        refine ⟨by simp [declareVar_objects], .inl ?_⟩
        rw [State.inner, declareVar_scopes, eq]
        simp [bindVar_self])
      ran
    have run : Follows (enter (.callBody fn args) s) v := follows_of_run ran
    have dead := gone run held
    exact dead

/-- What no scope ends stays alive to the end of the call. -/
theorem alive_behind (answered : (machine E).exec n (.ask (.callBody fn args)) s = some (r, s')) {p : Prim} {t : State} {x : Nat}
    (occurs : (machine E).Occurs (.callBody fn args) s (.prim p) t)
    (own : ∀ fn args u, (machine E).Occurs (.callBody fn args) u (.prim p) t → u.objects.length ≤ x)
    (old : x < (doPrim E p t).2.objects.length) (alive : ((doPrim E p t).2.object x).isAlive = true)
    (outside : x ∉ (doPrim E p t).2.inner) : (s'.object x).isAlive = true := by
  cases n with
  | zero => cases answered
  | succ n =>
    obtain ⟨v, ran, rfl⟩ := Machine.exec_ask.1 answered
    refine (occurs.follow (I := fun w => x < w.objects.length ∧ (w.object x).isAlive = true ∧ x ∉ w.inner) Follows.refl Follows.trans
      (fun u w run before => ⟨before.1.trans_le run.grows, run.pinned x before.1 before.2.1 before.2.2⟩)
      (fun b u m x _ done => follows_of_act done)
      (fun q' u k r w asked within ran before => ?_)
      (fun m y done => ?_) ran).2.1
    · cases q' with
      | block | inScope | iteration =>
        obtain ⟨same, outside⟩ := popScope_outside before.2.2
        exact ⟨(popScope_length w).symm ▸ before.1, (congrArg _ same).trans before.2.1, outside⟩
      | callBody fn' args' =>
        refine ⟨before.1, before.2.1, fun mem => ?_⟩
        have range := (sound_of_occurs asked (sound_call fn args s)).range x (heldIn_dropLast mem)
        exact absurd (own fn' args' u within) (by omega)
      | _ => exact before
    · have eq : (machine E).exec 0 (.prim p) t = some (doPrim E p t) := rfl
      rw [← Machine.exec_unique eq done]
      exact ⟨old, alive, outside⟩

/-- **What a call declares is dead behind it exactly when all its declarations are in order.** -/
theorem dead_iff_tidy (answered : (machine E).exec n (.ask (.callBody fn args)) s = some (r, s')) :
    (∀ x, Created E (.callBody fn args) s x → (s'.object x).isAlive = false) ↔ Tidy E (.callBody fn args) s := by
  refine ⟨fun dead p t occurs => ?_, fun tidy x => dead_of_tidy answered tidy⟩
  cases p with
  | declare name typ val isConst =>
    have short : (∀ frame parent rest, t.scopes ≠ frame :: parent :: rest) → False := by
      intro short
      have alive := alive_behind (x := t.objects.length) answered occurs (fun _ _ _ inner => length_of_occurs inner)
        (by simp [doPrim, declareVar_objects]) (by simp only [doPrim]; rw [declareVar_new]; rfl) fun mem => by
          simp only [doPrim] at mem
          rw [State.inner, declareVar_scopes] at mem
          rcases eq : t.scopes with - | ⟨frame, - | ⟨parent, rest⟩⟩
          · rw [eq] at mem; cases mem
          · rw [eq] at mem; cases mem
          · exact short _ _ _ eq
      rw [dead _ ⟨name, typ, val, isConst, t, occurs, rfl⟩] at alive
      cases alive
    rcases eq : t.scopes with - | ⟨frame, - | ⟨parent, rest⟩⟩
    · exact (short (by simp [eq])).elim
    · exact (short (by simp [eq])).elim
    · refine ⟨frame, parent, rest, eq, ?_⟩
      by_contra taken
      obtain ⟨old, taken⟩ := Option.ne_none_iff_exists'.1 taken
      have sound := sound_of_occurs occurs (sound_call fn args s)
      have held : old ∈ t.held := by
        rw [State.held, eq, heldIn_cons]
        exact List.mem_append_left _ (mem_of_lookup taken)
      have lt := sound.range old held
      have gone : old ∉ (t.declareVar name typ val isConst).2.inner := fun mem => by
        have nodup := sound.nodup
        rw [State.held, eq, heldIn_cons, List.nodup_append'] at nodup
        rw [State.inner, declareVar_scopes, eq] at mem
        simp only [List.dropLast_cons_cons, heldIn_cons, List.mem_append] at mem
        rcases mem with mem | mem
        · exact bindVar_taken taken nodup.1 lt.ne mem
        · exact nodup.2.2 (mem_of_lookup taken) (heldIn_dropLast mem)
      have alive := alive_behind answered occurs (fun _ _ _ inner => (created_of_held inner held).ge)
        (by simp only [doPrim, declareVar_objects, List.length_append]; omega)
        (by simp only [doPrim]; rw [declareVar_old t name typ val isConst lt]; exact sound.alive old held) gone
      rw [dead old (created_of_held occurs held)] at alive
      cases alive
  | _ => trivial

end

/-! ### Calls -/

theorem all_values_asks (es : List Expr) : (values es).All fun a => ∃ e, a = .ask (.value e) := by
  induction es with
  | nil => exact Program.all_pure _
  | cons e rest ih =>
    exact Program.all_bind ⟨⟨e, rfl⟩, fun _ => trivial⟩ fun v => Program.all_bind ih fun vs => Program.all_pure _

section
variable {fn : FuncInfo} {args : List Expr} {s s' : State} {r : Except Error Value} {n : Nat}

theorem callFunction_last (ran : (callFunction E fn args).run ((machine E).exec n) s = some (r, s')) {vals : List Value} {t : State}
    (calls : (callFunction E fn args).Does ((machine E).exec n) s (.ask (.callBody fn vals)) t) :
    (machine E).exec n (.ask (.callBody fn vals)) t = some (r, s') := by
  have reading : depth.All fun a => a = .prim .depth := ⟨rfl, fun _ => trivial⟩
  rcases Program.does_bind calls with inside | ⟨d, u, reads, calls⟩
  · cases reading.does inside
  rw [callFunction, Program.run_bind, reads] at ran
  dsimp only [Option.bind_some] at ran
  split at calls
  · cases calls
  · rename_i allowed
    rw [if_neg allowed] at ran
    rcases Program.does_bind calls with inside | ⟨vals', u', evaluates, calls⟩
    · obtain ⟨e, eq⟩ := (all_values_asks args).does inside
      cases eq
    · rw [Program.run_bind, evaluates] at ran
      obtain ⟨x, answered, rest⟩ := Program.run_act.1 ran
      cases rest
      rcases calls with ⟨eq, rfl⟩ | ⟨_, -, nothing⟩
      · cases eq
        exact answered
      · cases nothing

/-- **What a call leaves.** It restores the scopes, the unit and the depth, whatever it returns; and what it and the calls in
it declare is dead behind it exactly when none of it is a parameter or declared where a scope has its name. -/
theorem call_ends (ran : (callFunction E fn args).run ((machine E).exec n) s = some (r, s')) :
    Restored s s' ∧ ∀ vals t, (callFunction E fn args).Does ((machine E).exec n) s (.ask (.callBody fn vals)) t →
      ((∀ x, Created E (.callBody fn vals) t x → (s'.object x).isAlive = false) ↔ Tidy E (.callBody fn vals) t) :=
  ⟨callFunction_restores ran, fun _ _ calls => dead_iff_tidy (callFunction_last ran calls)⟩

end

/-- `bool f() { bool x = true; return true; }` -/
def localX : FuncInfo := ⟨none, "f", [], [], some [.decl (.simple trueX), returns .true_], [], [], none⟩

/-- `bool f(bool x) { return true; }` -/
def parameterX : FuncInfo := ⟨none, "f", ["x"], [.basic .bool], some [returns .true_], [], [], none⟩

theorem localX_restores : ∃ r s t, (callFunction bare localX []).run ((machine bare).exec 6) initial = some (r, s) ∧
    Restored initial s ∧ (callFunction bare localX []).Does ((machine bare).exec 6) initial (.ask (.callBody localX [])) t ∧
    ((∀ x, Created bare (.callBody localX []) t x → (s.object x).isAlive = false) ↔ Tidy bare (.callBody localX []) t) := by
  obtain ⟨r, s, ran⟩ : ∃ r s, (callFunction bare localX []).run ((machine bare).exec 6) initial = some (r, s) := ⟨_, _, rfl⟩
  have calls : (callFunction bare localX []).Does ((machine bare).exec 6) initial (.ask (.callBody localX [])) initial :=
    .inr ⟨_, rfl, .inl ⟨rfl, rfl⟩⟩
  obtain ⟨restored, dead⟩ := call_ends ran
  exact ⟨r, s, initial, ran, restored, calls, dead [] initial calls⟩

/-- The parameter of `f(true)` is alive behind the call. -/
theorem parameter_alive : ¬ ∀ (E : Env) (fn : FuncInfo) (args : List Expr) (n : Nat) (s s' : State) (r : Except Error Value),
    (callFunction E fn args).run ((machine E).exec n) s = some (r, s') → ∀ vals t,
    (callFunction E fn args).Does ((machine E).exec n) s (.ask (.callBody fn vals)) t → ∀ x, Created E (.callBody fn vals) t x →
    (s'.object x).isAlive = false := by
  intro all
  have dead := all bare parameterX [.basicLit 0 .true_ 0] 6 initial _ _ rfl [.bool true] _
    (.inr ⟨_, rfl, .inr ⟨_, rfl, .inl ⟨rfl, rfl⟩⟩⟩) 0
    ⟨"x", some (.basic .bool), some (.bool true), false, _, .of_does (n := 6) (.inl ⟨rfl, rfl⟩), rfl⟩
  cases dead

end Vcx.ConstEval
