import Mathlib.Data.Set.Lattice
import Mathlib.Order.CompletePartialOrder
import Vcx.Lib.Paint
import Vcx.Preprocessor.Expand

/-!
# Macro expansion terminates

Every run of `expandInto` on a finite list ends, with or without a cap on nested expansion. The
hide sets are the paint of `Vcx.Lib.Paint`: an object-like macro adds itself to the name's, a
function-like one adds itself to what the name's and the closing parenthesis' have in common, and
an argument is expanded on its own before, as a part of what follows the name.
-/

namespace Vcx.Preprocessor
set_option autoImplicit false
open Vcx.Lib Vcx.Token

/-- What decides how a token expands; `pushRep` and `spaceLike` change the rest. -/
def Token.shape (t : Token) : Kind × String × HideSet := (t.kind, t.text, t.hide)

theorem shape_pushRep (rep : List Token) (at_ : Token) (s : List Token) :
    (pushRep rep at_ s).map Token.shape = rep.map Token.shape ++ s.map Token.shape := by
  cases rep with
  | cons r rep => simp [pushRep, Token.shape]
  | nil => cases s <;> simp [pushRep, Token.shape]

/-! ### Arguments -/

/-- The closing parenthesis stands where the rest of the stream begins, and every argument is a
part of what is before it. -/
theorem argumentsLoop_parts {m : Macro} {s : List Token} {args args' : List (List Token)} {cur s' : List Token}
    {depth slot : Nat} {rp : Token} (run : argumentsLoop m s args cur depth slot = some (args', rp, s')) :
    ∃ before, s = before ++ rp :: s' ∧ ∀ A ∈ args', A ∈ args ∨ A <:+: cur ++ before := by
  induction s generalizing args cur depth slot with
  | nil => cases run
  | cons t s ih =>
    -- a token that goes on the current argument
    have kept : ∀ {depth' slot'}, argumentsLoop m s args (cur ++ [t]) depth' slot' = some (args', rp, s') →
        ∃ before, t :: s = before ++ rp :: s' ∧ ∀ A ∈ args', A ∈ args ∨ A <:+: cur ++ before := by
      intro depth' slot' run
      obtain ⟨before, rfl, parts⟩ := ih run
      exact ⟨t :: before, rfl, fun A mem => by simpa using parts A mem⟩
    rw [argumentsLoop] at run
    split at run
    · exact kept run
    · split at run
      · simp only [Option.some.injEq, Prod.mk.injEq] at run
        obtain ⟨rfl, rfl, rfl⟩ := run
        refine ⟨[], rfl, fun A mem => ?_⟩
        rcases List.mem_append.1 mem with mem | mem
        · exact .inl mem
        · rw [List.mem_singleton.1 mem, List.append_nil]
          exact .inr List.infix_rfl
      · exact kept run
    · split at run
      · obtain ⟨before, rfl, parts⟩ := ih run
        refine ⟨t :: before, rfl, fun A mem => ?_⟩
        rcases parts A mem with mem | part
        · rcases List.mem_append.1 mem with mem | mem
          · exact .inl mem
          · rw [List.mem_singleton.1 mem]
            exact .inr (List.prefix_append cur _).isInfix
        · rw [List.nil_append] at part
          exact .inr (part.trans ⟨cur ++ [t], [], by simp⟩)
      · exact kept run
    · exact kept run

theorem mem_of_checkCount {args args' : List (List Token)} {m : Macro} {name : Token}
    (ok : checkCount args m name = .ok args') : ∀ A ∈ args', A ∈ args ∨ A = [] := by
  intro A mem
  unfold checkCount at ok
  split at ok
  · obtain rfl := Except.ok.inj ok
    rcases List.mem_append.1 mem with mem | mem
    · exact .inl mem
    · exact .inr (List.mem_singleton.1 mem)
  · split at ok
    · cases ok
    · split at ok
      · cases ok
      · obtain rfl := Except.ok.inj ok
        exact .inl mem

theorem mem_of_checkArity {args args' : List (List Token)} {m : Macro} {name : Token}
    (ok : checkArity args m name = .ok args') : ∀ A ∈ args', A ∈ args ∨ A = [] := by
  intro A mem
  refine (mem_of_checkCount ok A mem).imp_left fun given => ?_
  split at given
  · cases given
  · exact given

/-- What a call takes from the stream. -/
theorem arguments_ok {s s' : List Token} {m : Macro} {name rp : Token} {args : List (List Token)}
    (run : arguments s m name = (.ok (args, rp), s')) :
    ∃ before, s = before ++ rp :: s' ∧ ∀ A ∈ args, A <:+: before := by
  unfold arguments at run
  split at run
  · cases run
  · rename_i args' rp' s'' loop
    rw [Prod.mk.injEq] at run
    obtain ⟨ok, rfl⟩ := run
    cases arity : checkArity args' m name with
    | error e => rw [arity] at ok; cases ok
    | ok args'' =>
      rw [arity] at ok
      obtain ⟨rfl, rfl⟩ := Prod.mk.inj (Except.ok.inj ok)
      obtain ⟨before, rfl, parts⟩ := argumentsLoop_parts loop
      refine ⟨before, rfl, fun A mem => ?_⟩
      rcases mem_of_checkArity arity A mem with mem | rfl
      · simpa using parts A mem
      · exact List.nil_infix

theorem arguments_suffix {s s' : List Token} {m : Macro} {name : Token} {err : Diagnostic}
    (run : arguments s m name = (.error err, s')) : s' <:+ s := by
  unfold arguments at run
  split at run
  · obtain ⟨-, rfl⟩ := Prod.mk.inj run
    exact List.nil_suffix
  · rename_i args' rp' s'' loop
    obtain ⟨-, rfl⟩ := Prod.mk.inj run
    obtain ⟨before, rfl, -⟩ := argumentsLoop_parts loop
    exact ⟨before ++ [rp'], by simp⟩

/-! ### More fuel

What a run computed it computes with more fuel; the argument expander is an oracle that may
not answer. -/

/-- `o'` gives at least the answers of `o`. -/
def Below (o o' : List Token → St → Option (List Token × St)) : Prop :=
  ∀ ts st r, o ts st = some r → o' ts st = some r

section
variable {env : Env} {o o' : List Token → St → Option (List Token × St)} {m : Macro} {ap : List (List Token)}
  {use : Site} {outer : List Expansion}

theorem substOne_mono (below : Below o o') {t : Token} {next : Option Token} {os : List Token} {st : St}
    {r : Bool × List Token × St} (run : substOne env o m ap use outer t next os st = some r) :
    substOne env o' m ap use outer t next os st = some r := by
  unfold substOne at run ⊢
  cases round : substRound env m ap use outer t next os st with
  | done takesNext os' st' => rwa [round] at run
  | expanded takesNext n param =>
    rw [round] at run
    obtain ⟨x, answer, rfl⟩ := Option.map_eq_some_iff.1 run
    exact Option.map_eq_some_iff.2 ⟨x, below _ _ _ answer, rfl⟩

theorem substLoop_mono (below : Below o o') {is os : List Token} {st : St} {r : List Token × St}
    (run : substLoop env o m ap use outer is os st = some r) :
    substLoop env o' m ap use outer is os st = some r := by
  induction is, os, st using substLoop.induct with
  | case1 os st => exact run
  | case2 t os st =>
    rw [substLoop] at run ⊢
    obtain ⟨x, one, rfl⟩ := Option.map_eq_some_iff.1 run
    exact Option.map_eq_some_iff.2 ⟨x, substOne_mono below one, rfl⟩
  | case3 t p ts os st ih ih' =>
    rw [substLoop] at run ⊢
    obtain ⟨x, one, rest⟩ := Option.bind_eq_some_iff.1 run
    refine Option.bind_eq_some_iff.2 ⟨x, substOne_mono below one, ?_⟩
    split at rest
    · rename_i takesNext
      rw [if_pos takesNext]
      exact ih x rest
    · rename_i leaves
      rw [if_neg leaves]
      exact ih' x rest

theorem subst_mono (below : Below o o') {is : List Token} {hs : HideSet} {st : St} {r : List Token × St}
    (run : subst env o m ap use outer is hs st = some r) : subst env o' m ap use outer is hs st = some r := by
  obtain ⟨x, loop, rfl⟩ := Option.map_eq_some_iff.1 run
  exact Option.map_eq_some_iff.2 ⟨x, substLoop_mono below loop, rfl⟩

end

/-! ### One step -/

/-- What a call of `m` at `t` takes from the stream, and the hide set it makes. -/
inductive Taken (t : Token) (m : Macro) : List Token → HideSet → List Token → Prop
  | name (rest : List Token) : Taken t m rest (t.hide.add m.id) rest
  | call (before : List Token) (rp : Token) (s : List Token) :
    Taken t m (before ++ rp :: s) ((t.hide.inter rp.hide).add m.id) s

/-- What `expandOne` can do, whatever the expander of the arguments answers. -/
inductive HeadStep (env : Env) (t : Token) (rest : List Token) (st : St) : Prop
  | refused (s : List Token) (st' : St) (left : s.tail <:+ rest)
    (eq : ∀ o, expandOne env o t rest st = some (false, s, st'))
  | made (m : Macro) (rep : List Token) (st' : St) (entry : m ∈ env.macros.entries)
    (free : t.hide.has m.id = false) (literal : ∀ x ∈ rep, x.isName = false)
    (eq : ∀ o, expandOne env o t rest st = some (true, pushRep rep t rest, st'))
  | invoked (m : Macro) (ap : List (List Token)) (hs : HideSet) (s : List Token) (entry : m ∈ env.macros.entries)
    (free : t.hide.has m.id = false) (parts : ∀ A ∈ ap, A <:+: rest) (taken : Taken t m rest hs s)
    (eq : ∀ o, expandOne env o t rest st =
      (subst env o m ap t.site t.exp m.body hs st).map fun r => (true, pushRep r.1 t s, r.2))

theorem builtin_literal (env : Env) (m : Macro) (at_ : Token) (st : St) :
    ∀ x ∈ (builtin env m at_ st).1, x.isName = false := by
  intro x mem
  unfold builtin at mem
  cases kind : m.builtin <;> simp only [kind, List.mem_singleton, List.not_mem_nil] at mem <;> subst mem <;> rfl

theorem expandOne_cases (env : Env) (t : Token) (rest : List Token) (st : St) : HeadStep env t rest st := by
  cases found : env.macros.lookup t.text with
  | none => exact .refused (t :: rest) st List.suffix_rfl fun o => by simp [expandOne, found]
  | some m =>
    have entry : m ∈ env.macros.entries := List.mem_of_find?_eq_some found
    cases hidden : t.hide.has m.id with
    | true => exact .refused (t :: rest) st List.suffix_rfl fun o => by simp [expandOne, found, hidden]
    | false =>
      by_cases plain : m.builtin = .notBuiltin
      · cases obj : m.objLike with
        | true =>
          refine .invoked m [] (t.hide.add m.id) rest entry hidden (by simp) (.name rest) fun o => ?_
          simp [expandOne, found, hidden, plain, obj]
        | false =>
          cases rest with
          | nil =>
            exact .refused [t] st List.suffix_rfl fun o => by simp [expandOne, found, hidden, plain, obj]
          | cons lp s =>
            by_cases paren : lp.kind = .lparen
            · cases call : arguments s m t with
              | mk result s' =>
                cases result with
                | error err =>
                  refine .refused s' _ ?_ fun o => by
                    simp only [expandOne, found, hidden, plain, obj, paren, call, Bool.false_eq_true, if_false,
                      ne_eq, not_true_eq_false]
                    rfl
                  exact (List.tail_suffix s').trans ((arguments_suffix call).trans (List.suffix_cons lp s))
                | ok parsed =>
                  obtain ⟨args, rp⟩ := parsed
                  obtain ⟨before, rfl, parts⟩ := arguments_ok call
                  refine .invoked m args _ s' entry hidden (fun A mem => (parts A mem).trans ?_)
                    (.call (lp :: before) rp s') fun o => ?_
                  · exact ⟨[lp], rp :: s', by simp⟩
                  · simp [expandOne, found, hidden, plain, obj, paren, call]
            · exact .refused (t :: lp :: s) st List.suffix_rfl fun o => by
                simp [expandOne, found, hidden, plain, obj, paren]
      · refine .made m (builtin env m t st).1 (builtin env m t st).2 entry hidden (builtin_literal env m t st) fun o => ?_
        simp [expandOne, found, hidden, plain]

theorem expandOne_mono {env : Env} {o o' : List Token → St → Option (List Token × St)} (below : Below o o')
    {t : Token} {rest : List Token} {st : St} {r : Bool × List Token × St}
    (run : expandOne env o t rest st = some r) : expandOne env o' t rest st = some r := by
  cases expandOne_cases env t rest st with
  | refused s st' left eq => rw [eq] at run ⊢; exact run
  | made m rep st' entry free literal eq => rw [eq] at run ⊢; exact run
  | invoked m ap hs s entry free parts taken eq =>
    rw [eq] at run ⊢
    obtain ⟨x, done, rfl⟩ := Option.map_eq_some_iff.1 run
    exact Option.map_eq_some_iff.2 ⟨x, subst_mono below done, rfl⟩

theorem expandClosedBy_mono {env : Env} {into into' : Nat → List Token → List Token → St → Option (List Token × St)}
    (below : ∀ depth s out st r, into depth s out st = some r → into' depth s out st = some r) (depth : Nat) :
    Below (expandClosedBy env into depth) (expandClosedBy env into' depth) := by
  intro ts st r run
  cases ts with
  | nil => exact run
  | cons t ts =>
    simp only [expandClosedBy] at run ⊢
    by_cases deep : env.maxExpansionDepth.any (· < depth + 1) = true
    · rwa [if_pos deep] at run ⊢
    · rw [if_neg deep] at run ⊢
      exact below _ _ _ _ _ run

theorem expandInto_succ {env : Env} (fuel : Nat) : ∀ (depth : Nat) (s out : List Token) (st : St)
    (r : List Token × St), expandInto env fuel depth s out st = some r →
    expandInto env (fuel + 1) depth s out st = some r := by
  induction fuel with
  | zero =>
    intro depth s out st r run
    cases run
  | succ fuel ih =>
    intro depth s out st r run
    cases s with
    | nil => exact run
    | cons t rest =>
      rw [expandInto] at run ⊢
      by_cases name : t.isName = true
      · rw [if_pos name] at run ⊢
        obtain ⟨x, one, more⟩ := Option.bind_eq_some_iff.1 run
        refine Option.bind_eq_some_iff.2 ⟨x, expandOne_mono (expandClosedBy_mono ih depth) one, ?_⟩
        by_cases did : x.1 = true
        · rw [if_pos did] at more ⊢
          exact ih _ _ _ _ _ more
        · rw [if_neg did] at more ⊢
          exact ih _ _ _ _ _ more
      · rw [if_neg name] at run ⊢
        exact ih _ _ _ _ _ run

theorem expandInto_mono {env : Env} {fuel fuel' depth : Nat} {s out : List Token} {st : St} {r : List Token × St}
    (le : fuel ≤ fuel') (run : expandInto env fuel depth s out st = some r) :
    expandInto env fuel' depth s out st = some r := by
  induction le with
  | refl => exact run
  | step le ih => exact expandInto_succ _ _ _ _ _ _ ih

/-! ### Enough fuel -/

section
variable {o : Nat → List Token → St → Option (List Token × St)} {ap : List (List Token)}
  (env : Env) (m : Macro) (use : Site) (outer : List Expansion)

theorem substOne_ends (ends : ∀ n st, ∃ fuel r, o fuel (ap.getD n []) st = some r) (t : Token) (next : Option Token)
    (os : List Token) (st : St) : ∃ fuel r, substOne env (o fuel) m ap use outer t next os st = some r := by
  unfold substOne
  cases substRound env m ap use outer t next os st with
  | done takesNext os' st' => exact ⟨0, _, rfl⟩
  | expanded takesNext n param =>
    obtain ⟨fuel, r, answer⟩ := ends n st
    exact ⟨fuel, _, Option.map_eq_some_iff.2 ⟨r, answer, rfl⟩⟩

theorem substLoop_ends (mono : ∀ {f f'}, f ≤ f' → Below (o f) (o f'))
    (ends : ∀ n st, ∃ fuel r, o fuel (ap.getD n []) st = some r) (is os : List Token) (st : St) :
    ∃ fuel r, substLoop env (o fuel) m ap use outer is os st = some r := by
  induction is, os, st using substLoop.induct with
  | case1 os st => exact ⟨0, _, rfl⟩
  | case2 t os st =>
    obtain ⟨fuel, r, one⟩ := substOne_ends env m use outer ends t none os st
    exact ⟨fuel, _, Option.map_eq_some_iff.2 ⟨r, one, rfl⟩⟩
  | case3 t p ts os st ih ih' =>
    obtain ⟨fuel, r, one⟩ := substOne_ends env m use outer ends t (some p) os st
    have more : ∃ fuel' x, (if r.1 then substLoop env (o fuel') m ap use outer ts r.2.1 r.2.2
        else substLoop env (o fuel') m ap use outer (p :: ts) r.2.1 r.2.2) = some x := by
      cases r.1 with
      | true => exact ih r
      | false => exact ih' r
    obtain ⟨fuel', x, loop⟩ := more
    refine ⟨max fuel fuel', x, ?_⟩
    rw [substLoop]
    refine Option.bind_eq_some_iff.2 ⟨r, substOne_mono (mono (le_max_left _ _)) one, ?_⟩
    by_cases takesNext : r.1 = true
    · rw [if_pos takesNext] at loop ⊢
      exact substLoop_mono (mono (le_max_right _ _)) loop
    · rw [if_neg takesNext] at loop ⊢
      exact substLoop_mono (mono (le_max_right _ _)) loop

theorem subst_ends (mono : ∀ {f f'}, f ≤ f' → Below (o f) (o f'))
    (ends : ∀ n st, ∃ fuel r, o fuel (ap.getD n []) st = some r) (is : List Token) (hs : HideSet) (st : St) :
    ∃ fuel r, subst env (o fuel) m ap use outer is hs st = some r := by
  obtain ⟨fuel, r, loop⟩ := substLoop_ends env m use outer mono ends (vaOptRewrite m is ap) [] st
  exact ⟨fuel, _, Option.map_eq_some_iff.2 ⟨r, loop, rfl⟩⟩

end

theorem subst_painted {env : Env} {o : List Token → St → Option (List Token × St)} {m : Macro}
    {ap : List (List Token)} {use : Site} {outer : List Expansion} {is : List Token} {hs : HideSet} {st : St}
    {r : List Token × St} (run : subst env o m ap use outer is hs st = some r) :
    ∀ x ∈ r.1, hs.toFinset ⊆ x.hide.toFinset := by
  obtain ⟨x, -, rfl⟩ := Option.map_eq_some_iff.1 run
  exact fun t mem => mem_hsadd mem

/-! ### The induction -/

/-- The macros of the table, as hide sets name them. -/
def Table.ids (t : Table) : Finset Nat := (t.entries.map Macro.id).toFinset

/-- Expansion ends on every list of these shapes. -/
def Ends (env : Env) (shapes : List (Kind × String × HideSet)) : Prop :=
  ∀ s : List Token, s.map Token.shape = shapes → ∀ depth out st, ∃ fuel r, expandInto env fuel depth s out st = some r

theorem Ends.closed {env : Env} {shapes : List (Kind × String × HideSet)} (ends : Ends env shapes) {ts : List Token}
    (eq : ts.map Token.shape = shapes) (depth : Nat) (st : St) :
    ∃ fuel r, expandClosed env fuel depth ts st = some r := by
  cases ts with
  | nil => exact ⟨0, _, rfl⟩
  | cons t ts =>
    by_cases deep : env.maxExpansionDepth.any (· < depth + 1) = true
    · exact ⟨0, _, if_pos deep⟩
    · obtain ⟨fuel, r, run⟩ := ends (t :: ts) eq (depth + 1) [] st
      exact ⟨fuel, r, (if_neg deep).trans run⟩

theorem expandClosedBy_below (env : Env) (depth : Nat) {fuel fuel' : Nat} (le : fuel ≤ fuel') :
    Below (expandClosedBy env (expandInto env fuel) depth) (expandClosedBy env (expandInto env fuel') depth) :=
  expandClosedBy_mono (fun _ _ _ _ _ run => expandInto_mono le run) depth

/-- A head that is kept. -/
theorem expandInto_keep {env : Env} {t : Token} {rest : List Token} (literal : t.isName = false)
    (ends : ∀ depth out st, ∃ fuel r, expandInto env fuel depth rest out st = some r) (depth : Nat)
    (out : List Token) (st : St) : ∃ fuel r, expandInto env fuel depth (t :: rest) out st = some r := by
  obtain ⟨fuel, r, run⟩ := ends depth (out ++ [t]) st
  exact ⟨fuel + 1, r, by simpa [expandInto, literal] using run⟩

/-- Tokens that are no names in front change nothing. -/
theorem Ends.literals {env : Env} {shapes : List (Kind × String × HideSet)} (ends : Ends env shapes)
    (rep : List Token) (literal : ∀ x ∈ rep, x.isName = false) : Ends env (rep.map Token.shape ++ shapes) := by
  induction rep with
  | nil => exact ends
  | cons x rep ih =>
    intro s eq
    obtain ⟨y, s, rfl, same, rest⟩ := List.map_eq_cons_iff.1 eq
    have kind : y.kind = x.kind := congrArg Prod.fst same
    refine expandInto_keep ?_ (ih (fun z mem => literal z (List.mem_cons_of_mem x mem)) s rest)
    have := literal x List.mem_cons_self
    rwa [Token.isName, ← kind] at this

/-- An invocation that came to a stream on which expansion ends. -/
theorem expandInto_of_expandOne {env : Env} {t : Token} {rest s out : List Token} {st st' : St} {fuel depth : Nat}
    (name : t.isName = true)
    (one : expandOne env (expandClosedBy env (expandInto env fuel) depth) t rest st = some (true, s, st'))
    (ends : ∃ fuel r, expandInto env fuel depth s out st' = some r) :
    ∃ fuel r, expandInto env fuel depth (t :: rest) out st = some r := by
  obtain ⟨fuel', r, run⟩ := ends
  refine ⟨max fuel fuel' + 1, r, ?_⟩
  have one' := expandOne_mono (expandClosedBy_below env depth (le_max_left fuel fuel')) one
  rw [expandInto, if_pos name, one', Option.bind_some, if_pos rfl]
  exact expandInto_mono (le_max_right fuel fuel') run

/-- What the streams after one step hand on to the stream. -/
theorem ends_paintClosed (env : Env) :
    PaintClosed (fun shape => shape.2.2.toFinset) env.macros.ids (Ends env) where
  nil := by
    intro s eq depth out st
    obtain rfl := List.map_eq_nil_iff.1 eq
    exact ⟨1, _, rfl⟩
  cons := by
    intro shape shapes parts object call s eq depth out st
    obtain ⟨t, rest, rfl, rfl, rfl⟩ := List.map_eq_cons_iff.1 eq
    have part : ∀ A, A <:+: rest → Ends env (A.map Token.shape) := fun A inRest => parts _ (inRest.map Token.shape)
    by_cases name : t.isName = true
    · cases expandOne_cases env t rest st with
      | refused s st' left eq =>
        obtain ⟨fuel, r, run⟩ := part s.tail left.isInfix s.tail rfl depth (out ++ [t]) st'
        refine ⟨fuel + 1, r, ?_⟩
        rw [expandInto, if_pos name, eq, Option.bind_some, if_neg (by simp)]
        exact run
      | made m rep st' entry free literal eq =>
        have ends := (part rest List.infix_rfl).literals rep literal
        exact expandInto_of_expandOne name (eq (expandClosedBy env (expandInto env 0) depth))
          (ends _ (shape_pushRep rep t rest) depth out st')
      | invoked m ap hs s entry free partsOf taken eq =>
        have argEnds : ∀ n st, ∃ fuel r, expandClosedBy env (expandInto env fuel) depth (ap.getD n []) st = some r := by
          intro n st
          refine (part (ap.getD n []) ?_).closed rfl depth st
          rw [List.getD_eq_getElem?_getD]
          cases at_ : ap[n]? with
          | none => exact List.nil_infix
          | some A => exact partsOf A (List.mem_of_getElem? at_)
        obtain ⟨fuel, r, run⟩ := subst_ends env m t.site t.exp (expandClosedBy_below env depth) argEnds m.body hs st
        have rule : m.id ∈ env.macros.ids := List.mem_toFinset.2 (List.mem_map_of_mem entry)
        have fresh : m.id ∉ t.hide.toFinset := by
          rw [HideSet.mem_toFinset, free]
          exact Bool.false_ne_true
        have painted : ∀ B : Finset Nat, B = hs.toFinset →
            Painted (fun shape : Kind × String × HideSet => shape.2.2.toFinset) B (r.1.map Token.shape) := by
          rintro B rfl x mem
          obtain ⟨y, inRep, rfl⟩ := List.mem_map.1 mem
          exact subst_painted run y inRep
        have ends : Ends env (r.1.map Token.shape ++ s.map Token.shape) := by
          cases taken with
          | name => exact object m.id rule fresh _ (painted _ (by simp [Token.shape]))
          | call before rp =>
            refine call (before.map Token.shape) rp.shape (s.map Token.shape) (by simp) m.id rule fresh _
              (painted _ (by simp [Token.shape]))
        exact expandInto_of_expandOne name ((eq _).trans (Option.map_eq_some_iff.2 ⟨r, run, rfl⟩))
          (ends _ (shape_pushRep r.1 t s) depth out r.2)
    · exact expandInto_keep (by simpa using name) (part rest List.infix_rfl rest rfl) depth out st

/-! ### Chains of nested expansions -/

/-- The macros a token can still invoke. -/
def Token.expandable (env : Env) (t : Token) : Set String :=
  {name | t.isName = true ∧ ∃ m ∈ env.macros.entries, m.name = name ∧ t.hide.has m.id = false}

/-- One nested expansion: what a stream becomes when its head invokes a macro, or an argument
of the call, which is expanded on its own. -/
inductive Nested (env : Env) : List Token → List Token → Prop
  | replaced {t : Token} {rest s : List Token} {o : List Token → St → Option (List Token × St)} {st st' : St}
    (name : t.isName = true) (one : expandOne env o t rest st = some (true, s, st')) : Nested env (t :: rest) s
  | argument {t lp rp : Token} {s s' A : List Token} {m : Macro} {args : List (List Token)}
    (found : env.macros.lookup t.text = some m) (call : arguments s m t = (.ok (args, rp), s')) (mem : A ∈ args) :
    Nested env (t :: lp :: s) A

/-- After a nested expansion at `t` the stream is a part of what followed `t`; or new tokens and
less than what followed `t`; or new tokens, each with fewer macros to invoke than `t`, and what
followed `t`. -/
inductive Shrinks (env : Env) (t : Token) (rest s : List Token) : Prop
  | part (shorter : s.length < rest.length) (inside : s <:+: rest)
  | consumed (rep left : List Token) (eq : s.map Token.shape = rep.map Token.shape ++ left.map Token.shape)
    (suffix : left <:+ rest) (shorter : left.length < rest.length)
  | painted (rep : List Token) (eq : s.map Token.shape = rep.map Token.shape ++ rest.map Token.shape)
    (fewer : ∀ x ∈ rep, x.expandable env ⊂ t.expandable env)

theorem mem_expandable {env : Env} {t : Token} {m : Macro} (name : t.isName = true) (entry : m ∈ env.macros.entries)
    (free : t.hide.has m.id = false) : m.name ∈ t.expandable env :=
  ⟨name, m, entry, rfl, free⟩

theorem expandable_ssubset {env : Env} {t x : Token} {m : Macro} (name : t.isName = true)
    (entry : m ∈ env.macros.entries) (free : t.hide.has m.id = false)
    (painted : (t.hide.add m.id).toFinset ⊆ x.hide.toFinset) : x.expandable env ⊂ t.expandable env := by
  rw [HideSet.toFinset_add] at painted
  refine ⟨?_, fun all => ?_⟩
  · rintro _ ⟨-, m', entry', rfl, free'⟩
    refine mem_expandable name entry' ?_
    rw [← Bool.not_eq_true, ← HideSet.mem_toFinset] at free' ⊢
    exact fun mem => free' (painted (Finset.mem_insert_of_mem mem))
  · obtain ⟨-, m', entry', same, free'⟩ := all (mem_expandable name entry free)
    obtain rfl : m' = m := List.inj_on_of_nodup_map env.macros.nodup entry' entry same
    rw [← Bool.not_eq_true, ← HideSet.mem_toFinset] at free'
    exact free' (painted (Finset.mem_insert_self _ _))

theorem nested_shrinks {env : Env} {t : Token} {rest s : List Token} (nested : Nested env (t :: rest) s) :
    Shrinks env t rest s := by
  cases nested with
  | replaced name one =>
    rename_i o st st'
    cases expandOne_cases env t rest st with
    | refused s' st'' left eq => simp [eq] at one
    | made m rep st'' entry free literal eq =>
      rw [eq] at one
      obtain rfl : pushRep rep t rest = s := congrArg (fun r => r.2.1) (Option.some.inj one)
      refine .painted rep (shape_pushRep _ _ _) fun x mem => ⟨?_, fun all => ?_⟩
      · rintro name' ⟨isName, -⟩
        rw [literal x mem] at isName
        cases isName
      · have := (all (mem_expandable name entry free)).1
        rw [literal x mem] at this
        cases this
    | invoked m ap hs s' entry free parts taken eq =>
      rw [eq] at one
      obtain ⟨r, run, same⟩ := Option.map_eq_some_iff.1 one
      obtain rfl : pushRep r.1 t s' = s := congrArg (fun r => r.2.1) same
      cases taken with
      | name =>
        exact .painted r.1 (shape_pushRep _ _ _) fun x mem =>
          expandable_ssubset name entry free (subst_painted run x mem)
      | call before rp =>
        exact .consumed r.1 s' (shape_pushRep _ _ _) ⟨before ++ [rp], by simp⟩ (by simp; omega)
  | argument found call mem =>
    obtain ⟨before, rfl, parts⟩ := arguments_ok call
    have inside := parts _ mem
    have := inside.length_le
    exact .part (by simp; omega) (inside.trans ⟨_ :: [], _, rfl⟩)

/-- **Macro expansion terminates**: whatever the table and the list of tokens, at any nesting and
with or without a cap on it, and along every chain of nested expansions the stream shrinks or its
new tokens have fewer macros to invoke. -/
theorem expandClosed_terminates (env : Env) (ts : List Token) :
    (∀ depth st, ∃ fuel r, expandClosed env fuel depth ts st = some r) ∧
      ∀ t rest s, Nested env (t :: rest) s → Shrinks env t rest s :=
  ⟨((ends_paintClosed env).all (ts.map Token.shape)).closed rfl, fun _ _ _ => nested_shrinks⟩

end Vcx.Preprocessor
