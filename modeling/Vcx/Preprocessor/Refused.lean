import Vcx.Preprocessor.Terminates

/-!
# Refused invocations

A function-like macro invocation with the wrong number of arguments, or with no closing parenthesis, is refused:
`expandOne` has taken it from the stream when it answers `false`, and `expandInto` then takes one token more.
The loop is taken here with the place where it goes on as a parameter, so that the code's loop can be compared
with the one that goes on right behind the closing parenthesis.
-/

namespace Vcx.Preprocessor
set_option autoImplicit false
open Vcx.Token (Kind)

/-- What stands behind the invocation at `t`, if it is refused: nothing behind one that does not end. -/
def refusedAt (env : Env) (t : Token) (rest : List Token) : Option (List Token) :=
  match env.macros.lookup t.text, rest with
  | some m, lp :: s =>
    if t.hide.has m.id || m.builtin ≠ .notBuiltin || m.objLike || lp.kind ≠ .lparen then none
    else match arguments s m t with
      | (.error _, after) => some after
      | (.ok _, _) => none
  | _, _ => none

/-- `expandInto` with `resume`: where it goes on, given what stands behind a refused invocation. -/
def expandIntoBy (env : Env) (resume : List Token → Option (List Token)) :
    Nat → Nat → List Token → List Token → St → Option (List Token × St)
  | 0, _, _, _, _ => none
  | _ + 1, _, [], out, st => some (out, st)
  | fuel + 1, depth, t :: rest, out, st =>
    if t.isName then
      (expandOne env (expandClosedBy env (expandIntoBy env resume fuel) depth) t rest st).bind fun r =>
        if r.1 then expandIntoBy env resume fuel depth r.2.1 out r.2.2
        else match refusedAt env t rest with
          | none => expandIntoBy env resume fuel depth rest (out ++ [t]) r.2.2
          | some after => (resume after).bind fun s => expandIntoBy env resume fuel depth s (out ++ [t]) r.2.2
    else expandIntoBy env resume fuel depth rest (out ++ [t]) st

/-- The code's: one token more is taken. -/
def dropping (after : List Token) : Option (List Token) := some after.tail

/-- Right behind the invocation. -/
def keeping (after : List Token) : Option (List Token) := some after

/-- Both at once; the run is given up where the two part. -/
def agreeing (after : List Token) : Option (List Token) := if dropping after = keeping after then keeping after else none

/-- The run is given up at a refused invocation that something stands behind. -/
def nothingBehind (after : List Token) : Option (List Token) := if after = [] then some [] else none

/-- What `expandOne` leaves where it invokes nothing: the stream as it was, or what stands behind a refused
invocation. -/
theorem expandOne_left {env : Env} {o : List Token → St → Option (List Token × St)} {t : Token} {rest s : List Token}
    {st st' : St} (run : expandOne env o t rest st = some (false, s, st')) :
    s = (refusedAt env t rest).getD (t :: rest) := by
  unfold expandOne at run
  unfold refusedAt
  cases found : env.macros.lookup t.text with
  | none => simp_all
  | some m =>
    by_cases hidden : t.hide.has m.id = true
    · cases rest <;> simp_all
    · by_cases plain : m.builtin = .notBuiltin
      · cases obj : m.objLike with
        | true => simp [found, hidden, plain, obj] at run
        | false =>
          cases rest with
          | nil => simp_all
          | cons lp s =>
            by_cases paren : lp.kind = .lparen
            · cases call : arguments s m t with
              | mk result after => cases result <;> simp_all
            · simp_all
      · simp [found, hidden, plain] at run

/-- The code's loop takes one token more behind a refused invocation. -/
theorem expandInto_eq (env : Env) : ∀ fuel, expandInto env fuel = expandIntoBy env dropping fuel := by
  intro fuel
  induction fuel with
  | zero => rfl
  | succ fuel ih =>
    funext depth s out st
    cases s with
    | nil => rfl
    | cons t rest =>
      rw [expandInto, expandIntoBy, ih]
      split
      · refine Option.bind_congr fun r run => ?_
        obtain ⟨did, after, st'⟩ := r
        cases did with
        | true => rfl
        | false =>
          obtain rfl := expandOne_left run
          cases refusedAt env t rest <;> rfl
      · rfl

/-- A loop that goes on wherever another does gives what that one gives. -/
theorem expandIntoBy_mono {env : Env} {resume resume' : List Token → Option (List Token)}
    (below : ∀ after s, resume after = some s → resume' after = some s) (fuel : Nat) :
    ∀ (depth : Nat) (s out : List Token) (st : St) (r : List Token × St),
      expandIntoBy env resume fuel depth s out st = some r → expandIntoBy env resume' fuel depth s out st = some r := by
  induction fuel with
  | zero =>
    intro depth s out st r run
    cases run
  | succ fuel ih =>
    intro depth s out st r run
    cases s with
    | nil => exact run
    | cons t rest =>
      rw [expandIntoBy] at run ⊢
      by_cases name : t.isName = true
      · rw [if_pos name] at run ⊢
        obtain ⟨x, one, more⟩ := Option.bind_eq_some_iff.1 run
        refine Option.bind_eq_some_iff.2 ⟨x, expandOne_mono (expandClosedBy_mono ih depth) one, ?_⟩
        by_cases did : x.1 = true
        · rw [if_pos did] at more ⊢
          exact ih _ _ _ _ _ more
        · rw [if_neg did] at more ⊢
          cases refused : refusedAt env t rest with
          | none =>
            rw [refused] at more
            exact ih _ _ _ _ _ more
          | some after =>
            rw [refused] at more
            obtain ⟨next, resumed, more⟩ := Option.bind_eq_some_iff.1 more
            exact Option.bind_eq_some_iff.2 ⟨next, below after next resumed, ih _ _ _ _ _ more⟩
      · rw [if_neg name] at run ⊢
        exact ih _ _ _ _ _ run

/-- The two places are one exactly where nothing stands behind. -/
theorem agreeing_eq : agreeing = nothingBehind := by
  funext after
  cases after with
  | nil => rfl
  | cons t s => simp [agreeing, nothingBehind, dropping, keeping]

/-- An expansion of a closed list with the loop that goes on at `resume`. -/
def expandClosedTo (env : Env) (resume : List Token → Option (List Token)) (fuel depth : Nat) (ts : List Token)
    (st : St) : Option (List Token × St) :=
  expandClosedBy env (expandIntoBy env resume fuel) depth ts st

/-- **Every token behind a refused invocation is delivered**, at every depth of the expansion, exactly where no
refused invocation has a token behind it; and then the expansion is that of the loop which goes on right behind
the closing parenthesis. -/
theorem delivers_iff (env : Env) (fuel depth : Nat) (ts : List Token) (st : St) (r : List Token × St) :
    (expandClosedTo env agreeing fuel depth ts st = some r ↔ expandClosedTo env nothingBehind fuel depth ts st = some r) ∧
      (expandClosedTo env agreeing fuel depth ts st = some r →
        expandClosed env fuel depth ts st = some r ∧ expandClosedTo env keeping fuel depth ts st = some r) := by
  refine ⟨by rw [agreeing_eq], fun run => ⟨?_, ?_⟩⟩
  · unfold expandClosed
    rw [expandInto_eq]
    refine expandClosedBy_mono (expandIntoBy_mono (fun after s resumed => ?_) fuel) depth ts st r run
    unfold agreeing at resumed
    split at resumed
    · next same => rw [same, resumed]
    · cases resumed
  · refine expandClosedBy_mono (expandIntoBy_mono (fun after s resumed => ?_) fuel) depth ts st r run
    unfold agreeing at resumed
    split at resumed
    · exact resumed
    · cases resumed

/-- `#define F(a, b)` -/
def twoParams : Env where
  macros := ⟨[{ id := 0, name := "F", objLike := false, params := ["a", "b"] }], by decide⟩
  rescan _ := none
  maxExpansionDepth := none
  spelled _ _ := ""

/-- `F(1) x` -/
def oneArgument : List Token :=
  [.mint .ident "F", .mint .lparen "(", .mint .intLit "1", .mint .rparen ")", .mint .ident "x"]

/-- `x` is lost from `F(1) x`. -/
theorem behind_dropped :
    ((expandClosed twoParams 9 0 oneArgument {}).map fun r => r.1.map (·.text)) = some ["F"] ∧
      ((expandClosedTo twoParams keeping 9 0 oneArgument {}).map fun r => r.1.map (·.text)) = some ["F", "x"] := by
  decide

/-- `F(1)` alone -/
theorem refused_at_end : ∃ r, expandClosed twoParams 9 0 oneArgument.dropLast {} = some r ∧
    expandClosedTo twoParams keeping 9 0 oneArgument.dropLast {} = some r := by
  obtain ⟨r, run⟩ : ∃ r, expandClosedTo twoParams nothingBehind 9 0 oneArgument.dropLast {} = some r :=
    Option.isSome_iff_exists.mp (by decide)
  obtain ⟨iff, kept⟩ := delivers_iff twoParams 9 0 oneArgument.dropLast {} r
  exact ⟨r, kept (iff.mpr run)⟩

end Vcx.Preprocessor
