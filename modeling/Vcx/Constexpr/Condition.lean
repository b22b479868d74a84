import Vcx.Constexpr.Lifetimes

/-!
# Conditions that declare

A condition is an expression or a declaration, and the evaluator looks at those that are expressions. What it decides
where the condition declares is compared with declaring the variable and branching on its value.
-/

namespace Vcx.ConstEval
set_option autoImplicit false
open Vcx.Lib Vcx.Types
open Vcx.Constexpr (Error)

variable (E : Env)

/-- What a condition that declares means: the variable is declared, and its value is taken as a truth value. -/
def declaredCondition (inits : List InitDeclarator) : Ev Bool :=
  match inits.head?.bind fun init => init.decl.bind Declarator.declName with
  | none => .fail (.other "a condition without a variable")
  | some span => do
    let name ← text span
    if name = "" then .fail (.other "a variable without a name")
    else
      let _ ← declareInits E inits
      match ← lookup name with
      | none => .fail (.other "a variable that is not found")
      | some obj =>
        let v ← readValue ⟨obj, [], 0⟩
        pure (v.toBool E.floats)

/-- The declaration that is a statement's condition. -/
def Stmt.declares : Stmt → Option (List InitDeclarator)
  | .if_ false _ _ (some (.decl inits)) _ _ | .while_ (some (.decl inits)) _ | .for_ _ (some (.decl inits)) _ _
  | .switch _ (some (.decl inits)) _ => some inits
  | _ => none

/-- A truth value that is found is the one that the declaration has, with the variable declared. -/
def Decides (c : Ev Bool) (inits : List InitDeclarator) (s : State) : Prop :=
  ∀ n b s', c.run ((machine E).exec n) s = some (.ok b, s') →
    ∃ m, (declaredCondition E inits).run ((machine E).exec m) s = some (.ok b, s')

/-- A statement branches on its declared condition, or it is refused. -/
def Handled (st : Stmt) (inits : List InitDeclarator) (s : State) : Prop :=
  match st with
  | .if_ consteval not _ cond _ _ => Decides E (ifCondition E consteval not cond) inits s
  | .while_ cond _ | .for_ _ cond _ _ => Decides E (loopCondition E cond) inits s
  | st => ∀ n flow s', (evalStmtNode E st).run ((machine E).exec n) s ≠ some (.ok flow, s')

def Stmt.isSwitch : Stmt → Bool
  | .switch .. => true
  | _ => false

variable {E} {s s' : State} {n : Nat}

theorem run_text (span : Nat) : (text span).run ((machine E).exec n) s = some (.ok (E.text s.unit span), s) := by
  cases n <;> rfl

theorem run_resolvers : resolvers.run ((machine E).exec n) s = some (.ok (E.resolvers s.names), s) := by
  cases n <;> rfl

theorem run_declare (name : String) (typ : Option Ty) (val : Option Value) (isConst : Bool) :
    (declare name typ val isConst).run ((machine E).exec n) s =
      some (.ok (s.declareVar name typ val isConst).1, (s.declareVar name typ val isConst).2) := by
  cases n <;> rfl

theorem declareInit_grows {init : InitDeclarator} {span : Nat} (named : init.decl.bind Declarator.declName = some span)
    (some_ : E.text s.unit span ≠ "") (ran : (declareInit E init).run ((machine E).exec n) s = some (.ok (), s')) :
    s.objects.length < s'.objects.length := by
  rw [declareInit, named] at ran
  obtain ⟨name, s₁, reads, ran⟩ := Program.run_bind_ok.1 ran
  cases (run_text span).symm.trans reads
  rw [if_neg some_] at ran
  obtain ⟨val, s₂, first, ran⟩ := Program.run_bind_ok.1 ran
  obtain ⟨val', s₃, second, ran⟩ := Program.run_bind_ok.1 ran
  obtain ⟨r, s₄, third, ran⟩ := Program.run_bind_ok.1 ran
  cases run_resolvers.symm.trans third
  obtain ⟨obj, s₅, fourth, ran⟩ := Program.run_bind_ok.1 ran
  cases (run_declare ..).symm.trans fourth
  cases ran
  have le := (follows_of_run first).grows.trans (follows_of_run second).grows
  rw [declareVar_objects, List.length_append, List.length_singleton]
  omega

theorem declaredCondition_grows {inits : List InitDeclarator} {b : Bool}
    (ran : (declaredCondition E inits).run ((machine E).exec n) s = some (.ok b, s')) :
    s.objects.length < s'.objects.length := by
  unfold declaredCondition at ran
  split at ran
  · cases ran
  rename_i span named
  obtain ⟨init, rest, rfl⟩ : ∃ init rest, inits = init :: rest := by
    cases inits with
    | nil => cases named
    | cons init rest => exact ⟨init, rest, rfl⟩
  obtain ⟨name, s₁, reads, ran⟩ := Program.run_bind_ok.1 ran
  cases (run_text span).symm.trans reads
  split at ran
  · cases ran
  rename_i some_
  obtain ⟨flow, s₂, declared, ran⟩ := Program.run_bind_ok.1 ran
  obtain ⟨_, s₃, first, others⟩ := Program.run_bind_ok.1 declared
  have grows := declareInit_grows named some_ first
  have le := (follows_of_run others).grows.trans (follows_of_run ran).grows
  exact grows.trans_le le

/-- A truth value that is found without an action is not that of a declaration. -/
theorem not_decides {inits : List InitDeclarator} (b : Bool) : ¬ Decides E (pure b) inits s := by
  intro decides
  obtain ⟨m, ran⟩ := decides 0 b s rfl
  exact (declaredCondition_grows ran).false

/-- **Declared conditions.** A statement branches on the condition that it declares or is refused exactly when it is a
switch, which is refused: the condition of an `if`, a `while` or a `for` is not evaluated when it declares a variable, and
a branch is taken without it. -/
theorem handled_iff {st : Stmt} {inits : List InitDeclarator} (declares : st.declares = some inits) (s : State) :
    Handled E st inits s ↔ st.isSwitch = true := by
  match st with
  | .if_ false not init (some (.decl _)) then_ else_ => exact iff_of_false (not_decides false) Bool.false_ne_true
  | .while_ (some (.decl _)) body => exact iff_of_false (not_decides true) Bool.false_ne_true
  | .for_ init (some (.decl _)) post body => exact iff_of_false (not_decides true) Bool.false_ne_true
  | .switch init cond body => exact iff_of_true (fun n flow s' ran => by cases ran) rfl

/-! ### `if (bool x = true) return true; return false;` -/

/-- An analysis that knows nothing, on a target without floating values. -/
def bare : Env where
  model := lp64
  hierarchy := .ofRecords [] (.refl true)
  floats := ⟨fun x _ => x, fun x _ => x, fun x _ => x, fun x _ => x, fun x => x, fun _ _ => false, fun _ _ => false,
    fun _ _ => false, fun _ => 0, fun _ => 0, fun _ => 0, fun _ => 0, fun _ => none⟩
  text _ _ := "x"
  globals := []
  funcs := []
  maxCallDepth := 512
  maxSteps := 1000000
  resolvers _ := ⟨fun _ => none, fun _ => .ok none, fun _ => none, fun _ => none, fun _ => none, fun _ => none,
    fun _ => .error (.other ""), fun _ => .error (.other ""), fun _ => .error (.other ""), fun _ => none, fun _ => none,
    fun _ => none, fun _ => .ok none, fun _ => none, fun _ => .error (.other "")⟩

def initial : State := ⟨.empty, [], [[]], 0, 0, 0, 0⟩

/-- `bool x = true`. -/
def trueX : List InitDeclarator := [⟨0, some (.name (some 0)), some (.basicLit 1 .true_ 1), [], none⟩]

def returns (kind : LitKind) : Stmt := .return_ (some (.basicLit 2 kind 2))

theorem switch_handled : Handled bare (.switch none (some (.decl trueX)) none) trueX initial :=
  (handled_iff rfl initial).2 rfl

/-- The declared condition is true, and the other branch is taken. -/
theorem trueCondition_skipped :
    ¬ Handled bare (.if_ false false none (some (.decl trueX)) (some (returns .true_)) none) trueX initial ∧
      (∃ s, (declaredCondition bare trueX).run ((machine bare).exec 2) initial = some (.ok true, s)) ∧
      ∃ s, (machine bare).exec 4 (.ask (.block [.if_ false false none (some (.decl trueX)) (some (returns .true_)) none,
        returns .false_])) initial = some (.ok (.ret (.bool false)), s) :=
  ⟨not_decides false, ⟨_, rfl⟩, ⟨_, rfl⟩⟩

end Vcx.ConstEval
