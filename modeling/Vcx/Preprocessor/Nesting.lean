import Mathlib.Data.List.Forall2
import Mathlib.Data.List.TakeWhile
import Vcx.Preprocessor.Once

/-!
# Conditional inclusion

What a conditional is, read off the lines of a file: a chain of arms, of which the first whose
controlling expression is true is live, or the `#else` when none is. The stack of the reader says
the same at every line of every run: a line is processed in the live arms of all the conditionals
around it, and a controlling expression is evaluated only where it can make its arm live.
-/

namespace Vcx.Preprocessor
set_option autoImplicit false
open Vcx.Lib

variable {ρ : Type}

/-! ### Chains of arms -/

/-- An arm of a conditional: one with a controlling expression, and its value if it was evaluated,
or the `#else`. -/
inductive Arm where
  | tested (value : Option Bool)
  | otherwise
  deriving DecidableEq, Repr

/-- An arm whose expression was true. -/
def Arm.holds : Arm → Bool
  | .tested (some true) => true
  | _ => false

/-- Of the arms of a conditional so far, the last first: the last is the live one. -/
def liveArm : List Arm → Bool
  | [] => false
  | .otherwise :: earlier => !earlier.any Arm.holds
  | arm :: earlier => arm.holds && !earlier.any Arm.holds

/-- The conditionals around a line, the innermost first, each with its arms so far. -/
abbrev Nest := List (List Arm)

/-- Every one of them is in its live arm. -/
def Nest.live (n : Nest) : Bool := n.all liveArm

/-- What a line is to the conditionals around it. -/
inductive Mark where
  | opens (value : Option Bool)
  | elif (value : Option Bool)
  | elseArm
  | endif
  | plain
  deriving DecidableEq, Repr

/-- The conditionals after a line. An arm after the `#else`, and what has no `#if`, are errors
and change nothing. -/
def Nest.after (n : Nest) : Mark → Nest
  | .opens value => [.tested value] :: n
  | .elif value =>
    match n with
    | arms :: outer => if .otherwise ∈ arms then n else (.tested value :: arms) :: outer
    | [] => []
  | .elseArm =>
    match n with
    | arms :: outer => if .otherwise ∈ arms then n else (.otherwise :: arms) :: outer
    | [] => []
  | .endif => n.tail
  | .plain => n

/-- The conditionals after the lines of a file, the last first. -/
def nest : List Mark → Nest
  | [] => []
  | m :: earlier => (nest earlier).after m

/-- The controlling expression of a line can make its arm live: the conditionals around are all
in their live arms, and none of the arms before is. -/
def Nest.decides (n : Nest) : Mark → Bool
  | .opens _ => n.live
  | .elif _ =>
    match n with
    | arms :: outer => Nest.live outer && !(.otherwise ∈ arms) && !arms.any Arm.holds
    | [] => false
  | _ => false

/-! ### The stack agrees with the nesting -/

/-- A stack of conditionals that says what the nesting says. -/
def Agrees : List Cond → Nest → Prop
  | [], [] => True
  | c :: outer, arms :: n =>
    Agrees outer n ∧ c.sawElse = decide (.otherwise ∈ arms) ∧ (c.sawElse = false → c.taken = arms.any Arm.holds) ∧
      (outer.all (·.active) = true → c.active = liveArm arms)
  | _, _ => False

attribute [local simp] liveArm

theorem Agrees.all_active {conds : List Cond} {n : Nest} (agrees : Agrees conds n) : conds.all (·.active) = n.live := by
  induction conds generalizing n with
  | nil =>
    cases n with
    | nil => rfl
    | cons => exact agrees.elim
  | cons c outer ih =>
    cases n with
    | nil => exact agrees.elim
    | cons arms n =>
      obtain ⟨rest, -, -, active⟩ := agrees
      simp only [Nest.live, List.all_cons]
      change (_ && _) = (_ && Nest.live n)
      rw [← ih rest]
      cases all : outer.all (·.active) with
      | true => rw [active all]
      | false => simp

theorem Agrees.skipping {r : Reader} {n : Nest} (agrees : Agrees r.conds n) : r.skipping = !n.live := by
  rw [← agrees.all_active]
  simp [Reader.skipping, List.not_all_eq_any_not]

/-! ### Evaluation -/

/-- Whether a directive's controlling expression is evaluated. -/
def Reader.evaluates (r : Reader) (d : Directive) : Bool :=
  match d with
  | .ifExpr | .ifdef _ => !r.skipping
  | .elif | .elifdef _ =>
    match r.conds with
    | c :: _ => !c.sawElse && !c.taken && !r.parentSkipping
    | [] => false
  | _ => false

/-- The conditional directives with the evaluation of the controlling expression as a parameter. -/
def Reader.conditionalBy (host : Host ρ) (r : Reader) (d : Directive) (rest : List Token) (at_ : Site)
    (ev : Pre ρ → Bool × Pre ρ) (p : Pre ρ) : Reader × Pre ρ :=
  match d with
  | .ifExpr =>
    let q := r.beginIf "#if" at_ ev p
    (q.1.noteGuardIf rest, q.2)
  | .ifdef negate =>
    let directive := "#" ++ if negate then "ifndef" else "ifdef"
    if r.skipping then (r.pushCond { site := at_, directive }, p)
    else
      let guard := if rest.head?.any (·.isName) then r.ifndefGuard negate rest else ""
      (r.pushCond { site := at_, directive, taken := (ev p).1, active := (ev p).1, guard }, (ev p).2)
  | .elif => r.doElif "#elif" at_ ev p
  | .elifdef negate => r.doElif ("#" ++ if negate then "elifndef" else "elifdef") at_ ev p
  | d => r.conditional host d rest at_ p

theorem Reader.conditional_eq_by (host : Host ρ) (r : Reader) (d : Directive) (rest : List Token) (at_ : Site) (p : Pre ρ) :
    r.conditional host d rest at_ p = r.conditionalBy host d rest at_ (controlling host r.org d rest at_) p := by
  cases d with
  | ifdef negate =>
    simp only [Reader.conditional, Reader.doIfdef, Reader.conditionalBy, controlling]
    split
    · rfl
    split
    · rfl
    · rename_i unnamed
      cases rest with
      | nil => rfl
      | cons t ts =>
        have notName : t.isName = false := by simpa using unnamed
        simp [definedOperand, notName]
  | _ => rfl

attribute [local simp] Reader.evaluates

/-- **A controlling expression that is not evaluated** has no effect: any other in its place gives
the same. -/
theorem Reader.conditionalBy_unevaluated {r : Reader} {d : Directive} (not : r.evaluates d = false) (host : Host ρ)
    (rest : List Token) (at_ : Site) (ev ev' : Pre ρ → Bool × Pre ρ) (p : Pre ρ) :
    r.conditionalBy host d rest at_ ev p = r.conditionalBy host d rest at_ ev' p := by
  have elif : r.evaluates .elif = false → ∀ name, r.doElif name at_ ev p = r.doElif name at_ ev' p := by
    intro not name
    unfold Reader.doElif
    unfold Reader.evaluates at not
    split
    · rfl
    · rename_i c outer conds
      simp only [conds] at not
      split
      · rfl
      · rename_i open_
        split
        · rfl
        · rename_i reaches
          simp [open_] at not reaches
          exact absurd (not reaches.1) (by simp [reaches.2])
  cases d with
  | ifExpr =>
    have skipping : r.skipping = true := by simpa [Reader.evaluates] using not
    simp [Reader.conditionalBy, Reader.beginIf, skipping]
  | ifdef negate =>
    have skipping : r.skipping = true := by simpa [Reader.evaluates] using not
    simp [Reader.conditionalBy, skipping]
  | elif => exact elif not _
  | elifdef negate => exact elif not _
  | _ => rfl

/-! ### What a directive does to the stack -/

/-- What a directive is to the conditionals around it. -/
def Mark.of (d : Directive) (value : Option Bool) : Mark :=
  match d with
  | .ifExpr | .ifdef _ => .opens value
  | .elif | .elifdef _ => .elif value
  | .elseArm => .elseArm
  | .endif => .endif
  | _ => .plain

/-- The value a directive's controlling expression was found to have. -/
def Reader.valueOf (host : Host ρ) (r : Reader) (d : Directive) (rest : List Token) (at_ : Site) (p : Pre ρ) : Option Bool :=
  if r.evaluates d then some (controlling host r.org d rest at_ p).1 else none

/-- The flags of a conditional. -/
def Cond.flags (c : Cond) : Bool × Bool × Bool := (c.sawElse, c.taken, c.active)

theorem Agrees.of_flags {conds conds' : List Cond} (same : conds'.map Cond.flags = conds.map Cond.flags) {n : Nest}
    (agrees : Agrees conds n) : Agrees conds' n := by
  induction conds generalizing conds' n with
  | nil =>
    rw [List.map_nil, List.map_eq_nil_iff] at same
    rw [same]
    exact agrees
  | cons c outer ih =>
    obtain ⟨c', outer', rfl, eq, rest⟩ := List.map_eq_cons_iff.1 same
    cases n with
    | nil => exact agrees.elim
    | cons arms n =>
      obtain ⟨below, sawElse, taken, active⟩ := agrees
      simp only [Cond.flags, Prod.mk.injEq] at eq
      have all : outer'.all (·.active) = outer.all (·.active) := by
        have := congrArg (fun fs => fs.all fun f : Bool × Bool × Bool => f.2.2) rest
        simpa [List.all_map, Function.comp_def, Cond.flags] using this
      exact ⟨ih rest below, by rw [eq.1, sawElse], by rw [eq.1, eq.2.1]; exact taken, by rw [all, eq.2.2]; exact active⟩

theorem Reader.noteGuardIf_flags (r : Reader) (line : List Token) :
    (r.noteGuardIf line).conds.map Cond.flags = r.conds.map Cond.flags := by
  unfold Reader.noteGuardIf
  split
  · rename_i c bang op operand conds
    split
    · split
      · simp [conds, Cond.flags]
      · rfl
    · rfl
  · rfl

theorem Agrees.push {conds : List Cond} {n : Nest} (agrees : Agrees conds n) {c : Cond} {value : Option Bool}
    (fresh : c.sawElse = false) (taken : c.taken = (value == some true)) (active : c.active = (value == some true)) :
    Agrees (c :: conds) (n.after (.opens value)) := by
  have holds : (Arm.tested value).holds = (value == some true) := by
    cases value with
    | none => rfl
    | some v => cases v <;> rfl
  refine ⟨agrees, ?_, fun _ => ?_, fun _ => ?_⟩
  · rw [fresh]
    rfl
  · rw [taken, List.any_cons, holds]
    simp
  · rw [active, liveArm, holds]
    · simp
    · simp

theorem Reader.parentSkipping_cons {r : Reader} {c : Cond} {outer : List Cond} (conds : r.conds = c :: outer) :
    r.parentSkipping = !outer.all (·.active) := by
  simp [Reader.parentSkipping, conds, List.not_all_eq_any_not]

theorem Agrees.elif {r : Reader} {n : Nest} (agrees : Agrees r.conds n) (name : String) (at_ : Site)
    (ev : Pre ρ → Bool × Pre ρ) (p : Pre ρ) :
    Agrees (r.doElif name at_ ev p).1.conds
      (n.after (.elif (if r.evaluates .elif then some (ev p).1 else none))) := by
  unfold Reader.doElif
  cases conds : r.conds with
  | nil =>
    rw [conds] at agrees
    cases n with
    | nil =>
      simp only [Nest.after, conds]
      exact agrees
    | cons => exact agrees.elim
  | cons c outer =>
    have parent := Reader.parentSkipping_cons conds
    rw [conds] at agrees
    cases n with
    | nil => exact agrees.elim
    | cons arms n =>
      obtain ⟨below, sawElse, taken, active⟩ := agrees
      simp only [Reader.evaluates, conds, Nest.after]
      by_cases seen : c.sawElse = true
      · have inside : Arm.otherwise ∈ arms := by simpa [seen] using sawElse
        simp only [seen, if_true, inside]
        rw [conds]
        exact ⟨below, sawElse, taken, active⟩
      · have notSeen : c.sawElse = false := by simpa using seen
        have outside : Arm.otherwise ∉ arms := by simpa [notSeen] using sawElse
        have taken := taken notSeen
        simp only [notSeen, Bool.false_eq_true, if_false, outside, Bool.not_false, Bool.true_and]
        by_cases dead : (c.taken || r.parentSkipping) = true
        · have notEvaluated : (!c.taken && !r.parentSkipping) = false := by
            rw [← Bool.not_or, dead]
            rfl
          simp only [dead, if_true, notEvaluated, Bool.false_eq_true, if_false]
          exact ⟨below, by simp [outside], fun _ => by simp [taken, Arm.holds], fun _ => rfl⟩
        · have evaluated : (!c.taken && !r.parentSkipping) = true := by
            rw [← Bool.not_or]
            simpa using dead
          have before : c.taken = false := by simpa using (Bool.and_eq_true_iff.1 evaluated).1
          have none_ : arms.any Arm.holds = false := taken.symm.trans before
          have holds : (Arm.tested (some (ev p).1)).holds = (ev p).1 := by cases (ev p).1 <;> rfl
          simp only [dead, Bool.false_eq_true, if_false, evaluated, if_true]
          refine ⟨below, by simp [outside], fun _ => ?_, fun _ => ?_⟩
          · rw [List.any_cons, holds, none_, Bool.or_false]
          · simp only [liveArm, holds, none_, Bool.not_false, Bool.and_true]

theorem Agrees.elseArm {r : Reader} {n : Nest} (agrees : Agrees r.conds n) (at_ : Site) (p : Pre ρ) :
    Agrees (r.doElse at_ p).1.conds (n.after .elseArm) := by
  unfold Reader.doElse
  cases conds : r.conds with
  | nil =>
    rw [conds] at agrees
    cases n with
    | nil =>
      simp only [Nest.after, conds]
      exact agrees
    | cons => exact agrees.elim
  | cons c outer =>
    have parent := Reader.parentSkipping_cons conds
    rw [conds] at agrees
    cases n with
    | nil => exact agrees.elim
    | cons arms n =>
      obtain ⟨below, sawElse, taken, active⟩ := agrees
      simp only [Nest.after]
      by_cases seen : c.sawElse = true
      · have inside : Arm.otherwise ∈ arms := by simpa [seen] using sawElse
        simp only [seen, if_true, inside]
        rw [conds]
        exact ⟨below, sawElse, taken, active⟩
      · have notSeen : c.sawElse = false := by simpa using seen
        have outside : Arm.otherwise ∉ arms := by simpa [notSeen] using sawElse
        simp only [notSeen, Bool.false_eq_true, if_false, outside]
        refine ⟨below, by simp, nofun, fun all => ?_⟩
        simp only [parent, all, Bool.not_true, Bool.not_false, Bool.and_true, liveArm, taken notSeen]

theorem Agrees.endif {r : Reader} {n : Nest} (agrees : Agrees r.conds n) (at_ : Site) (p : Pre ρ) :
    Agrees (r.doEndif at_ p).1.conds (n.after .endif) := by
  have popped : (r.doEndif at_ p).1.conds = r.conds.tail := by
    unfold Reader.doEndif
    split
    · rename_i conds
      simp [conds]
    · rename_i conds
      split <;> simp [conds]
    · rename_i conds
      simp [conds]
  rw [popped]
  cases conds : r.conds with
  | nil =>
    rw [conds] at agrees
    cases n with
    | nil => exact agrees
    | cons => exact agrees.elim
  | cons c outer =>
    rw [conds] at agrees
    cases n with
    | nil => exact agrees.elim
    | cons arms n => exact agrees.1

attribute [local simp] Mark.of

theorem Agrees.conditional {host : Host ρ} {r : Reader} {n : Nest} (agrees : Agrees r.conds n) (d : Directive)
    (rest : List Token) (at_ : Site) (p : Pre ρ) :
    Agrees (r.conditional host d rest at_ p).1.conds (n.after (.of d (r.valueOf host d rest at_ p))) := by
  cases d with
  | ifExpr =>
    refine Agrees.of_flags (Reader.noteGuardIf_flags ..) ?_
    simp only [Reader.beginIf, Reader.valueOf, Reader.evaluates, controlling, Mark.of]
    by_cases skipping : r.skipping = true
    · simp only [skipping, if_true, Bool.not_true, Bool.false_eq_true, if_false]
      exact agrees.push rfl rfl rfl
    · simp only [skipping, Bool.false_eq_true, if_false, Bool.not_false, if_true]
      exact agrees.push rfl (by simp) (by simp)
  | ifdef negate =>
    rw [Reader.conditional_eq_by]
    simp only [Reader.conditionalBy, Reader.valueOf, Reader.evaluates, Mark.of]
    by_cases skipping : r.skipping = true
    · simp only [skipping, if_true, Bool.not_true, Bool.false_eq_true, if_false]
      exact agrees.push rfl rfl rfl
    · simp only [skipping, Bool.false_eq_true, if_false, Bool.not_false, if_true]
      exact agrees.push rfl (by simp) (by simp)
  | elif => exact agrees.elif ..
  | elifdef negate => exact agrees.elif ..
  | elseArm => exact agrees.elseArm ..
  | endif => exact agrees.endif ..
  | _ => exact agrees

/-- A controlling expression is evaluated where it can make its arm live. -/
theorem Agrees.evaluates {r : Reader} {n : Nest} (agrees : Agrees r.conds n) (d : Directive) (value : Option Bool) :
    r.evaluates d = n.decides (.of d value) := by
  have elif : r.evaluates .elif = n.decides (.elif value) := by
    simp only [Reader.evaluates, Nest.decides]
    cases conds : r.conds with
    | nil =>
      rw [conds] at agrees
      cases n with
      | nil => rfl
      | cons => exact agrees.elim
    | cons c outer =>
      have parent := Reader.parentSkipping_cons conds
      rw [conds] at agrees
      cases n with
      | nil => exact agrees.elim
      | cons arms n =>
        obtain ⟨below, sawElse, taken, -⟩ := agrees
        simp only [parent, below.all_active, Bool.not_not, sawElse]
        by_cases inside : Arm.otherwise ∈ arms
        · simp [inside]
        · rw [taken (by simpa [inside] using sawElse)]
          simp only [inside, decide_false, Bool.not_false, Bool.true_and, Bool.and_true]
          exact Bool.and_comm ..
  cases d with
  | ifExpr | ifdef negate => simp only [Reader.evaluates, agrees.skipping, Bool.not_not, Mark.of, Nest.decides]
  | elif | elifdef negate => exact elif
  | _ => rfl

/-! ### Lines of text -/

/-- `isMSPragmaOperator`, at the front. -/
def opensMsPragma : List Token → Bool
  | [] => false
  | t :: ts => t.spells "__pragma" && (ts.dropWhile (·.kind = .eof)).head?.any (·.kind = .lparen)

/-- What is left after the parenthesis that closes the operator's, `depth` more being open. -/
def afterOperand : Nat → List Token → List Token
  | _, [] => []
  | depth, t :: ts =>
    if t.kind = .lparen then afterOperand (depth + 1) ts
    else if t.kind = .rparen then if depth = 0 then ts else afterOperand (depth - 1) ts
    else afterOperand depth ts

/-- What `msPragmaOperator` leaves. -/
def afterPragma : List Token → List Token
  | [] => []
  | _ :: ts => afterOperand 0 (ts.dropWhile (·.kind = .eof)).tail

/-- The tokens with the first on a line of its own. -/
def lineOpened : List Token → List Token
  | [] => []
  | t :: ts => { t with nlBefore := true } :: ts

/-- A line that begins with `module : private`. -/
def opensPrivate : List Token → Bool
  | t :: u :: v :: _ =>
    t.nlBefore && t.spells "module" && (u.continues && decide (u.kind = .colon)) && (v.continues && v.spells "private")
  | _ => false

/-- The tokens a text step takes. -/
def textTaken (host : Host ρ) (org : Nat) (p : Pre ρ) (ts : List Token) : List Token :=
  ts.take (ts.length - (host.text org p ts).toks.length)

/-- The tokens of a file, without the marks of its end. -/
def significant (toks : List Token) : List Token := toks.filter (·.kind ≠ .eof)

/-- What a text step takes, whatever it makes of it. `msPragmaOperator` takes all up to its closing
parenthesis and has what follows begin a line; `expandText`, the module directives and `_Pragma` stop
before a directive. After `module :private;` in an imported interface nothing of the file is left. -/
structure TextLaw (host : Host ρ) where
  /-- The origin is that of a module interface which has been imported. -/
  imported : Nat → Bool
  skipsRest : ∀ {org p ts}, (imported org && opensPrivate ts) = true → significant (host.text org p ts).toks = []
  operator : ∀ {org p ts}, opensMsPragma ts = true → (host.text org p ts).toks = lineOpened (afterPragma ts)
  takes : ∀ {org p ts}, (imported org && opensPrivate ts) = false → opensMsPragma ts = false → (host.text org p ts).toks <:+ ts
  stops : ∀ {org p ts}, (imported org && opensPrivate ts) = false → opensMsPragma ts = false →
    ∀ t ∈ textTaken host org p ts, t.opensDirective = false

theorem afterOperand_suffix (depth : Nat) (ts : List Token) : afterOperand depth ts <:+ ts := by
  induction depth, ts using afterOperand.induct with
  | case1 depth => exact List.suffix_refl []
  | case2 depth t ts opens ih =>
    rw [afterOperand, if_pos opens]
    exact ih.trans (List.suffix_cons t ts)
  | case3 t ts notOpens closes =>
    rw [afterOperand, if_neg notOpens, if_pos closes, if_pos rfl]
    exact List.suffix_cons t ts
  | case4 depth t ts notOpens closes inner ih =>
    rw [afterOperand, if_neg notOpens, if_pos closes, if_neg inner]
    exact ih.trans (List.suffix_cons t ts)
  | case5 depth t ts notOpens notCloses ih =>
    rw [afterOperand, if_neg notOpens, if_neg notCloses]
    exact ih.trans (List.suffix_cons t ts)

@[simp] theorem lineOpened_length (ts : List Token) : (lineOpened ts).length = ts.length := by
  cases ts <;> rfl

theorem opensPrivate_not_operator {ts : List Token} (opens : opensPrivate ts = true) : opensMsPragma ts = false := by
  unfold opensPrivate at opens
  split at opens
  · rename_i t u v rest
    simp only [Bool.and_eq_true, Token.spells, decide_eq_true_eq] at opens
    simp [opensMsPragma, Token.spells, opens.1.1.2.2]
  · cases opens

/-- The operator is the front of what it is taken from. -/
theorem opensMsPragma_split {ts : List Token} (opens : opensMsPragma ts = true) :
    ∃ taken, taken ++ afterPragma ts = ts ∧ opensMsPragma taken = true := by
  cases ts with
  | nil => cases opens
  | cons t us =>
    simp only [opensMsPragma, Bool.and_eq_true, Option.any_eq_true, decide_eq_true_eq] at opens
    obtain ⟨spells, lp, isHead, isParen⟩ := opens
    obtain ⟨vs, rest⟩ : ∃ vs, us.dropWhile (·.kind = .eof) = lp :: vs := by
      cases dropped : us.dropWhile (·.kind = .eof) with
      | nil => simp [dropped] at isHead
      | cons u vs =>
        simp only [dropped, List.head?_cons, Option.some.injEq] at isHead
        exact ⟨vs, by rw [isHead]⟩
    obtain ⟨operand, split⟩ := afterOperand_suffix 0 vs
    have whole := List.takeWhile_append_dropWhile (p := fun x : Token => decide (x.kind = .eof)) (l := us)
    rw [rest] at whole
    refine ⟨t :: (us.takeWhile (·.kind = .eof) ++ lp :: operand), ?_, ?_⟩
    · simp only [afterPragma, rest, List.tail_cons, List.cons_append, List.append_assoc, split, whole]
    · have ends : ∀ x ∈ us.takeWhile (·.kind = .eof), decide (x.kind = .eof) = true := by
        intro x mem
        exact List.mem_takeWhile_imp (p := fun x : Token => decide (x.kind = .eof)) mem
      simp [opensMsPragma, spells, List.dropWhile_append_of_pos ends, isParen]

/-! ### The lines of a reading -/

/-- Lines a reading took at once: their tokens, what they are to the conditionals around them,
whether they are a `__pragma` operator, and what was left out after them. -/
structure TakenLine where
  toks : List Token
  mark : Mark
  operator : Bool := false
  left : List Token := []

variable {host : Host ρ}

/-- The line of a directive. -/
def takenDirective (host : Host ρ) (r : Reader) (p : Pre ρ) (hash : Token) (line : List Token) : TakenLine where
  toks := hash :: line
  mark := .of (Directive.of line) (r.valueOf host (Directive.of line) line.tail hash.site p)

/-- The lines the file on top gives to this step. -/
def taken (law : TextLaw host) (c : Config ρ) : Option TakenLine :=
  match c.frames with
  | [] => none
  | f :: _ =>
    match f.preIncludes, nextLine f.reader.toks with
    | [], some (t, line, after) =>
      if t.opensDirective then some (takenDirective host f.reader c.pre t line)
      else if f.reader.skipping then some { toks := t :: line, mark := .plain }
      else if law.imported f.reader.org && opensPrivate (t :: (line ++ after)) then
        some { toks := t :: line, mark := .plain, left := after }
      else some { toks := textTaken host f.reader.org c.pre (t :: (line ++ after)), mark := .plain,
                  operator := opensMsPragma (t :: (line ++ after)) }
    | _, _ => none

/-- A reading of a file: all its tokens, and the lines taken so far, the last first. -/
structure FileReading where
  source : List Token
  past : List TakenLine

/-- A run with the readings of the files it is in. -/
structure Trace (ρ : Type) where
  config : Config ρ
  readings : List FileReading

/-- The readings after a step. -/
def readingsAfter (before : Nat) (after : List Frame) (new : List TakenLine) : List FileReading → List FileReading
  | [] => []
  | rd :: below =>
    if after.length < before then below
    else if before < after.length then
      { source := after.head?.elim [] (·.reader.toks), past := [] } :: { rd with past := new ++ rd.past } :: below
    else { rd with past := new ++ rd.past } :: below

def Trace.start (c : Config ρ) : Trace ρ :=
  { config := c, readings := c.frames.map fun f => { source := f.reader.toks, past := [] } }

def Trace.step (law : TextLaw host) (t : Trace ρ) : Option (Trace ρ) :=
  (Preprocessor.step true host t.config).map fun c =>
    { config := c
      readings := readingsAfter t.config.frames.length c.frames (taken law t.config).toList t.readings }

/-- A line that was taken after the conditionals around it were `n`, from a file with this origin. -/
structure TakenLine.Fits (law : TextLaw host) (org : Nat) (n : Nest) (t : TakenLine) : Prop where
  /-- An expression was evaluated where it could make its arm live, and only there. -/
  evaluated : ∀ v, t.mark = .opens v ∨ t.mark = .elif v → v.isSome = n.decides t.mark
  /-- It is the line of a directive, a `__pragma` operator, or text with no directive in it. -/
  spelled : (∃ hash line v, t.toks = hash :: line ∧ hash.opensDirective = true ∧ t.mark = .of (Directive.of line) v) ∨
    t.mark = .plain ∧ (t.operator = true ∨ ∀ x ∈ t.toks, x.opensDirective = false)
  /-- The operator stands in live arms. -/
  operator : t.operator = true → t.mark = .plain ∧ opensMsPragma t.toks = true ∧ n.live = true
  /-- Only `module :private;` in an imported interface leaves out what follows it. -/
  left : t.left ≠ [] → law.imported org = true ∧ opensPrivate (t.toks ++ t.left) = true ∧ n.live = true

/-- The lines taken fit, each after those before it. -/
def Fitting (law : TextLaw host) (org : Nat) : List TakenLine → Prop
  | [] => True
  | t :: earlier => t.Fits law org (nest (earlier.map (·.mark))) ∧ Fitting law org earlier

/-- What a line leaves of the tokens after it. -/
def TakenLine.leaves (t : TakenLine) (after : List Token) : List Token := if t.operator then lineOpened after else after

/-- The lines, the last first, are all that a reading took to what is left of the file. -/
def Gives (source : List Token) : List TakenLine → List Token → Prop
  | [], rest => significant source = significant rest
  | t :: earlier, rest => ∃ before after, Gives source earlier before ∧
      significant before = significant (t.toks ++ t.left) ++ significant after ∧ significant rest = significant (t.leaves after)

/-- The reader of a file and the lines it has taken. -/
structure Tracks (law : TextLaw host) (f : Frame) (rd : FileReading) : Prop where
  gives : Gives rd.source rd.past f.reader.toks
  agrees : Agrees f.reader.conds (nest (rd.past.map (·.mark)))
  fitting : Fitting law f.reader.org rd.past

/-- What a line of text comes to once the host has had it. -/
def TextStep.action (s : TextStep ρ) (org : Nat) (c : Config ρ) : Action ρ :=
  match s.imports with
  | none => .go c
  | some i => .imports i org c

/-- What a step does with a line of the file on top, the conditionals around which are `n`: in dead
arms it is read over, and in live ones text and directives are processed, as the state is there. -/
structure Processes (host : Host ρ) (f : Frame) (below : List Frame) (n : Nest) (x : Token) (line after : List Token)
    (c c' : Config ρ) : Prop where
  dead : n.live = false → (x.opensDirective = true → (Directive.of line).isConditional = false) →
    c' = c.withReader f below { f.reader with toks := after } c.pre
  text : n.live = true → x.opensDirective = false →
    ∃ r, c' = perform true host ((host.text f.reader.org c.pre (x :: (line ++ after))).action f.reader.org
      (c.withReader f below r (host.text f.reader.org c.pre (x :: (line ++ after))).pre))
  directive : n.live = true → x.opensDirective = true → Directive.of line = .other →
    ∃ r, c' = c.withReader f below r (host.directive f.reader.org c.pre (line.headD x) line.tail x.site).1
  inclusion : ∀ next, n.live = true → x.opensDirective = true → Directive.of line = .inclusion next →
    ∃ r, c' = perform true host (Preprocessor.inclusion host (if next then "#include_next" else "#include") next false line.tail
      x.site f.reader.org (c.withReader f below r c.pre))
  importFile : n.live = true → x.opensDirective = true → Directive.of line = .importFile → host.objC = true →
    ∃ r, c' = perform true host (Preprocessor.inclusion host "#import" false true line.tail x.site f.reader.org (c.withReader f below r c.pre))

/-- The step of a trace does so with the next line of the file on top. -/
def ProcessesNext (host : Host ρ) (t : Trace ρ) : Prop :=
  ∀ f below rd others x line after c', t.config.frames = f :: below → t.readings = rd :: others → f.preIncludes = [] →
    nextLine f.reader.toks = some (x, line, after) → Preprocessor.step true host t.config = some c' →
      Processes host f below (nest (rd.past.map (·.mark))) x line after t.config c'

/-! ### One step -/

theorem significant_append (xs ys : List Token) : significant (xs ++ ys) = significant xs ++ significant ys :=
  List.filter_append ..

theorem nextLine_eq {toks line after : List Token} {t : Token} (next : nextLine toks = some (t, line, after)) :
    significant toks = significant (t :: line) ++ significant after ∧ ∀ x ∈ line, x.opensDirective = false := by
  unfold nextLine at next
  split at next
  · cases next
  · rename_i t' ts rest
    cases next
    constructor
    · have ends : significant (toks.takeWhile (·.kind = .eof)) = [] := by
        apply List.filter_eq_nil_iff.2
        intro x mem
        have := List.mem_takeWhile_imp mem
        simpa using this
      have whole := List.takeWhile_append_dropWhile (p := fun x : Token => decide (x.kind = .eof)) (l := toks)
      have split := List.takeWhile_append_dropWhile (p := Token.continues) (l := ts)
      rw [← whole, significant_append, ends, List.nil_append, rest, ← significant_append, List.cons_append, split]
    · intro x mem
      have := List.mem_takeWhile_imp mem
      simp only [Token.continues, Bool.and_eq_true, Bool.not_eq_true'] at this
      simp [Token.opensDirective, this.2]

theorem Tracks.take {law : TextLaw host} {f f' : Frame} {rd : FileReading} (tracks : Tracks law f rd) {k : TakenLine}
    (after : List Token) (rest : significant f.reader.toks = significant (k.toks ++ k.left) ++ significant after)
    (left : significant f'.reader.toks = significant (k.leaves after)) (same : f'.reader.org = f.reader.org)
    (fits : k.Fits law f.reader.org (nest (rd.past.map (·.mark))))
    (agrees : Agrees f'.reader.conds ((nest (rd.past.map (·.mark))).after k.mark)) :
    Tracks law f' { rd with past := k :: rd.past } where
  gives := ⟨_, after, tracks.gives, rest, left⟩
  agrees := agrees
  fitting := by
    rw [same]
    exact ⟨fits, tracks.fitting⟩

theorem Reader.conditional_keeps (host : Host ρ) (r : Reader) (d : Directive) (rest : List Token) (at_ : Site) (p : Pre ρ) :
    (r.conditional host d rest at_ p).1.toks = r.toks ∧ (r.conditional host d rest at_ p).1.org = r.org := by
  cases d with
  | ifExpr =>
    simp only [Reader.conditional, Reader.beginIf, Reader.noteGuardIf, Reader.pushCond]
    repeat' split
    all_goals exact ⟨rfl, rfl⟩
  | ifdef negate =>
    simp only [Reader.conditional, Reader.doIfdef, Reader.pushCond]
    repeat' split
    all_goals exact ⟨rfl, rfl⟩
  | elif | elifdef negate =>
    simp only [Reader.conditional, Reader.doElif]
    repeat' split
    all_goals exact ⟨rfl, rfl⟩
  | elseArm =>
    simp only [Reader.conditional, Reader.doElse]
    repeat' split
    all_goals exact ⟨rfl, rfl⟩
  | endif =>
    simp only [Reader.conditional, Reader.doEndif]
    repeat' split
    all_goals exact ⟨rfl, rfl⟩
  | _ => exact ⟨rfl, rfl⟩

/-- What a directive does to the reader: its stack changes only if it is conditional. -/
theorem directive_reader (host : Host ρ) (f : Frame) (below : List Frame) (r : Reader) (hash : Token) (line : List Token) (c : Config ρ) :
    ∃ r', (directive host f below r hash line c).config.frames = { f with reader := r' } :: below ∧ r'.toks = r.toks ∧
      r'.org = r.org ∧ (r'.conds = r.conds ∧ (Directive.of line).isConditional = false ∨
        ∃ valid, r'.conds =
          ({ r with miValid := valid }.conditional host (Directive.of line) line.tail hash.site c.pre).1.conds) := by
  have included : ∀ (what : String) (next importing : Bool) (r' : Reader),
      (inclusion host what next importing line.tail hash.site r'.org (c.withReader f below r' c.pre)).config.frames =
        { f with reader := r' } :: below := by
    intro what next importing r'
    unfold inclusion
    split
    · rfl
    · split <;> rfl
  unfold directive
  simp only
  split
  · rename_i ignored
    refine ⟨r, rfl, rfl, rfl, .inl ⟨rfl, ?_⟩⟩
    simp only [Bool.or_eq_true, decide_eq_true_eq, Bool.and_eq_true, Bool.not_eq_true'] at ignored
    obtain null | ⟨-, plain⟩ := ignored
    · rw [null]
      rfl
    · exact plain
  · split
    · rename_i next kind
      exact ⟨_, included _ _ _ _, rfl, rfl, .inl ⟨rfl, by rw [kind]; rfl⟩⟩
    · rename_i kind
      have plain : (Directive.of line).isConditional = false := by rw [kind]; rfl
      split
      · exact ⟨_, included _ _ _ _, rfl, rfl, .inl ⟨rfl, plain⟩⟩
      · exact ⟨_, rfl, rfl, rfl, .inl ⟨rfl, plain⟩⟩
    · rename_i kind
      exact ⟨_, rfl, rfl, rfl, .inl ⟨rfl, by rw [kind]; rfl⟩⟩
    · exact ⟨_, rfl, (Reader.conditional_keeps ..).1, (Reader.conditional_keeps ..).2, .inr ⟨_, rfl⟩⟩

theorem Mark.of_plain {d : Directive} (plain : d.isConditional = false) (value : Option Bool) : Mark.of d value = .plain := by
  cases d <;> first | rfl | cases plain

theorem Mark.of_value {d : Directive} {value v : Option Bool}
    (mark : Mark.of d value = .opens v ∨ Mark.of d value = .elif v) : v = value := by
  cases d <;> simp_all [Mark.of]

theorem Tracks.fits_directive {law : TextLaw host} {f : Frame} {rd : FileReading} (tracks : Tracks law f rd) {hash : Token} {line : List Token} {p : Pre ρ}
    (opens : hash.opensDirective = true) :
    (takenDirective host f.reader p hash line).Fits law f.reader.org (nest (rd.past.map (·.mark))) where
  evaluated := by
    intro v mark
    obtain rfl := Mark.of_value mark
    simp only [takenDirective, ← tracks.agrees.evaluates, Reader.valueOf]
    split
    · rename_i evaluated
      rw [evaluated]
      rfl
    · rename_i not
      simpa using not
  spelled := .inl ⟨hash, line, _, rfl, opens, rfl⟩
  operator := nofun
  left := fun some_ => absurd rfl some_

theorem take_takeWhile (q : Token → Bool) (ts : List Token) :
    ts.take (ts.length - (ts.drop (ts.takeWhile q).length).length) = ts.takeWhile q := by
  have le := (List.takeWhile_sublist (l := ts) q).length_le
  rw [List.length_drop, Nat.sub_sub_self le]
  exact (List.prefix_iff_eq_take.1 (List.takeWhile_prefix q)).symm

theorem textTaken_eq {org : Nat} {p : Pre ρ} {ts front rest : List Token} (whole : front ++ rest = ts)
    (left : (host.text org p ts).toks.length = rest.length) : textTaken host org p ts = front := by
  have lengths : ts.length - (host.text org p ts).toks.length = front.length := by
    rw [left, ← whole, List.length_append]
    omega
  rw [textTaken, lengths, ← whole]
  simp

theorem Tracks.text {law : TextLaw host} {f : Frame} {rd : FileReading} (tracks : Tracks law f rd) {k : TakenLine} {r' : Reader}
    (after : List Token) (mark : k.mark = .plain) (conds : r'.conds = f.reader.conds) (org : r'.org = f.reader.org)
    (rest : significant f.reader.toks = significant (k.toks ++ k.left) ++ significant after)
    (leaves : significant r'.toks = significant (k.leaves after))
    (free : k.operator = true ∨ ∀ y ∈ k.toks, y.opensDirective = false)
    (operator : k.operator = true → opensMsPragma k.toks = true ∧ f.reader.skipping = false)
    (left : k.left ≠ [] → law.imported f.reader.org = true ∧ opensPrivate (k.toks ++ k.left) = true ∧ f.reader.skipping = false) :
    Tracks law { f with reader := r' } { rd with past := k :: rd.past } := by
  have live : f.reader.skipping = false → (nest (rd.past.map (·.mark))).live = true := by
    rw [tracks.agrees.skipping]
    simp
  refine tracks.take after rest leaves org ⟨fun v tested => ?_, .inr ⟨mark, free⟩, fun is => ?_, fun some_ => ?_⟩ ?_
  · rw [mark] at tested
    obtain tested | tested := tested <;> cases tested
  · obtain ⟨opens, notSkipping⟩ := operator is
    exact ⟨mark, opens, live notSkipping⟩
  · obtain ⟨imported, opens, notSkipping⟩ := left some_
    exact ⟨imported, opens, live notSkipping⟩
  · simp only [conds, mark]
    exact tracks.agrees

theorem Tracks.directive {law : TextLaw host} {f : Frame} {rd : FileReading} (tracks : Tracks law f rd) {x : Token} {line after : List Token}
    (hash : x.opensDirective = true) (rest : significant f.reader.toks = significant (x :: line) ++ significant after)
    (below : List Frame) (c : Config ρ) :
    ∃ f', (directive host f below { f.reader with toks := after } x line c).config.frames = f' :: below ∧
      Tracks law f' { rd with past := takenDirective host f.reader c.pre x line :: rd.past } := by
  obtain ⟨r', frames', toks', org, conds⟩ := directive_reader host f below { f.reader with toks := after } x line c
  refine ⟨_, frames', tracks.take after ?_ (congrArg significant toks') org (tracks.fits_directive hash) ?_⟩
  · simp only [takenDirective, List.append_nil]
    exact rest
  · obtain ⟨same, notConditional⟩ | ⟨valid, same⟩ := conds
    · simp only [same, takenDirective, Mark.of_plain notConditional]
      exact tracks.agrees
    · simp only [same]
      have here : Agrees { f.reader with toks := after, miValid := valid }.conds (nest (rd.past.map (·.mark))) := tracks.agrees
      exact here.conditional ..

/-- What an action leaves of the file on top: its end, or its reader behind the lines it took. -/
theorem action_tracks (law : TextLaw host) {t : Trace ρ} {f : Frame} {below : List Frame}
    {rd : FileReading} (frames : t.config.frames = f :: below) (tracks : Tracks law f rd) {act : Action ρ}
    (acted : action host t.config = some act) :
    act = .go (finish f below t.config) ∨
      ∃ f', act.config.frames = f' :: below ∧ Tracks law f' { rd with past := (taken law t.config).toList ++ rd.past } := by
  unfold action at acted
  rw [frames] at acted
  simp only at acted
  cases pre : f.preIncludes with
  | cons name more =>
    have none_ : taken law t.config = none := by simp [taken, frames, pre]
    rw [pre] at acted
    cases acted
    exact .inr ⟨_, rfl, by rw [none_]; exact ⟨tracks.gives, tracks.agrees, tracks.fitting⟩⟩
  | nil =>
    rw [pre] at acted
    simp only at acted
    split at acted
    · cases acted
      exact .inl rfl
    rename_i x line after next
    obtain ⟨rest, lineFree⟩ := nextLine_eq next
    right
    by_cases hash : x.opensDirective = true
    · rw [if_pos hash] at acted
      cases acted
      have here : taken law t.config = some (takenDirective host f.reader t.config.pre x line) := by
        simp [taken, frames, pre, next, hash]
      rw [here]
      exact tracks.directive hash rest below t.config
    have lineText : ∀ y ∈ x :: line, y.opensDirective = false := by
      intro y mem
      obtain rfl | mem := List.mem_cons.1 mem
      · simpa using hash
      · exact lineFree y mem
    rw [if_neg hash] at acted
    by_cases skipping : f.reader.skipping = true
    · have skips : { f.reader with toks := after }.skipping = true := skipping
      have here : taken law t.config = some { toks := x :: line, mark := .plain } := by
        simp [taken, frames, pre, next, hash, skipping]
      rw [if_pos skips] at acted
      cases acted
      rw [here]
      refine ⟨_, rfl, tracks.text after rfl rfl rfl ?_ rfl (.inr lineText) nofun fun some_ => absurd rfl some_⟩
      rw [List.append_nil]
      exact rest
    have live : ¬{ f.reader with toks := after }.skipping = true := skipping
    rw [if_neg live] at acted
    have notSkipping : f.reader.skipping = false := by simpa using skipping
    have frames' : act.config.frames = { f with reader := { f.reader with
        toks := (host.text f.reader.org t.config.pre (x :: (line ++ after))).toks, sawToken := true, miValid := false,
        once := f.reader.once || (host.text f.reader.org t.config.pre (x :: (line ++ after))).once } } :: below := by
      split at acted <;> cases acted <;> rfl
    refine ⟨_, frames', ?_⟩
    by_cases isPrivate : (law.imported f.reader.org && opensPrivate (x :: (line ++ after))) = true
    · have here : taken law t.config = some { toks := x :: line, mark := .plain, left := after } := by
        simp only [taken, frames, pre, next, hash, skipping, isPrivate, Bool.false_eq_true, if_false, if_true]
      rw [here]
      have inInterface := Bool.and_eq_true_iff.1 isPrivate
      refine tracks.text [] rfl rfl rfl ?_ (law.skipsRest isPrivate) (.inr lineText) nofun
        fun _ => ⟨inInterface.1, inInterface.2, notSkipping⟩
      rw [rest, ← significant_append]
      exact (List.append_nil _).symm
    have isText : (law.imported f.reader.org && opensPrivate (x :: (line ++ after))) = false := by simpa using isPrivate
    have here : taken law t.config = some ⟨textTaken host f.reader.org t.config.pre (x :: (line ++ after)), .plain,
        opensMsPragma (x :: (line ++ after)), []⟩ := by
      simp only [taken, frames, pre, next, hash, skipping, isText, Bool.false_eq_true, if_false]
    rw [here]
    cases pragma : opensMsPragma (x :: (line ++ after)) with
    | true =>
      obtain ⟨front, whole, opens⟩ := opensMsPragma_split pragma
      have left : (host.text f.reader.org t.config.pre (x :: (line ++ after))).toks = _ := law.operator pragma
      have front_eq := textTaken_eq whole ((congrArg List.length left).trans (lineOpened_length _))
      refine tracks.text (afterPragma (x :: (line ++ after))) rfl rfl rfl ?_ (congrArg significant left) (.inl rfl)
        (fun _ => ⟨by rw [front_eq]; exact opens, notSkipping⟩) fun some_ => absurd rfl some_
      rw [front_eq, List.append_nil, ← significant_append, whole, rest, ← significant_append]
      rfl
    | false =>
      obtain ⟨front, whole⟩ := law.takes isText pragma (p := t.config.pre)
      have front_eq := textTaken_eq whole rfl
      refine tracks.text (host.text f.reader.org t.config.pre (x :: (line ++ after))).toks rfl rfl rfl ?_ rfl
        (.inr (law.stops isText pragma)) nofun fun some_ => absurd rfl some_
      rw [front_eq, List.append_nil, ← significant_append, whole, rest, ← significant_append]
      rfl

/-- **A line is processed in live arms only**, and there always. -/
theorem processes_next (law : TextLaw host) {t : Trace ρ} (tracked : List.Forall₂ (Tracks law) t.config.frames t.readings) :
    ProcessesNext host t := by
  intro f below rd others x line after c' frames readings pre next stepped
  rw [frames, readings] at tracked
  have skipping := (List.forall₂_cons.1 tracked).1.agrees.skipping
  obtain ⟨act, acted, rfl⟩ := Option.map_eq_some_iff.1 stepped
  have skips : { f.reader with toks := after }.skipping = !(nest (rd.past.map (·.mark))).live := skipping
  simp only [action, frames, pre, next, skips] at acted
  refine ⟨fun dead plain => ?_, fun live notHash => ?_, fun live hash other => ?_, fun include_next live hash isInclusion => ?_,
    fun live hash isImport objC => ?_⟩
  · cases hash : x.opensDirective with
    | true =>
      have ignored : (!(nest (rd.past.map (·.mark))).live && !(Directive.of line).isConditional) = true := by
        simp [dead, plain hash]
      simp only [hash, if_true, directive, skips, ignored, Bool.or_true] at acted
      cases acted
      rfl
    | false =>
      simp only [hash, dead, Bool.false_eq_true, if_false, Bool.not_false, if_true] at acted
      cases acted
      rfl
  · simp only [notHash, live, Bool.false_eq_true, if_false, Bool.not_true] at acted
    refine ⟨{ f.reader with
        toks := (host.text f.reader.org t.config.pre (x :: (line ++ after))).toks, sawToken := true, miValid := false,
        once := f.reader.once || (host.text f.reader.org t.config.pre (x :: (line ++ after))).once }, ?_⟩
    unfold TextStep.action
    split at acted
    · rename_i none
      cases acted
      simp only [none]
    · rename_i i some
      cases acted
      simp only [some]
  all_goals
    simp only [hash, live, if_true, directive, skips, Bool.not_true, Bool.false_and, Bool.or_false, decide_eq_true_eq] at acted
  · rw [if_neg (by rw [other]; simp)] at acted
    simp only [other] at acted
    cases acted
    exact ⟨_, rfl⟩
  · rw [if_neg (by rw [isInclusion]; simp)] at acted
    simp only [isInclusion] at acted
    cases acted
    exact ⟨_, rfl⟩
  · rw [if_neg (by rw [isImport]; simp)] at acted
    simp only [isImport, objC, if_true] at acted
    cases acted
    exact ⟨_, rfl⟩

/-- What opening a file does to the stack: nothing, or there is a new file on it. -/
theorem perform_frames (optimise : Bool) (host : Host ρ) (act : Action ρ) :
    (perform optimise host act).frames = act.config.frames ∨
      ∃ new : Frame, (perform optimise host act).frames = new :: act.config.frames ∧ new.reader.conds = [] := by
  have reads : ∀ (g : Candidate) (entry : Cached) (at_ : Site) (parent : Nat) (module : String) (nth : Nat) (c : Config ρ),
      ∃ new : Frame, (readFileAs host g entry at_ parent module nth c).frames = new :: c.frames ∧ new.reader.conds = [] :=
    fun g entry at_ parent module nth c => ⟨_, rfl, rfl⟩
  cases act with
  | go a => exact .inl rfl
  | imports i org a =>
    simp only [perform, importInterface, Action.config]
    split
    · exact .inl rfl
    · exact .inr (reads ..)
  | includes i a =>
    simp only [perform, includeFile, Action.config]
    split
    · exact .inl rfl
    split
    · exact .inl rfl
    rename_i g entry a' resolved
    obtain ⟨r, -, eq⟩ := Option.map_eq_some_iff.1 resolved
    cases eq
    unfold includeOpened
    split
    · exact .inl rfl
    split
    · exact .inl rfl
    split
    · split
      · exact .inl rfl
      · exact .inr (reads ..)
    · exact .inr (reads ..)

/-- Every file being read, with the lines it has given. -/
def Tracked (law : TextLaw host) (t : Trace ρ) : Prop := List.Forall₂ (Tracks law) t.config.frames t.readings

theorem tracks_start (law : TextLaw host) {f : Frame} (closed : f.reader.conds = []) : Tracks law f { source := f.reader.toks, past := [] } where
  gives := rfl
  agrees := by
    rw [closed]
    trivial
  fitting := trivial

theorem Tracked.step (law : TextLaw host) {t t' : Trace ρ} (tracked : Tracked law t) (stepped : t.step law = some t') : Tracked law t' := by
  obtain ⟨c, moved, rfl⟩ := Option.map_eq_some_iff.1 stepped
  obtain ⟨act, acted, rfl⟩ := Option.map_eq_some_iff.1 moved
  unfold Tracked at tracked ⊢
  cases frames : t.config.frames with
  | nil => simp [action, frames] at acted
  | cons f below =>
    rw [frames] at tracked
    obtain ⟨rd, rds, tracks, others, readings⟩ := List.forall₂_cons_left_iff.1 tracked
    simp only [readings, readingsAfter]
    obtain rfl | ⟨f', frames', tracks'⟩ := action_tracks law frames tracks acted
    · have shorter : (perform true host (.go (finish f below t.config))).frames.length < (f :: below).length := by
        simp [perform, finish]
      rw [if_pos shorter]
      exact others
    · obtain same | ⟨new, pushed, closed⟩ := perform_frames true host act
      · rw [same, frames', if_neg (by simp), if_neg (by simp)]
        exact .cons tracks' others
      · rw [pushed, frames', if_neg (by simp), if_pos (by simp)]
        exact .cons (tracks_start law closed) (.cons tracks' others)

/-! ### Files within files -/

/-- A step in a file leaves the files below it alone. -/
theorem step_base {optimise : Bool} {host : Host ρ} {c c' : Config ρ} (stepped : step optimise host c = some c') {f : Frame}
    {above base : List Frame} (frames : c.frames = f :: above ++ base) : ∃ above', c'.frames = above' ++ base := by
  cases step_moves stepped with
  | @within g g' below was is =>
    rw [frames] at was
    cases was
    exact ⟨g' :: above, is⟩
  | @ends g below was eq =>
    rw [frames] at was
    cases was
    exact ⟨above, by rw [eq]; rfl⟩
  | @begins g g' new below _ _ was is =>
    rw [frames] at was
    cases was
    exact ⟨new :: g' :: above, is⟩

/-- **While a file is read**, its includers stay as they are, stacks included. -/
theorem steps_base {optimise : Bool} {host : Host ρ} {c c' : Config ρ} {above base : List Frame} {n : Nat}
    (frames : c.frames = above ++ base) (run : steps (step optimise host) n c = some c')
    (inside : ∀ k, k < n → ∀ d, steps (step optimise host) k c = some d → base.length < d.frames.length) :
    ∃ above', c'.frames = above' ++ base := by
  induction n generalizing c' with
  | zero =>
    cases run
    exact ⟨above, frames⟩
  | succ n ih =>
    rw [steps_succ] at run
    obtain ⟨d, before, last⟩ := Option.bind_eq_some_iff.1 run
    obtain ⟨above', eq⟩ := ih before fun k less => inside k (Nat.lt_succ_of_lt less)
    have deeper := inside n (Nat.lt_succ_self n) d before
    cases above' with
    | nil =>
      rw [eq, List.nil_append] at deeper
      exact absurd deeper (Nat.lt_irrefl _)
    | cons f above' => exact step_base last eq

/-- A file starts with no conditional of its own, and ends with its includers as they were. -/
def StackKept (host : Host ρ) (c : Config ρ) : Prop :=
  ∀ d, step true host c = some d → c.frames.length < d.frames.length →
    ∃ new base, d.frames = new :: base ∧ new.reader.conds = [] ∧
      ∀ n c', steps (step true host) n d = some c' →
        (∀ k, k < n → ∀ e, steps (step true host) k d = some e → base.length < e.frames.length) →
        c'.frames.length = base.length → c'.frames = base

theorem stackKept (host : Host ρ) (c : Config ρ) : StackKept host c := by
  intro d stepped deeper
  obtain ⟨act, acted, rfl⟩ := Option.map_eq_some_iff.1 stepped
  have kept : act.config.frames.length ≤ c.frames.length := by
    cases action_acts acted with
    | within frames frames' => simp [frames, frames']
    | ends frames eq => simp [eq, Action.config, finish, frames]
  obtain same | ⟨new, pushed, closed⟩ := perform_frames true host act
  · rw [same] at deeper
    omega
  · refine ⟨new, act.config.frames, pushed, closed, fun n c' run inside level => ?_⟩
    have frames : (perform true host act).frames = [new] ++ act.config.frames := pushed
    obtain ⟨above, eq⟩ := steps_base frames run inside
    have empty : above = [] := by
      rw [eq, List.length_append] at level
      exact List.length_eq_zero_iff.1 (by omega)
    rw [eq, empty, List.nil_append]

/-! ### The result -/

/-- **Conditional inclusion.** In every run, every file being read has taken its lines one after
another: each is a directive, a `__pragma` operator or text without directives, and a controlling
expression is evaluated if and only if it can make its arm live; one that is not has no effect. The
next line is processed if and only if every conditional around it is in its live arm, and only
`module :private;` leaves out what follows it. Every file starts with an empty stack and leaves its
includers' as they were. -/
theorem conditionals_live (law : TextLaw host) (p : Pre ρ) (org : Nat) (toks : List Token) (preIncludes : List String)
    {t : Trace ρ} (run : Reaches (Trace.step law) (.start (start p org toks preIncludes)) t) :
    List.Forall₂ (fun f rd => Tracks law f rd ∧
      ∀ d value, (nest (rd.past.map (·.mark))).decides (.of d value) = false → ∀ rest at_ ev p,
        f.reader.conditional host d rest at_ p = f.reader.conditionalBy host d rest at_ ev p) t.config.frames t.readings ∧
    ProcessesNext host t ∧ StackKept host t.config := by
  have tracked : Tracked law t := by
    obtain ⟨n, run⟩ := run
    induction n generalizing t with
    | zero =>
      cases run
      exact .cons (tracks_start law rfl) .nil
    | succ n ih =>
      rw [steps_succ] at run
      obtain ⟨t', before, stepped⟩ := Option.bind_eq_some_iff.1 run
      exact (ih before).step law stepped
  refine ⟨List.Forall₂.imp (fun f rd tracks => ⟨tracks, ?_⟩) tracked, processes_next law tracked, stackKept host t.config⟩
  intro d value idle rest at_ ev p
  rw [← tracks.agrees.evaluates] at idle
  rw [Reader.conditional_eq_by]
  exact Reader.conditionalBy_unevaluated idle host rest at_ _ ev p

/-! ### Lines of text that take others -/

/-- `export module M;`, `module :private;`, `x`. -/
def privateInterface : List Token :=
  [{ Token.mint .keyword "export" with nlBefore := true }, .mint .ident "module", .mint .ident "M", .mint .semi ";",
   { Token.mint .ident "module" with nlBefore := true }, .mint .colon ":", .mint .keyword "private", .mint .semi ";",
   { Token.mint .ident "x" with nlBefore := true }, endOfFile]

/-- `v++` on lines of text that are module directives, `__pragma` operators or nothing but names. -/
def moduleHost (header : List Token) : Host Unit :=
  { sampleHost header with
    read := fun f => if f.display = "m.cppm" then some (privateInterface, []) else (sampleHost header).read f
    text := fun org p ts =>
      if opensMsPragma ts then { toks := lineOpened (afterPragma ts), pre := p }
      else if decide (org ≠ 0) && opensPrivate ts then { toks := [], pre := p }
      else
        let line := ts.takeWhile fun t => !t.opensDirective && (decide (ts.head? = some t) || t.continues)
        { toks := ts.drop line.length
          pre := if org = 0 then { p with out := p.out ++ line } else p
          imports := if org = 0 && ts.head?.any (·.spells "import") then some ⟨⟨0, "m.cppm", "m.cppm"⟩, ⟨some 0, 1, 7⟩, "M"⟩
            else none } }

def moduleLaw (header : List Token) : TextLaw (moduleHost header) where
  imported org := org ≠ 0
  skipsRest isPrivate := by
    have notPragma := opensPrivate_not_operator (Bool.and_eq_true_iff.1 isPrivate).2
    simp only [moduleHost, isPrivate, notPragma, Bool.false_eq_true, if_false, if_true]
    rfl
  operator pragma := by simp [moduleHost, pragma]
  takes isText notPragma := by
    simp only [moduleHost, isText, notPragma, Bool.false_eq_true, if_false]
    exact List.drop_suffix ..
  stops isText notPragma t mem := by
    rw [textTaken] at mem
    simp only [moduleHost, isText, notPragma, Bool.false_eq_true, if_false] at mem
    rw [take_takeWhile] at mem
    have := List.mem_takeWhile_imp mem
    simp only [Bool.and_eq_true, Bool.not_eq_true'] at this
    exact this.1

/-- In the second line of a header that is all within `#ifndef A`, with `A` defined. -/
theorem wholeHeader_conditionals : ∃ t : Trace Unit, t.config.frames.length = 2 ∧
    t.readings.map (fun rd => (nest (rd.past.map (·.mark))).live) = [false, true] ∧ Tracked (moduleLaw wholeHeader) t ∧
    ProcessesNext (moduleHost wholeHeader) t := by
  have reached : (steps (Trace.step (moduleLaw wholeHeader)) 2 (.start sampleStart)).any (fun t =>
      decide (t.config.frames.length = 2) &&
      decide (t.readings.map (fun rd => (nest (rd.past.map (·.mark))).live) = [false, true])) = true := by
    decide
  obtain ⟨t, run, shown⟩ := (Option.any_eq_true _ _).1 reached
  simp only [Bool.and_eq_true, decide_eq_true_eq] at shown
  have live := conditionals_live (moduleLaw wholeHeader) _ _ _ _ ⟨2, run⟩
  exact ⟨t, shown.1, shown.2, List.Forall₂.imp (fun _ _ both => both.1) live.1, live.2.1⟩

/-- `import M;`. -/
def importingMain : Config Unit :=
  start { macros := definesA, rest := () } 0
    [{ Token.mint .ident "import" with nlBefore := true }, .mint .ident "M", .mint .semi ";", endOfFile] []

/-- The directive line `#if 0`. -/
def ifZero : List Token := [hashAt 11, .mint .keyword "if", .mint .intLit "0"]

/-- `__pragma (`, `#if 0`, `)`, `x`. -/
def pragmaMain : Config Unit :=
  start { macros := definesA, rest := () } 0
    ({ Token.mint .ident "__pragma" with nlBefore := true } :: .mint .lparen "(" ::
      (ifZero ++ [{ Token.mint .rparen ")" with nlBefore := true }, { Token.mint .ident "x" with nlBefore := true }, endOfFile])) []

/-- **Not every line is processed by the conditionals around it:** the `x` after `module :private;`
lies in none and is left out, and the `x` after a `#if 0` between the parentheses of `__pragma` is
processed. -/
theorem lines_processed_otherwise :
    (∃ t, Reaches (Trace.step (moduleLaw [])) (.start importingMain) t ∧
      t.readings.any (fun rd => rd.past.any (fun k => k.left.any (·.text = "x")) && (nest (rd.past.map (·.mark))).live) = true ∧
      ∃ x, HaltsIn (step true (moduleHost [])) importingMain x ∧ x.pre.out.map (·.text) = ["import", "M", ";"]) ∧
    nextLine ifZero = some (hashAt 11, ifZero.tail, []) ∧ Directive.of ifZero.tail = .ifExpr ∧
      (eval (moduleHost []) 0 (ifZero.drop 2) (hashAt 11).site pragmaMain.pre).1 = false ∧
      ∃ x, HaltsIn (step true (moduleHost [])) pragmaMain x ∧ x.pre.out.map (·.text) = ["x"] := by
  refine ⟨?_, rfl, rfl, by decide, ?_⟩
  · have reached : (steps (Trace.step (moduleLaw [])) 3 (.start importingMain)).any (fun t => t.readings.any fun rd =>
        rd.past.any (fun k => k.left.any (·.text = "x")) && (nest (rd.past.map (·.mark))).live) = true := by
      decide
    obtain ⟨t, run, shown⟩ := (Option.any_eq_true _ _).1 reached
    have ended : ∃ x, HaltsIn (step true (moduleHost [])) importingMain x ∧
        decide (x.pre.out.map (·.text) = ["import", "M", ";"]) = true := HaltsIn.of_steps 5 (by decide)
    obtain ⟨x, halts, out⟩ := ended
    exact ⟨t, ⟨3, run⟩, shown, x, halts, of_decide_eq_true out⟩
  · have ended : ∃ x, HaltsIn (step true (moduleHost [])) pragmaMain x ∧ decide (x.pre.out.map (·.text) = ["x"]) = true :=
      HaltsIn.of_steps 3 (by decide)
    obtain ⟨x, halts, out⟩ := ended
    exact ⟨x, halts, of_decide_eq_true out⟩

end Vcx.Preprocessor
