import Vcx.Preprocessor.Line

/-!
# `#line` and inclusion

When the presumed positions of every file being read are those that its own `#line` directives give.
-/

namespace Vcx.Preprocessor
set_option autoImplicit false
open Vcx.Lib

section
variable {ρ : Type}

/-! ### What leaves the rest of the state alone -/

@[simp] theorem warn_rest (host : Host ρ) (p : Pre ρ) (name : String) (site : Site) (msg : String) :
    (p.warn host name site msg).rest = p.rest := by
  unfold Pre.warn
  simp only
  split
  · rfl
  · split
    · rfl
    · split <;> rfl

@[simp] theorem expectEnd_rest (host : Host ρ) (p : Pre ρ) (ts : List Token) (what : String) :
    (expectEnd host p ts what).rest = p.rest := by
  unfold expectEnd
  split
  · rfl
  · exact warn_rest ..

@[simp] theorem fromScan_rest (host : Host ρ) (p : Pre ρ) (r : Report) : (p.fromScan host r).rest = p.rest := by
  unfold Pre.fromScan
  split
  · exact warn_rest ..
  · rfl

theorem foldl_rest {α : Type} (f : Pre ρ → α → Pre ρ) (kept : ∀ p a, (f p a).rest = p.rest) (as : List α) (p : Pre ρ) :
    (as.foldl f p).rest = p.rest := by
  induction as generalizing p with
  | nil => rfl
  | cons a as ih => rw [List.foldl_cons, ih, kept]

theorem finishConds_rest (r : Reader) (p : Pre ρ) : (r.finishConds p).rest = p.rest :=
  foldl_rest (fun p (c : Cond) => p.errorf c.site ("unterminated " ++ c.directive) []) (fun _ _ => rfl) _ p

theorem evalDefined_rest (host : Host ρ) (p : Pre ρ) (t : Token) (ts : List Token) : (evalDefined host p t ts).2.rest = p.rest := by
  unfold evalDefined
  repeat' split
  all_goals rfl

theorem definedOperand_rest (host : Host ρ) (word : String) (line : List Token) (at_ : Site) (negate : Bool) (p : Pre ρ) :
    (definedOperand host word line at_ negate p).2.rest = p.rest := by
  unfold definedOperand
  split
  · rfl
  · split
    · rfl
    · exact expectEnd_rest ..

theorem notFound_rest (host : Host ρ) (i : Inclusion) (p : Pre ρ) : (notFound host i p).rest = p.rest := by
  unfold notFound
  split <;> rfl

end

section
variable {σ : Type} {lineOf : Nat → Option (Nat → Nat)} {base : Line → Host σ}

/-! ### What leaves the offset and the name alone -/

theorem resolveLoop_line (org : Nat) (ts : List Token) (skip : Nat) (out : List Token) (p : Pre (Line × σ)) :
    (resolveLoop (lineHost lineOf base) org ts skip out p).2.rest.1 = p.rest.1 := by
  induction ts generalizing skip out p with
  | nil => rfl
  | cons t ts ih =>
    cases skip with
    | succ skip => exact ih skip out p
    | zero =>
      rw [resolveLoop]
      have operator {r : Option (Int × Nat) × Pre (Line × σ)}
          (asked : evalOperator (lineHost lineOf base) org p t ts = some r) : r.2.rest.1 = p.rest.1 := by
        unfold evalOperator at asked
        split at asked
        · cases asked
          rw [evalDefined_rest]
        · split at asked
          · cases asked
            rfl
          · cases asked
      split
      · exact ih ..
      · rename_i asked
        exact operator asked
      · rename_i asked
        exact (ih ..).trans (operator asked)

theorem eval_line (org : Nat) (line : List Token) (at_ : Site) (p : Pre (Line × σ)) :
    (eval (lineHost lineOf base) org line at_ p).2.rest.1 = p.rest.1 := by
  unfold eval
  split
  · rfl
  · simp only
    rw [foldl_rest (fun p (d : Diagnostic) => p.errorf d.site d.msg []) (fun _ _ => rfl)]
    have resolved : (resolveLoop (lineHost lineOf base) org line 0 [] p).2.rest.1 = p.rest.1 :=
      resolveLoop_line org line 0 [] p
    unfold resolveExpandedOperators
    split
    · exact resolved
    · rw [resolveOperators, resolveLoop_line, warn_rest]
      exact resolved

theorem beginIf_line {r : Reader} {name : String} {at_ : Site} {eval : Pre (Line × σ) → Bool × Pre (Line × σ)}
    (kept : ∀ p, (eval p).2.rest.1 = p.rest.1) (p : Pre (Line × σ)) : (r.beginIf name at_ eval p).2.rest.1 = p.rest.1 := by
  unfold Reader.beginIf
  split
  · rfl
  · exact kept p

theorem doElif_line {r : Reader} {name : String} {at_ : Site} {eval : Pre (Line × σ) → Bool × Pre (Line × σ)}
    (kept : ∀ p, (eval p).2.rest.1 = p.rest.1) (p : Pre (Line × σ)) : (r.doElif name at_ eval p).2.rest.1 = p.rest.1 := by
  unfold Reader.doElif
  split
  · rfl
  · split
    · rfl
    · split
      · rfl
      · exact kept p

theorem conditional_line (r : Reader) (d : Directive) (rest : List Token) (at_ : Site) (p : Pre (Line × σ)) :
    (r.conditional (lineHost lineOf base) d rest at_ p).2.rest.1 = p.rest.1 := by
  cases d with
  | ifExpr => exact beginIf_line (eval_line r.org rest at_) p
  | ifdef negate =>
    simp only [Reader.conditional, Reader.doIfdef]
    split
    · rfl
    · split
      · exact congrArg Prod.fst (definedOperand_rest ..)
      · rfl
  | elif => exact doElif_line (eval_line r.org rest at_) p
  | elifdef negate => exact doElif_line (fun p => congrArg Prod.fst (definedOperand_rest ..)) p
  | elseArm =>
    simp only [Reader.conditional, expectEnd_rest, Reader.doElse]
    split
    · rfl
    · split <;> rfl
  | endif =>
    simp only [Reader.conditional, expectEnd_rest, Reader.doEndif]
    split
    · rfl
    · split <;> rfl
    · rfl
  | _ => rfl

/-! ### Steps -/

theorem doLine_line (line : List Token) (at_ : Site) (p : Pre (Line × σ)) :
    (doLine lineOf (lineHost lineOf base).expandClosed line at_ p).rest.1 =
      (setLine lineOf ((base p.rest.1).expandClosed p.bare line).1 at_ p.rest.1).1 := by
  unfold doLine
  simp only
  split
  · rfl
  · rfl

/-- What an action may do to the stack, the offset and the name. -/
inductive Lines (lineOf : Nat → Option (Nat → Nat)) (base : Line → Host σ) (c : Config (Line × σ)) :
    Action (Line × σ) → Prop
  | goes {a : Config (Line × σ)} (files : orgs a = orgs c) (line : a.pre.rest.1 = lineAfter lineOf base c c.pre.rest.1) :
    Lines lineOf base c (.go a)
  | reads {act : Action (Line × σ)} (files : orgs act.config = orgs c) (line : act.config.pre.rest.1 = c.pre.rest.1)
    (none : lineDirective c = none) : Lines lineOf base c act
  | ends {f : Frame} {below : List Frame} (frames : c.frames = f :: below) (none : lineDirective c = none) :
    Lines lineOf base c (.go (finish f below c))

theorem conditional_org {ρ : Type} (host : Host ρ) (r : Reader) (d : Directive) (rest : List Token) (at_ : Site) (p : Pre ρ) :
    (r.conditional host d rest at_ p).1.org = r.org := by
  cases d with
  | ifExpr =>
    simp only [Reader.conditional, Reader.beginIf, Reader.noteGuardIf, Reader.pushCond]
    repeat' split
    all_goals rfl
  | ifdef negate =>
    simp only [Reader.conditional, Reader.doIfdef, Reader.pushCond]
    repeat' split
    all_goals rfl
  | elif | elifdef negate =>
    simp only [Reader.conditional, Reader.doElif]
    repeat' split
    all_goals rfl
  | elseArm =>
    simp only [Reader.conditional, Reader.doElse]
    repeat' split
    all_goals rfl
  | endif =>
    simp only [Reader.conditional, Reader.doEndif]
    repeat' split
    all_goals rfl
  | _ => rfl

theorem inclusion_lines (what : String) (next importing : Bool) (rest : List Token) (at_ : Site) (org : Nat)
    (c : Config (Line × σ)) :
    (inclusion (lineHost lineOf base) what next importing rest at_ org c).config.frames = c.frames ∧
      (inclusion (lineHost lineOf base) what next importing rest at_ org c).config.pre.rest.1 = c.pre.rest.1 := by
  unfold inclusion
  split
  · rename_i asked
    exact ⟨rfl, congrArg (·.2.rest.1) asked.symm⟩
  · rename_i asked
    have kept : _ = c.pre.rest.1 := congrArg (·.2.rest.1) asked.symm
    split
    · exact ⟨rfl, (congrArg Prod.fst (expectEnd_rest ..)).trans kept⟩
    · exact ⟨rfl, (congrArg Prod.fst (expectEnd_rest ..)).trans kept⟩

theorem of_line {word : Token} {rest : List Token} (spells : word.spells "line" = true) :
    Directive.of (word :: rest) = .other := by
  simp only [Token.spells, Bool.and_eq_true, decide_eq_true_eq] at spells
  simp [Directive.of, spells.1, spells.2]

theorem directive_lines {f : Frame} {below : List Frame} {r : Reader} {hash : Token} {line : List Token}
    {c : Config (Line × σ)} (frames : c.frames = f :: below) (org : r.org = f.reader.org)
    (asked : lineDirective c = match line with
      | word :: rest => if !r.skipping && word.spells "line" then some (rest, hash.site) else none
      | [] => none) :
    Lines lineOf base c (directive (lineHost lineOf base) f below r hash line c) := by
  have files {c' : Config (Line × σ)} (r' : Reader) (frames' : c'.frames = { f with reader := r' } :: below)
      (same : r'.org = r.org) : orgs c' = orgs c := by
    simp [orgs, frames, frames', same, org]
  have quiet (passed : Directive.of line ≠ .other ∨ r.skipping = true) : lineDirective c = none := by
    rw [asked]
    split
    · rename_i word rest
      rw [if_neg]
      intro yes
      rw [Bool.and_eq_true, Bool.not_eq_true'] at yes
      rcases passed with other | skipping
      · exact other (of_line yes.2)
      · rw [yes.1] at skipping
        cases skipping
    · rfl
  unfold directive
  simp only
  split
  · rename_i passed
    refine .reads (files r rfl rfl) rfl (quiet ?_)
    rw [Bool.or_eq_true, Bool.and_eq_true] at passed
    rcases passed with null | skipped
    · left
      simp only [decide_eq_true_eq] at null
      simp [null]
    · exact .inr skipped.1
  · rename_i goes
    simp only [Bool.or_eq_true, decide_eq_true_eq, Bool.and_eq_true, not_or, not_and] at goes
    have included (what : String) (next importing : Bool) (r' : Reader) (same : r'.org = r.org)
        (other : Directive.of line ≠ .other) :
        Lines lineOf base c (inclusion (lineHost lineOf base) what next importing line.tail hash.site r'.org
          (c.withReader f below r' c.pre)) := by
      obtain ⟨frames', kept⟩ := @inclusion_lines σ lineOf base what next importing line.tail hash.site r'.org
        (c.withReader f below r' c.pre)
      exact .reads (files r' frames' same) kept (quiet (.inl other))
    split
    · rename_i is
      exact included _ _ _ _ rfl (by rw [is]; simp)
    · rename_i is
      split
      · exact included _ _ _ _ rfl (by rw [is]; simp)
      · exact .reads (files _ rfl rfl) rfl (quiet (.inl (by rw [is]; simp)))
    · rename_i is
      refine .goes (files _ rfl rfl) ?_
      have notSkipping : r.skipping = false := by
        have := goes.2
        rw [is] at this
        cases skipping : r.skipping with
        | false => rfl
        | true => simp [skipping, Directive.isConditional] at this
      cases line with
      | nil => simp [Directive.of] at is
      | cons word rest =>
        simp only [notSkipping, Bool.not_false, Bool.true_and] at asked
        cases spells : word.spells "line" with
        | true =>
          rw [if_pos spells] at asked
          have lined := @doLine_line σ lineOf base rest hash.site c.pre
          simp only [Config.withReader, lineHost, List.headD_cons, List.tail_cons, spells, if_true, lineAfter, asked]
          exact lined
        | false =>
          rw [if_neg (by simp [spells])] at asked
          simp [Config.withReader, lineHost, spells, lineAfter, asked, Pre.withLine]
    · rename_i notNext notImport notOther
      exact .reads (files _ rfl (conditional_org ..)) (conditional_line ..) (quiet (.inl (fun is => notOther is)))

theorem action_lines {c : Config (Line × σ)} {act : Action (Line × σ)}
    (acted : action (lineHost lineOf base) c = some act) : Lines lineOf base c act := by
  unfold action at acted
  split at acted
  · cases acted
  rename_i f below frames
  split at acted
  · rename_i name more pre
    cases acted
    refine .reads (by simp [orgs, Action.config, frames]) rfl ?_
    simp [lineDirective, frames, pre]
  rename_i pre
  split at acted
  · rename_i last
    cases acted
    exact .ends frames (by simp [lineDirective, frames, pre, last])
  rename_i t line after next
  simp only at acted
  split at acted
  · rename_i opens
    cases acted
    refine directive_lines frames rfl ?_
    simp only [lineDirective, frames, pre, next]
    cases line with
    | nil => rfl
    | cons word rest => simp [opens, Reader.skipping]
  rename_i plain
  have none : lineDirective c = none := by
    simp only [lineDirective, frames, pre, next]
    cases line with
    | nil => rfl
    | cons word rest => simp [plain]
  split at acted
  · cases acted
    exact .reads (by simp [orgs, Action.config, Config.withReader, frames]) rfl none
  split at acted
  · cases acted
    exact .reads (by simp [orgs, Action.config, Config.withReader, frames]) rfl none
  · cases acted
    exact .reads (by simp [orgs, Action.config, Config.withReader, frames]) rfl none

/-- What a step does to the stack, the offset and the name: it goes on in the file, begins to read one, or ends
it; the two are set by `#line` only. -/
inductive Stacks (lineOf : Nat → Option (Nat → Nat)) (base : Line → Host σ) (c c' : Config (Line × σ)) : Prop
  | within (files : orgs c' = orgs c) (line : c'.pre.rest.1 = lineAfter lineOf base c c.pre.rest.1)
  | begins (org : Nat) (files : orgs c' = org :: orgs c) (line : c'.pre.rest.1 = c.pre.rest.1) (none : lineDirective c = none)
  | ends (org : Nat) (files : orgs c = org :: orgs c') (line : c'.pre.rest.1 = c.pre.rest.1) (none : lineDirective c = none)

theorem readFileAs_rest {ρ : Type} (host : Host ρ) (f : Candidate) (entry : Cached) (at_ : Site) (parent : Nat)
    (module : String) (nth : Nat) (c : Config ρ) :
    (readFileAs host f entry at_ parent module nth c).pre.rest = c.pre.rest := by
  simp only [readFileAs]
  split
  · rfl
  · exact foldl_rest (fun p (r : Report) => p.fromScan host _) (fun _ _ => fromScan_rest ..) _ _

theorem lineAfter_none {c : Config (Line × σ)} (none : lineDirective c = none) (l : Line) : lineAfter lineOf base c l = l := by
  simp [lineAfter, none]

theorem includeOpened_stacks {optimise : Bool} {i : Inclusion} {g : Candidate} {entry : Cached}
    {c a : Config (Line × σ)} (files : orgs a = orgs c) (line : a.pre.rest.1 = c.pre.rest.1) (none : lineDirective c = none) :
    Stacks lineOf base c (includeOpened optimise (lineHost lineOf base) i g entry a) := by
  have begins {entry : Cached} {a' : Config (Line × σ)} (frames : a'.frames = a.frames) (pre : a'.pre = a.pre) :
      Stacks lineOf base c (readFileAs (lineHost lineOf base) g entry i.site i.org "" i.nth a') := by
    refine .begins ((lineHost lineOf base).origin g i.org i.site "" i.nth) ?_ ?_ none
    · simp only [readFileAs, orgs, List.map_cons, frames]
      exact congrArg _ files
    · rw [readFileAs_rest, pre, line]
  have line' := line.trans (@lineAfter_none σ lineOf base _ none _).symm
  unfold includeOpened
  split
  · exact .within files line'
  split
  · exact .within files line'
  split
  · split
    · exact .within files line'
    · exact begins rfl rfl
  · exact begins rfl rfl

theorem step_stacks {optimise : Bool} {c c' : Config (Line × σ)}
    (stepped : step optimise (lineHost lineOf base) c = some c') : Stacks lineOf base c c' := by
  obtain ⟨act, acted, rfl⟩ := Option.map_eq_some_iff.1 stepped
  cases action_lines acted with
  | @ends f below frames none =>
    refine .ends f.reader.org ?_ ?_ none
    · simp only [orgs, frames, List.map_cons, perform, finish]
    · simp only [perform, finish, finishConds_rest]
  | goes files line => exact .within files line
  | reads files line none =>
    have line' := line.trans (@lineAfter_none σ lineOf base _ none _).symm
    cases act with
    | go a => exact .within files line'
    | imports i org a =>
      simp only [perform, importInterface]
      split
      · exact .within files line'
      · refine .begins ((lineHost lineOf base).origin i.unit org i.site i.module 0) ?_ ?_ none
        · simp only [readFileAs, orgs, List.map_cons]
          exact congrArg _ files
        · rw [readFileAs_rest]
          exact line
    | includes i a =>
      simp only [perform, includeFile]
      split
      · exact .within files line'
      split
      · refine .within files ?_
        simp only [notFound_rest]
        exact line'
      · rename_i g entry a' resolved
        obtain ⟨⟨g', e, files'⟩, -, eq⟩ := Option.map_eq_some_iff.1 resolved
        cases eq
        exact includeOpened_stacks files line none

/-! ### One step -/

theorem presumed_iff_same {s : Scoped σ} {org : Nat} {files : List Nat} {l : Line} {below : List Line}
    (reading : orgs s.config = org :: files) (own : s.own = l :: below) :
    Presumed lineOf base s ↔ Line.Same (lineHost lineOf base).name org s.config.pre.rest.1 l := by
  simp only [Presumed, reading, own, List.head?_cons, Option.mem_def, Option.some.injEq, forall_eq']
  constructor
  · intro presumed
    obtain ⟨line, file⟩ := presumed ⟨some org, 0, 0⟩ rfl
    exact ⟨(BitVec.add_right_inj _).1 line, file⟩
  · rintro ⟨line, file⟩ site within
    refine ⟨by rw [presumedLine, presumedLine, line], ?_⟩
    simp only [currentFile, within] at file ⊢
    exact file

theorem orgs_length {ρ : Type} (c : Config ρ) : (orgs c).length = c.frames.length := List.length_map ..

theorem Presumed.of_no_file {s : Scoped σ} (none : orgs s.config = []) : Presumed lineOf base s := by
  simp [Presumed, none]

/-- What a step makes of the files' own, with what it does to the stack. -/
theorem Scoped.step_eq {optimise : Bool} {s s' : Scoped σ} (stepped : s.step optimise lineOf base = some s') :
    Preprocessor.step optimise (lineHost lineOf base) s.config = some s'.config ∧
      s'.own = Scoped.next lineOf base s.config s'.config s.own := by
  obtain ⟨c', ran, rfl⟩ := Option.map_eq_some_iff.1 stepped
  exact ⟨ran, rfl⟩

/-- Every file being read has its own, what is in force is the innermost's, and the others are at the main file's. -/
structure Settled (s : Scoped σ) : Prop where
  each : s.own.length = (orgs s.config).length
  line : ∀ l ∈ s.own.head?, s.config.pre.rest.1 = l
  others : ∀ l ∈ s.own.tail, l = s.main

theorem exists_own {s : Scoped σ} (each : s.own.length = (orgs s.config).length) {org : Nat} {files : List Nat}
    (reading : orgs s.config = org :: files) : ∃ l below, s.own = l :: below := by
  rw [reading] at each
  exact List.exists_cons_of_length_eq_add_one each

theorem Settled.presumed {s : Scoped σ} (settled : Settled s) : Presumed lineOf base s := by
  cases reading : orgs s.config with
  | nil => exact .of_no_file reading
  | cons org files =>
    obtain ⟨l, below, own⟩ := exists_own settled.each reading
    rw [presumed_iff_same reading own, settled.line l (by simp [own])]
    exact ⟨rfl, rfl⟩

/-- A state that steps reads a file. -/
theorem exists_reading {optimise : Bool} {c c' : Config (Line × σ)}
    (ran : Preprocessor.step optimise (lineHost lineOf base) c = some c') : ∃ org rest, orgs c = org :: rest := by
  cases frames : c.frames with
  | nil => simp [Preprocessor.step, action, frames] at ran
  | cons f below => exact ⟨f.reader.org, below.map (·.reader.org), by simp [orgs, frames]⟩

/-- What a step within a file, to a file or out of one makes of the files' own. -/
inductive Owns (lineOf : Nat → Option (Nat → Nat)) (base : Line → Host σ) (s s' : Scoped σ) (l : Line) (below : List Line) : Prop
  | within (files : orgs s'.config = orgs s.config) (own : s'.own = lineAfter lineOf base s.config l :: below)
    (line : s'.config.pre.rest.1 = lineAfter lineOf base s.config s.config.pre.rest.1)
  | begins (org : Nat) (files : orgs s'.config = org :: orgs s.config) (own : s'.own = s.main :: l :: below)
    (line : s'.config.pre.rest.1 = s.config.pre.rest.1)
  | ends (org : Nat) (files : orgs s.config = org :: orgs s'.config) (own : s'.own = below)
    (line : s'.config.pre.rest.1 = s.config.pre.rest.1)

theorem step_owns {optimise : Bool} {s s' : Scoped σ} {l : Line} {below : List Line} (own : s.own = l :: below)
    (stepped : s.step optimise lineOf base = some s') : Owns lineOf base s s' l below := by
  obtain ⟨ran, own'⟩ := Scoped.step_eq stepped
  simp only [own, Scoped.next, ← orgs_length] at own'
  cases step_stacks ran with
  | within within line =>
    rw [if_neg (by rw [within]; exact Nat.lt_irrefl _), if_neg (by rw [within]; exact Nat.lt_irrefl _)] at own'
    exact .within within own' line
  | begins org grown line none =>
    rw [if_pos (by rw [grown]; exact Nat.lt_succ_self _), lineAfter_none none] at own'
    refine .begins org grown ?_ line
    rw [own', Scoped.main, own, List.getLastD_cons]
  | ends org ended line none =>
    rw [if_neg (by rw [ended, List.length_cons]; omega), if_pos (by rw [ended]; exact Nat.lt_succ_self _)] at own'
    exact .ends org ended own' line

/-- The main file's own is last, and no step in another file changes it. -/
theorem main_cons {s : Scoped σ} {l l₂ : Line} {below : List Line} (own : s.own = l :: l₂ :: below) :
    s.main = (l₂ :: below).getLastD {} := by
  rw [Scoped.main, own, List.getLastD_cons, List.getLastD_cons, List.getLastD_cons]

/-- **A step of a run that meets the condition** keeps what is in force the innermost file's. -/
theorem step_settled {optimise : Bool} {s s' : Scoped σ} (settled : Settled s) (restored : Restored optimise lineOf base s)
    (stepped : s.step optimise lineOf base = some s') : Settled s' := by
  have ran := (Scoped.step_eq stepped).1
  obtain ⟨org, rest, reading⟩ := exists_reading ran
  obtain ⟨l, below, own⟩ := exists_own settled.each reading
  have each : below.length = rest.length := by simpa [own, reading] using settled.each
  have line := settled.line l (by simp [own])
  have others : ∀ l' ∈ below, l' = s.main := fun l' mem => settled.others l' (by simpa [own] using mem)
  cases step_owns own stepped with
  | within files own' line' =>
    refine ⟨by simp [own', files, reading, each], by simp [own', line', line], fun l' mem => ?_⟩
    rw [own', List.tail_cons] at mem
    obtain ⟨l₂, below, rfl⟩ := List.exists_cons_of_ne_nil (List.ne_nil_of_mem mem)
    rw [others l' mem, main_cons own, main_cons own']
  | begins org' files own' line' =>
    have back : l = s.main := restored ⟨_, ran, by rw [files, List.length_cons]; omega⟩ l (by simp [own])
    refine ⟨by simp [own', files, reading, each], by simp [own', line', line, ← back], fun l' mem => ?_⟩
    have main' : s'.main = s.main := by rw [main_cons own', Scoped.main, own]
    rw [own', List.tail_cons] at mem
    rw [main']
    rcases List.mem_cons.1 mem with rfl | mem
    · exact back
    · exact others l' mem
  | ends org' files own' line' =>
    have back : l = s.main := restored ⟨_, ran, by rw [files, List.length_cons]; omega⟩ l (by simp [own])
    have rest' : rest = orgs s'.config := (List.cons.inj (reading.symm.trans files)).2
    refine ⟨by rw [own', each, rest'], fun l' mem => ?_, fun l' mem => ?_⟩
    · rw [line', line, back, others l' (own' ▸ List.mem_of_mem_head? mem)]
    · rw [own'] at mem
      rw [others l' (List.mem_of_mem_tail mem)]
      obtain ⟨l₂, below, rfl⟩ := List.exists_cons_of_ne_nil (List.ne_nil_of_mem (List.mem_of_mem_tail mem))
      rw [main_cons own, Scoped.main, own']

/-- Every file being read has its own, with the main file's offset where it includes another. -/
structure Stacked (s : Scoped σ) : Prop where
  each : s.own.length = (orgs s.config).length
  offsets : ∀ l ∈ s.own.tail, l.lineDelta = s.main.lineDelta

/-- Where the positions are right before and after, a file that ends or includes another has set its offset back. -/
theorem step_stacked {optimise : Bool} {s s' : Scoped σ} (kept : Stacked s) (presumed : Presumed lineOf base s)
    (stepped : s.step optimise lineOf base = some s') (presumed' : Presumed lineOf base s') :
    Stacked s' ∧ ∀ org' files', orgs s'.config = org' :: files' → (orgs s'.config).length ≠ (orgs s.config).length →
      ∀ l ∈ s.own.head?, l.lineDelta = s.main.lineDelta := by
  have ran := (Scoped.step_eq stepped).1
  obtain ⟨org, rest, reading⟩ := exists_reading ran
  obtain ⟨l, below, own⟩ := exists_own kept.each reading
  have each : below.length = rest.length := by simpa [own, reading] using kept.each
  have same := (presumed_iff_same reading own).1 presumed
  have others : ∀ l' ∈ below, l'.lineDelta = s.main.lineDelta := fun l' mem => kept.offsets l' (by simpa [own] using mem)
  cases step_owns own stepped with
  | within files own' line' =>
    refine ⟨⟨by simp [own', files, reading, each], fun l' mem => ?_⟩, fun _ _ _ other => absurd (by rw [files]) other⟩
    rw [own', List.tail_cons] at mem
    obtain ⟨l₂, below, rfl⟩ := List.exists_cons_of_ne_nil (List.ne_nil_of_mem mem)
    rw [others l' mem, main_cons own, main_cons own']
  | begins org' files own' line' =>
    have same' := (presumed_iff_same files own').1 presumed'
    have back : l.lineDelta = s.main.lineDelta := by rw [← same.1, ← line', same'.1]
    refine ⟨⟨by simp [own', files, reading, each], fun l' mem => ?_⟩, by simpa [own] using fun _ _ _ _ => back⟩
    have main' : s'.main = s.main := by rw [main_cons own', Scoped.main, own]
    rw [own', List.tail_cons] at mem
    rw [main']
    rcases List.mem_cons.1 mem with rfl | mem
    · exact back
    · exact others l' mem
  | ends org' files own' line' =>
    have rest' : rest = orgs s'.config := (List.cons.inj (reading.symm.trans files)).2
    refine ⟨⟨by rw [own', each, rest'], fun l' mem => ?_⟩, fun top files' reading' _ => ?_⟩
    · rw [own'] at mem
      rw [others l' (List.mem_of_mem_tail mem)]
      obtain ⟨l₂, below, rfl⟩ := List.exists_cons_of_ne_nil (List.ne_nil_of_mem (List.mem_of_mem_tail mem))
      rw [main_cons own, Scoped.main, own']
    · obtain ⟨l₂, below, rfl⟩ := List.exists_cons_of_length_eq_add_one (each.trans (by rw [rest', reading']; rfl))
      have same' := (presumed_iff_same reading' own').1 presumed'
      have back : l.lineDelta = s.main.lineDelta := by
        rw [← same.1, ← line', same'.1, others l₂ List.mem_cons_self]
      simpa [own] using back

/-! ### Runs -/

section
variable (optimise : Bool) (lineOf : Nat → Option (Nat → Nat)) (base : Line → Host σ) (p : Pre σ) (org : Nat)
  (toks : List Token) (preIncludes : List String)

theorem start_settled : Settled (Scoped.start p org toks preIncludes) where
  each := rfl
  line := fun _ mem => Option.some.inj mem
  others := fun _ mem => absurd mem List.not_mem_nil

/-- **Presumed positions are each file's own** in every state of a run whose included files set back, before they end
or include another file, what their `#line` directives set; and in a run where they are, every file that ends or
includes another has set its offset back. -/
theorem presumed_of_restored :
    ((∀ s, Reaches (Scoped.step optimise lineOf base) (.start p org toks preIncludes) s → Restored optimise lineOf base s) →
      ∀ s, Reaches (Scoped.step optimise lineOf base) (.start p org toks preIncludes) s → Presumed lineOf base s) ∧
    ((∀ s, Reaches (Scoped.step optimise lineOf base) (.start p org toks preIncludes) s → Presumed lineOf base s) →
      ∀ s, Reaches (Scoped.step optimise lineOf base) (.start p org toks preIncludes) s →
        ∀ s', s.step optimise lineOf base = some s' → ∀ org' files', orgs s'.config = org' :: files' →
          (orgs s'.config).length ≠ (orgs s.config).length → ∀ l ∈ s.own.head?, l.lineDelta = s.main.lineDelta) := by
  constructor
  · rintro restored s ⟨n, run⟩
    refine Settled.presumed ?_
    induction n generalizing s with
    | zero =>
      cases Option.some.inj run
      exact start_settled p org toks preIncludes
    | succ n ih =>
      rw [steps_succ] at run
      obtain ⟨t, before, stepped⟩ := Option.bind_eq_some_iff.1 run
      exact step_settled (ih t before) (restored t ⟨n, before⟩) stepped
  · intro presumed s reached
    have kept : Stacked s := by
      obtain ⟨n, run⟩ := reached
      induction n generalizing s with
      | zero =>
        cases Option.some.inj run
        exact ⟨rfl, fun _ mem => absurd mem List.not_mem_nil⟩
      | succ n ih =>
        have last := run
        rw [steps_succ] at last
        obtain ⟨t, before, stepped⟩ := Option.bind_eq_some_iff.1 last
        exact (step_stacked (ih t before) (presumed t ⟨n, before⟩) stepped (presumed s ⟨n + 1, run⟩)).1
    intro s' stepped
    have after : Presumed lineOf base s' := by
      obtain ⟨n, run⟩ := reached
      exact presumed s' ⟨n + 1, by rw [steps_succ, run]; exact stepped⟩
    exact (step_stacked kept (presumed s reached) stepped after).2

end

/-! ### A header that sets the line -/

/-- Positions from 16 on are on the second line. -/
def twoLines (_ : Nat) : Option (Nat → Nat) := some fun pos => if pos < 16 then 1 else 2

/-- `#include "h.h"`, `__LINE__`. -/
def lineMain : List Token :=
  [hashAt 1, .mint .ident "include", .mint .stringLit "\"h.h\"",
   { Token.mint .ident "__LINE__" with nlBefore := true, span := ⟨some 0, 16, 24⟩ }, endOfFile]

/-- `#line 100 "x.y"`. -/
def linedHeader : List Token :=
  [hashAt 1, .mint .ident "line", .mint .intLit "100", .mint .stringLit "\"x.y\"", endOfFile]

def linedStart : Scoped Unit := .start { macros := definesA, rest := () } 0 lineMain []

/-- After the header, `__LINE__` on the second line of `main.cc` is 100, and the file is `x.y`. -/
theorem linedHeader_leaks : ∃ s, Reaches (Scoped.step true twoLines fun _ => sampleHost linedHeader) linedStart s ∧
    orgs s.config = [0] ∧ s.own = [{}] ∧
    presumedLine twoLines s.config.pre.rest.1 ⟨some 0, 16, 24⟩ = 100 ∧ presumedLine twoLines {} ⟨some 0, 16, 24⟩ = 2 ∧
    s.config.pre.rest.1.fileName = "x.y" ∧ ¬ Presumed twoLines (fun _ => sampleHost linedHeader) s := by
  have run : ((steps (Scoped.step true twoLines fun _ => sampleHost linedHeader) 3 linedStart).any fun s =>
      decide (orgs s.config = [0] ∧ s.own = [{}] ∧ s.config.pre.rest.1 = ⟨98, "x.y"⟩)) = true := by decide
  obtain ⟨s, reached, shown⟩ := (Option.any_eq_true _ _).1 run
  obtain ⟨files, own, line⟩ := of_decide_eq_true shown
  refine ⟨s, ⟨3, reached⟩, files, own, by rw [line]; rfl, rfl, by rw [line], fun presumed => ?_⟩
  have same := (presumed_iff_same files own).1 presumed
  rw [line] at same
  exact absurd same.1 (by decide)

/-- `Restored`, computed. -/
def restored (optimise : Bool) (lineOf : Nat → Option (Nat → Nat)) (base : Line → Host σ) (s : Scoped σ) : Bool :=
  (Preprocessor.step optimise (lineHost lineOf base) s.config).all fun c =>
    decide ((orgs c).length = (orgs s.config).length) || s.own.head?.all (· = s.main)

theorem restored_sound {optimise : Bool} {s : Scoped σ} (back : restored optimise lineOf base s = true) :
    Restored optimise lineOf base s := by
  rintro ⟨c, ran, other⟩ l mem
  rw [restored, ran, Option.all_some, decide_eq_false other, Bool.false_or] at back
  simpa [Option.mem_def.1 mem] using back

/-- `#line 100 "x.y"`, `#line 3 ""`: the second, on the second line, sets back what the first set. -/
def restoredHeader : List Token :=
  [hashAt 1, .mint .ident "line", .mint .intLit "100", .mint .stringLit "\"x.y\"",
   hashAt 20, .mint .ident "line", .mint .intLit "3", .mint .stringLit "\"\"", endOfFile]

/-- After that header, `main.cc` has its own lines. -/
theorem restoredHeader_presumed : ∀ s, Reaches (Scoped.step true twoLines fun _ => sampleHost restoredHeader) linedStart s →
    Presumed twoLines (fun _ => sampleHost restoredHeader) s := by
  have reached : ((steps (Scoped.step true twoLines fun _ => sampleHost restoredHeader) 6 linedStart).any fun s =>
      (Scoped.step true twoLines (fun _ => sampleHost restoredHeader) s).isNone) = true := by decide
  obtain ⟨x, run, last⟩ := (Option.any_eq_true _ _).1 reached
  refine (presumed_of_restored true twoLines (fun _ => sampleHost restoredHeader) _ _ _ _).1 fun s reaches => restored_sound ?_
  exact forall_reaches run (Option.isNone_iff_eq_none.1 last) (by decide) reaches

end

end Vcx.Preprocessor
