import Mathlib.Data.List.TakeWhile
import Vcx.Preprocessor.Guard

/-!
# Guard detection

What `miValid`, `sawToken`, the candidate of the outermost conditional and `pendingGuard` say of
the lines read so far: the file is one conditional, opened by the candidate's line, when what is
left of it closes that conditional and has nothing behind. `Detects` is that, kept by every step of
a first reading that meets `GuardsSound`; so the guard recorded in the end is that of a file that is
`GuardedBy` it, and such a file is quiet while the guard is defined.
-/

namespace Vcx.Preprocessor
set_option autoImplicit false
open Vcx.Lib

variable {ρ : Type}

/-! ### Guarded files -/

/-- The condition is false without a word in every state that has `A` defined. -/
def FalseWhen (host : Host ρ) (A : String) (expr : List Token) : Prop :=
  ∀ org at_ p, p.macros.defined A = true → eval host org (expr.map (Token.within org)) at_ p = (false, p)

/-- The name `noteGuardIf` and `doIfdef` would take for the guard of a file that begins so. -/
def guardName : Directive → List Token → Option String
  | .ifdef true, name :: _ => if name.isName then some name.text else none
  | .ifExpr, bang :: op :: operand =>
    if bang.kind = .not && op.spells "defined" then (operand.find? (·.kind = .ident)).map (·.text) else none
  | _, _ => none

/-- A line inside the guard's conditional, with the conditionals open before and after it: the flag
says whether each had its `#else`. -/
inductive GuardedLine : List Bool → Token → List Token → List Bool → Prop
  | plain {flags t line} (inside : flags ≠ [])
    (plain : t.opensDirective = true → (Directive.of line).isConditional = false) : GuardedLine flags t line flags
  | null {flags t line} (hash : t.opensDirective = true) (null : Directive.of line = .null) : GuardedLine flags t line flags
  | nested {flags t line} (inside : flags ≠ []) (hash : t.opensDirective = true)
    (opens : (Directive.of line).opens = true) : GuardedLine flags t line (false :: flags)
  | elif {more t line} (inside : more ≠ []) (hash : t.opensDirective = true)
    (elif : Directive.of line = .elif ∨ ∃ negate, Directive.of line = .elifdef negate) :
    GuardedLine (false :: more) t line (false :: more)
  | elseArm {more t line} (inside : more ≠ []) (hash : t.opensDirective = true) (arm : Directive.of line = .elseArm) :
    GuardedLine (false :: more) t line (true :: more)
  | endif {flag more t line} (hash : t.opensDirective = true) (endif : Directive.of line = .endif) :
    GuardedLine (flag :: more) t line more

/-- The rest of a file that closes the conditionals it is in and has nothing behind. -/
inductive Guarded : List Bool → List Token → Prop
  | eof {toks} (ended : nextLine toks = none) : Guarded [] toks
  | line {flags flags' toks t line after} (next : nextLine toks = some (t, line, after))
    (guarded : GuardedLine flags t line flags') (more : Guarded flags' after) : Guarded flags toks

/-- A file that is one conditional, which is false while `A` is defined. -/
inductive GuardedBy (host : Host ρ) (A : String) : List Token → Prop
  | null {toks t line after} (next : nextLine toks = some (t, line, after)) (hash : t.opensDirective = true)
    (null : Directive.of line = .null) (more : GuardedBy host A after) : GuardedBy host A toks
  | opens {toks t line after} (next : nextLine toks = some (t, line, after)) (hash : t.opensDirective = true)
    (name : guardName (Directive.of line) line.tail = some A)
    (dead : Directive.of line = .ifExpr → FalseWhen host A line.tail) (more : Guarded [false] after) : GuardedBy host A toks

/-- The lines of a file, `n` of them at most. -/
def lines : Nat → List Token → List (Token × List Token)
  | 0, _ => []
  | n + 1, toks =>
    match nextLine toks with
    | none => []
    | some (t, line, after) => (t, line) :: lines n after

/-- What is left of the lines that are looked at to their end while the file is passed over: those of
`#else`, of `#endif` and of an outermost `#ifdef` or `#ifndef`. -/
def trailing : Nat → List (Token × List Token) → List (List Token)
  | _, [] => []
  | depth, (t, line) :: more =>
    if t.opensDirective then
      match Directive.of line with
      | .ifExpr => trailing (depth + 1) more
      | .ifdef _ => (if depth = 0 then [line.tail.tail] else []) ++ trailing (depth + 1) more
      | .elseArm => line.tail :: trailing depth more
      | .endif => line.tail :: trailing (depth - 1) more
      | _ => trailing depth more
    else trailing depth more

/-- `expectEnd` has nothing to say of it: there is nothing, or it is in a system header that was
warned of such before. -/
def Unsaid (host : Host ρ) (p : Pre ρ) (org : Nat) (rest : List Token) : Prop :=
  ∀ t ∈ rest.head?, ∃ o, (t.within org).site.origin = some o ∧ host.system p.rest o = true ∧
    (host.name o, "extra-tokens") ∈ p.warned

/-! ### Lines and origins -/

theorem nextLine_within (org : Nat) (toks : List Token) : nextLine (toks.map (Token.within org)) =
    (nextLine toks).map fun l => (l.1.within org, l.2.1.map (Token.within org), l.2.2.map (Token.within org)) := by
  have ends : (fun t : Token => decide (t.kind = .eof)) ∘ Token.within org = fun t => decide (t.kind = .eof) := rfl
  have continues : Token.continues ∘ Token.within org = Token.continues := rfl
  unfold nextLine
  rw [List.dropWhile_map, ends]
  cases toks.dropWhile (fun t => decide (t.kind = .eof)) with
  | nil => rfl
  | cons t ts => simp [List.takeWhile_map, List.dropWhile_map, continues]

theorem nextLine_within_of {org : Nat} {toks : List Token} {t : Token} {line after : List Token}
    (next : nextLine toks = some (t, line, after)) : nextLine (toks.map (Token.within org)) =
      some (t.within org, line.map (Token.within org), after.map (Token.within org)) := by
  rw [nextLine_within, next]
  rfl

theorem directive_within (org : Nat) (line : List Token) : Directive.of (line.map (Token.within org)) = Directive.of line := by
  cases line <;> rfl

theorem within_within (org org' : Nat) (toks : List Token) :
    (toks.map (Token.within org')).map (Token.within org) = toks.map (Token.within org) := by
  rw [List.map_map]
  rfl

theorem guardName_within (org : Nat) (d : Directive) (rest : List Token) :
    guardName d (rest.map (Token.within org)) = guardName d rest := by
  have find : ∀ l : List Token, ((l.map (Token.within org)).find? (·.kind = .ident)).map (·.text) =
      (l.find? (·.kind = .ident)).map (·.text) := by
    intro l
    induction l with
    | nil => rfl
    | cons t l ih =>
      simp only [List.map_cons, List.find?_cons]
      rw [show (t.within org).kind = t.kind from rfl]
      split
      · rfl
      · exact ih
  cases d with
  | ifdef negate => cases negate <;> cases rest <;> rfl
  | ifExpr =>
    cases rest with
    | nil => rfl
    | cons bang rest =>
      cases rest with
      | nil => rfl
      | cons op operand =>
        simp only [List.map_cons, guardName, find]
        rfl
  | _ => cases rest <;> rfl

theorem FalseWhen.within {host : Host ρ} {A : String} {expr : List Token} (org : Nat) :
    FalseWhen host A (expr.map (Token.within org)) ↔ FalseWhen host A expr := by
  unfold FalseWhen
  simp only [within_within]

theorem GuardedLine.of_within {org : Nat} {flags flags' : List Bool} {t : Token} {line : List Token}
    (guarded : GuardedLine flags (t.within org) (line.map (Token.within org)) flags') : GuardedLine flags t line flags' := by
  have same := directive_within org line
  cases guarded with
  | plain inside plain => exact .plain inside fun hash => by rw [← same]; exact plain hash
  | null hash null => exact .null hash (by rw [← same]; exact null)
  | nested inside hash opens => exact .nested inside hash (by rw [← same]; exact opens)
  | elif inside hash elif => exact .elif inside hash (by rw [← same]; exact elif)
  | elseArm inside hash arm => exact .elseArm inside hash (by rw [← same]; exact arm)
  | endif hash endif => exact .endif hash (by rw [← same]; exact endif)

/-- The lines of a file in one of its readings. -/
theorem nextLine_of_within {org : Nat} {toks : List Token} {t : Token} {line after : List Token}
    (next : nextLine (toks.map (Token.within org)) = some (t, line, after)) :
    ∃ t' line' after', nextLine toks = some (t', line', after') ∧ t = t'.within org ∧
      line = line'.map (Token.within org) ∧ after = after'.map (Token.within org) := by
  rw [nextLine_within] at next
  obtain ⟨⟨t', line', after'⟩, found, eq⟩ := Option.map_eq_some_iff.1 next
  obtain ⟨rfl, rest⟩ := Prod.mk.inj eq
  obtain ⟨rfl, rfl⟩ := Prod.mk.inj rest
  exact ⟨t', line', after', found, rfl, rfl, rfl⟩

theorem Guarded.of_within {org : Nat} {flags : List Bool} {toks : List Token}
    (guarded : Guarded flags (toks.map (Token.within org))) : Guarded flags toks := by
  generalize same : toks.map (Token.within org) = l at guarded
  induction guarded generalizing toks with
  | eof ended =>
    rw [← same, nextLine_within, Option.map_eq_none_iff] at ended
    exact .eof ended
  | line next guarded _ ih =>
    rw [← same] at next
    obtain ⟨t', line', after', found, rfl, rfl, rfl⟩ := nextLine_of_within next
    exact .line found guarded.of_within (ih rfl)

/-- A reading of a file tells of the file. -/
theorem GuardedBy.of_within {host : Host ρ} {A : String} {org : Nat} {toks : List Token}
    (guarded : GuardedBy host A (toks.map (Token.within org))) : GuardedBy host A toks := by
  generalize same : toks.map (Token.within org) = l at guarded
  induction guarded generalizing toks with
  | null next hash null _ ih =>
    rw [← same] at next
    obtain ⟨t', line', after', found, rfl, rfl, rfl⟩ := nextLine_of_within next
    exact .null found hash (by rw [← directive_within org]; exact null) (ih rfl)
  | opens next hash name dead more =>
    rw [← same] at next
    obtain ⟨t', line', after', found, rfl, rfl, rfl⟩ := nextLine_of_within next
    rw [directive_within, ← List.map_tail, guardName_within] at name
    rw [directive_within, ← List.map_tail, FalseWhen.within] at dead
    exact .opens found hash name dead more.of_within

/-! ### Guarded files are quiet -/

theorem Unsaid.expectEnd {host : Host ρ} {p : Pre ρ} {org : Nat} {rest : List Token} (unsaid : Unsaid host p org rest)
    (what : String) : expectEnd host p (rest.map (Token.within org)) what = p := by
  cases rest with
  | nil => rfl
  | cons t ts =>
    obtain ⟨o, origin, system, warned⟩ := unsaid t rfl
    simp [Preprocessor.expectEnd, Pre.warn, origin, system, warned]

theorem nextLine_length {toks : List Token} {t : Token} {line after : List Token}
    (next : nextLine toks = some (t, line, after)) : after.length < toks.length := by
  have dropped := (List.dropWhile_suffix (fun t : Token => decide (t.kind = .eof)) (l := toks)).length_le
  unfold nextLine at next
  cases first : toks.dropWhile (fun t => decide (t.kind = .eof)) with
  | nil => rw [first] at next; cases next
  | cons u us =>
    rw [first] at next dropped
    cases next
    have := (List.dropWhile_suffix Token.continues (l := us)).length_le
    simp only [List.length_cons] at dropped
    omega

theorem lines_of_next {n : Nat} {toks : List Token} {t : Token} {line after : List Token} (enough : toks.length ≤ n)
    (next : nextLine toks = some (t, line, after)) :
    ∃ k, after.length ≤ k ∧ lines n toks = (t, line) :: lines k after := by
  have := nextLine_length next
  cases n with
  | zero => omega
  | succ k => exact ⟨k, by omega, by simp [lines, next]⟩

/-- A line inside the guard's conditional is quiet, and what is left of it is said nothing of. -/
theorem GuardedLine.quiet {host : Host ρ} {p : Pre ρ} {org : Nat} {flags flags' : List Bool} {t : Token}
    {line : List Token} (guarded : GuardedLine flags t line flags') (more : List (Token × List Token))
    (unsaid : ∀ rest ∈ trailing flags.length ((t, line) :: more), Unsaid host p org rest) :
    QuietLine host p org flags (t.within org) (line.map (Token.within org)) flags' ∧
      ∀ rest ∈ trailing flags'.length more, Unsaid host p org rest := by
  have same := directive_within org line
  have tail : (line.map (Token.within org)).tail = line.tail.map (Token.within org) := List.map_tail.symm
  have depth : flags ≠ [] → flags.length ≠ 0 := fun inside => mt List.length_eq_zero_iff.1 inside
  cases guarded with
  | plain inside plain =>
    refine ⟨.skipped inside fun hash => by rw [same]; exact plain hash, ?_⟩
    rw [trailing] at unsaid
    split at unsaid
    · rename_i hash
      have other := plain hash
      cases kind : Directive.of line <;> rw [kind] at other unsaid <;> first | exact unsaid | cases other
    · exact unsaid
  | null hash null =>
    refine ⟨.null hash (by rw [same]; exact null), ?_⟩
    rw [trailing, if_pos hash, null] at unsaid
    exact unsaid
  | nested inside hash opens =>
    refine ⟨.nested inside hash (by rw [same]; exact opens), ?_⟩
    rw [trailing, if_pos hash] at unsaid
    cases kind : Directive.of line with
    | ifExpr =>
      rw [kind] at unsaid
      exact unsaid
    | ifdef negate =>
      rw [kind] at unsaid
      simp only [if_neg (depth inside), List.nil_append] at unsaid
      exact unsaid
    | _ => rw [kind] at opens; cases opens
  | elif inside hash elif =>
    refine ⟨.elif hash (by rw [same]; exact elif) fun none => absurd none inside, ?_⟩
    rw [trailing, if_pos hash] at unsaid
    rcases elif with elif | ⟨negate, elif⟩ <;> rw [elif] at unsaid <;> exact unsaid
  | elseArm inside hash arm =>
    rw [trailing, if_pos hash, arm] at unsaid
    refine ⟨.elseArm inside hash (by rw [same]; exact arm) ?_, fun rest mem => unsaid rest (List.mem_cons_of_mem _ mem)⟩
    rw [tail]
    exact (unsaid _ List.mem_cons_self).expectEnd _
  | endif hash endif =>
    rw [trailing, if_pos hash, endif] at unsaid
    refine ⟨.endif hash (by rw [same]; exact endif) ?_, fun rest mem => unsaid rest (List.mem_cons_of_mem _ mem)⟩
    rw [tail]
    exact (unsaid _ List.mem_cons_self).expectEnd _

theorem Guarded.quiet {host : Host ρ} {p : Pre ρ} {org n : Nat} {flags : List Bool} {toks : List Token}
    (guarded : Guarded flags toks) (enough : toks.length ≤ n)
    (unsaid : ∀ rest ∈ trailing flags.length (lines n toks), Unsaid host p org rest) :
    Quiet host p org flags (toks.map (Token.within org)) := by
  induction guarded generalizing n with
  | eof ended => exact .eof (by rw [nextLine_within, ended]; rfl)
  | line next guarded _ ih =>
    obtain ⟨k, enough', eq⟩ := lines_of_next enough next
    rw [eq] at unsaid
    obtain ⟨quiet, unsaid'⟩ := guarded.quiet _ unsaid
    exact .line (nextLine_within_of next) quiet (ih enough' unsaid')

/-- **A guarded file is quiet** while its guard is defined, when nothing is said of what is left of its
lines. -/
theorem GuardedBy.quiet {host : Host ρ} {p : Pre ρ} {org n : Nat} {A : String} {toks : List Token}
    (guarded : GuardedBy host A toks) (defined : p.macros.defined A = true) (enough : toks.length ≤ n)
    (unsaid : ∀ rest ∈ trailing 0 (lines n toks), Unsaid host p org rest) :
    Quiet host p org [] (toks.map (Token.within org)) := by
  induction guarded generalizing n with
  | null next hash null _ ih =>
    obtain ⟨k, enough', eq⟩ := lines_of_next enough next
    rw [eq, trailing, if_pos hash, null] at unsaid
    exact .line (nextLine_within_of next) (.null hash (by rw [directive_within]; exact null)) (ih enough' unsaid)
  | @opens toks t line after next hash name dead more =>
    obtain ⟨k, enough', eq⟩ := lines_of_next enough next
    rw [eq, trailing, if_pos hash] at unsaid
    have tail : (line.map (Token.within org)).tail = line.tail.map (Token.within org) := List.map_tail.symm
    have opens : (Directive.of line).opens = true := by
      cases kind : Directive.of line <;> rw [kind] at name <;> first | rfl | cases name
    have outermost : ∀ kind, Directive.of line = kind →
        controlling host org kind (line.tail.map (Token.within org)) (t.within org).site p = (false, p) →
        Quiet host p org [false] (after.map (Token.within org)) →
        Quiet host p org [] (toks.map (Token.within org)) := by
      rintro kind rfl no rest
      exact .line (nextLine_within_of next) (.outermost hash (by rw [directive_within]; exact opens) (by rw [directive_within, tail]; exact no)) rest
    cases kind : Directive.of line with
    | ifExpr =>
      rw [kind] at unsaid
      exact outermost _ kind (dead kind org _ p defined) (more.quiet enough' unsaid)
    | ifdef negate =>
      rw [kind] at name unsaid
      cases rest : line.tail with
      | nil => rw [rest] at name; cases negate <;> cases name
      | cons name' others =>
        rw [rest] at name unsaid
        cases negate with
        | false => cases name
        | true =>
          simp only [guardName] at name
          split at name
          · rename_i isName
            cases name
            refine outermost _ kind ?_ (more.quiet enough' fun x mem => unsaid x (List.mem_cons_of_mem _ mem))
            have said := (unsaid others List.mem_cons_self).expectEnd "#ifndef"
            rw [rest]
            simp only [controlling, List.map_cons, definedOperand, if_true, show (name'.within org).isName = name'.isName from rfl,
              isName, Bool.not_true, Bool.false_eq_true, if_false, show (name'.within org).text = name'.text from rfl,
              definedName, defined, Bool.true_or, bne_self_eq_false, Prod.mk.injEq, true_and]
            exact said
          · cases name
    | _ => rw [kind] at opens; cases opens

/-! ### What text leaves -/

/-- What is left of a file from the next directive on. -/
def toDirective (toks : List Token) : List Token := toks.dropWhile fun t => !t.opensDirective

theorem toDirective_of_plain {xs : List Token} (plain : ∀ x ∈ xs, x.opensDirective = false) (ys : List Token) :
    toDirective (xs ++ ys) = toDirective ys :=
  List.dropWhile_append_of_pos fun x mem => by simp [plain x mem]

theorem toDirective_of_hash {t : Token} (hash : t.opensDirective = true) (ts : List Token) :
    toDirective (t :: ts) = t :: ts := by
  simp [toDirective, hash]

/-- The tokens of the next line, after the marks of the end of a file that are passed over. -/
theorem nextLine_split {toks : List Token} {t : Token} {line after : List Token}
    (next : nextLine toks = some (t, line, after)) : ∃ ends, toks = ends ++ t :: (line ++ after) ∧
      (∀ x ∈ ends ++ line, x.opensDirective = false) ∧ nextLine (t :: (line ++ after)) = some (t, line, after) := by
  have whole := List.takeWhile_append_dropWhile (p := fun x : Token => decide (x.kind = .eof)) (l := toks)
  have next' := next
  unfold nextLine at next
  cases first : toks.dropWhile (fun x => decide (x.kind = .eof)) with
  | nil => rw [first] at next; cases next
  | cons u us =>
    rw [first] at next whole
    cases next
    have split := List.takeWhile_append_dropWhile (p := Token.continues) (l := us)
    refine ⟨_, by rw [split]; exact whole.symm, ?_, ?_⟩
    · intro x mem
      rcases List.mem_append.1 mem with mem | mem
      · have eof : x.kind = .eof := by simpa using List.mem_takeWhile_imp mem
        simp [Token.opensDirective, eof]
      · have continues := List.mem_takeWhile_imp mem
        simp only [Token.continues, Bool.and_eq_true, Bool.not_eq_true'] at continues
        simp [Token.opensDirective, continues.2]
    · have kind := List.head?_dropWhile_not (fun x : Token => decide (x.kind = .eof)) toks
      rw [first] at kind
      simp only [List.head?_cons] at kind
      rw [split]
      simp [nextLine, kind]

theorem toDirective_hash {toks : List Token} {t : Token} {line after : List Token}
    (next : nextLine toks = some (t, line, after)) (hash : t.opensDirective = true) :
    nextLine (toDirective toks) = some (t, line, after) := by
  obtain ⟨ends, eq, plain, next'⟩ := nextLine_split next
  rw [eq, toDirective_of_plain (fun x mem => plain x (List.mem_append_left _ mem)), toDirective_of_hash hash]
  exact next'

theorem toDirective_text {toks : List Token} {t : Token} {line after : List Token}
    (next : nextLine toks = some (t, line, after)) (text : t.opensDirective = false) :
    toDirective toks = toDirective after := by
  obtain ⟨ends, eq, plain, -⟩ := nextLine_split next
  have front : toks = (ends ++ t :: line) ++ after := by rw [eq, List.append_assoc, List.cons_append]
  rw [front, toDirective_of_plain]
  intro x mem
  rcases List.mem_append.1 mem with mem | mem
  · exact plain x (List.mem_append_left _ mem)
  · rcases List.mem_cons.1 mem with rfl | mem
    · exact text
    · exact plain x (List.mem_append_right _ mem)

theorem toDirective_none {toks : List Token} (none : nextLine toks = none) : toDirective toks = [] := by
  have whole := List.takeWhile_append_dropWhile (p := fun x : Token => decide (x.kind = .eof)) (l := toks)
  unfold nextLine at none
  cases first : toks.dropWhile (fun x => decide (x.kind = .eof)) with
  | cons u us => rw [first] at none; cases none
  | nil =>
    rw [first] at whole
    rw [← whole, toDirective_of_plain]
    · rfl
    · intro x mem
      have eof : x.kind = .eof := by simpa using List.mem_takeWhile_imp mem
      simp [Token.opensDirective, eof]

theorem Guarded.congr {flags : List Bool} {toks toks' : List Token} (guarded : Guarded flags toks)
    (same : nextLine toks' = nextLine toks) : Guarded flags toks' := by
  cases guarded with
  | eof ended => exact .eof (same.trans ended)
  | line next guarded more => exact .line (same.trans next) guarded more

/-- Inside the guard's conditional text is of no matter. -/
theorem Guarded.toDirective {flags : List Bool} {toks : List Token} (inside : flags ≠ []) (guarded : Guarded flags toks) :
    Guarded flags (toDirective toks) := by
  induction guarded with
  | eof => exact absurd rfl inside
  | @line flags flags' toks t line after next guarded more ih =>
    by_cases hash : t.opensDirective = true
    · exact .line (toDirective_hash next hash) guarded more
    · have text : t.opensDirective = false := by simpa using hash
      rw [toDirective_text next text]
      cases guarded with
      | plain => exact ih inside
      | _ => contradiction

theorem Guarded.of_toDirective {flags : List Bool} {toks : List Token} (inside : flags ≠ [])
    (guarded : Guarded flags (Preprocessor.toDirective toks)) : Guarded flags toks := by
  induction hn : toks.length using Nat.strongRecOn generalizing toks with
  | ind n ih =>
    subst hn
    cases next : nextLine toks with
    | none =>
      rw [toDirective_none next] at guarded
      cases guarded with
      | eof => exact absurd rfl inside
      | line next => cases next
    | some l =>
      obtain ⟨t, line, after⟩ := l
      by_cases hash : t.opensDirective = true
      · exact guarded.congr (next.trans (toDirective_hash next hash).symm)
      · have text : t.opensDirective = false := by simpa using hash
        rw [toDirective_text next text] at guarded
        exact .line next (.plain inside fun yes => absurd yes hash) (ih _ (nextLine_length next) guarded rfl)

/-! ### One reading -/

/-- The outermost conditional is taken for the guard's. -/
def Reader.guards (r : Reader) : Prop := ∃ c ∈ r.conds.getLast?, c.guard ≠ ""

/-- What the state of a first reading says of the file, which is `source`: whether it is guarded is
left to the rest of it. -/
structure Detects (host : Host ρ) (source : List Token) (r : Reader) : Prop where
  fresh : r.miValid = true → r.conds = [] → r.pendingGuard = "" → ∀ A, GuardedBy host A r.toks → GuardedBy host A source
  opened : ∀ c ∈ r.conds.getLast?, c.guard ≠ "" → Guarded (r.conds.map Cond.sawElse) r.toks →
    GuardedBy host c.guard source
  closed : r.miValid = true → r.conds = [] → r.pendingGuard ≠ "" → Guarded [] r.toks → GuardedBy host r.pendingGuard source

/-- What the detection does not look at in a directive line. The expression of an `#if` that gives the
guard is false whenever that is defined, and no other guard stands; in the guard's conditional no arm
follows an `#else`. -/
structure LineSound (host : Host ρ) (r : Reader) (line : List Token) : Prop where
  opens : ∀ A, guardName (Directive.of line) line.tail = some A → r.conds = [] → r.miValid = true →
    r.sawToken = false → r.pendingGuard = "" ∧ (Directive.of line = .ifExpr → FalseWhen host A line.tail)
  arms : r.guards → (Directive.of line = .elseArm ∨ Directive.of line = .elif ∨
    ∃ negate, Directive.of line = .elifdef negate) → ∀ c ∈ r.conds.head?, c.sawElse = false

variable {host : Host ρ} {source : List Token} {r r' : Reader}

theorem Detects.start (source : List Token) (org : Nat) :
    Detects host source { org, toks := source.map (Token.within org) } where
  fresh _ _ _ _ guarded := guarded.of_within
  opened _ last := nomatch last
  closed _ _ pending := absurd rfl pending

theorem sawElses_ne_nil {conds : List Cond} {c : Cond} (last : c ∈ conds.getLast?) : conds.map Cond.sawElse ≠ [] := by
  intro none
  rw [List.map_eq_nil_iff.1 none] at last
  cases last

/-- Where the detection has ended, only a guard's conditional that is open counts. -/
theorem Detects.of_opened (ends : r.miValid = false)
    (opened : ∀ c ∈ r.conds.getLast?, c.guard ≠ "" → Guarded (r.conds.map Cond.sawElse) r.toks →
      GuardedBy host c.guard source) : Detects host source r where
  fresh valid := by rw [ends] at valid; cases valid
  closed valid := by rw [ends] at valid; cases valid
  opened := opened

/-- Outside of all conditionals nothing counts then. -/
theorem Detects.of_ended (ends : r.miValid = false) (none : r.conds = []) : Detects host source r :=
  .of_opened ends fun c last => by rw [none] at last; cases last

/-- A line that is no conditional directive. Outside of all conditionals it ends the detection. -/
theorem Detects.plain (detects : Detects host source r) {t : Token} {line : List Token}
    (next : nextLine r.toks = some (t, line, r'.toks))
    (plain : t.opensDirective = true → (Directive.of line).isConditional = false) (conds : r'.conds = r.conds)
    (ends : r.conds = [] → r'.miValid = false) : Detects host source r' where
  fresh valid none := by rw [ends (conds ▸ none)] at valid; cases valid
  closed valid none := by rw [ends (conds ▸ none)] at valid; cases valid
  opened c last guard guarded := by
    rw [conds] at last guarded
    exact detects.opened c last guard (.line next (.plain (sawElses_ne_nil last) plain) guarded)

/-- A directive that is only a `#`. -/
theorem Detects.null (detects : Detects host source r) {t : Token} {line after : List Token}
    (next : nextLine r.toks = some (t, line, after)) (hash : t.opensDirective = true) (null : Directive.of line = .null) :
    Detects host source { r with toks := after } where
  fresh valid none pending A guarded := detects.fresh valid none pending A (.null next hash null guarded)
  opened c last guard guarded := detects.opened c last guard (.line next (.null hash null) guarded)
  closed valid none pending guarded := detects.closed valid none pending (.line next (.null hash null) guarded)

/-- Text, which ends the detection outside of the guard's conditional. -/
theorem Detects.text (detects : Detects host source r) (conds : r'.conds = r.conds) (ends : r'.miValid = false)
    (keeps : r.guards → toDirective r'.toks = toDirective r.toks) : Detects host source r' := by
  refine .of_opened ends fun c last guard guarded => ?_
  rw [conds] at last guarded
  have inside := sawElses_ne_nil last
  have rest := guarded.toDirective inside
  rw [keeps ⟨c, last, guard⟩] at rest
  exact detects.opened c last guard (.of_toDirective inside rest)

/-- The guard that is found is that of the file, when the file ends outside of all conditionals. -/
theorem Detects.found (detects : Detects host source r) (ended : nextLine r.toks = none)
    (found : r.guardFound ≠ "") (none : r.conds = []) : GuardedBy host r.guardFound source := by
  unfold Reader.guardFound at found ⊢
  split at found
  · rename_i valid
    rw [if_pos valid]
    exact detects.closed valid none found (.eof ended)
  · exact absurd rfl found

/-- What an opening conditional does: the conditional it pushes, with the guard it gives. -/
theorem Reader.conditional_pushes (r : Reader) (host : Host ρ) {d : Directive} (opens : d.opens = true)
    (rest : List Token) (at_ : Site) (p : Pre ρ) :
    ∃ c : Cond, (r.conditional host d rest at_ p).1 = { r with conds := c :: r.conds } ∧ c.sawElse = false ∧
      (c.guard ≠ "" → r.conds = [] ∧ r.miValid = true ∧ r.sawToken = false ∧ guardName d rest = some c.guard) := by
  cases d with
  | ifExpr =>
    have began : ∃ c : Cond, (r.beginIf "#if" at_ (eval host r.org rest at_) p).1 = { r with conds := c :: r.conds } ∧
        c.sawElse = false ∧ c.guard = "" := by
      unfold Reader.beginIf
      split <;> exact ⟨_, rfl, rfl, rfl⟩
    obtain ⟨c, eq, sawElse, noGuard⟩ := began
    simp only [Reader.conditional, eq]
    unfold Reader.noteGuardIf
    split
    · rename_i c' bang op operand conds
      obtain ⟨rfl, none⟩ := List.cons.inj conds
      split
      · rename_i candidate
        simp only [Bool.and_eq_true, Bool.not_eq_true', decide_eq_true_eq] at candidate
        obtain ⟨⟨⟨valid, fresh⟩, bang⟩, defined⟩ := candidate
        split
        · rename_i name found
          refine ⟨{ c with guard := name.text }, by simp [none], sawElse, fun _ => ⟨none, valid, fresh, ?_⟩⟩
          simp [guardName, bang, defined, found]
        · exact ⟨c, rfl, sawElse, fun guard => absurd noGuard guard⟩
      · exact ⟨c, rfl, sawElse, fun guard => absurd noGuard guard⟩
    · exact ⟨c, rfl, sawElse, fun guard => absurd noGuard guard⟩
  | ifdef negate =>
    simp only [Reader.conditional]
    unfold Reader.doIfdef
    by_cases skipping : r.skipping = true
    · simp only [skipping, if_true]
      exact ⟨_, rfl, rfl, fun guard => absurd (show ("" : String) = "" from rfl) guard⟩
    by_cases isName : rest.head?.any (·.isName) = true
    · simp only [skipping, Bool.false_eq_true, if_false, isName, if_true]
      refine ⟨_, rfl, rfl, fun guard => ?_⟩
      simp only [Reader.ifndefGuard] at guard ⊢
      cases rest with
      | nil => exact absurd rfl guard
      | cons name more =>
        simp only at guard ⊢
        split at guard
        · rename_i candidate
          rw [if_pos candidate]
          simp only [Bool.and_eq_true, Bool.not_eq_true', List.isEmpty_iff] at candidate
          obtain ⟨⟨⟨rfl, valid⟩, none⟩, fresh⟩ := candidate
          simp only [List.head?_cons, Option.any_some] at isName
          exact ⟨none, valid, fresh, by simp [guardName, isName]⟩
        · exact absurd rfl guard
    · simp only [skipping, isName, Bool.false_eq_true, if_false]
      exact ⟨_, rfl, rfl, fun guard => absurd (show ("" : String) = "" from rfl) guard⟩
  | _ => cases opens

/-- **A conditional directive** keeps what the state says of the file. -/
theorem Detects.conditional (detects : Detects host source r) {t : Token} {line after : List Token}
    (next : nextLine r.toks = some (t, line, after)) (hash : t.opensDirective = true)
    (conditional : (Directive.of line).isConditional = true) (sound : LineSound host r line) (at_ : Site) (p : Pre ρ) :
    Detects host source (({ r with toks := after, miValid := r.miValid && (Directive.of line).opens } : Reader).conditional
      host (Directive.of line) line.tail at_ p).1 := by
  obtain ⟨org, toks, conds, valid, sawToken, pending, once⟩ := r
  have arm : ∀ (c c' : Cond) (outer : List Cond), conds = c :: outer → c'.guard = "" →
      (c.sawElse = false → ∀ more : List Bool, more ≠ [] → GuardedLine (false :: more) t line (c'.sawElse :: more)) →
      (Directive.of line = .elseArm ∨ Directive.of line = .elif ∨ ∃ negate, Directive.of line = .elifdef negate) →
      Detects host source { org, toks := after, conds := c' :: outer, miValid := false, sawToken, pendingGuard := pending, once } := by
    rintro c c' outer rfl none step kind
    refine .of_opened rfl fun last isLast guard guarded => ?_
    cases outer with
    | nil =>
      simp only [List.getLast?_singleton, Option.mem_def, Option.some.injEq] at isLast
      exact absurd (isLast ▸ none) guard
    | cons d outer =>
      simp only [List.getLast?_cons_cons] at isLast
      have open_ : last ∈ (c :: d :: outer).getLast? := by simpa only [List.getLast?_cons_cons] using isLast
      have fresh := sound.arms ⟨last, open_, guard⟩ kind c rfl
      have stepped : GuardedLine ((c :: d :: outer).map Cond.sawElse) t line
          (c'.sawElse :: (d :: outer).map Cond.sawElse) := by
        simp only [List.map_cons, fresh]
        exact step fresh _ (by simp)
      exact detects.opened last open_ guard (.line next stepped guarded)
  have outside : conds = [] →
      Detects host source { org, toks := after, conds, miValid := false, sawToken, pendingGuard := pending, once } := by
    rintro rfl
    exact .of_ended rfl rfl
  have late : ∀ (c : Cond) (outer : List Cond), conds = c :: outer → c.sawElse = true →
      (Directive.of line = .elseArm ∨ Directive.of line = .elif ∨ ∃ negate, Directive.of line = .elifdef negate) →
      Detects host source { org, toks := after, conds, miValid := false, sawToken, pendingGuard := pending, once } := by
    rintro c outer rfl saw kind
    refine .of_opened rfl fun last isLast guard _ => ?_
    have fresh := sound.arms ⟨last, isLast, guard⟩ kind c rfl
    rw [saw] at fresh
    cases fresh
  cases kind : Directive.of line with
  | ifExpr | ifdef negate =>
    have opens : (Directive.of line).opens = true := by rw [kind]; rfl
    obtain ⟨c, eq, sawElse, gives⟩ := Reader.conditional_pushes
      ({ org, toks := after, conds, miValid := valid && (Directive.of line).opens, sawToken, pendingGuard := pending, once } : Reader)
      host opens line.tail at_ p
    rw [kind] at eq gives
    rw [eq]
    refine ⟨fun _ none => (by cases none), ?_, fun _ none => (by cases none)⟩
    intro last isLast guard guarded
    simp only [List.map_cons, sawElse] at guarded
    cases conds with
    | nil =>
      simp only [List.getLast?_singleton, Option.mem_def, Option.some.injEq] at isLast
      subst isLast
      obtain ⟨-, isValid, fresh, name⟩ := gives guard
      simp only [Directive.opens, Bool.and_true] at isValid
      rw [← kind] at name
      obtain ⟨none, dead⟩ := sound.opens c.guard name rfl isValid fresh
      exact detects.fresh isValid rfl none c.guard (.opens next hash name dead guarded)
    | cons d outer =>
      have isLast' : last ∈ (d :: outer).getLast? := by simpa only [List.getLast?_cons_cons] using isLast
      exact detects.opened last isLast' guard (.line next (.nested (by simp) hash opens) guarded)
  | elif | elifdef negate =>
    have elif : Directive.of line = .elif ∨ ∃ negate, Directive.of line = .elifdef negate := by simp [kind]
    simp only [Directive.opens, Bool.and_false, Reader.conditional, Reader.doElif]
    cases conds with
    | nil => exact outside rfl
    | cons c outer =>
      by_cases saw : c.sawElse = true
      · simp only [saw, if_true]
        exact late c outer rfl saw (.inr elif)
      · simp only [saw, Bool.false_eq_true, if_false]
        split <;> exact arm c _ outer rfl rfl (fun _ more inside => .elif inside hash elif) (.inr elif)
  | elseArm =>
    simp only [Directive.opens, Bool.and_false, Reader.conditional, Reader.doElse]
    cases conds with
    | nil => exact outside rfl
    | cons c outer =>
      by_cases saw : c.sawElse = true
      · simp only [saw, if_true]
        exact late c outer rfl saw (.inl kind)
      · simp only [saw, Bool.false_eq_true, if_false]
        exact arm c _ outer rfl rfl (fun _ more inside => .elseArm inside hash kind) (.inl kind)
  | endif =>
    simp only [Directive.opens, Bool.and_false, Reader.conditional]
    cases conds with
    | nil => exact outside rfl
    | cons c outer =>
      cases outer with
      | nil =>
        by_cases guard : c.guard = ""
        · simp only [Reader.doEndif, guard, ne_eq, not_true_eq_false, if_false]
          exact .of_ended rfl rfl
        · simp only [Reader.doEndif, guard, ne_eq, not_false_eq_true, if_true]
          refine ⟨fun _ _ none => absurd none guard, fun c last => by (cases last), fun _ _ _ guarded => ?_⟩
          exact detects.opened c rfl guard (.line next (.endif hash kind) guarded)
      | cons d outer =>
        simp only [Reader.doEndif]
        refine ⟨fun _ none => (by cases none), ?_, fun _ none => (by cases none)⟩
        intro last isLast guard guarded
        have isLast' : last ∈ (c :: d :: outer).getLast? := by simpa only [List.getLast?_cons_cons] using isLast
        exact detects.opened last isLast' guard (.line next (.endif hash kind) guarded)
  | _ => rw [kind] at conditional; cases conditional

/-! ### Whole runs -/

/-- The file is read for the first time. -/
def Frame.isFirst (files : String → Option Cached) (f : Frame) : Prop :=
  ∃ name entry, f.display = some name ∧ files name = some entry ∧ entry.done = false

/-- What the detection leaves out, where it matters to the step at hand. -/
structure GuardsSound (host : Host ρ) (c : Config ρ) : Prop where
  directives : ∀ f below t line after, c.frames = f :: below → f.isFirst c.files →
    nextLine f.reader.toks = some (t, line, after) → t.opensDirective = true → LineSound host f.reader line
  /-- Text in the guard's conditional takes no directive and makes none. -/
  text : ∀ f below t line after, c.frames = f :: below → f.isFirst c.files →
    nextLine f.reader.toks = some (t, line, after) → t.opensDirective = false → f.reader.skipping = false →
      f.reader.guards → toDirective (host.text f.reader.org c.pre (t :: (line ++ after))).toks =
        toDirective (t :: (line ++ after))
  /-- No conditional is open at the end behind that of the guard. -/
  ending : ∀ f below, c.frames = f :: below → f.isFirst c.files → nextLine f.reader.toks = none →
    f.reader.guardFound ≠ "" → f.reader.conds = []
  /-- Of a file passed over, nothing would be said about the ends of its lines. -/
  again : ∀ i c' f entry c'', action host c = some (.includes i c') → resolve host i c' = some (f, entry, c'') →
    entry.skips true c''.pre.macros = true → entry.once = false → ∀ rest ∈ trailing 0 (lines entry.toks.length entry.toks),
      Unsaid host c''.pre (host.origin f i.org i.site "" i.nth) rest

/-- The guards that are recorded are those of guarded files, and those being read can still become so. -/
structure Detected (host : Host ρ) (c : Config ρ) : Prop where
  cached : ∀ name entry, c.files name = some entry → entry.done = true → entry.guard ≠ "" →
    GuardedBy host entry.guard entry.toks
  frames : ∀ f ∈ c.frames, ∀ name, f.display = some name →
    ∃ entry, c.files name = some entry ∧ (entry.done = false → Detects host entry.toks f.reader)

variable {c : Config ρ}

/-- A cache with more files, or with files that were read meanwhile. -/
theorem Detected.extend (detected : Detected host c) {F : String → Option Cached}
    (cached : ∀ name entry, F name = some entry → entry.done = true → entry.guard ≠ "" →
      GuardedBy host entry.guard entry.toks)
    (extends_ : ∀ name entry, c.files name = some entry → ∃ entry', F name = some entry' ∧ entry'.toks = entry.toks ∧
      (entry'.done = false → entry.done = false)) (p : Pre ρ) : Detected host ⟨c.frames, F, p⟩ where
  cached := cached
  frames f mem name display := by
    obtain ⟨entry, found, detects⟩ := detected.frames f mem name display
    obtain ⟨entry', found', toks, done⟩ := extends_ name entry found
    exact ⟨entry', found', fun fresh => toks ▸ detects (done fresh)⟩

theorem Detected.with_pre (detected : Detected host c) (p : Pre ρ) : Detected host { c with pre := p } :=
  detected.extend detected.cached (fun _ entry found => ⟨entry, found, rfl, fun fresh => fresh⟩) p

theorem Detected.openFile (detected : Detected host c) {f : Candidate} {entry : Cached} {files : String → Option Cached}
    (opened : openFile host c.files f = some (entry, files)) (p : Pre ρ) :
    Detected host ⟨c.frames, files, p⟩ ∧ files f.display = some entry := by
  unfold Preprocessor.openFile at opened
  split at opened
  · rename_i found
    cases opened
    exact ⟨detected.with_pre p, found⟩
  · rename_i unknown
    obtain ⟨r, -, eq⟩ := Option.map_eq_some_iff.1 opened
    cases eq
    refine ⟨detected.extend ?_ ?_ p, by simp⟩
    · intro name entry found done
      split at found
      · cases found
        cases done
      · exact detected.cached name entry found done
    · intro name entry found
      have other : name ≠ f.display := by
        rintro rfl
        rw [unknown] at found
        cases found
      exact ⟨entry, by simp [other, found], rfl, fun fresh => fresh⟩

theorem Detected.openFirst (detected : Detected host c) {candidates : List Candidate} {f : Candidate} {entry : Cached}
    {files : String → Option Cached} (opened : openFirst host c.files candidates = some (f, entry, files)) (p : Pre ρ) :
    Detected host ⟨c.frames, files, p⟩ ∧ files f.display = some entry := by
  induction candidates with
  | nil => cases opened
  | cons g gs ih =>
    rw [Preprocessor.openFirst] at opened
    split at opened
    · rename_i here
      cases opened
      exact detected.openFile here p
    · exact ih opened

theorem Detected.resolve (detected : Detected host c) {i : Inclusion} {f : Candidate} {entry : Cached} {c' : Config ρ}
    (resolved : resolve host i c = some (f, entry, c')) : Detected host c' ∧ c'.files f.display = some entry := by
  obtain ⟨⟨g, e, files⟩, opened, eq⟩ := Option.map_eq_some_iff.1 resolved
  obtain ⟨rfl, rfl, rfl⟩ : g = f ∧ e = entry ∧ _ = c' := by simpa using eq
  exact detected.openFirst opened _

/-- Beginning to read a file. -/
theorem Detected.readFileAs (detected : Detected host c) {f : Candidate} {entry entry' : Cached}
    (found : c.files f.display = some entry') (toks : entry'.toks = entry.toks) (at_ : Site) (parent : Nat)
    (module : String) (nth : Nat) : Detected host (readFileAs host f entry at_ parent module nth c) where
  cached := detected.cached
  frames g mem name display := by
    rcases List.mem_cons.1 mem with rfl | mem
    · cases display
      exact ⟨entry', found, fun _ => toks ▸ .start entry'.toks _⟩
    · exact detected.frames g mem name display

theorem Detected.includeFile (detected : Detected host c) (i : Inclusion) : Detected host (includeFile true host i c) := by
  unfold Preprocessor.includeFile
  split
  · exact detected.with_pre _
  cases resolved : Preprocessor.resolve host i c with
  | none => exact detected.with_pre _
  | some r =>
    obtain ⟨f, entry, c'⟩ := r
    obtain ⟨detected', found⟩ := detected.resolve resolved
    simp only
    unfold includeOpened
    split
    · exact detected'
    split
    · exact detected'
    split
    · split
      · exact detected'
      · rename_i unread
        have marked := detected'.extend
          (F := fun name => if name = f.display then some { entry with once := true, imported := true } else c'.files name)
          (by
            intro name e found' done guard
            split at found'
            · cases found'
              exact absurd done unread
            · exact detected'.cached name e found' done guard)
          (by
            intro name e found'
            by_cases same : name = f.display
            · subst same
              rw [found] at found'
              cases found'
              exact ⟨_, if_pos rfl, rfl, fun fresh => fresh⟩
            · exact ⟨e, (if_neg same).trans found', rfl, fun fresh => fresh⟩) c'.pre
        exact marked.readFileAs (if_pos rfl) rfl _ _ _ _
    · exact detected'.readFileAs found rfl _ _ _ _

theorem Detected.perform {act : Action ρ} (detected : Detected host act.config) : Detected host (perform true host act) := by
  cases act with
  | go c => exact detected
  | includes i c => exact detected.includeFile i
  | imports i org c =>
    simp only [Preprocessor.perform, importInterface]
    split
    · exact Detected.with_pre detected _
    · rename_i entry files opened
      obtain ⟨detected', found⟩ := Detected.openFile detected opened { c.pre with rest := host.addDep c.pre.rest i.unit.display }
      exact detected'.readFileAs found rfl _ _ _ _

/-- The file on top goes on. -/
theorem Detected.top (detected : Detected host c) {f : Frame} {below : List Frame} (frames : c.frames = f :: below) {r : Reader}
    (goes : f.isFirst c.files → ∀ source, Detects host source f.reader → Detects host source r) (p : Pre ρ) :
    Detected host (c.withReader f below r p) where
  cached := detected.cached
  frames g mem name display := by
    rcases List.mem_cons.1 mem with rfl | mem
    · obtain ⟨entry, found, detects⟩ := detected.frames f (by simp [frames]) name display
      exact ⟨entry, found, fun fresh => goes ⟨name, entry, display, found, fresh⟩ _ (detects fresh)⟩
    · exact detected.frames g (by simp [frames, mem]) name display

theorem Detected.finish (detected : Detected host c) {f : Frame} {below : List Frame} (frames : c.frames = f :: below)
    (ended : nextLine f.reader.toks = none)
    (closed : f.isFirst c.files → f.reader.guardFound ≠ "" → f.reader.conds = []) : Detected host (finish f below c) where
  cached name entry found done guard := by
    cases old : c.files name with
    | none => simp [Preprocessor.finish, old] at found
    | some e =>
      simp only [Preprocessor.finish, old] at found
      split at found
      · rename_i here
        simp only [Bool.and_eq_true, decide_eq_true_eq, Bool.not_eq_true'] at here
        cases found
        obtain ⟨e', found, detects⟩ := detected.frames f (by simp [frames]) name here.1
        obtain rfl : e' = _ := Option.some.inj (found.symm.trans old)
        exact (detects here.2).found ended guard (closed ⟨name, e', here.1, old, here.2⟩ guard)
      · cases found
        exact detected.cached name entry old done guard
  frames g mem name display := by
    obtain ⟨e, found, detects⟩ := detected.frames g (by rw [frames]; exact List.mem_cons_of_mem f mem) name display
    simp only [Preprocessor.finish, found]
    split
    · exact ⟨_, rfl, fun fresh => by cases fresh⟩
    · exact ⟨e, rfl, detects⟩

theorem inclusion_config (host : Host ρ) (what : String) (next importing : Bool) (rest : List Token) (at_ : Site) (org : Nat)
    (c : Config ρ) : ∃ p, (inclusion host what next importing rest at_ org c).config = { c with pre := p } := by
  unfold inclusion
  split
  · exact ⟨_, rfl⟩
  · simp only
    split <;> exact ⟨_, rfl⟩

/-- A directive goes on with the file as the detection has it. -/
theorem Detected.directive (detected : Detected host c) {f : Frame} {below : List Frame} (frames : c.frames = f :: below)
    {t : Token} {line after : List Token} (next : nextLine f.reader.toks = some (t, line, after))
    (hash : t.opensDirective = true) (sound : f.isFirst c.files → LineSound host f.reader line) :
    Detected host (directive host f below { f.reader with toks := after } t line c).config := by
  have stays : ∀ (r' : Reader) (p : Pre ρ), (Directive.of line).isConditional = false → r'.toks = after →
      r'.conds = f.reader.conds → (f.reader.conds = [] → r'.miValid = false) → Detected host (c.withReader f below r' p) := by
    rintro r' p plain rfl conds ends
    exact detected.top frames (fun _ source detects => detects.plain next (fun _ => plain) conds ends) p
  unfold Preprocessor.directive
  simp only
  split
  · rename_i passed
    simp only [Bool.or_eq_true, decide_eq_true_eq, Bool.and_eq_true, Bool.not_eq_true'] at passed
    rcases passed with null | ⟨skipping, plain⟩
    · exact detected.top frames (fun _ source detects => detects.null next hash null) _
    · refine stays _ _ plain rfl rfl fun none => ?_
      rw [Reader.skipping] at skipping
      simp [none] at skipping
  · cases kind : Directive.of line with
    | ifExpr | ifdef _ | elif | elifdef _ | elseArm | endif =>
      simp only
      have conditional : (Directive.of line).isConditional = true := by rw [kind]; rfl
      rw [← kind]
      exact detected.top frames (fun first source detects =>
        detects.conditional next hash conditional (sound first) t.site c.pre) _
    | null =>
      rename_i passed
      simp [kind] at passed
    | other =>
      exact stays _ _ (by rw [kind]; rfl) rfl rfl fun _ => by simp [Directive.opens]
    | inclusion n =>
      simp only
      obtain ⟨p, eq⟩ := inclusion_config host (if n = true then "#include_next" else "#include") n false line.tail t.site
        f.reader.org (c.withReader f below
          { f.reader with toks := after, miValid := f.reader.miValid && (Directive.inclusion n).opens } c.pre)
      rw [eq]
      exact stays _ p (by rw [kind]; rfl) rfl rfl fun _ => by simp [Directive.opens]
    | importFile =>
      simp only
      split
      · obtain ⟨p, eq⟩ := inclusion_config host "#import" false true line.tail t.site f.reader.org (c.withReader f below
          { f.reader with toks := after, miValid := f.reader.miValid && Directive.importFile.opens } c.pre)
        rw [eq]
        exact stays _ p (by rw [kind]; rfl) rfl rfl fun _ => by simp [Directive.opens]
      · exact stays _ _ (by rw [kind]; rfl) rfl rfl fun _ => by simp [Directive.opens]

theorem Detected.action (detected : Detected host c) (sound : GuardsSound host c) {act : Action ρ}
    (acted : action host c = some act) : Detected host act.config := by
  unfold Preprocessor.action at acted
  split at acted
  · cases acted
  rename_i f below frames
  split at acted
  · cases acted
    refine ⟨detected.cached, fun g mem name display => ?_⟩
    rcases List.mem_cons.1 mem with rfl | mem
    · exact detected.frames f (by simp [frames]) name display
    · exact detected.frames g (by simp [frames, mem]) name display
  split at acted
  · rename_i ended
    cases acted
    exact detected.finish frames ended fun first => sound.ending f below frames first ended
  · rename_i t line after next
    simp only at acted
    split at acted
    · rename_i hash
      cases acted
      exact detected.directive frames next hash fun first => sound.directives f below t line after frames first next hash
    · rename_i notHash
      have text : t.opensDirective = false := by simpa using notHash
      split at acted
      · rename_i skipping
        cases acted
        refine detected.top (r := { f.reader with toks := after }) frames (fun _ source detects =>
          detects.plain next (fun hash => absurd hash notHash) rfl ?_) c.pre
        intro none
        rw [Reader.skipping] at skipping
        simp [none] at skipping
      · rename_i live
        have moved : ∀ (r' : Reader) (p : Pre ρ), r'.conds = f.reader.conds → r'.miValid = false →
            r'.toks = (host.text f.reader.org c.pre (t :: (line ++ after))).toks → Detected host (c.withReader f below r' p) := by
          intro r' p conds ends toks
          refine detected.top frames (fun first source detects => detects.text conds ends fun guards => ?_) p
          have live' : f.reader.skipping = false := by simpa [Reader.skipping] using live
          have kept := sound.text f below t line after frames first next text live' guards
          obtain ⟨marks, eq, plain, -⟩ := nextLine_split next
          rw [eq, toDirective_of_plain fun x mem => plain x (List.mem_append_left _ mem), toks]
          exact kept
        split at acted <;> cases acted <;> exact moved _ _ rfl rfl rfl

/-- **One step** keeps what is recorded and what is being read right. -/
theorem Detected.step (detected : Detected host c) (sound : GuardsSound host c) {c' : Config ρ}
    (stepped : step true host c = some c') : Detected host c' := by
  obtain ⟨act, acted, rfl⟩ := Option.map_eq_some_iff.1 stepped
  exact (detected.action sound acted).perform

theorem Detected.start (p : Pre ρ) (org : Nat) (toks : List Token) (preIncludes : List String) :
    Detected host (start p org toks preIncludes) where
  cached _ _ found := by cases found
  frames f mem name display := by
    obtain rfl := List.mem_singleton.1 mem
    cases display

/-- A file that only its guard keeps from being read again has nothing to read. -/
theorem Detected.guardsWhole (detected : Detected host c) (sound : GuardsSound host c) : GuardsWhole host c := by
  intro i c' f entry c'' acted resolved skips once _ _
  obtain ⟨detected', found⟩ := (detected.action sound acted).resolve resolved
  have unsaid := sound.again i c' f entry c'' acted resolved skips once
  simp only [Cached.skips, once, Bool.true_and, Bool.false_or, Bool.and_eq_true, decide_eq_true_eq] at skips
  exact (detected'.cached _ _ found skips.1 skips.2.1).quiet skips.2.2 (Nat.le_refl _) unsaid

/-- The line at hand gives the detection nothing to leave out. -/
def soundLine (host : Host Unit) (c : Config Unit) (r : Reader) : Bool :=
  match nextLine r.toks with
  | none => r.conds.isEmpty
  | some (t, line, after) =>
    if t.opensDirective then
      Directive.of line = .other || Directive.of line = .endif || Directive.of line = .inclusion false ||
        Directive.of line = .ifdef true && r.pendingGuard = ""
    else r.skipping || decide (toDirective (host.text r.org c.pre (t :: (line ++ after))).toks = toDirective (t :: (line ++ after)))

/-- Every file passed over has lines that end as they should. -/
def soundAgain (host : Host Unit) (c : Config Unit) : Bool :=
  match action host c with
  | some (.includes i c') => (resolve host i c').all fun r => (trailing 0 (lines r.2.1.toks.length r.2.1.toks)).all List.isEmpty
  | _ => true

theorem guardsSound_of_checks {host : Host Unit} {c : Config Unit}
    (checks : (c.frames.all (fun f => soundLine host c f.reader) && soundAgain host c) = true) : GuardsSound host c := by
  rw [Bool.and_eq_true, List.all_eq_true] at checks
  obtain ⟨lines, again⟩ := checks
  refine ⟨?_, ?_, ?_, ?_⟩
  · intro f below t line after frames _ next hash
    have checked := lines f (by simp [frames])
    simp only [soundLine, next, hash, if_true, Bool.or_eq_true, Bool.and_eq_true, decide_eq_true_eq] at checked
    rcases checked with ((other | endif) | inclusion) | ⟨ifndef, none⟩
    · exact ⟨by simp [other, guardName], by simp [other]⟩
    · exact ⟨by simp [endif, guardName], by simp [endif]⟩
    · exact ⟨by simp [inclusion, guardName], by simp [inclusion]⟩
    · exact ⟨fun _ _ _ _ _ => ⟨none, by simp [ifndef]⟩, by simp [ifndef]⟩
  · intro f below t line after frames _ next text live _
    have checked := lines f (by simp [frames])
    simpa [soundLine, next, text, live] using checked
  · intro f below frames _ ended _
    have checked := lines f (by simp [frames])
    simpa [soundLine, ended] using checked
  · intro i c' f entry c'' acted resolved _ _ rest mem
    simp only [soundAgain, acted, resolved, Option.all_some, List.all_eq_true] at again
    rw [List.isEmpty_iff.1 (again rest mem)]
    intro t first
    cases first

/-- `#if !defined(A) || 1`, `x`, `#endif`. -/
def orHeader : List Token :=
  [hashAt 1, .mint .keyword "if", .mint .not "!", .mint .ident "defined", .mint .lparen "(", .mint .ident "A",
   .mint .rparen ")", .mint .lor "||", .mint .intLit "1", { Token.mint .ident "x" with nlBefore := true },
   hashAt 23, .mint .ident "endif", endOfFile]

end Vcx.Preprocessor
