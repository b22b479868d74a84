import Vcx.Preprocessor.Expand
import Vcx.Preprocessor.Include

/-!
# The multiple-include optimization

A file is passed over while the guard recorded for it is defined. That changes nothing where
reading it again would find only conditionals that are false without a word: `Quiet`, decided
line by line. The recorded guard does not promise that. `noteGuardIf` takes the first name after
`!defined` and ignores the rest of the expression, the guard of a second conditional replaces
that of the first, and an unterminated conditional after the guard's leaves it standing.
-/

namespace Vcx.Preprocessor
set_option autoImplicit false
open Vcx.Lib

variable {ρ : Type}

/-! ### Files with nothing to read -/

/-- The controlling condition of a directive. -/
def controlling (host : Host ρ) (org : Nat) (d : Directive) (rest : List Token) (at_ : Site) (p : Pre ρ) :
    Bool × Pre ρ :=
  match d with
  | .ifdef negate => definedOperand host (if negate then "ifndef" else "ifdef") rest at_ negate p
  | .elifdef negate => definedOperand host (if negate then "elifndef" else "elifdef") rest at_ negate p
  | _ => eval host org rest at_ p

/-- A line that does nothing, with the conditionals open before it and after it: each is in an
arm that is not taken, and the flag says whether it had its `#else`. -/
inductive QuietLine (host : Host ρ) (p : Pre ρ) (org : Nat) : List Bool → Token → List Token → List Bool → Prop
  | skipped {flags t line} (inside : flags ≠ [])
    (plain : t.opensDirective = true → (Directive.of line).isConditional = false) : QuietLine host p org flags t line flags
  | null {flags t line} (hash : t.opensDirective = true) (null : Directive.of line = .null) :
    QuietLine host p org flags t line flags
  | outermost {t line} (hash : t.opensDirective = true) (opens : (Directive.of line).opens = true)
    (no : controlling host org (Directive.of line) line.tail t.site p = (false, p)) : QuietLine host p org [] t line [false]
  | nested {flags t line} (inside : flags ≠ []) (hash : t.opensDirective = true)
    (opens : (Directive.of line).opens = true) : QuietLine host p org flags t line (false :: flags)
  | elif {more t line} (hash : t.opensDirective = true)
    (elif : Directive.of line = .elif ∨ ∃ negate, Directive.of line = .elifdef negate)
    (no : more = [] → controlling host org (Directive.of line) line.tail t.site p = (false, p)) :
    QuietLine host p org (false :: more) t line (false :: more)
  | elseArm {more t line} (inside : more ≠ []) (hash : t.opensDirective = true)
    (arm : Directive.of line = .elseArm) (ends : expectEnd host p line.tail "#else" = p) :
    QuietLine host p org (false :: more) t line (true :: more)
  | endif {flag more t line} (hash : t.opensDirective = true) (endif : Directive.of line = .endif)
    (ends : expectEnd host p line.tail "#endif" = p) : QuietLine host p org (flag :: more) t line more

/-- The rest of a file in which no line does anything. -/
inductive Quiet (host : Host ρ) (p : Pre ρ) (org : Nat) : List Bool → List Token → Prop
  | eof {toks} (ended : nextLine toks = none) : Quiet host p org [] toks
  | line {flags flags' toks t line after} (next : nextLine toks = some (t, line, after))
    (quiet : QuietLine host p org flags t line flags') (more : Quiet host p org flags' after) : Quiet host p org flags toks

/-- The condition on a step: a file that only the guard test keeps from being read again has
nothing to read. -/
def GuardsWhole (host : Host ρ) (c : Config ρ) : Prop :=
  ∀ i c' f entry c'', action host c = some (.includes i c') → resolve host i c' = some (f, entry, c'') →
    entry.skips true c''.pre.macros = true → entry.once = false → entry.imported = false → i.importing = false →
      Quiet host c''.pre (host.origin f i.org i.site "" i.nth) []
        (entry.toks.map (Token.within (host.origin f i.org i.site "" i.nth)))

/-- The state `Run` starts in: the predefined macros and what the scanner said of the primary
file are in `p`. -/
def start (p : Pre ρ) (org : Nat) (toks : List Token) (preIncludes : List String) : Config ρ :=
  { frames := [{ reader := { org, toks }, preIncludes }], files := fun _ => none, pre := p }

/-! ### Reading one again -/

/-- The conditionals of a reader, all in arms that are not taken. -/
structure Idle (flags : List Bool) (r : Reader) : Prop where
  flags : r.conds.map Cond.sawElse = flags
  idle : ∀ c ∈ r.conds, c.taken = false ∧ c.active = false

theorem Idle.skipping {flags : List Bool} {r : Reader} (idle : Idle flags r) : r.skipping = !flags.isEmpty := by
  obtain ⟨rfl, idle⟩ := idle
  unfold Reader.skipping
  cases conds : r.conds with
  | nil => rfl
  | cons c outer =>
    have := (idle c (by simp [conds])).2
    simp [this]

theorem Idle.parentSkipping {flag : Bool} {more : List Bool} {r : Reader} (idle : Idle (flag :: more) r) :
    r.parentSkipping = !more.isEmpty := by
  obtain ⟨flags, idle⟩ := idle
  unfold Reader.parentSkipping
  cases conds : r.conds with
  | nil => rw [conds] at flags; cases flags
  | cons c outer =>
    rw [conds, List.map_cons, List.cons.injEq] at flags
    obtain ⟨-, rfl⟩ := flags
    cases outer with
    | nil => rfl
    | cons d outer =>
      have := (idle d (by simp [conds])).2
      simp [this]

theorem Idle.push {flags : List Bool} {r : Reader} (idle : Idle flags r) {c : Cond} (taken : c.taken = false)
    (active : c.active = false) (fresh : c.sawElse = false) : Idle (false :: flags) (r.pushCond c) where
  flags := by rw [Reader.pushCond, List.map_cons, idle.flags, fresh]
  idle d mem := by
    rcases List.mem_cons.1 mem with rfl | mem
    · exact ⟨taken, active⟩
    · exact idle.idle d mem

theorem Idle.of_conds {flags : List Bool} {r r' : Reader} (idle : Idle flags r) (conds : r'.conds = r.conds) :
    Idle flags r' := by
  obtain ⟨flags, idle⟩ := idle
  exact ⟨by rw [conds]; exact flags, by rw [conds]; exact idle⟩

theorem Idle.cons {flag : Bool} {more : List Bool} {r : Reader} (idle : Idle (flag :: more) r) :
    ∃ c outer, r.conds = c :: outer ∧ c.sawElse = flag ∧ c.taken = false ∧ c.active = false ∧
      outer.map Cond.sawElse = more ∧ ∀ d ∈ outer, d.taken = false ∧ d.active = false := by
  obtain ⟨flags, idle⟩ := idle
  cases conds : r.conds with
  | nil => rw [conds] at flags; cases flags
  | cons c outer =>
    rw [conds, List.map_cons, List.cons.injEq] at flags
    have here := idle c (by simp [conds])
    exact ⟨c, outer, rfl, flags.1, here.1, here.2, flags.2, fun d mem => idle d (by simp [conds, mem])⟩

theorem Pre.errorf_ne {p : Pre ρ} {site : Site} {msg : String} {notes : List (Site × String)} :
    p.errorf site msg notes ≠ p := by
  intro eq
  have := congrArg (fun q : Pre ρ => q.diags.length) eq
  simp [Pre.errorf, Pre.report] at this

/-- The name of an `#ifdef` that says nothing. -/
theorem named_of_definedOperand {host : Host ρ} {word : String} {line : List Token} {at_ : Site} {negate v : Bool}
    {p : Pre ρ} (quiet : definedOperand host word line at_ negate p = (v, p)) : line.head?.any (·.isName) = true := by
  unfold definedOperand at quiet
  cases line with
  | nil => exact absurd (Prod.mk.inj quiet).2 Pre.errorf_ne
  | cons name rest =>
    by_cases isName : name.isName = true
    · simpa using isName
    · simp only [isName, Bool.not_false, if_true] at quiet
      exact absurd (Prod.mk.inj quiet).2 Pre.errorf_ne

theorem directive_conditional (host : Host ρ) (f : Frame) (below : List Frame) (r : Reader) {t : Token}
    {line : List Token} (c : Config ρ) (conditional : (Directive.of line).isConditional = true) :
    ∃ valid, directive host f below r t line c =
      .go (c.withReader f below ({ r with miValid := valid }.conditional host (Directive.of line) line.tail t.site c.pre).1
        ({ r with miValid := valid }.conditional host (Directive.of line) line.tail t.site c.pre).2) := by
  refine ⟨r.miValid && (Directive.of line).opens, ?_⟩
  unfold directive
  cases kind : Directive.of line <;> rw [kind] at conditional <;> first
    | exact absurd conditional Bool.false_ne_true
    | simp [Directive.isConditional]

theorem Idle.noteGuardIf {flags : List Bool} {r : Reader} (idle : Idle flags r) (line : List Token) :
    Idle flags (r.noteGuardIf line) ∧ (r.noteGuardIf line).toks = r.toks ∧ (r.noteGuardIf line).org = r.org := by
  unfold Reader.noteGuardIf
  split
  · rename_i c bang op operand conds
    split
    · split
      · obtain ⟨flags, idle⟩ := idle
        rw [conds] at flags idle
        refine ⟨⟨flags, fun d mem => ?_⟩, rfl, rfl⟩
        obtain rfl := List.mem_singleton.1 mem
        exact idle c (by simp)
      · exact ⟨idle, rfl, rfl⟩
    · exact ⟨idle, rfl, rfl⟩
  · exact ⟨idle, rfl, rfl⟩

/-- An opening conditional that pushes a frame with neither flag set. -/
theorem Reader.conditional_opens {host : Host ρ} {d : Directive} {rest : List Token} {at_ : Site} {p : Pre ρ}
    {r : Reader} {flags : List Bool} (idle : Idle flags r) (opens : d.opens = true)
    (no : r.skipping = false → controlling host r.org d rest at_ p = (false, p)) :
    ∃ r', r.conditional host d rest at_ p = (r', p) ∧ Idle (false :: flags) r' ∧ r'.toks = r.toks ∧ r'.org = r.org := by
  cases d with
  | ifExpr =>
    have began : ∃ c : Cond, r.beginIf "#if" at_ (eval host r.org rest at_) p = (r.pushCond c, p) ∧ c.taken = false ∧
        c.active = false ∧ c.sawElse = false := by
      unfold Reader.beginIf
      split
      · exact ⟨_, rfl, rfl, rfl, rfl⟩
      · rename_i live
        have no : eval host r.org rest at_ p = (false, p) := no (by simpa using live)
        rw [no]
        exact ⟨_, rfl, rfl, rfl, rfl⟩
    obtain ⟨c, eq, taken, active, fresh⟩ := began
    refine ⟨(r.pushCond c).noteGuardIf rest, ?_, (idle.push taken active fresh).noteGuardIf rest⟩
    simp only [Reader.conditional, eq]
  | ifdef negate =>
    have pushed : ∃ c : Cond, r.doIfdef host negate rest at_ p = (r.pushCond c, p) ∧ c.taken = false ∧
        c.active = false ∧ c.sawElse = false := by
      unfold Reader.doIfdef
      by_cases skipping : r.skipping = true
      · simp only [skipping, if_true]
        exact ⟨_, rfl, rfl, rfl, rfl⟩
      · have no := no (by simpa using skipping)
        simp only [controlling] at no
        simp only [skipping, Bool.false_eq_true, if_false, named_of_definedOperand no, if_true, no]
        exact ⟨_, rfl, rfl, rfl, rfl⟩
    obtain ⟨c, eq, taken, active, fresh⟩ := pushed
    exact ⟨r.pushCond c, eq, idle.push taken active fresh, rfl, rfl⟩
  | _ => cases opens

/-- An `#elif` of a conditional that has taken no arm, false or in a skipped group. -/
theorem Reader.doElif_quiet {name : String} {at_ : Site} {eval : Pre ρ → Bool × Pre ρ} {p : Pre ρ} {r : Reader}
    {more : List Bool} (idle : Idle (false :: more) r) (no : more = [] → eval p = (false, p)) :
    ∃ r', r.doElif name at_ eval p = (r', p) ∧ Idle (false :: more) r' ∧ r'.toks = r.toks ∧ r'.org = r.org := by
  have parent := idle.parentSkipping
  obtain ⟨c, outer, conds, sawElse, taken, active, flags, rest⟩ := idle.cons
  have idle' : ∀ c' : Cond, c'.sawElse = false → c'.taken = false → c'.active = false →
      Idle (false :: more) { r with conds := c' :: outer } := by
    intro c' sawElse taken active
    refine ⟨by simp [sawElse, flags], fun d mem => ?_⟩
    rcases List.mem_cons.1 mem with rfl | mem
    · exact ⟨taken, active⟩
    · exact rest d mem
  cases more with
  | nil =>
    refine ⟨{ r with conds := { c with guard := "", taken := false, active := false } :: outer }, ?_,
      idle' _ sawElse rfl rfl, rfl, rfl⟩
    simp [Reader.doElif, conds, sawElse, taken, parent, no rfl]
  | cons flag more =>
    refine ⟨{ r with conds := { c with guard := "", active := false } :: outer }, ?_, idle' _ sawElse taken rfl, rfl, rfl⟩
    simp [Reader.doElif, conds, sawElse, parent]

theorem QuietLine.conditional {host : Host ρ} {p : Pre ρ} {org : Nat} {flags flags' : List Bool} {t : Token}
    {line : List Token} (quiet : QuietLine host p org flags t line flags') (hash : t.opensDirective = true)
    (isConditional : (Directive.of line).isConditional = true) {r : Reader} (idle : Idle flags r) (same : r.org = org) :
    ∃ r', r.conditional host (Directive.of line) line.tail t.site p = (r', p) ∧ Idle flags' r' ∧ r'.toks = r.toks ∧
      r'.org = r.org := by
  subst same
  have skipping := idle.skipping
  cases quiet with
  | skipped _ plain => rw [plain hash] at isConditional; cases isConditional
  | null _ null => rw [null] at isConditional; cases isConditional
  | outermost _ opens no => exact Reader.conditional_opens idle opens fun _ => no
  | nested inside _ opens =>
    refine Reader.conditional_opens idle opens fun live => ?_
    rw [live] at skipping
    exact absurd (List.isEmpty_iff.1 (by simpa using skipping)) inside
  | elif _ elif no =>
    rcases elif with elif | ⟨negate, elif⟩ <;> rw [elif] at no ⊢ <;> exact Reader.doElif_quiet idle no
  | @elseArm more _ _ inside _ arm ends =>
    have parent := idle.parentSkipping
    obtain ⟨c, outer, conds, sawElse, taken, active, flags, rest⟩ := idle.cons
    have dead : r.parentSkipping = true := by
      rw [parent]
      cases more with
      | nil => exact absurd rfl inside
      | cons => rfl
    refine ⟨{ r with conds := { c with sawElse := true, guard := "", active := false, taken := false } :: outer }, ?_,
      ⟨by simp [flags], fun d mem => ?_⟩, rfl, rfl⟩
    · rw [arm]
      simp [Reader.conditional, Reader.doElse, conds, sawElse, dead, taken, ends]
    · rcases List.mem_cons.1 mem with rfl | mem
      · exact ⟨rfl, rfl⟩
      · exact rest d mem
  | endif _ endif ends =>
    obtain ⟨c, outer, conds, -, -, -, flags, rest⟩ := idle.cons
    rw [endif]
    have closed : ∃ r', r.doEndif t.site p = (r', p) ∧ r'.conds = outer ∧ r'.toks = r.toks ∧ r'.org = r.org := by
      unfold Reader.doEndif
      rw [conds]
      cases outer with
      | nil => by_cases guard : c.guard = "" <;> simp [guard]
      | cons => simp
    obtain ⟨r', eq, conds', toks, org⟩ := closed
    refine ⟨r', ?_, ⟨by rw [conds', flags], by rw [conds']; exact rest⟩, toks, org⟩
    simp only [Reader.conditional, eq, ends]

/-- A quiet line moves the cursor past it and changes nothing else. -/
theorem QuietLine.step {host : Host ρ} {p : Pre ρ} {org : Nat} {flags flags' : List Bool} {t : Token}
    {line after : List Token} (quiet : QuietLine host p org flags t line flags') {r : Reader} (idle : Idle flags r)
    (same : r.org = org) (next : nextLine r.toks = some (t, line, after)) (optimise : Bool) (display : Option String)
    (below : List Frame) (files : String → Option Cached) :
    ∃ r', step optimise host ⟨{ reader := r, display } :: below, files, p⟩ =
        some ⟨{ reader := r', display } :: below, files, p⟩ ∧ Idle flags' r' ∧ r'.toks = after ∧ r'.org = org := by
  have moved : Idle flags { r with toks := after } := idle.of_conds rfl
  have passes : (t.opensDirective = true → Directive.of line = .null ∨
        { r with toks := after }.skipping = true ∧ (Directive.of line).isConditional = false) →
      (t.opensDirective = false → { r with toks := after }.skipping = true) → flags' = flags →
      ∃ r', Preprocessor.step optimise host ⟨{ reader := r, display } :: below, files, p⟩ =
        some ⟨{ reader := r', display } :: below, files, p⟩ ∧ Idle flags' r' ∧ r'.toks = after ∧ r'.org = org := by
    intro ignored skipped eq
    refine ⟨{ r with toks := after }, ?_, eq ▸ moved, rfl, same⟩
    cases hash : t.opensDirective with
    | false => simp [Preprocessor.step, action, next, hash, skipped hash, perform, Config.withReader]
    | true =>
      rcases ignored hash with null | ⟨skipping, plain⟩
      · simp [Preprocessor.step, action, next, hash, directive, null, perform, Config.withReader]
      · simp [Preprocessor.step, action, next, hash, directive, skipping, plain, perform, Config.withReader]
  have carried : t.opensDirective = true → (Directive.of line).isConditional = true →
      ∃ r', Preprocessor.step optimise host ⟨{ reader := r, display } :: below, files, p⟩ =
        some ⟨{ reader := r', display } :: below, files, p⟩ ∧ Idle flags' r' ∧ r'.toks = after ∧ r'.org = org := by
    intro hash isConditional
    obtain ⟨valid, eq⟩ := directive_conditional host { reader := r, display } below { r with toks := after }
      (t := t) ⟨{ reader := r, display } :: below, files, p⟩ isConditional
    obtain ⟨r', done, idle', toks, org'⟩ := quiet.conditional hash isConditional
      (r := { r with toks := after, miValid := valid }) (moved.of_conds rfl) same
    refine ⟨r', ?_, idle', toks, org'.trans same⟩
    simp only [Preprocessor.step, action, next, hash, if_true, eq, Option.map_some, perform, Config.withReader, done]
  cases quiet with
  | skipped inside plain =>
    have skipping : { r with toks := after }.skipping = true := by
      rw [moved.skipping]
      simpa using inside
    exact passes (fun hash => .inr ⟨skipping, plain hash⟩) (fun _ => skipping) rfl
  | null hash null => exact passes (fun _ => .inl null) (fun not => absurd (hash.symm.trans not) (by decide)) rfl
  | outermost hash opens _ | nested _ hash opens =>
    refine carried hash ?_
    cases kind : Directive.of line <;> rw [kind] at opens <;> first | rfl | cases opens
  | elif hash elif _ => exact carried hash (by rcases elif with elif | ⟨negate, elif⟩ <;> rw [elif] <;> rfl)
  | elseArm _ hash arm _ => exact carried hash (by rw [arm]; rfl)
  | endif hash endif _ => exact carried hash (by rw [endif]; rfl)

/-- Nothing is recorded of a file that was read before. -/
theorem finish_done {r : Reader} (closed : r.conds = []) {name : String} {entry : Cached}
    {files : String → Option Cached} (cached : files name = some entry) (done : entry.done = true)
    (frames below : List Frame) (p : Pre ρ) :
    finish { reader := r, display := some name } below ⟨frames, files, p⟩ = ⟨below, files, p⟩ := by
  have recorded : (finish { reader := r, display := some name } below ⟨frames, files, p⟩).files = files := by
    funext key
    by_cases here : name = key
    · subst here
      simp [finish, cached, done]
    · cases found : files key <;> simp [finish, here, found]
  have silent : r.finishConds p = p := by simp [Reader.finishConds, closed]
  exact Config.mk.injEq .. ▸ ⟨rfl, recorded, silent⟩

/-- **Reading a quiet file again** comes back to where it began. -/
theorem Quiet.run {host : Host ρ} {p : Pre ρ} {org : Nat} {flags : List Bool} {toks : List Token}
    (quiet : Quiet host p org flags toks) (optimise : Bool) {name : String} {entry : Cached} {files : String → Option Cached}
    (cached : files name = some entry) (done : entry.done = true) (below : List Frame) :
    ∀ r : Reader, r.toks = toks → r.org = org → Idle flags r →
      ∃ n, steps (step optimise host) (n + 1) ⟨{ reader := r, display := some name } :: below, files, p⟩ =
        some ⟨below, files, p⟩ := by
  induction quiet with
  | eof ended =>
    rintro r rfl - idle
    have closed : r.conds = [] := List.map_eq_nil_iff.1 idle.flags
    refine ⟨0, ?_⟩
    simp only [steps, step, action, ended, Option.map_some, perform, finish_done closed cached done, Option.bind_some]
  | @line flags flags' toks t line after next quiet _ ih =>
    rintro r rfl same idle
    obtain ⟨r', stepped, idle', toks', org'⟩ := quiet.step idle same next optimise (some name) below files
    obtain ⟨n, run⟩ := ih r' toks' org' idle'
    exact ⟨n + 1, by rw [steps, stepped, Option.bind_some, run]⟩

/-! ### Runs -/

theorem openFirst_cached {host : Host ρ} {files files' : String → Option Cached} {f : Candidate} {entry : Cached}
    {candidates : List Candidate} (opened : openFirst host files candidates = some (f, entry, files')) :
    files' f.display = some entry := by
  induction candidates with
  | nil => cases opened
  | cons g gs ih =>
    rw [openFirst] at opened
    split at opened
    · rename_i e fs here
      obtain ⟨rfl, rfl, rfl⟩ : g = f ∧ e = entry ∧ fs = files' := by simpa using opened
      unfold openFile at here
      split at here
      · rename_i found
        obtain ⟨rfl, rfl⟩ : _ ∧ _ := by simpa using here
        exact found
      · obtain ⟨r, -, eq⟩ := Option.map_eq_some_iff.1 here
        obtain ⟨rfl, rfl⟩ := Prod.mk.inj eq
        simp
    · exact ih opened

theorem resolve_cached {host : Host ρ} {i : Inclusion} {c c' : Config ρ} {f : Candidate} {entry : Cached}
    (resolved : resolve host i c = some (f, entry, c')) : c'.files f.display = some entry := by
  obtain ⟨⟨g, e, files⟩, opened, eq⟩ := Option.map_eq_some_iff.1 resolved
  obtain ⟨rfl, rfl, rfl⟩ : g = f ∧ e = entry ∧ _ = c' := by simpa using eq
  exact openFirst_cached opened

/-- The optimization takes a shortcut where the condition holds. -/
theorem shortcut_of_guardsWhole {host : Host ρ} {c : Config ρ} (whole : GuardsWhole host c) :
    Shortcut (step true host) (step false host) c := by
  cases acted : action host c with
  | none => exact .same (by simp [step, acted])
  | some act =>
    cases act with
    | go | imports => exact .same (by simp [step, acted, perform])
    | includes i asked =>
      have fast : ∀ optimise, step optimise host c = some (includeFile optimise host i asked) := by
        intro optimise
        simp [step, acted, perform]
      by_cases abs : isAbs i.name = true
      · exact .same (by simp [fast, includeFile, abs])
      cases resolved : resolve host i asked with
      | none => exact .same (by simp [fast, includeFile, abs, resolved])
      | some r =>
        obtain ⟨f, entry, opened⟩ := r
        have file : ∀ optimise, step optimise host c = some (includeOpened optimise host i f entry opened) := by
          intro optimise
          simp [fast, includeFile, abs, resolved]
        -- only a guard that is defined tells the two apart
        by_cases once : entry.once = true
        · exact .same (by simp [file, includeOpened, Cached.skips, once])
        have once : entry.once = false := by simpa using once
        cases skips : entry.skips true opened.pre.macros with
        | false =>
          refine .same ?_
          have never : entry.skips false opened.pre.macros = false := by simp [Cached.skips, once]
          simp [file, includeOpened, skips, never]
        | true =>
          have done : entry.done = true := by
            rw [Cached.skips, Bool.and_eq_true] at skips
            exact skips.1
          have never : entry.skips false opened.pre.macros = false := by simp [Cached.skips, once]
          by_cases imported : entry.imported = true
          · exact .same (by simp [file, includeOpened, skips, never, imported])
          by_cases importing : i.importing = true
          · exact .same (by simp [file, includeOpened, skips, never, imported, importing, done])
          have quiet := whole i asked f entry opened acted resolved skips once (by simpa using imported)
            (by simpa using importing)
          obtain ⟨n, run⟩ := quiet.run false (resolve_cached resolved) done opened.frames
            { org := host.origin f i.org i.site "" i.nth, toks := entry.toks.map (Token.within _) } rfl rfl ⟨rfl, nofun⟩
          refine .skips opened (n + 1) (by simp [file, includeOpened, skips]) ?_
          rw [steps, file false, Option.bind_some]
          simpa [includeOpened, never, imported, importing, readFileAs, done] using run

/-! ### A header -/

/-- A run of `v++ -D A` with one header, `h.h`, that no line of which needs more of the host than
text without pragmas and quoted header names. -/
def sampleHost (header : List Token) : Host Unit where
  vendor := false
  objC := false
  maxIncludeDepth := 200
  search := 1
  name org := if org = 0 then "main.cc" else "h.h"
  system _ _ := false
  origin _ parent at_ _ nth := 1 + parent + at_.pos + nth
  searchList _ name _ _ := [⟨0, name, name⟩]
  read f := if f.display = "h.h" then some (header, []) else none
  readError _ := "file does not exist"
  addDep rest _ := rest
  expandClosed p ts :=
    let env : Env := { macros := p.macros, rescan := fun _ => none, maxExpansionDepth := none, spelled := fun _ _ => "" }
    ((Preprocessor.expandClosed env 64 0 ts {}).map (·.1) |>.getD ts, p)
  operator _ p t _ := (none, p.errorf t.site (t.text ++ " requires a parenthesized operand") [])
  headerName p line at_ :=
    match line with
    | t :: _ =>
      if t.kind = .stringLit then (some (String.ofList (t.text.toList.filter (· ≠ '"')), false, 1), p)
      else (none, p.errorf at_ "expected \"FILENAME\" or <FILENAME>" [])
    | [] => (none, p.errorf at_ "expected \"FILENAME\" or <FILENAME>" [])
  directive _ p name _ _ := (p.errorf name.site ("invalid preprocessing directive #" ++ name.text) [], false)
  text _ p ts :=
    let line := ts.takeWhile fun t => t.kind ≠ .eof && !t.opensDirective
    let env : Env := { macros := p.macros, rescan := fun _ => none, maxExpansionDepth := none, spelled := fun _ _ => "" }
    { toks := ts.drop line.length
      pre := { p with out := p.out ++ ((Preprocessor.expandClosed env 64 0 line {}).map (·.1)).getD line } }

/-- The `#` of a directive at a position. -/
def hashAt (pos : Nat) : Token := { kind := .hash, text := "#", nlBefore := true, span := ⟨some 0, pos, pos + 1⟩ }

def endOfFile : Token := { kind := .eof, text := "" }

/-- `#include "h.h"`, twice. -/
def sampleMain : List Token :=
  [hashAt 1, .mint .ident "include", .mint .stringLit "\"h.h\"",
   hashAt 16, .mint .ident "include", .mint .stringLit "\"h.h\"", endOfFile]

/-- `#ifndef A`, `x`, `#endif`. -/
def wholeHeader : List Token :=
  [hashAt 1, .mint .ident "ifndef", .mint .ident "A", { Token.mint .ident "x" with nlBefore := true },
   hashAt 13, .mint .ident "endif", endOfFile]

/-- `-D A`. -/
def definesA : Table := { entries := [{ name := "A", objLike := true, body := [.mint .intLit "1"] }], nodup := by decide }

def sampleStart : Config Unit := start { macros := definesA, rest := () } 0 sampleMain []

end Vcx.Preprocessor
