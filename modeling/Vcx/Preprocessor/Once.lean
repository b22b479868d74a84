import Vcx.Preprocessor.Guard

/-!
# `#pragma once`

A run with a log of the readings it began and of those in which `#pragma once` was executed. The
mark is kept by the reader until the end of the file and recorded then, under the name the file
was opened by and on its first reading only. So it is not seen while the file is still being read,
under another name of the file, by a module import, or for the primary file.
-/

namespace Vcx.Preprocessor
set_option autoImplicit false
open Vcx.Lib

variable {ρ : Type}

/-! ### What a step does to the files -/

/-- The file a step opens, and whether it is for an inclusion, not for a module. -/
def opens (host : Host ρ) (c : Config ρ) : Option (Candidate × Bool) :=
  match action host c with
  | some (.includes i a) => if isAbs i.name then none else (resolve host i a).map fun r => (r.1, true)
  | some (.imports i _ _) => some (i.unit, false)
  | _ => none

/-- The line after a `#` is `pragma once`. -/
def isPragmaOnce : List Token → Bool
  | word :: line => word.spells "pragma" && line.head?.any (·.spells "once")
  | [] => false

/-- The file that executes `#pragma once` in this step: its next line is that, in no skipped group. -/
def saysOnce (c : Config ρ) : Option (Option String) :=
  match c.frames with
  | [] => none
  | f :: _ =>
    match f.preIncludes, nextLine f.reader.toks with
    | [], some (t, line, _) =>
      if t.opensDirective && !f.reader.skipping && isPragmaOnce line then some f.display else none
    | _, _ => none

/-- A frame that goes on in the same file; what it has said stays said. -/
structure Frame.GoesOn (f f' : Frame) : Prop where
  display : f'.display = f.display
  once : f.reader.once = true → f'.reader.once = true

/-- Everything an action may do to the stack and the cache. -/
inductive Acts (c : Config ρ) (act : Action ρ) : Prop
  | within {f f' : Frame} {below : List Frame} (frames : c.frames = f :: below)
    (frames' : act.config.frames = f' :: below) (goesOn : f.GoesOn f') (files : act.config.files = c.files)
  | ends {f : Frame} {below : List Frame} (frames : c.frames = f :: below) (eq : act = .go (finish f below c))

theorem Reader.conditional_once (host : Host ρ) (r : Reader) (d : Directive) (rest : List Token) (at_ : Site) (p : Pre ρ) :
    (r.conditional host d rest at_ p).1.once = r.once := by
  cases d with
  | ifExpr =>
    simp only [Reader.conditional, Reader.beginIf, Reader.noteGuardIf, Reader.pushCond]
    repeat' split
    all_goals rfl
  | ifdef negate =>
    simp only [Reader.conditional, Reader.doIfdef, Reader.pushCond]
    repeat' split
    all_goals rfl
  | elif | elifdef negate =>
    simp only [Reader.conditional, Reader.doElif]
    repeat' split
    all_goals rfl
  | elseArm =>
    simp only [Reader.conditional, Reader.doElse]
    repeat' split
    all_goals rfl
  | endif =>
    simp only [Reader.conditional, Reader.doEndif]
    repeat' split
    all_goals rfl
  | _ => rfl

theorem directive_acts {host : Host ρ} {f : Frame} {below : List Frame} {r : Reader} {hash : Token} {line : List Token}
    {c : Config ρ} (frames : c.frames = f :: below) (once : r.once = f.reader.once) :
    Acts c (directive host f below r hash line c) := by
  have stays : ∀ (r' : Reader) (p : Pre ρ), (r.once = true → r'.once = true) → Acts c (.go (c.withReader f below r' p)) :=
    fun r' p kept => .within frames rfl ⟨rfl, fun said => kept (once.trans said)⟩ rfl
  have included : ∀ (what : String) (next importing : Bool) (r' : Reader), r'.once = r.once →
      Acts c (inclusion host what next importing line.tail hash.site r'.org (c.withReader f below r' c.pre)) := by
    intro what next importing r' same
    have kept : r.once = true → r'.once = true := fun said => same.trans said
    unfold inclusion
    split
    · exact stays r' _ kept
    · split
      · exact stays r' _ kept
      · exact .within frames rfl ⟨rfl, fun said => kept (once.trans said)⟩ rfl
  unfold directive
  simp only
  split
  · exact stays r c.pre id
  · split
    · exact included _ _ _ _ rfl
    · split
      · exact included _ _ _ _ rfl
      · exact stays _ _ id
    · exact stays _ _ fun said => by simp [said]
    · exact stays _ _ fun said => (Reader.conditional_once ..).trans said

theorem action_acts {host : Host ρ} {c : Config ρ} {act : Action ρ} (acted : action host c = some act) :
    Acts c act := by
  unfold action at acted
  split at acted
  · cases acted
  rename_i f below frames
  split at acted
  · cases acted
    exact .within frames rfl ⟨rfl, id⟩ rfl
  split at acted
  · cases acted
    exact .ends frames rfl
  simp only at acted
  split at acted
  · cases acted
    exact directive_acts frames rfl
  split at acted
  · cases acted
    exact .within frames rfl ⟨rfl, id⟩ rfl
  have kept : f.reader.once = true → ∀ b, (f.reader.once || b) = true := by
    intro said b
    rw [said, Bool.true_or]
  split at acted
  · cases acted
    exact .within frames rfl ⟨rfl, fun said => kept said _⟩ rfl
  · cases acted
    exact .within frames rfl ⟨rfl, fun said => kept said _⟩ rfl

/-! ### What a step does to the files -/

/-- What opening a file does to the cache: an entry that is there is found, and else a new one is
made under the file's name. -/
structure Opened (files : String → Option Cached) (name : String) (entry : Cached)
    (files' : String → Option Cached) : Prop where
  here : files' name = some entry
  others : ∀ n, n ≠ name → files' n = files n
  found : ∀ e, files name = some e → e = entry ∧ files' = files
  made : files name = none → entry.done = false ∧ entry.imported = false

theorem openFile_opened {host : Host ρ} {files files' : String → Option Cached} {f : Candidate} {entry : Cached}
    (opened : openFile host files f = some (entry, files')) : Opened files f.display entry files' := by
  unfold openFile at opened
  split at opened
  · rename_i e found
    cases opened
    refine ⟨found, fun _ _ => rfl, fun e' same => ?_, fun missing => ?_⟩
    · rw [found] at same
      exact ⟨(Option.some.inj same).symm, rfl⟩
    · rw [found] at missing
      cases missing
  · rename_i missing
    obtain ⟨r, -, eq⟩ := Option.map_eq_some_iff.1 opened
    cases eq
    refine ⟨if_pos rfl, fun n other => if_neg other, fun e same => ?_, fun _ => ⟨rfl, rfl⟩⟩
    rw [missing] at same
    cases same

theorem openFirst_opened {host : Host ρ} {files files' : String → Option Cached} {f : Candidate} {entry : Cached}
    {candidates : List Candidate} (opened : openFirst host files candidates = some (f, entry, files')) :
    Opened files f.display entry files' := by
  induction candidates with
  | nil => cases opened
  | cons g gs ih =>
    rw [openFirst] at opened
    split at opened
    · rename_i e fs here
      cases opened
      exact openFile_opened here
    · exact ih opened

/-- Everything a step may do to the stack and the cache. -/
inductive Moves (host : Host ρ) (c c' : Config ρ) : Prop
  | within {f f' : Frame} {below : List Frame} (frames : c.frames = f :: below) (frames' : c'.frames = f' :: below)
    (goesOn : f.GoesOn f') (files : c'.files = c.files)
  | ends {f : Frame} {below : List Frame} (frames : c.frames = f :: below) (eq : c' = finish f below c)
  | begins {f f' new : Frame} {below : List Frame} {g : Candidate} {direct : Bool} (frames : c.frames = f :: below)
    (frames' : c'.frames = new :: f' :: below) (goesOn : f.GoesOn f') (display : new.display = some g.display)
    (opened : opens host c = some (g, direct))
    (unread : direct = true → ∀ e, c.files g.display = some e → ¬(e.done = true ∧ e.once = true))
    (others : ∀ name, name ≠ g.display → c'.files name = c.files name)
    (entry : ∃ e, c'.files g.display = some e ∧ (e.done = true → ∃ e', c.files g.display = some e' ∧ e'.done = true))

theorem Opened.known {files files' : String → Option Cached} {name : String} {entry : Cached}
    (opened : Opened files name entry files') (used : entry.done = true ∨ entry.imported = true) :
    files name = some entry ∧ files' = files := by
  cases found : files name with
  | none =>
    obtain ⟨done, imported⟩ := opened.made found
    rw [done, imported] at used
    cases used <;> contradiction
  | some e =>
    obtain ⟨rfl, same⟩ := opened.found e found
    exact ⟨rfl, same⟩

theorem Opened.done {files files' : String → Option Cached} {name : String} {entry : Cached}
    (opened : Opened files name entry files') (done : entry.done = true) : ∃ e, files name = some e ∧ e.done = true :=
  ⟨entry, (opened.known (.inl done)).1, done⟩

theorem includeOpened_moves {optimise : Bool} {host : Host ρ} {i : Inclusion} {g : Candidate} {entry : Cached}
    {c a : Config ρ} {f f' : Frame} {below : List Frame} (frames : c.frames = f :: below) (frames' : a.frames = f' :: below)
    (goesOn : f.GoesOn f') (opened : Opened c.files g.display entry a.files)
    (asked : opens host c = some (g, true)) : Moves host c (includeOpened optimise host i g entry a) := by
  have passes : entry.done = true ∨ entry.imported = true → Moves host c a := fun used =>
    .within frames frames' goesOn (opened.known used).2
  have unread : entry.skips optimise a.pre.macros = false → ∀ e, c.files g.display = some e →
      ¬(e.done = true ∧ e.once = true) := by
    rintro reads e found ⟨done, once⟩
    obtain ⟨rfl, -⟩ := opened.found e found
    simp [Cached.skips, done, once] at reads
  unfold includeOpened
  split
  · rename_i skips
    simp only [Cached.skips, Bool.and_eq_true] at skips
    exact passes (.inl skips.1)
  rename_i reads
  have reads : entry.skips optimise a.pre.macros = false := by simpa using reads
  split
  · rename_i imported
    exact passes (.inr imported)
  split
  · split
    · rename_i done
      exact passes (.inl done)
    · apply Moves.begins frames (by rw [readFileAs, frames']) goesOn rfl asked (fun _ => unread reads)
      · intro name other
        simp only [readFileAs, if_neg other]
        exact opened.others name other
      · refine ⟨{ entry with once := true, imported := true }, by simp [readFileAs], ?_⟩
        exact opened.done
  · apply Moves.begins frames (by rw [readFileAs, frames']) goesOn rfl asked (fun _ => unread reads)
    · exact opened.others
    · exact ⟨entry, opened.here, opened.done⟩

theorem step_moves {optimise : Bool} {host : Host ρ} {c c' : Config ρ} (stepped : step optimise host c = some c') :
    Moves host c c' := by
  obtain ⟨act, acted, rfl⟩ := Option.map_eq_some_iff.1 stepped
  cases action_acts acted with
  | ends frames eq =>
    subst eq
    exact .ends frames rfl
  | @within f f' below frames frames' goesOn files =>
    cases act with
    | go a => exact .within frames frames' goesOn files
    | imports i org a =>
      simp only [Action.config] at frames' files
      simp only [perform, importInterface]
      split
      · exact .within frames frames' goesOn files
      · rename_i entry files' opened
        have made := openFile_opened opened
        rw [files] at made
        have asked : opens host c = some (i.unit, false) := by
          simp only [opens, acted]
        apply Moves.begins frames (by rw [readFileAs, frames']) goesOn rfl asked
        · intro direct
          cases direct
        · exact made.others
        · exact ⟨entry, made.here, made.done⟩
    | includes i a =>
      simp only [Action.config] at frames' files
      simp only [perform, includeFile]
      split
      · exact .within frames frames' goesOn files
      rename_i rel
      split
      · exact .within frames frames' goesOn files
      rename_i g entry a' resolved
      have asked : opens host c = some (g, true) := by
        simp only [opens, acted, rel, resolved]
        rfl
      obtain ⟨⟨g', e, files'⟩, opened, eq⟩ := Option.map_eq_some_iff.1 resolved
      cases eq
      have made := openFirst_opened opened
      rw [files] at made
      exact includeOpened_moves frames frames' goesOn made asked

/-! ### The directive -/

/-- `doPragma`: `once` marks the reader, with a warning outside of system headers; the others are the host's. -/
def doPragma (host : Host ρ) (org : Nat) (p : Pre ρ) (word : Token) (line : List Token) (at_ : Site) : Pre ρ × Bool :=
  if line.head?.any (·.spells "once") then
    (if at_.origin.any (host.system p.rest) then p
      else p.report
        { severity := .warn, site := at_, msg := "#pragma once is not ISO C++", name := "pragma-once",
          notes := [(at_, "vcx honours it; the portable spelling is an #ifndef include guard, which vcx detects on its own")] },
      true)
  else ((host.directive org p word line at_).1, false)

/-- A host whose `#pragma` is `doPragma`; no other directive marks the reader. -/
def pragmaHost (base : Host ρ) : Host ρ :=
  { base with
    directive := fun org p word line at_ =>
      if word.spells "pragma" then doPragma base org p word line at_
      else ((base.directive org p word line at_).1, false) }

theorem of_pragma {word : Token} {line : List Token} (spells : word.spells "pragma" = true) :
    Directive.of (word :: line) = .other := by
  simp only [Token.spells, Bool.and_eq_true, decide_eq_true_eq] at spells
  simp [Directive.of, spells.1, spells.2]

/-- `#pragma once` marks the reader of the file that executes it, and opens no file. -/
theorem acts_of_saysOnce {base : Host ρ} {c : Config ρ} {act : Action ρ} {name : Option String}
    (executes : saysOnce c = some name) (acted : action (pragmaHost base) c = some act) :
    ∃ f below r p, c.frames = f :: below ∧ f.display = name ∧ r.once = true ∧ act = .go (c.withReader f below r p) := by
  unfold saysOnce at executes
  split at executes
  · cases executes
  rename_i f below frames
  split at executes
  · rename_i t line after noMore next
    obtain ⟨here, named⟩ := Option.ite_none_right_eq_some.1 executes
    cases line with
    | nil => simp [isPragmaOnce] at here
    | cons word line =>
      simp only [isPragmaOnce, Bool.and_eq_true, Bool.not_eq_true'] at here
      obtain ⟨⟨opens, live⟩, pragma, once⟩ := here
      have live' : Reader.skipping { f.reader with toks := after } = false := live
      simp only [action, frames, noMore, next, opens, if_true, Option.some.injEq] at acted
      simp only [directive, of_pragma pragma, live', Bool.false_and, Bool.or_false, reduceCtorEq, decide_false,
        Bool.false_eq_true, if_false] at acted
      refine ⟨f, below, _, _, frames, Option.some.inj named, ?_, acted.symm⟩
      simp [pragmaHost, doPragma, pragma, once]
  · cases executes

/-! ### The log -/

/-- A run so far: its state, the names of the readings it began, the last first, and for each `#pragma once`
that was executed the name of the reading it was in. The name of the primary file's is none. -/
structure Log (ρ : Type) where
  config : Config ρ
  begun : List (Option String)
  said : List (Option String)

/-- The reading that a step began. -/
def beginning (c c' : Config ρ) : List (Option String) :=
  if c.frames.length < c'.frames.length then c'.frames.head?.toList.map (·.display) else []

def Log.start (c : Config ρ) : Log ρ := { config := c, begun := [none], said := [] }

def Log.step (host : Host ρ) (l : Log ρ) : Option (Log ρ) :=
  (Preprocessor.step true host l.config).map fun c =>
    { config := c, begun := beginning l.config c ++ l.begun, said := (saysOnce l.config).toList ++ l.said }

section
variable {ι : Type} [DecidableEq ι] (file : Option String → ι)

/-- How often the reading of a file was begun. -/
def Log.readings (l : Log ρ) (x : ι) : Nat := l.begun.countP fun name => file name = x

/-- What the mark is recorded for: a file that has executed `#pragma once` is asked for again after that
reading has ended, by the same name and not as a module, and it executes it while it is read for the first time. -/
structure OnceSeen (host : Host ρ) (l : Log ρ) : Prop where
  asked : ∀ g direct, opens host l.config = some (g, direct) → ∀ name ∈ l.said, file name = file (some g.display) →
    direct = true ∧ name = some g.display ∧ ∀ f ∈ l.config.frames, f.display ≠ name
  first : ∀ name, saysOnce l.config = some name → l.readings file (file name) = 1

/-- The runs from a state whose steps all meet a condition. -/
inductive Runs (host : Host ρ) (P : Log ρ → Prop) (c : Config ρ) : Log ρ → Prop
  | start : Runs host P c (.start c)
  | step {l l' : Log ρ} (run : Runs host P c l) (ok : P l) (stepped : l.step host = some l') : Runs host P c l'

/-! ### The invariant -/

/-- Where the mark of a file is while the run goes on: with the reader, or in the cache. -/
def Held (c : Config ρ) (name : Option String) : Prop :=
  (∃ f ∈ c.frames, f.display = name ∧ f.reader.once = true) ∨
    (∃ d e, name = some d ∧ c.files d = some e ∧ e.done = true ∧ e.once = true) ∨ c.frames = []

structure Kept (l : Log ρ) : Prop where
  once : ∀ name ∈ l.said, l.readings file (file name) = 1
  held : ∀ name ∈ l.said, Held l.config name
  cached : ∀ f ∈ l.config.frames, ∀ d, f.display = some d → (l.config.files d).isSome = true
  count : ∀ d, l.config.frames.countP (·.display = some d) + (if (l.config.files d).any (·.done) then 1 else 0) ≤
    l.begun.countP (· = some d)
  primary : ∀ above f below, l.config.frames = above ++ f :: below → f.display = none → below = []

theorem kept_start (p : Pre ρ) (org : Nat) (toks : List Token) (preIncludes : List String) :
    Kept file (Log.start (start p org toks preIncludes)) where
  once := nofun
  held := nofun
  cached := by simp [Log.start, start]
  count := by simp [Log.start, start]
  primary := by
    intro above f below frames _
    cases above with
    | nil => exact (List.cons.inj frames).2.symm
    | cons g gs => simp [Log.start, start] at frames

variable {file} {host : Host ρ} {l : Log ρ} {c' : Config ρ}

theorem beginning_within {f f' : Frame} {below : List Frame} (frames : l.config.frames = f :: below)
    (frames' : c'.frames = f' :: below) : beginning l.config c' = [] := by
  simp [beginning, frames, frames']

/-- A reader that goes on keeps the mark, and so does the cache where it does not change. -/
theorem Held.goesOn {c : Config ρ} {name : Option String} (held : Held c name) {f f' : Frame} {below new : List Frame}
    (frames : c.frames = f :: below) (goesOn : f.GoesOn f') (frames' : c'.frames = new ++ f' :: below)
    (files : ∀ d, name = some d → c'.files d = c.files d) : Held c' name := by
  obtain ⟨g, mem, named, once⟩ | ⟨d, e, named, entry, done, once⟩ | ended := held
  · rw [frames] at mem
    obtain rfl | mem := List.mem_cons.1 mem
    · exact .inl ⟨f', by simp [frames'], goesOn.display.trans named, goesOn.once once⟩
    · exact .inl ⟨g, by simp [frames', mem], named, once⟩
  · exact .inr (.inl ⟨d, e, named, (files d named).trans entry, done, once⟩)
  · rw [frames] at ended
    cases ended

/-- The log after a step that goes on in the same file. -/
theorem Kept.within (kept : Kept file l) (seen : OnceSeen file host l) {f f' : Frame} {below : List Frame}
    (frames : l.config.frames = f :: below) (frames' : c'.frames = f' :: below) (goesOn : f.GoesOn f')
    (marks : ∀ name, saysOnce l.config = some name → f.display = name ∧ f'.reader.once = true)
    (files : c'.files = l.config.files) :
    Kept file { config := c', begun := beginning l.config c' ++ l.begun, said := (saysOnce l.config).toList ++ l.said } := by
  have none_ := beginning_within frames frames'
  refine ⟨?_, ?_, ?_, ?_, ?_⟩
  · intro name mem
    simp only [Log.readings, none_, List.nil_append]
    rcases List.mem_append.1 mem with now | before
    · exact seen.first name (Option.mem_toList.1 now)
    · exact kept.once name before
  · intro name mem
    rcases List.mem_append.1 mem with now | before
    · obtain ⟨named, once⟩ := marks name (Option.mem_toList.1 now)
      exact .inl ⟨f', by simp [frames'], goesOn.display.trans named, once⟩
    · have frames' : c'.frames = [] ++ f' :: below := frames'
      exact (kept.held name before).goesOn frames goesOn frames' fun d _ => by rw [files]
  · intro g mem d named
    simp only [frames'] at mem
    simp only [files]
    obtain rfl | mem := List.mem_cons.1 mem
    · exact kept.cached f (by simp [frames]) d (goesOn.display.symm.trans named)
    · exact kept.cached g (by simp [frames, mem]) d named
  · intro d
    have count := kept.count d
    simp only [none_, List.nil_append, frames', files, List.countP_cons, goesOn.display]
    simpa only [frames, List.countP_cons] using count
  · intro above g rest eq named
    simp only [frames'] at eq
    cases above with
    | nil =>
      obtain ⟨rfl, rfl⟩ := List.cons.inj eq
      exact kept.primary [] f below frames (goesOn.display.symm.trans named)
    | cons h above =>
      obtain ⟨rfl, rfl⟩ := List.cons.inj eq
      exact kept.primary (f :: above) g rest frames named

theorem count_le_readings (l : Log ρ) (d : String) : l.begun.countP (· = some d) ≤ l.readings file (file (some d)) := by
  apply List.countP_mono_left
  intro name _ same
  rw [of_decide_eq_true same]
  exact decide_eq_true rfl

/-- At the end of the only reading of a file the mark goes from the reader to the cache. -/
theorem Kept.recorded (kept : Kept file l) {f : Frame} {below : List Frame} (frames : l.config.frames = f :: below)
    {d : String} (said : some d ∈ l.said) (named : f.display = some d) (once : f.reader.once = true) :
    ∃ e, some d = some d ∧ (finish f below l.config).files d = some e ∧ e.done = true ∧ e.once = true := by
  obtain ⟨e, entry⟩ := Option.isSome_iff_exists.1 (kept.cached f (by simp [frames]) d named)
  have fresh : e.done = false := by
    by_contra done
    have done : e.done = true := by simpa using done
    have count := kept.count d
    have single := kept.once _ said
    have le := @count_le_readings ρ ι _ file l d
    rw [frames, List.countP_cons, entry] at count
    simp only [named, decide_true, if_true, Option.any_some, done] at count
    omega
  refine ⟨{ e with done := true, guard := f.reader.guardFound, once := e.once || f.reader.once }, rfl, ?_, rfl, ?_⟩
  · simp only [finish, entry, named, fresh, decide_true, Bool.not_false, Bool.and_self, if_true]
  · simp [once]

theorem Kept.ends (kept : Kept file l) {f : Frame} {below : List Frame} (frames : l.config.frames = f :: below)
    (silent : saysOnce l.config = none) :
    Kept file { config := finish f below l.config, begun := beginning l.config (finish f below l.config) ++ l.begun,
                said := (saysOnce l.config).toList ++ l.said } := by
  have none_ : beginning l.config (finish f below l.config) = [] := by
    simp [beginning, finish, frames]
  rw [silent, Option.toList_none, List.nil_append]
  refine ⟨?_, ?_, ?_, ?_, ?_⟩
  · intro name mem
    simp only [Log.readings, none_, List.nil_append]
    exact kept.once name mem
  · intro name said
    obtain ⟨g, inside, named, once⟩ | ⟨d, e, named, entry, done, once⟩ | ended := kept.held name said
    · rw [frames] at inside
      obtain rfl | inside := List.mem_cons.1 inside
      · cases name with
        | none => exact .inr (.inr (kept.primary [] g below frames named))
        | some d => exact .inr (.inl ⟨d, kept.recorded frames said named once⟩)
      · exact .inl ⟨g, inside, named, once⟩
    · exact .inr (.inl ⟨d, e, named, by simp [finish, entry, done], done, once⟩)
    · rw [frames] at ended
      cases ended
  · intro g mem d named
    have before := kept.cached g (by rw [frames]; exact List.mem_cons_of_mem _ mem) d named
    obtain ⟨e, entry⟩ := Option.isSome_iff_exists.1 before
    simp only [finish, entry]
    split <;> rfl
  · intro d
    have count := kept.count d
    simp only [none_, List.nil_append]
    rw [frames, List.countP_cons] at count
    by_cases named : f.display = some d
    · have most : (if ((finish f below l.config).files d).any (·.done) then 1 else 0) ≤ 1 := by split <;> omega
      simp only [named, decide_true, if_true] at count
      change below.countP _ + _ ≤ _
      omega
    · have same : ((finish f below l.config).files d).any (·.done) = (l.config.files d).any (·.done) := by
        cases entry : l.config.files d <;> simp [finish, entry, named]
      rw [same]
      simp only [named, decide_false, Bool.false_eq_true, if_false] at count
      exact count
  · intro above g rest eq named
    exact kept.primary (f :: above) g rest (by rw [frames]; exact congrArg (f :: ·) eq) named

theorem Kept.begins (kept : Kept file l) (seen : OnceSeen file host l) {f f' new : Frame} {below : List Frame}
    {g : Candidate} {direct : Bool} (frames : l.config.frames = f :: below) (frames' : c'.frames = new :: f' :: below)
    (goesOn : f.GoesOn f') (silent : saysOnce l.config = none) (display : new.display = some g.display)
    (opened : opens host l.config = some (g, direct))
    (unread : direct = true → ∀ e, l.config.files g.display = some e → ¬(e.done = true ∧ e.once = true))
    (others : ∀ name, name ≠ g.display → c'.files name = l.config.files name)
    (entry : ∃ e, c'.files g.display = some e ∧
      (e.done = true → ∃ e', l.config.files g.display = some e' ∧ e'.done = true)) :
    Kept file { config := c', begun := beginning l.config c' ++ l.begun, said := (saysOnce l.config).toList ++ l.said } := by
  have one : beginning l.config c' = [some g.display] := by
    simp [beginning, frames, frames', display]
  -- The file that is begun has not executed `#pragma once`: its mark would be in the cache, and be seen.
  have other : ∀ name ∈ l.said, file name ≠ file (some g.display) := by
    intro name said same
    obtain ⟨isDirect, named, ended⟩ := seen.asked g direct opened name said same
    obtain ⟨h, mem, hNamed, -⟩ | ⟨d, e, dNamed, found, done, once⟩ | empty := kept.held name said
    · exact ended h mem hNamed
    · rw [named] at dNamed
      cases dNamed
      exact unread isDirect e found ⟨done, once⟩
    · rw [frames] at empty
      cases empty
  rw [silent, Option.toList_none, List.nil_append]
  refine ⟨?_, ?_, ?_, ?_, ?_⟩
  · intro name mem
    simp only [Log.readings, one, List.cons_append, List.nil_append, List.countP_cons]
    rw [if_neg (by simpa using Ne.symm (other name mem))]
    exact kept.once name mem
  · intro name mem
    have frames' : c'.frames = [new] ++ f' :: below := frames'
    refine (kept.held name mem).goesOn frames goesOn frames' fun d named => others d ?_
    rintro rfl
    exact other name mem (by rw [named])
  · have kept' : ∀ d, (l.config.files d).isSome = true → (c'.files d).isSome = true := by
      intro d some_
      by_cases here : d = g.display
      · obtain ⟨e, found, -⟩ := entry
        rw [here, found]
        rfl
      · rw [others d here]
        exact some_
    intro h mem d named
    simp only [frames'] at mem
    obtain rfl | mem := List.mem_cons.1 mem
    · obtain ⟨e, found, -⟩ := entry
      rw [display] at named
      cases named
      simp [found]
    obtain rfl | mem := List.mem_cons.1 mem
    · exact kept' d (kept.cached f (by simp [frames]) d (goesOn.display.symm.trans named))
    · exact kept' d (kept.cached h (by simp [frames, mem]) d named)
  · intro d
    have count := kept.count d
    simp only [one, List.cons_append, List.nil_append, frames', List.countP_cons, display, goesOn.display]
    rw [frames, List.countP_cons] at count
    by_cases here : g.display = d
    · subst here
      have done : (if (c'.files g.display).any (·.done) then 1 else 0) ≤
          if (l.config.files g.display).any (·.done) then 1 else 0 := by
        obtain ⟨e, found, before⟩ := entry
        by_cases ended : e.done = true
        · obtain ⟨e', found', ended'⟩ := before ended
          simp [found', ended']
          split <;> omega
        · simp [found, ended]
      simp only [decide_true, if_true]
      omega
    · rw [others d (Ne.symm here)]
      simp only [Option.some.injEq, here, decide_false, Bool.false_eq_true, if_false]
      omega
  · intro above h rest eq named
    simp only [frames'] at eq
    cases above with
    | nil =>
      obtain ⟨rfl, -⟩ := List.cons.inj eq
      rw [display] at named
      cases named
    | cons k above =>
      have eq := (List.cons.inj eq).2
      cases above with
      | nil =>
        obtain ⟨rfl, rfl⟩ := List.cons.inj eq
        exact kept.primary [] f below frames (goesOn.display.symm.trans named)
      | cons k' above =>
        obtain ⟨rfl, rfl⟩ := List.cons.inj eq
        exact kept.primary (f :: above) h rest frames named

theorem Kept.step {base : Host ρ} {l' : Log ρ} (kept : Kept file l) (seen : OnceSeen file (pragmaHost base) l)
    (stepped : l.step (pragmaHost base) = some l') : Kept file l' := by
  obtain ⟨c, moved, rfl⟩ := Option.map_eq_some_iff.1 stepped
  cases executes : saysOnce l.config with
  | some name =>
    obtain ⟨act, acted, rfl⟩ := Option.map_eq_some_iff.1 moved
    obtain ⟨f, below, r, p, frames, named, once, rfl⟩ := acts_of_saysOnce executes acted
    rw [← executes]
    refine kept.within seen frames rfl ⟨rfl, fun _ => once⟩ (fun name' same => ?_) rfl
    rw [executes] at same
    exact ⟨named.trans (Option.some.inj same), once⟩
  | none =>
    rw [← executes]
    cases step_moves moved with
    | within frames frames' goesOn files =>
      exact kept.within seen frames frames' goesOn (fun name same => by rw [executes] at same; cases same) files
    | ends frames eq =>
      subst eq
      exact kept.ends frames executes
    | begins frames frames' goesOn display opened unread others entry =>
      exact kept.begins seen frames frames' goesOn executes display opened unread others entry

/-- **A file that executes `#pragma once` is read once** in every run in which it does so on its first
reading, and is asked for again only after that, by the same name and not as a module. -/
theorem readings_le_one_of_said (base : Host ρ) (p : Pre ρ) (org : Nat) (toks : List Token) (preIncludes : List String)
    {l : Log ρ} (run : Runs (pragmaHost base) (OnceSeen file (pragmaHost base)) (start p org toks preIncludes) l) :
    ∀ name ∈ l.said, l.readings file (file name) ≤ 1 := by
  have kept : Kept file l := by
    induction run with
    | start => exact kept_start file p org toks preIncludes
    | step _ seen stepped ih => exact ih.step seen stepped
  intro name said
  exact Nat.le_of_eq (kept.once name said)

end

/-! ### Two headers -/

/-- `sampleHost` with `#pragma`, and with a limit of three files. -/
def onceHost (header : List Token) : Host Unit := pragmaHost { sampleHost header with maxIncludeDepth := 3 }

/-- `#pragma once`, `x`. -/
def markedHeader : List Token :=
  [hashAt 1, .mint .ident "pragma", .mint .ident "once",
   { Token.mint .ident "x" with nlBefore := true }, endOfFile]

/-- `#pragma once`, `#include "h.h"`, `x`. -/
def cyclicHeader : List Token :=
  [hashAt 1, .mint .ident "pragma", .mint .ident "once",
   hashAt 14, .mint .ident "include", .mint .stringLit "\"h.h\"",
   { Token.mint .ident "x" with nlBefore := true }, endOfFile]

/-- The log after `n` steps. -/
def logAfter (header : List Token) (n : Nat) : Option (Log Unit) :=
  steps (Log.step (onceHost header)) n (.start sampleStart)

/-- A header that includes itself is read again while its mark is with the reader. -/
theorem cyclicHeader_read_twice : ∃ l, Reaches (Log.step (onceHost cyclicHeader)) (.start sampleStart) l ∧
    some "h.h" ∈ l.said ∧ l.readings id (some "h.h") = 2 ∧ l.config.pre.out.map (·.text) = ["x", "x"] := by
  have run : (logAfter cyclicHeader 9).any (fun l => decide (some "h.h" ∈ l.said) &&
      decide (l.readings id (some "h.h") = 2) && decide (l.config.pre.out.map (·.text) = ["x", "x"])) = true := by
    decide
  obtain ⟨l, reached, shown⟩ := (Option.any_eq_true _ _).1 run
  simp only [Bool.and_eq_true, decide_eq_true_eq] at shown
  exact ⟨l, ⟨9, reached⟩, shown.1.1, shown.1.2, shown.2⟩

/-- `OnceSeen`, computed, where every name is a file of its own. -/
def onceSeen (host : Host ρ) (l : Log ρ) : Bool :=
  (opens host l.config).all (fun o => l.said.all fun name => decide (name ≠ some o.1.display) ||
    o.2 && l.config.frames.all fun f => decide (f.display ≠ name)) &&
  (saysOnce l.config).all fun name => l.readings id name = 1

theorem onceSeen_sound {host : Host ρ} {l : Log ρ} (seen : onceSeen host l = true) : OnceSeen id host l := by
  rw [onceSeen, Bool.and_eq_true] at seen
  refine ⟨fun g direct asked name said same => ?_, fun name executes => ?_⟩
  · simp only [asked, Option.all_some, List.all_eq_true] at seen
    have here := seen.1 name said
    simp only [id_eq] at same
    subst same
    simp only [ne_eq, not_true_eq_false, decide_false, Bool.false_or, Bool.and_eq_true, List.all_eq_true,
      decide_eq_true_eq] at here
    exact ⟨here.1, rfl, here.2⟩
  · simpa [executes] using seen.2

theorem Runs.of_steps {host : Host ρ} {P : Log ρ → Prop} {c : Config ρ} {n : Nat} {l : Log ρ}
    (run : steps (Log.step host) n (.start c) = some l)
    (ok : ∀ k, k < n → ∀ l', steps (Log.step host) k (.start c) = some l' → P l') : Runs host P c l := by
  induction n generalizing l with
  | zero =>
    cases run
    exact .start
  | succ n ih =>
    rw [steps_succ] at run
    obtain ⟨l', before, last⟩ := Option.bind_eq_some_iff.1 run
    exact .step (ih before fun k less => ok k (Nat.lt_succ_of_lt less)) (ok n (Nat.lt_succ_self n) l' before) last

/-- Of two inclusions of a header with the mark, the second reads nothing. -/
theorem markedHeader_read_once : ∃ l, Runs (onceHost markedHeader) (OnceSeen id (onceHost markedHeader)) sampleStart l ∧
    some "h.h" ∈ l.said ∧ l.readings id (some "h.h") ≤ 1 ∧ l.config.pre.out.map (·.text) = ["x"] := by
  have reached : (logAfter markedHeader 6).any (fun l => decide (some "h.h" ∈ l.said) &&
      decide (l.config.pre.out.map (·.text) = ["x"])) = true := by
    decide
  obtain ⟨l, run, shown⟩ := (Option.any_eq_true _ _).1 reached
  simp only [Bool.and_eq_true, decide_eq_true_eq] at shown
  have each : ∀ k, k < 6 → (logAfter markedHeader k).all (onceSeen (onceHost markedHeader)) = true := by
    decide
  have runs : Runs (onceHost markedHeader) (OnceSeen id (onceHost markedHeader)) sampleStart l := by
    refine .of_steps run fun k less l' here => onceSeen_sound ?_
    have := each k less
    rwa [logAfter, here] at this
  exact ⟨l, runs, shown.1, readings_le_one_of_said _ _ _ _ _ runs _ shown.1, shown.2⟩

end Vcx.Preprocessor
