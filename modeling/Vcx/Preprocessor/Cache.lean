import Vcx.Lib.Memo
import Vcx.Preprocessor.Guard

/-!
# The shared cache

`Cache`: translation units that read one set of files share what the scanner made of them. A unit
is `Run` again, now in moves so small that each asks the cache at most once, and any unit may move
between any two of them. The scanner is a parameter, and so are the files, which do not change.
-/

namespace Vcx.Preprocessor
set_option autoImplicit false
open Vcx.Lib

/-- `Std`. -/
inductive Std where
  | cxx23 | cxx26
  deriving DecidableEq, Repr

/-- `scanner.Mode`, of `scanMode`: `ScanPP` with or without the other two. -/
structure ScanMode where
  objC : Bool
  comments : Bool
  deriving DecidableEq, Repr

/-- `cacheKey`. -/
structure CacheKey where
  fsys : Nat
  display : String
  rel : String
  mode : ScanMode
  std : Std
  deriving DecidableEq

/-- A file system: two are the same one if their numbers are, and `shareable` says whether the
program can tell. -/
structure FileSystem where
  id : Nat
  shareable : Bool

/-- What reading a file gives: its tokens and diagnostics, or the error. -/
abbrev Scanned := Except String (List Token × List Report)

/-- The files and the scanner. -/
structure World where
  contents : Nat → String → Except String (List UInt8)
  scan : Std → ScanMode → String → List UInt8 → List Token × List Report

/-- A translation unit's configuration. The files come from the world, the rest from `base`. -/
structure TransUnit (ρ : Type) where
  base : Host ρ
  mounts : Nat → FileSystem
  std : Std
  keepComments : Bool

variable {ρ : Type}

/-- `scanMode`. -/
def TransUnit.mode (u : TransUnit ρ) : ScanMode := { objC := u.base.objC, comments := u.keepComments }

/-- `scanRaw`. -/
def TransUnit.scanRaw (w : World) (u : TransUnit ρ) (display : String) (src : List UInt8) : List Token × List Report :=
  let r := w.scan u.std u.mode display src
  (r.1.filter fun t => !(t.kind = .comment && !u.keepComments), r.2)

/-- Reading a file without the cache. -/
def TransUnit.readFile (w : World) (u : TransUnit ρ) (f : Candidate) : Scanned :=
  (w.contents (u.mounts f.mount).id f.rel).map (u.scanRaw w f.display)

/-- The unit without the cache. -/
def TransUnit.host (w : World) (u : TransUnit ρ) : Host ρ :=
  { u.base with
    read := fun f => (u.readFile w f).toOption
    readError := fun f => match u.readFile w f with
      | .error e => e
      | .ok _ => "" }

/-- The key of a file. -/
def TransUnit.key (u : TransUnit ρ) (f : Candidate) : CacheKey :=
  { fsys := (u.mounts f.mount).id, display := f.display, rel := f.rel, mode := u.mode, std := u.std }

/-! ### Moves -/

/-- A unit between two moves: about to take a line, or on its way down a search list. -/
inductive Busy (ρ : Type) where
  | ready (c : Config ρ)
  | searching (i : Inclusion) (candidates : List Candidate) (c : Config ρ)

/-- `open`, where the file is not in the unit's own table: the cache is asked, or the file is read. -/
def TransUnit.opening (w : World) (u : TransUnit ρ) (f : Candidate) (next : Scanned → Busy ρ) :
    Move (Busy ρ) CacheKey Scanned :=
  if (u.mounts f.mount).shareable then .ask (u.key f) (u.readFile w f) next else .go (next (u.readFile w f))

/-- The unit's own table with a file that was just read. -/
def Config.withFile (c : Config ρ) (f : Candidate) (r : List Token × List Report) : Config ρ :=
  { c with files := fun name => if name = f.display then some { toks := r.1, diags := r.2 } else c.files name }

/-- `include`, once the file is found. -/
def foundFile (host : Host ρ) (i : Inclusion) (f : Candidate) (entry : Cached) (c : Config ρ) : Config ρ :=
  includeOpened true host i f entry { c with pre := { c.pre with rest := host.addDep c.pre.rest f.display } }

/-- `importModule`, once the file is found. -/
def foundInterface (host : Host ρ) (i : Interface) (org : Nat) (entry : Cached) (c : Config ρ) : Config ρ :=
  readFileAs host i.unit entry i.site org i.module 0
    { c with pre := { c.pre with rest := host.addDep c.pre.rest i.unit.display } }

/-- One move of a unit. -/
def TransUnit.move (w : World) (u : TransUnit ρ) : Busy ρ → Move (Busy ρ) CacheKey Scanned
  | .ready c =>
    match action (u.host w) c with
    | none => .halt
    | some (.go c) => .go (.ready c)
    | some (.includes i c) =>
      if isAbs i.name then .go (.ready (includeFile true (u.host w) i c))
      else .go (.searching i (u.base.searchList i.org i.name i.angled i.next) c)
    | some (.imports i org c) =>
      match c.files i.unit.display with
      | some entry => .go (.ready (foundInterface (u.host w) i org entry c))
      | none => u.opening w i.unit fun
        | .error e => .ready { c with pre := c.pre.errorf i.site ("module " ++ quoted i.module ++ ": " ++ e) [] }
        | .ok r => .ready (foundInterface (u.host w) i org { toks := r.1, diags := r.2 } (c.withFile i.unit r))
  | .searching i [] c => .go (.ready { c with pre := notFound (u.host w) i c.pre })
  | .searching i (f :: fs) c =>
    match c.files f.display with
    | some entry => .go (.ready (foundFile (u.host w) i f entry c))
    | none => u.opening w f fun
      | .error _ => .searching i fs c
      | .ok r => .ready (foundFile (u.host w) i f { toks := r.1, diags := r.2 } (c.withFile f r))

/-! ### The key determines the answer -/

/-- What belongs in the cache under a key. -/
def World.answer (w : World) (key : CacheKey) : Scanned :=
  (w.contents key.fsys key.rel).map fun src =>
    let r := w.scan key.std key.mode key.display src
    (r.1.filter fun t => !(t.kind = .comment && !key.mode.comments), r.2)

theorem TransUnit.readFile_eq_answer (w : World) (u : TransUnit ρ) (f : Candidate) : u.readFile w f = w.answer (u.key f) :=
  rfl

theorem TransUnit.opening_ask {w : World} {u : TransUnit ρ} {f : Candidate} {next next' : Scanned → Busy ρ} {key : CacheKey}
    {own : Scanned} (asked : u.opening w f next = .ask key own next') : own = w.answer key := by
  unfold TransUnit.opening at asked
  split at asked
  · cases asked
    exact u.readFile_eq_answer w f
  · cases asked

/-- Every unit puts into the cache what belongs there. -/
theorem TransUnit.move_answers (w : World) (u : TransUnit ρ) : Answers w.answer (u.move w) := by
  intro s key own next asked
  unfold TransUnit.move at asked
  split at asked
  · split at asked
    · cases asked
    · cases asked
    · split at asked <;> cases asked
    · split at asked
      · cases asked
      · exact TransUnit.opening_ask asked
  · cases asked
  · split at asked
    · cases asked
    · exact TransUnit.opening_ask asked

/-! ### A unit alone is `Run` -/

section
variable (w : World) (u : TransUnit ρ)

theorem TransUnit.opening_alone (f : Candidate) (next : Scanned → Busy ρ) :
    (u.opening w f next).alone = some (next (u.readFile w f)) := by
  unfold TransUnit.opening
  split <;> rfl

/-- Where a search ends. -/
def TransUnit.searched (i : Inclusion) (candidates : List Candidate) (c : Config ρ) : Config ρ :=
  match openFirst (u.host w) c.files candidates with
  | none => { c with pre := notFound (u.host w) i c.pre }
  | some (f, entry, files) => foundFile (u.host w) i f entry { c with files }

theorem TransUnit.search_alone (i : Inclusion) (candidates : List Candidate) (c : Config ρ) :
    ∃ n, aloneAfter (u.move w) n (.searching i candidates c) = .ready (u.searched w i candidates c) := by
  induction candidates with
  | nil => exact ⟨1, rfl⟩
  | cons f fs ih =>
    cases own : c.files f.display with
    | some entry =>
      refine ⟨1, ?_⟩
      simp only [aloneAfter, TransUnit.move, own, Move.alone, Option.getD_some, TransUnit.searched, openFirst, openFile]
    | none =>
      cases read : u.readFile w f with
      | error e =>
        obtain ⟨n, rest⟩ := ih
        refine ⟨n + 1, ?_⟩
        have missing : (u.host w).read f = none := by simp [TransUnit.host, read, Except.toOption]
        simp only [aloneAfter, TransUnit.move, own, TransUnit.opening_alone, read, Option.getD_some, rest]
        simp only [TransUnit.searched, openFirst, openFile, own, missing, Option.map_none]
      | ok r =>
        refine ⟨1, ?_⟩
        have found : (u.host w).read f = some r := by simp [TransUnit.host, read, Except.toOption]
        simp only [aloneAfter, TransUnit.move, own, TransUnit.opening_alone, read, Option.getD_some]
        simp only [TransUnit.searched, openFirst, openFile, own, found, Option.map_some]
        rfl

theorem TransUnit.includeFile_alone (i : Inclusion) (c : Config ρ) :
    ∃ n, aloneAfter (u.move w) n (if isAbs i.name then .ready (includeFile true (u.host w) i c)
        else .searching i (u.base.searchList i.org i.name i.angled i.next) c) =
      .ready (includeFile true (u.host w) i c) := by
  split
  · exact ⟨0, rfl⟩
  · rename_i rel
    obtain ⟨n, run⟩ := u.search_alone w i (u.base.searchList i.org i.name i.angled i.next) c
    refine ⟨n, run.trans (congrArg Busy.ready ?_)⟩
    unfold includeFile
    rw [if_neg rel]
    have same : (u.host w).searchList = u.base.searchList := rfl
    unfold TransUnit.searched resolve
    rw [same]
    cases openFirst (u.host w) c.files (u.base.searchList i.org i.name i.angled i.next) <;> rfl

theorem TransUnit.importInterface_alone (i : Interface) (org : Nat) {c c' : Config ρ}
    (acted : action (u.host w) c = some (.imports i org c')) :
    aloneAfter (u.move w) (0 + 1) (.ready c) = .ready (importInterface (u.host w) i org c') := by
  simp only [aloneAfter, TransUnit.move, acted, importInterface, openFile]
  cases own : c'.files i.unit.display with
  | some entry => rfl
  | none =>
    simp only [TransUnit.opening_alone]
    cases read : u.readFile w i.unit with
    | error e =>
      have missing : (u.host w).read i.unit = none := by simp [TransUnit.host, read, Except.toOption]
      have error : (u.host w).readError i.unit = e := by simp [TransUnit.host, read]
      simp only [missing, Option.map_none, Option.getD_some, error]
    | ok r =>
      have found : (u.host w).read i.unit = some r := by simp [TransUnit.host, read, Except.toOption]
      simp only [found, Option.map_some, Option.getD_some]
      rfl

theorem TransUnit.step_alone {c c' : Config ρ} (stepped : step true (u.host w) c = some c') :
    ∃ n, aloneAfter (u.move w) (n + 1) (.ready c) = .ready c' := by
  obtain ⟨act, acted, rfl⟩ := Option.map_eq_some_iff.1 stepped
  cases act with
  | go a =>
    refine ⟨0, ?_⟩
    simp only [aloneAfter, TransUnit.move, acted]
    rfl
  | imports i org a => exact ⟨0, u.importInterface_alone w i org acted⟩
  | includes i a =>
    obtain ⟨n, run⟩ := u.includeFile_alone w i a
    refine ⟨n, ?_⟩
    rw [aloneAfter]
    refine Eq.trans (congrArg _ ?_) run
    simp only [TransUnit.move, acted]
    split <;> rfl

theorem TransUnit.move_halt_iff (c : Config ρ) : u.move w (.ready c) = .halt ↔ step true (u.host w) c = none := by
  unfold step
  cases acted : action (u.host w) c with
  | none => simp [TransUnit.move, acted]
  | some act =>
    simp only [TransUnit.move, acted, Option.map_some, reduceCtorEq, iff_false]
    cases act with
    | go => simp
    | includes =>
      simp only
      split <;> simp
    | imports =>
      simp only
      split
      · simp
      · unfold TransUnit.opening
        split <;> simp

theorem TransUnit.haltsIn_of_alone {n : Nat} {c x : Config ρ} (ended : aloneAfter (u.move w) n (.ready c) = .ready x)
    (halts : u.move w (.ready x) = .halt) : HaltsIn (step true (u.host w)) c x := by
  induction n using Nat.strongRecOn generalizing c with
  | ind n ih =>
    cases stepped : step true (u.host w) c with
    | none =>
      rw [aloneAfter_halt ((u.move_halt_iff w c).2 stepped)] at ended
      cases ended
      exact ⟨.refl _, stepped⟩
    | some c' =>
      obtain ⟨k, run⟩ := u.step_alone w stepped
      by_cases le : k + 1 ≤ n
      · rw [← Nat.add_sub_cancel' le, aloneAfter_add, run] at ended
        obtain ⟨reached, stopped⟩ := ih (n - (k + 1)) (by omega) ended
        exact ⟨(Reaches.step stepped).trans reached, stopped⟩
      · have later : aloneAfter (u.move w) (n + (k + 1 - n)) (.ready c) = .ready x := by
          rw [aloneAfter_add, ended, aloneAfter_halt halts]
        rw [show n + (k + 1 - n) = k + 1 by omega, run] at later
        cases later
        exact ⟨.step stepped, (u.move_halt_iff w _).1 halts⟩

theorem TransUnit.alone_of_haltsIn {c x : Config ρ} (halts : HaltsIn (step true (u.host w)) c x) :
    ∃ n, ∀ m, n ≤ m → aloneAfter (u.move w) m (.ready c) = .ready x := by
  obtain ⟨⟨n, run⟩, stop⟩ := halts
  have stays := aloneAfter_halt ((u.move_halt_iff w x).2 stop)
  induction n generalizing c with
  | zero =>
    cases run
    exact ⟨0, fun m _ => stays m⟩
  | succ n ih =>
    obtain ⟨c', stepped, rest⟩ := Option.bind_eq_some_iff.1 run
    obtain ⟨k, first⟩ := u.step_alone w stepped
    obtain ⟨n', later⟩ := ih rest
    refine ⟨k + 1 + n', fun m le => ?_⟩
    rw [show m = k + 1 + (m - (k + 1)) by omega, aloneAfter_add, first]
    exact later _ (by omega)

end

/-! ### Units together -/

section
variable {ι : Type} [DecidableEq ι] {ρ : ι → Type} (w : World) (us : (i : ι) → TransUnit (ρ i))

/-- All units at their start, with an empty cache. -/
def newBuild (starts : (i : ι) → Config (ρ i)) : Crowd (fun i => Busy (ρ i)) CacheKey Scanned :=
  { memo := fun _ => none, states := fun i => .ready (starts i) }

/-- The build after the moves of a schedule, each of which is one unit's. -/
def build (starts : (i : ι) → Config (ρ i)) (schedule : List ι) : Crowd (fun i => Busy (ρ i)) CacheKey Scanned :=
  (newBuild starts).turns (fun i => (us i).move w) schedule

theorem build_states (starts : (i : ι) → Config (ρ i)) (schedule : List ι) (i : ι) :
    (build w us starts schedule).states i = aloneAfter ((us i).move w) (schedule.count i) (.ready (starts i)) :=
  Crowd.turns_states (fun j => (us j).move_answers w) schedule (newBuild starts) nofun i

/-- **The shared cache is transparent.** Whatever the units are and however they take turns, a unit
that has ended is in the state `Run` ends in without a cache, and a unit that `Run` ends for gets
there with enough turns: the same tokens with the same positions, the same macros and the same
diagnostics. -/
theorem build_eq_run (starts : (i : ι) → Config (ρ i)) (i : ι) (x : Config (ρ i)) :
    (∀ schedule, (build w us starts schedule).states i = .ready x → (us i).move w (.ready x) = .halt →
      HaltsIn (step true ((us i).host w)) (starts i) x) ∧
    (HaltsIn (step true ((us i).host w)) (starts i) x →
      ∃ n, ∀ schedule : List ι, n ≤ schedule.count i → (build w us starts schedule).states i = .ready x) := by
  constructor
  · intro schedule ended halts
    rw [build_states] at ended
    exact (us i).haltsIn_of_alone w ended halts
  · intro halts
    obtain ⟨n, run⟩ := (us i).alone_of_haltsIn w halts
    refine ⟨n, fun schedule le => ?_⟩
    rw [build_states]
    exact run _ le

end

end Vcx.Preprocessor
