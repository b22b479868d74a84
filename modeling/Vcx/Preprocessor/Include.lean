import Vcx.Lib.Shortcut
import Vcx.Preprocessor.Reader

/-!
# Inclusion

`Run` as a machine that takes one line at a time: the readers of the files being read, the cache
of the files opened, and the rest of the state. With `optimise` it is the code's; without, the
recorded guards are ignored.
-/

namespace Vcx.Preprocessor
set_option autoImplicit false
open Vcx.Lib

/-- `cached`. -/
structure Cached where
  toks : List Token
  diags : List Report
  guard : String := ""
  done : Bool := false
  once : Bool := false
  imported : Bool := false

/-- A file being read. `display` is its key in the cache, none for the primary file, which has
the pre-includes before its first line. -/
structure Frame where
  reader : Reader
  display : Option String := none
  preIncludes : List String := []

/-- A state of the run, the innermost file first. -/
structure Config (ρ : Type) where
  frames : List Frame
  files : String → Option Cached
  pre : Pre ρ

/-- An `#include` with its header name read: who asks, and which directive it was. -/
structure Inclusion where
  org : Nat
  name : String
  angled : Bool
  site : Site
  next : Bool
  importing : Bool
  /-- The number of pre-includes to come, one more than the last has; zero for a directive. -/
  nth : Nat

/-- What a line comes to, before any file is opened. -/
inductive Action (ρ : Type) where
  | go (c : Config ρ)
  | includes (i : Inclusion) (c : Config ρ)
  | imports (i : Interface) (org : Nat) (c : Config ρ)

variable {ρ : Type}

/-- The state an action leaves, before a file is opened. -/
def Action.config : Action ρ → Config ρ
  | .go c => c
  | .includes _ c => c
  | .imports _ _ c => c

/-! ### Lines -/

/-- A token on the line of the one before. -/
def Token.continues (t : Token) : Bool := t.kind ≠ .eof && !t.nlBefore

/-- The next token, the rest of its line, and what follows. -/
def nextLine (toks : List Token) : Option (Token × List Token × List Token) :=
  match toks.dropWhile (·.kind = .eof) with
  | [] => none
  | t :: ts => some (t, ts.takeWhile Token.continues, ts.dropWhile Token.continues)

/-- A `#` that opens a line. -/
def Token.opensDirective (t : Token) : Bool := t.kind = .hash && t.nlBefore

/-! ### Opening files -/

/-- `open`: the cache entry, and the cache with it. -/
def openFile (host : Host ρ) (files : String → Option Cached) (f : Candidate) :
    Option (Cached × (String → Option Cached)) :=
  match files f.display with
  | some entry => some (entry, files)
  | none => (host.read f).map fun r =>
      let entry : Cached := { toks := r.1, diags := r.2 }
      (entry, fun name => if name = f.display then some entry else files name)

/-- The first of the candidates that opens. -/
def openFirst (host : Host ρ) (files : String → Option Cached) :
    List Candidate → Option (Candidate × Cached × (String → Option Cached))
  | [] => none
  | f :: fs =>
    match openFile host files f with
    | some (entry, files) => some (f, entry, files)
    | none => openFirst host files fs

/-- A token of a file, in the position space of one reading of it. -/
def Token.within (org : Nat) (t : Token) : Token := { t with span := { t.span with origin := some org } }

/-- `readFileAs`. -/
def readFileAs (host : Host ρ) (f : Candidate) (entry : Cached) (at_ : Site) (parent : Nat) (module : String)
    (nth : Nat) (c : Config ρ) : Config ρ :=
  let org := host.origin f parent at_ module nth
  let located (r : Report) : Report := { r with site := { r.site with origin := some org } }
  { c with
    frames := { reader := { org, toks := entry.toks.map (Token.within org) }, display := some f.display } :: c.frames
    pre := if entry.done then c.pre else entry.diags.foldl (fun p r => p.fromScan host (located r)) c.pre }

/-- The test of the multiple-include optimization. -/
def Cached.skips (optimise : Bool) (entry : Cached) (macros : Table) : Bool :=
  entry.done && (entry.once || optimise && entry.guard ≠ "" && macros.defined entry.guard)

/-- `include`, once its file is open. -/
def includeOpened (optimise : Bool) (host : Host ρ) (i : Inclusion) (f : Candidate) (entry : Cached) (c : Config ρ) :
    Config ρ :=
  if entry.skips optimise c.pre.macros then c
  else if entry.imported then c
  else if i.importing then
    if entry.done then c
    else
      let marked := { entry with once := true, imported := true }
      readFileAs host f marked i.site i.org "" i.nth
        { c with files := fun name => if name = f.display then some marked else c.files name }
  else readFileAs host f entry i.site i.org "" i.nth c

/-- The errors of `include`. -/
def notFound (host : Host ρ) (i : Inclusion) (p : Pre ρ) : Pre ρ :=
  if i.next then p.errorf i.site (quoted i.name ++ " file not found after this directory") []
  else p.errorf i.site (quoted i.name ++ " file not found")
    [(i.site, if host.search = 0 then "no include directories are configured; use -I"
      else "searched " ++ toString host.search ++ " directories; run `v++ env` to see the resolved list")]

/-- The file an inclusion names, opened and noted as a dependency. -/
def resolve (host : Host ρ) (i : Inclusion) (c : Config ρ) : Option (Candidate × Cached × Config ρ) :=
  (openFirst host c.files (host.searchList i.org i.name i.angled i.next)).map fun r =>
    (r.1, r.2.1, { c with files := r.2.2, pre := { c.pre with rest := host.addDep c.pre.rest r.1.display } })

/-- `IsAbs`, of the package `path`. -/
def isAbs (name : String) : Bool := name.toList.head? = some '/'

/-- `include`. -/
def includeFile (optimise : Bool) (host : Host ρ) (i : Inclusion) (c : Config ρ) : Config ρ :=
  if isAbs i.name then
    { c with
      pre := c.pre.errorf i.site ("absolute path in #include: " ++ quoted i.name)
        [(i.site, "use -I and a relative path so the build is reproducible")] }
  else
    match resolve host i c with
    | none => { c with pre := notFound host i c.pre }
    | some (f, entry, c) => includeOpened optimise host i f entry c

/-- `importModule`, once the module is known and new. -/
def importInterface (host : Host ρ) (i : Interface) (org : Nat) (c : Config ρ) : Config ρ :=
  match openFile host c.files i.unit with
  | none => { c with pre := c.pre.errorf i.site ("module " ++ quoted i.module ++ ": " ++ host.readError i.unit) [] }
  | some (entry, files) =>
    readFileAs host i.unit entry i.site org i.module 0
      { c with files, pre := { c.pre with rest := host.addDep c.pre.rest i.unit.display } }

/-! ### Steps -/

/-- The state with the reader on top replaced. -/
def Config.withReader (c : Config ρ) (f : Frame) (below : List Frame) (r : Reader) (p : Pre ρ) : Config ρ :=
  { c with frames := { f with reader := r } :: below, pre := p }

/-- `doInclude`, `doIncludeNext` and `doImport`, up to `include`. -/
def inclusion (host : Host ρ) (what : String) (next importing : Bool) (rest : List Token) (at_ : Site) (org : Nat)
    (c : Config ρ) : Action ρ :=
  match host.headerName c.pre rest at_ with
  | (none, p) => .go { c with pre := p }
  | (some (name, angled, n), p) =>
    let p := expectEnd host p (rest.drop n) what
    if host.maxIncludeDepth ≤ c.frames.length then
      .go { c with
        pre := p.errorf at_ (what ++ " nested too deeply (limit " ++ toString host.maxIncludeDepth ++ ")")
          (if what = "#include" then [(at_, "a header that includes itself needs an include guard")] else []) }
    else .includes { org, name, angled, site := at_, next, importing, nth := 0 } { c with pre := p }

/-- `directive`, on a line of the file on top. -/
def directive (host : Host ρ) (f : Frame) (below : List Frame) (r : Reader) (hash : Token) (line : List Token)
    (c : Config ρ) : Action ρ :=
  let d := Directive.of line
  if d = .null || r.skipping && !d.isConditional then .go (c.withReader f below r c.pre)
  else
    let r := { r with miValid := r.miValid && d.opens }
    let at_ := hash.site
    match d with
    | .inclusion next =>
      inclusion host (if next then "#include_next" else "#include") next false line.tail at_ r.org
        (c.withReader f below r c.pre)
    | .importFile =>
      if host.objC then inclusion host "#import" false true line.tail at_ r.org (c.withReader f below r c.pre)
      else .go (c.withReader f below r (c.pre.errorf at_ "#import is a GNU directive; vcx preprocesses ISO C++"
        [(at_, "an MSVC type-library directive; no ISO equivalent")]))
    | .other =>
      let q := host.directive r.org c.pre (line.headD hash) line.tail at_
      .go (c.withReader f below { r with once := r.once || q.2 } q.1)
    | d =>
      let q := r.conditional host d line.tail at_ c.pre
      .go (c.withReader f below q.1 q.2)

/-- The end of a file: what was learned of it on its first reading is recorded. -/
def finish (f : Frame) (below : List Frame) (c : Config ρ) : Config ρ :=
  { frames := below
    pre := f.reader.finishConds c.pre
    files := fun name =>
      match c.files name with
      | none => none
      | some entry =>
        if f.display = some name && !entry.done then
          some { entry with done := true, guard := f.reader.guardFound, once := entry.once || f.reader.once }
        else some entry }

/-- One round of `run`, in the file on top. -/
def action (host : Host ρ) (c : Config ρ) : Option (Action ρ) :=
  match c.frames with
  | [] => none
  | f :: below =>
    match f.preIncludes with
    | name :: more =>
      let asked : Inclusion :=
        { org := f.reader.org, name, angled := false, site := ⟨some f.reader.org, 1, 2⟩, next := false,
          importing := false, nth := more.length + 1 }
      some (.includes asked { c with frames := { f with preIncludes := more } :: below })
    | [] =>
      match nextLine f.reader.toks with
      | none => some (.go (finish f below c))
      | some (t, line, after) =>
        let r := { f.reader with toks := after }
        if t.opensDirective then some (directive host f below r t line c)
        else if r.skipping then some (.go (c.withReader f below r c.pre))
        else
          let step := host.text r.org c.pre (t :: (line ++ after))
          let c := c.withReader f below
            { r with toks := step.toks, sawToken := true, miValid := false, once := r.once || step.once } step.pre
          match step.imports with
          | none => some (.go c)
          | some i => some (.imports i r.org c)

/-- The action carried out. -/
def perform (optimise : Bool) (host : Host ρ) : Action ρ → Config ρ
  | .go c => c
  | .includes i c => includeFile optimise host i c
  | .imports i org c => importInterface host i org c

/-- One step of `Run`. -/
def step (optimise : Bool) (host : Host ρ) (c : Config ρ) : Option (Config ρ) :=
  (action host c).map (perform optimise host)

end Vcx.Preprocessor
