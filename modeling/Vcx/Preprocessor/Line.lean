import Vcx.Preprocessor.Once

/-!
# `#line`

`doLine` and what `__LINE__` and `__FILE__` spell. The offset and the file name that `#line` sets are
two fields of the preprocessor, which no inclusion saves: `lineHost` adds them to a host that reads but
does not set them. Against this stands a run in which what an included file sets is in force in that file only.
-/

namespace Vcx.Preprocessor
set_option autoImplicit false
open Vcx.Lib

/-- `lineDelta` and `fileName`, the preprocessor's; an `int` has 64 bits. -/
structure Line where
  lineDelta : BitVec 64 := 0
  fileName : String := ""
  deriving DecidableEq, Repr

/-! ### Positions -/

section
variable (lineOf : Nat → Option (Nat → Nat)) (name : Nat → String)

/-- `physicalLine`, given the lines of the file of an origin, if it has one. -/
def physicalLine (s : Site) : BitVec 64 :=
  match s.origin.bind lineOf with
  | some line => if s.pos ≠ 0 then .ofNat 64 (line s.pos) else 0
  | none => 0

/-- What `__LINE__` spells. -/
def presumedLine (l : Line) (s : Site) : BitVec 64 := physicalLine lineOf s + l.lineDelta

/-- `currentFile`, of a token at the site. -/
def currentFile (l : Line) (s : Site) : String :=
  if l.fileName ≠ "" then l.fileName
  else match s.origin with
    | some org => name org
    | none => "<unknown>"

end

/-! ### The directive -/

/-- The digits of `#line`, if they are nothing else. -/
def lineDigits : List Char → BitVec 64 → Option (BitVec 64)
  | [], n => some n
  | c :: cs, n => if c < '0' || '9' < c then none else lineDigits cs (n * 10 + .ofNat 64 (c.toNat - '0'.toNat))

/-- `strings.Trim`, of quotes. -/
def trimQuotes (s : String) : String :=
  String.ofList ((s.toList.dropWhile (· = '"')).reverse.dropWhile (· = '"')).reverse

/-- What `doLine` sets and reports, its line expanded. -/
def setLine (lineOf : Nat → Option (Nat → Nat)) (line : List Token) (at_ : Site) (l : Line) : Line × Option (Site × String) :=
  match line with
  | [] => (l, some (at_, "#line requires a digit sequence"))
  | number :: rest =>
    if number.kind ≠ .intLit then (l, some (at_, "#line requires a digit sequence"))
    else match lineDigits number.text.toList 0 with
      | none => (l, some (number.site, "#line requires a digit sequence"))
      | some n =>
        -- the number is that of the line after the directive
        let l := { l with lineDelta := n - physicalLine lineOf at_ - 1 }
        match rest with
        | [] => (l, none)
        | file :: _ =>
          if file.kind ≠ .stringLit then (l, some (file.site, "#line filename must be a string literal"))
          else ({ l with fileName := trimQuotes file.text }, none)

variable {σ : Type}

/-- `doLine` -/
def doLine (lineOf : Nat → Option (Nat → Nat))
    (expandClosed : Pre (Line × σ) → List Token → List Token × Pre (Line × σ)) (line : List Token) (at_ : Site)
    (p : Pre (Line × σ)) : Pre (Line × σ) :=
  let expanded := expandClosed p line
  let p := expanded.2
  let set := setLine lineOf expanded.1 at_ p.rest.1
  let p := { p with rest := (set.1, p.rest.2) }
  match set.2 with
  | none => p
  | some (site, msg) => p.errorf site msg []

/-! ### The host -/

/-- Without what `#line` sets. -/
def Pre.bare (p : Pre (Line × σ)) : Pre σ := { macros := p.macros, out := p.out, diags := p.diags, warned := p.warned, rest := p.rest.2 }

def Pre.withLine (l : Line) (p : Pre σ) : Pre (Line × σ) :=
  { macros := p.macros, out := p.out, diags := p.diags, warned := p.warned, rest := (l, p.rest) }

/-- A host that reads the offset and the name, with the directive that sets them. -/
def lineHost (lineOf : Nat → Option (Nat → Nat)) (base : Line → Host σ) : Host (Line × σ) where
  vendor := (base {}).vendor
  objC := (base {}).objC
  maxIncludeDepth := (base {}).maxIncludeDepth
  search := (base {}).search
  name := (base {}).name
  system r org := (base r.1).system r.2 org
  origin := (base {}).origin
  searchList := (base {}).searchList
  read := (base {}).read
  readError := (base {}).readError
  addDep r dep := (r.1, (base r.1).addDep r.2 dep)
  expandClosed p ts :=
    let r := (base p.rest.1).expandClosed p.bare ts
    (r.1, r.2.withLine p.rest.1)
  operator org p t ts :=
    let r := (base p.rest.1).operator org p.bare t ts
    (r.1, r.2.withLine p.rest.1)
  headerName p ts at_ :=
    let r := (base p.rest.1).headerName p.bare ts at_
    (r.1, r.2.withLine p.rest.1)
  directive org p word rest at_ :=
    if word.spells "line" then
      (doLine lineOf (fun p ts =>
        let r := (base p.rest.1).expandClosed p.bare ts
        (r.1, r.2.withLine p.rest.1)) rest at_ p, false)
    else
      let r := (base p.rest.1).directive org p.bare word rest at_
      (r.1.withLine p.rest.1, r.2)
  text org p ts :=
    let r := (base p.rest.1).text org p.bare ts
    { toks := r.toks, pre := r.pre.withLine p.rest.1, once := r.once, imports := r.imports }

/-! ### Files with offsets and names of their own -/

/-- The `#line` directive that a step executes: the rest of its line and its site. -/
def lineDirective {ρ : Type} (c : Config ρ) : Option (List Token × Site) :=
  match c.frames with
  | f :: _ =>
    match f.preIncludes, nextLine f.reader.toks with
    | [], some (t, word :: rest, _) =>
      if t.opensDirective && !f.reader.skipping && word.spells "line" then some (rest, t.site) else none
    | _, _ => none
  | [] => none

/-- The offset and the name after a step, from those before. -/
def lineAfter (lineOf : Nat → Option (Nat → Nat)) (base : Line → Host σ) (c : Config (Line × σ)) (l : Line) : Line :=
  match lineDirective c with
  | some (rest, at_) => (setLine lineOf ((base c.pre.rest.1).expandClosed c.pre.bare rest).1 at_ l).1
  | none => l

/-- The files being read, the innermost first. -/
def orgs {ρ : Type} (c : Config ρ) : List Nat := c.frames.map (·.reader.org)

/-- A state of the run, and for each file being read what the directives in it have set. -/
structure Scoped (σ : Type) where
  config : Config (Line × σ)
  own : List Line

/-- The same line for every place, and the same file for those of one origin. -/
def Line.Same (name : Nat → String) (org : Nat) (l l' : Line) : Prop :=
  l.lineDelta = l'.lineDelta ∧ currentFile name l ⟨some org, 0, 0⟩ = currentFile name l' ⟨some org, 0, 0⟩

section
variable (optimise : Bool) (lineOf : Nat → Option (Nat → Nat)) (base : Line → Host σ)

/-- What the directives of the main file have set, which is last. -/
def Scoped.main (s : Scoped σ) : Line := s.own.getLastD {}

/-- A directive sets what is its file's own; an included file begins with what the main file has set, and at its
end the includer's is in force again. -/
def Scoped.next (c c' : Config (Line × σ)) : List Line → List Line
  | [] => []
  | l :: below =>
    let l := lineAfter lineOf base c l
    if c.frames.length < c'.frames.length then below.getLastD l :: l :: below
    else if c'.frames.length < c.frames.length then below
    else l :: below

def Scoped.step (s : Scoped σ) : Option (Scoped σ) :=
  (Preprocessor.step optimise (lineHost lineOf base) s.config).map fun c =>
    { config := c, own := Scoped.next lineOf base s.config c s.own }

/-- The run starts with nothing set. -/
def Scoped.start (p : Pre σ) (org : Nat) (toks : List Token) (preIncludes : List String) : Scoped σ :=
  { config := Preprocessor.start (p.withLine {}) org toks preIncludes, own := [{}] }

/-- Every place in the file being read has the presumed line and file that its own directives give it. -/
def Presumed (s : Scoped σ) : Prop :=
  ∀ org ∈ (orgs s.config).head?, ∀ l ∈ s.own.head?, ∀ site : Site, site.origin = some org →
    presumedLine lineOf s.config.pre.rest.1 site = presumedLine lineOf l site ∧
      currentFile (lineHost lineOf base).name s.config.pre.rest.1 site = currentFile (lineHost lineOf base).name l site

/-- The step begins to read a file, or ends one. -/
def Switches (s : Scoped σ) : Prop :=
  ∃ c', Preprocessor.step optimise (lineHost lineOf base) s.config = some c' ∧ (orgs c').length ≠ (orgs s.config).length

/-- **The condition** on a step: where it begins to read a file or ends one, the directives of the file that is being
read have set back what they set. -/
def Restored (s : Scoped σ) : Prop :=
  Switches optimise lineOf base s → ∀ l ∈ s.own.head?, l = s.main

end

end Vcx.Preprocessor
