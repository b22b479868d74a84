import Vcx.Preprocessor.Evaluator

/-!
# The directive walk: conditionals

`reader` and its `#if` stack, with the state of the run that a condition may change. What lies
around them is a parameter, `Host`: the scanner and the search path, macro expansion, the other
operators of a controlling expression, the other directives and lines of text. Nothing is assumed
of it. `Origin`s are named by how they came about, so that reading a file more often does not
rename the others.
-/

namespace Vcx.Preprocessor
set_option autoImplicit false
open Vcx.Token (Kind)

inductive Severity where
  | error | warn
  deriving DecidableEq, Repr

/-- `Diagnostic`, of a whole run, with its notes. -/
structure Report where
  severity : Severity
  site : Site
  msg : String
  name : String := ""
  notes : List (Site × String) := []
  deriving DecidableEq, Repr

/-- `Preprocessor`, without its stack and its file cache. `rest` is what only the host reads. -/
structure Pre (ρ : Type) where
  macros : Table
  out : List Token := []
  diags : List Report := []
  warned : List (String × String) := []
  rest : ρ

/-- `Mount` and the path within it, with the name the file is displayed and cached by. -/
structure Candidate where
  mount : Nat
  rel : String
  display : String
  deriving DecidableEq, Repr

/-- The module interface a line of text asks for. -/
structure Interface where
  unit : Candidate
  site : Site
  module : String

/-- What a line of text comes to: the tokens it leaves, whether it said `once`, and the interface
it imports. -/
structure TextStep (ρ : Type) where
  toks : List Token
  pre : Pre ρ
  once : Bool := false
  imports : Option Interface := none

/-- The rest of phase 4 and what it stands on. -/
structure Host (ρ : Type) where
  vendor : Bool
  objC : Bool
  maxIncludeDepth : Nat
  /-- The number of search directories. -/
  search : Nat
  /-- `Origin.Name` and `Origin.System`. -/
  name : Nat → String
  system : ρ → Nat → Bool
  /-- The origin of a file read for a directive: what was read, from where, as which module, and
  how many pre-includes were to come. -/
  origin : Candidate → Nat → Site → String → Nat → Nat
  /-- `searchList`, cleaned, without the paths that leave their mount. -/
  searchList : Nat → String → Bool → Bool → List Candidate
  /-- A file's tokens and what the scanner said about it. -/
  read : Candidate → Option (List Token × List Report)
  readError : Candidate → String
  addDep : ρ → String → ρ
  expandClosed : Pre ρ → List Token → List Token × Pre ρ
  /-- The value of an operator other than `defined`, and how many tokens it takes. -/
  operator : Nat → Pre ρ → Token → List Token → Option (Int × Nat) × Pre ρ
  /-- `headerName`: the name, whether it is angled, and how many tokens it takes. -/
  headerName : Pre ρ → List Token → Site → Option (String × Bool × Nat) × Pre ρ
  /-- The directives that are neither conditional nor an inclusion; the flag is `#pragma once`. -/
  directive : Nat → Pre ρ → Token → List Token → Site → Pre ρ × Bool
  text : Nat → Pre ρ → List Token → TextStep ρ

variable {ρ : Type}

/-- `Defined`. -/
def Table.defined (t : Table) (name : String) : Bool := (t.lookup name).isSome

/-! ### Diagnostics -/

def Pre.report (p : Pre ρ) (r : Report) : Pre ρ := { p with diags := p.diags ++ [r] }

/-- `errorf`, with its notes. -/
def Pre.errorf (p : Pre ρ) (site : Site) (msg : String) (notes : List (Site × String)) : Pre ρ :=
  p.report { severity := .error, site, msg, notes }

/-- `warn`: in a system header once for each header and name. -/
def Pre.warn (host : Host ρ) (p : Pre ρ) (name : String) (site : Site) (msg : String) : Pre ρ :=
  let said : Report := { severity := .warn, site, msg, name }
  match site.origin with
  | none => p.report said
  | some o =>
    if !host.system p.rest o then p.report said
    else if (host.name o, name) ∈ p.warned then p
    else { p.report said with warned := (host.name o, name) :: p.warned }

/-- `fromScan`. -/
def Pre.fromScan (host : Host ρ) (p : Pre ρ) (r : Report) : Pre ρ :=
  match r.severity with
  | .warn => p.warn host "scan" r.site r.msg
  | .error => p.report r

/-- `expectEnd`. -/
def expectEnd (host : Host ρ) (p : Pre ρ) (rest : List Token) (what : String) : Pre ρ :=
  match rest with
  | [] => p
  | t :: _ => p.warn host "extra-tokens" t.site ("extra tokens at end of " ++ what ++ " directive")

/-! ### Controlling expressions -/

/-- `vendorOperator`. -/
def vendorOperator (name : String) : Bool :=
  name ∈ ["__has_feature", "__has_extension", "__has_builtin", "__has_attribute", "__has_c_attribute", "__has_warning",
    "__has_include_next", "__is_target_arch", "__is_target_vendor", "__is_target_os", "__is_target_environment"]

/-- `isOperatorName`. -/
def isOperatorName (host : Host ρ) (name : String) : Bool :=
  name = "__has_include" || name = "__has_cpp_attribute" || host.vendor && vendorOperator name

/-- An operator of a controlling expression other than `defined`. -/
def otherOperator (host : Host ρ) (t : Token) : Bool :=
  t.spells "__has_include" || t.spells "__has_cpp_attribute" ||
    host.vendor && t.kind = .ident && vendorOperator t.text

/-- `number`. -/
def numberToken (at_ : Token) (n : Int) : Token :=
  { kind := .intLit, text := toString n, adjacent := at_.adjacent, exp := at_.exp }

/-- What `defined` answers for a name. -/
def definedName (host : Host ρ) (p : Pre ρ) (name : String) : Bool :=
  p.macros.defined name || isOperatorName host name

/-- `evalDefined`, on the tokens after `defined`: its value and how many of them it takes. -/
def evalDefined (host : Host ρ) (p : Pre ρ) (t : Token) (ts : List Token) : Option (Int × Nat) × Pre ρ :=
  let answer (name : Token) : Int := if definedName host p name.text then 1 else 0
  let missing := p.errorf t.site "operator \"defined\" requires an identifier" []
  match ts with
  | [] => (none, missing)
  | lp :: ts =>
    if lp.kind = .lparen then
      match ts with
      | [] => (none, missing)
      | name :: ts =>
        if !name.isName then (none, missing)
        else if ts.head?.any (·.kind = .rparen) then (some (answer name, 3), p)
        else (some (answer name, 2), p.errorf t.site "missing ')' after \"defined\"" [])
    else if lp.isName then (some (answer lp, 1), p)
    else (none, missing)

/-- The value of the operator at `t`, if it is one. -/
def evalOperator (host : Host ρ) (org : Nat) (p : Pre ρ) (t : Token) (ts : List Token) :
    Option (Option (Int × Nat) × Pre ρ) :=
  if t.spells "defined" then some (evalDefined host p t ts)
  else if otherOperator host t then some (host.operator org p t ts)
  else none

/-- The loop of `resolveOperators`. The first `skip` tokens belong to an operator already resolved. -/
def resolveLoop (host : Host ρ) (org : Nat) : List Token → Nat → List Token → Pre ρ → List Token × Pre ρ
  | [], _, out, p => (out, p)
  | _ :: ts, skip + 1, out, p => resolveLoop host org ts skip out p
  | t :: ts, 0, out, p =>
    match evalOperator host org p t ts with
    | none => resolveLoop host org ts 0 (out ++ [t]) p
    | some (none, p) => (out ++ [numberToken t 0], p)
    | some (some (n, skip), p) => resolveLoop host org ts skip (out ++ [numberToken t n]) p

/-- `resolveOperators`. -/
def resolveOperators (host : Host ρ) (org : Nat) (line : List Token) (p : Pre ρ) : List Token × Pre ρ :=
  resolveLoop host org line 0 [] p

/-- `resolveExpandedOperators`. -/
def resolveExpandedOperators (host : Host ρ) (org : Nat) (line : List Token) (p : Pre ρ) : List Token × Pre ρ :=
  match line.find? fun t => t.spells "defined" || otherOperator host t with
  | none => (line, p)
  | some t =>
    resolveOperators host org line (p.warn host "expansion-operator" t.site (quoted t.text ++
      " produced by macro expansion is unspecified; vcx evaluates it as the operator, matching g++ and clang++"))

/-- `zeroIdents`. -/
def zeroIdents (line : List Token) : List Token :=
  line.map fun t => if t.kind ≠ .kwTrue && t.kind ≠ .kwFalse && t.isName then numberToken t 0 else t

/-- `Eval`. -/
def eval (host : Host ρ) (org : Nat) (line : List Token) (at_ : Site) (p : Pre ρ) : Bool × Pre ρ :=
  if line.isEmpty then (false, p.errorf at_ "#if with no expression" [])
  else
    let resolved := resolveOperators host org line p
    let expanded := host.expandClosed resolved.2 resolved.1
    let again := resolveExpandedOperators host org expanded.1 expanded.2
    let v := evaluate (zeroIdents again.1) at_
    (v.1, v.2.foldl (fun p d => p.errorf d.site d.msg []) again.2)

/-- `definedOperand`. -/
def definedOperand (host : Host ρ) (word : String) (line : List Token) (at_ : Site) (negate : Bool) (p : Pre ρ) :
    Bool × Pre ρ :=
  match line with
  | [] => (false, p.errorf at_ ("#" ++ word ++ " with no macro name") [])
  | name :: rest =>
    if !name.isName then (false, p.errorf at_ ("#" ++ word ++ " with no macro name") [])
    else (definedName host p name.text != negate, expectEnd host p rest ("#" ++ word))

/-! ### The reader -/

/-- `cond`. -/
structure Cond where
  site : Site
  directive : String
  taken : Bool := false
  active : Bool := false
  sawElse : Bool := false
  guard : String := ""

/-- `reader`, at its cursor. The innermost conditional is first. -/
structure Reader where
  org : Nat
  toks : List Token
  conds : List Cond := []
  miValid : Bool := true
  sawToken : Bool := false
  pendingGuard : String := ""
  once : Bool := false

namespace Reader

/-- `skipping`. -/
def skipping (r : Reader) : Bool := r.conds.any fun c => !c.active

/-- `parentSkipping`. -/
def parentSkipping (r : Reader) : Bool := r.conds.tail.any fun c => !c.active

/-- `pushCond`. -/
def pushCond (r : Reader) (c : Cond) : Reader := { r with conds := c :: r.conds }

/-- The guard the file is recorded with when it was read to its end. -/
def guardFound (r : Reader) : String := if r.miValid then r.pendingGuard else ""

/-- `beginIf`. -/
def beginIf (r : Reader) (name : String) (at_ : Site) (eval : Pre ρ → Bool × Pre ρ) (p : Pre ρ) : Reader × Pre ρ :=
  if r.skipping then (r.pushCond { site := at_, directive := name }, p)
  else (r.pushCond { site := at_, directive := name, taken := (eval p).1, active := (eval p).1 }, (eval p).2)

/-- `noteGuardIf`. -/
def noteGuardIf (r : Reader) (line : List Token) : Reader :=
  match r.conds, line with
  | [c], bang :: op :: operand =>
    if r.miValid && !r.sawToken && bang.kind = .not && op.spells "defined" then
      match operand.find? (·.kind = .ident) with
      | some t => { r with conds := [{ c with guard := t.text }] }
      | none => r
    else r
  | _, _ => r

/-- The candidate guard of `#ifndef`. -/
def ifndefGuard (r : Reader) (negate : Bool) (line : List Token) : String :=
  match line with
  | name :: _ => if negate && r.miValid && r.conds.isEmpty && !r.sawToken then name.text else ""
  | [] => ""

/-- `doIfdef`. -/
def doIfdef (host : Host ρ) (r : Reader) (negate : Bool) (line : List Token) (at_ : Site) (p : Pre ρ) :
    Reader × Pre ρ :=
  let word := if negate then "ifndef" else "ifdef"
  if r.skipping then (r.pushCond { site := at_, directive := "#" ++ word }, p)
  else if line.head?.any (·.isName) then
    let v := definedOperand host word line at_ negate p
    (r.pushCond { site := at_, directive := "#" ++ word, taken := v.1, active := v.1, guard := r.ifndefGuard negate line }, v.2)
  else (r.pushCond { site := at_, directive := "#" ++ word }, p.errorf at_ ("#" ++ word ++ " with no macro name") [])

/-- `doElif`. -/
def doElif (r : Reader) (name : String) (at_ : Site) (eval : Pre ρ → Bool × Pre ρ) (p : Pre ρ) : Reader × Pre ρ :=
  match r.conds with
  | [] => (r, p.errorf at_ (name ++ " without #if") [])
  | c :: outer =>
    if c.sawElse then (r, p.errorf at_ (name ++ " after #else") [])
    else if c.taken || r.parentSkipping then ({ r with conds := { c with guard := "", active := false } :: outer }, p)
    else ({ r with conds := { c with guard := "", taken := (eval p).1, active := (eval p).1 } :: outer }, (eval p).2)

/-- `doElse`. -/
def doElse (r : Reader) (at_ : Site) (p : Pre ρ) : Reader × Pre ρ :=
  match r.conds with
  | [] => (r, p.errorf at_ "#else without #if" [])
  | c :: outer =>
    if c.sawElse then (r, p.errorf at_ "#else after #else" [])
    else
      let live := !c.taken && !r.parentSkipping
      ({ r with conds := { c with sawElse := true, guard := "", active := live, taken := c.taken || live } :: outer }, p)

/-- `doEndif`. -/
def doEndif (r : Reader) (at_ : Site) (p : Pre ρ) : Reader × Pre ρ :=
  match r.conds with
  | [] => (r, p.errorf at_ "#endif without #if" [])
  | [c] =>
    if c.guard ≠ "" then ({ r with conds := [], pendingGuard := c.guard, miValid := true }, p)
    else ({ r with conds := [], pendingGuard := "" }, p)
  | _ :: outer => ({ r with conds := outer }, p)

/-- `finishConds`: what is reported of the conditionals left open, the outermost first. -/
def finishConds (r : Reader) (p : Pre ρ) : Pre ρ :=
  r.conds.reverse.foldl (fun p c => p.errorf c.site ("unterminated " ++ c.directive) []) p

end Reader

/-! ### Directives -/

/-- What a directive line is. -/
inductive Directive where
  | null
  | ifExpr
  | ifdef (negate : Bool)
  | elif
  | elifdef (negate : Bool)
  | elseArm
  | endif
  | inclusion (next : Bool)
  | importFile
  | other
  deriving DecidableEq, Repr

/-- The directive that the tokens after the `#` spell. -/
def Directive.of : List Token → Directive
  | [] => .null
  | name :: _ =>
    if !name.isName then .other
    else match name.text with
      | "if" => .ifExpr
      | "ifdef" => .ifdef false
      | "ifndef" => .ifdef true
      | "elif" => .elif
      | "elifdef" => .elifdef false
      | "elifndef" => .elifdef true
      | "else" => .elseArm
      | "endif" => .endif
      | "include" => .inclusion false
      | "include_next" => .inclusion true
      | "import" => .importFile
      | _ => .other

/-- The directives recognized in a skipped group. -/
def Directive.isConditional : Directive → Bool
  | .ifExpr | .ifdef _ | .elif | .elifdef _ | .elseArm | .endif => true
  | _ => false

/-- The directives a guard survives. -/
def Directive.opens : Directive → Bool
  | .ifExpr | .ifdef _ => true
  | _ => false

/-- The conditional directives of `directive`, on the rest of the line. -/
def Reader.conditional (host : Host ρ) (r : Reader) (d : Directive) (rest : List Token) (at_ : Site) (p : Pre ρ) :
    Reader × Pre ρ :=
  match d with
  | .ifExpr =>
    let q := r.beginIf "#if" at_ (eval host r.org rest at_) p
    (q.1.noteGuardIf rest, q.2)
  | .ifdef negate => r.doIfdef host negate rest at_ p
  | .elif => r.doElif "#elif" at_ (eval host r.org rest at_) p
  | .elifdef negate =>
    let word := if negate then "elifndef" else "elifdef"
    r.doElif ("#" ++ word) at_ (definedOperand host word rest at_ negate) p
  | .elseArm =>
    let q := r.doElse at_ p
    (q.1, expectEnd host q.2 rest "#else")
  | .endif =>
    let q := r.doEndif at_ p
    (q.1, expectEnd host q.2 rest "#endif")
  | _ => (r, p)

end Vcx.Preprocessor
