import Vcx.Preprocessor.Reader
import Vcx.Token.Keywords

/-!
# Definitions

`doDefine`, `doUndef` and `pushPopMacro`, with the operations of the macro table that they and the predefined
macros use: `Define`, `Restore` and `Undef`. `strconv.Unquote` is a parameter.
-/

namespace Vcx.Preprocessor
set_option autoImplicit false
open Vcx.Token (Kind Std)

/-! ### The table -/

/-- `t.byName[m.Name] = m` -/
def Table.bind (t : Table) (m : Macro) : Table where
  entries := m :: t.entries.filter (·.name ≠ m.name)
  nodup := by
    rw [List.map_cons, List.nodup_cons]
    refine ⟨fun mem => ?_, t.nodup.sublist (List.filter_sublist.map _)⟩
    obtain ⟨other, mem, same⟩ := List.mem_map.mp mem
    exact absurd same (by simpa using (List.mem_filter.mp mem).2)

/-- `delete(t.byName, name)` -/
def Table.undef (t : Table) (name : String) : Table where
  entries := t.entries.filter (·.name ≠ name)
  nodup := t.nodup.sublist (List.filter_sublist.map _)

theorem Table.lookup_bind (t : Table) (m : Macro) (name : String) :
    (t.bind m).lookup name = if m.name = name then some m else t.lookup name := by
  simp only [Table.lookup, Table.bind, List.find?_cons]
  by_cases same : m.name = name
  · simp [same]
  · simp only [same, decide_false, if_false, List.find?_filter]
    congr 1
    funext other
    by_cases found : other.name = name
    · simp [found, Ne.symm same]
    · simp [found]

theorem Table.lookup_undef (t : Table) (gone name : String) :
    (t.undef gone).lookup name = if gone = name then none else t.lookup name := by
  simp only [Table.lookup, Table.undef, List.find?_filter]
  split
  · next same =>
    rw [List.find?_eq_none]
    intro other _
    by_cases found : other.name = name
    · simp [found, same]
    · simp [found]
  · next other =>
    congr 1
    funext m
    by_cases found : m.name = name
    · simp [found, Ne.symm other]
    · simp [found]

theorem Table.lookup_name {t : Table} {name : String} {m : Macro} (found : t.lookup name = some m) : m.name = name := by
  simpa using List.find?_some found

/-- The counter of the table, and the definitions that `push_macro` saved: `none` for an absence. -/
structure Definitions where
  next : Nat := 0
  pushed : String → List (Option Macro) := fun _ => []

abbrev Defs := Pre Definitions

/-- `Define`: a name that is bound keeps its identity. -/
def Pre.define (p : Defs) (m : Macro) : Defs :=
  match p.macros.lookup m.name with
  | some prev => { p with macros := p.macros.bind { m with id := prev.id } }
  | none =>
    { p with macros := p.macros.bind { m with id := p.rest.next }, rest := { p.rest with next := p.rest.next + 1 } }

/-- `Restore` -/
def Pre.restore (p : Defs) (m : Macro) : Defs := { p with macros := p.macros.bind m }

/-- `Undef` -/
def Pre.undef (p : Defs) (name : String) : Defs := { p with macros := p.macros.undef name }

/-! ### The directives -/

/-- `SameDefinition` -/
def sameDefinition (a b : Macro) : Bool :=
  a.objLike == b.objLike && a.variadic == b.variadic && a.params == b.params &&
    a.body.map (fun t => (t.kind, t.text)) == b.body.map (fun t => (t.kind, t.text)) &&
    a.body.tail.map (·.spaced) == b.body.tail.map (·.spaced)

/-- `IsStandardKeyword` -/
def isStandardKeyword (std : Std) (name : String) : Bool :=
  name ∈ "true" :: "false" :: Token.stdKeywords || std = .cxx26 && name ∈ Token.cxx26Keywords

/-- `note`, on the last diagnostic. -/
def Pre.note {ρ : Type} (p : Pre ρ) (site : Site) (msg : String) : Pre ρ :=
  match p.diags.getLast? with
  | none => p
  | some d => { p with diags := p.diags.dropLast ++ [{ d with notes := d.notes ++ [(site, msg)] }] }

section
variable (host : Host Definitions)

/-- The warning of `doDefine` about a name that is a keyword. -/
def Pre.warnKeyword (p : Defs) (std : Std) (m : Macro) : Defs :=
  if isStandardKeyword std m.name || isAltToken m.name then
    p.warn host "keyword-macro" m.definition (quoted m.name ++
      " is a keyword; defining it is ill-formed in any translation unit that includes a standard header")
  else p

/-- The warning of `doDefine` about another definition, with its note if the warning was not left out. -/
def Pre.warnRedefined (p : Defs) (m : Macro) : Defs :=
  match p.macros.lookup m.name with
  | none => p
  | some prev =>
    if sameDefinition prev m then p
    else
      let warned := p.warn host "macro-redefined" m.definition (quoted m.name ++ " redefined")
      if p.diags.length < warned.diags.length && prev.definition.valid then
        warned.note prev.definition "previous definition is here"
      else warned

/-- `doDefine` -/
def doDefine (std : Std) (p : Defs) (line : List Token) (at_ : Site) : Defs :=
  match parseDefine line with
  | none => p.errorf at_ "#define with no macro name" []
  | some (.error err) => p.errorf err.site err.msg []
  | some (.ok m) => ((p.warnKeyword host std m).warnRedefined host m).define m

/-- `doUndef` -/
def doUndef (p : Defs) (line : List Token) (at_ : Site) : Defs :=
  match line with
  | [] => p.errorf at_ "#undef with no macro name" []
  | name :: rest =>
    if !name.isName then p.errorf name.site "macro name must be an identifier" []
    else if reserved name.text then p.errorf name.site (quoted name.text ++ " cannot be undefined") []
    else expectEnd host (p.undef name.text) rest "#undef"

/-- `pushPopMacro`, once the name is read. -/
def Pre.pushMacro (p : Defs) (name : String) : Defs :=
  { p with rest := { p.rest with
      pushed := fun x => if x = name then p.macros.lookup name :: p.rest.pushed name else p.rest.pushed x } }

def Pre.popMacro (p : Defs) (name : String) : Defs :=
  match p.rest.pushed name with
  | [] => p
  | saved :: stack =>
    let q : Defs := { p with rest := { p.rest with pushed := fun x => if x = name then stack else p.rest.pushed x } }
    match saved with
    | none => q.undef name
    | some m => q.restore m

/-- `pushPopMacro` -/
def pushPopMacro (unquote : String → Option String) (p : Defs) (line : List Token) (at_ : Site) : Defs :=
  match line with
  | word :: lp :: name :: rp :: _ =>
    if lp.kind ≠ .lparen || name.kind ≠ .stringLit || rp.kind ≠ .rparen then
      p.warn host "pragma-syntax" at_ ("#pragma " ++ word.text ++ " expects a parenthesized string")
    else match unquote name.text with
      | none => p
      | some name => if word.spells "push_macro" then p.pushMacro name else p.popMacro name
  | word :: _ => p.warn host "pragma-syntax" at_ ("#pragma " ++ word.text ++ " expects a parenthesized string")
  | [] => p

/-- What changes the macro table: the predefined macros and the command line, and the directives of a source. -/
inductive Op where
  | predefine (m : Macro)
  | undefText (name : String)
  | define (line : List Token) (site : Site)
  | undef (line : List Token) (site : Site)
  /-- `#pragma push_macro` and `#pragma pop_macro`. -/
  | pushPop (line : List Token) (site : Site)

def execute (std : Std) (unquote : String → Option String) (p : Defs) : Op → Defs
  | .predefine m => p.define m
  | .undefText name => p.undef name
  | .define line site => doDefine host std p line site
  | .undef line site => doUndef host p line site
  | .pushPop line site => pushPopMacro host unquote p line site

/-- The state after a sequence of operations on the table of `NewTable`. -/
def run (std : Std) (unquote : String → Option String) (ops : List Op) : Defs :=
  ops.foldl (execute host std unquote) { macros := ⟨[], List.nodup_nil⟩, rest := {} }

end
end Vcx.Preprocessor
