import Vcx.Preprocessor.Token

/-!
# The macro table

`Macro`, its table and the grammar of `#define`. A failed parse reports one error and enters
nothing, so the parsers return it.
-/

namespace Vcx.Preprocessor
set_option autoImplicit false
open Vcx.Token (Kind)

/-- `Builtin`. -/
inductive Builtin where
  | notBuiltin | file | line | date | time | counter
  deriving DecidableEq, Repr

/-- `Macro`. Of a variadic macro `params` has the named parameters only. -/
structure Macro where
  id : Nat := 0
  name : String
  objLike : Bool
  variadic : Bool := false
  params : List String := []
  body : List Token := []
  definition : Site := ⟨none, 0, 0⟩
  builtin : Builtin := .notBuiltin

/-- `Param`, `none` for -1: the slot of a parameter's argument. -/
def Macro.param (m : Macro) (name : String) : Option Nat :=
  if m.objLike then none
  else match m.params.findIdx? (· = name) with
    | some i => some i
    | none => if m.variadic && name = "__VA_ARGS__" then some m.params.length else none

/-- `Arity`. -/
def Macro.arity (m : Macro) : Nat := if m.variadic then m.params.length + 1 else m.params.length

/-- `Table`: the macros in force, one for each name. -/
structure Table where
  entries : List Macro
  nodup : (entries.map Macro.name).Nodup

/-- `Lookup`. -/
def Table.lookup (t : Table) (name : String) : Option Macro := t.entries.find? (·.name = name)

/-- An error and where it is reported. -/
structure Diagnostic where
  site : Site
  msg : String
  deriving DecidableEq, Repr

/-- `%q`, of printable text. -/
def quoted (s : String) : String := String.ofList ('"' :: s.toList.flatMap escapeChar ++ ['"'])

/-- `IsAltToken`. -/
def isAltToken (name : String) : Bool :=
  name ∈ ["and", "and_eq", "bitand", "bitor", "compl", "not", "not_eq", "or", "or_eq", "xor", "xor_eq"]

/-- `Reserved`. -/
def reserved (name : String) : Bool :=
  name ∈ ["defined", "__has_include", "__has_cpp_attribute", "__VA_ARGS__", "__VA_OPT__", "__FILE__",
    "__LINE__", "__DATE__", "__TIME__", "__cplusplus", "__STDC_HOSTED__"]

/-- `parseParams`: the parameter list after its `(`, and what follows the `)`. -/
def parseParams (m : Macro) : List Token → Except Diagnostic (Macro × List Token)
  | [] => .error ⟨m.definition, "unterminated parameter list for macro " ++ quoted m.name⟩
  | t :: toks =>
    if t.kind = .rparen then .ok (m, toks)
    else if t.kind = .ellipsis then
      match toks with
      | [] => .error ⟨t.site, "'...' must be the last macro parameter"⟩
      | r :: rest =>
        if r.kind = .rparen then .ok ({ m with variadic := true }, rest)
        else .error ⟨t.site, "'...' must be the last macro parameter"⟩
    else if t.isName then
      if t.text = "__VA_ARGS__" || t.text = "__VA_OPT__" then
        .error ⟨t.site, quoted t.text ++ " cannot be used as a macro parameter"⟩
      else if t.text ∈ m.params then .error ⟨t.site, "duplicate macro parameter " ++ quoted t.text⟩
      else
        let m := { m with params := m.params ++ [t.text] }
        match toks with
        | [] => .error ⟨m.definition, "unterminated parameter list for macro " ++ quoted m.name⟩
        | s :: rest =>
          if s.kind = .comma then parseParams m rest
          else if s.kind = .rparen || s.kind = .ellipsis then parseParams m (s :: rest)
          else .error ⟨s.site, "expected ',' or ')' in macro parameter list"⟩
    else .error ⟨t.site, "expected a parameter name in macro " ++ quoted m.name⟩

/-- The search of `vaOptEnd` for the closing parenthesis: what stands before it and after it. -/
def groupEnd : List Token → Nat → List Token → Option (List Token × List Token)
  | [], _, _ => none
  | t :: ts, depth, content =>
    match t.kind with
    | .lparen => groupEnd ts (depth + 1) (content ++ [t])
    | .rparen => if depth = 0 then some (content, ts) else groupEnd ts (depth - 1) (content ++ [t])
    | _ => groupEnd ts depth (content ++ [t])

/-- `vaOptEnd`: the content of the group after `__VA_OPT__`, and what follows the group. -/
def vaOptEnd : List Token → Option (List Token × List Token)
  | [] => none
  | t :: ts => if t.kind = .lparen then groupEnd ts 0 [] else none

/-- The loop of `checkBody`. -/
def checkTokens (m : Macro) : List Token → Option Diagnostic
  | [] => none
  | t :: ts =>
    if t.kind = .hash && !m.objLike then
      match ts with
      | [] => some ⟨t.site, "'#' must be followed by a macro parameter"⟩
      | p :: _ =>
        if (m.param p.text).isNone && !p.spells "__VA_OPT__" then
          some ⟨t.site, "'#' must be followed by a macro parameter"⟩
        else checkTokens m ts
    else if t.spells "__VA_ARGS__" then
      if m.variadic then checkTokens m ts
      else some ⟨t.site, "__VA_ARGS__ can only appear in a variadic macro's replacement list"⟩
    else if t.spells "__VA_OPT__" then
      if !m.variadic then some ⟨t.site, "__VA_OPT__ can only appear in a variadic macro's replacement list"⟩
      else match vaOptEnd ts with
        | none => some ⟨t.site, "__VA_OPT__ must be followed by a parenthesized group"⟩
        | some (content, _) =>
          match content.find? (·.spells "__VA_OPT__") with
          | some nested => some ⟨nested.site, "__VA_OPT__ cannot be nested"⟩
          | none =>
            if (content.head?.any (·.kind = .hashhash)) || (content.getLast?.any (·.kind = .hashhash)) then
              some ⟨t.site, "'##' cannot appear at either end of a __VA_OPT__ group"⟩
            else checkTokens m ts
    else checkTokens m ts

/-- `checkBody`: the first error of a replacement list. -/
def checkBody (m : Macro) : Option Diagnostic :=
  match m.body.head?, m.body.getLast? with
  | some first, some last =>
    if first.kind = .hashhash then some ⟨first.site, "'##' cannot appear at the start of a replacement list"⟩
    else if last.kind = .hashhash then some ⟨last.site, "'##' cannot appear at the end of a replacement list"⟩
    else checkTokens m m.body
  | _, _ => checkTokens m m.body

/-- `parseDefine`, `none` for a line with nothing on it. -/
def parseDefine : List Token → Option (Except Diagnostic Macro)
  | [] => none
  | name :: rest => some <|
    if !name.isName then
      if isAltToken name.text then
        .error ⟨name.site, quoted name.text ++ " is an alternative spelling of an operator and cannot be a macro name"⟩
      else .error ⟨name.site, "macro name must be an identifier"⟩
    else if reserved name.text then .error ⟨name.site, quoted name.text ++ " cannot be defined"⟩
    else
      let m : Macro := { name := name.text, objLike := true, definition := name.site }
      let parsed : Except Diagnostic (Macro × List Token) :=
        match rest with
        | [] => .ok (m, [])
        | lp :: rest =>
          -- only an adjacent `(` makes the macro function-like
          if lp.kind = .lparen && !lp.spaced then parseParams { m with objLike := false } rest
          else .ok (m, lp :: rest)
      parsed.bind fun (m, body) =>
        let m := { m with body }
        match checkBody m with
        | some err => .error err
        | none => .ok m

end Vcx.Preprocessor
