import Vcx.Token
import Vcx.Preprocessor.HideSet

/-!
# Preprocessing tokens

`Token` with its spelling, its hide set and the chain of expansions it came from, and the
spelling that `#` gives. An `Origin` is a number here: the order in which they were made.
-/

namespace Vcx.Preprocessor
set_option autoImplicit false
open Vcx.Token (Kind)

/-- `Site`: a span in one position space. -/
structure Site where
  origin : Option Nat
  pos : Nat
  stop : Nat
  deriving DecidableEq, Repr

/-- `Valid`. Positions count from one. -/
def Site.valid (s : Site) : Bool := s.origin.isSome && s.pos ≠ 0

/-- `Expansion`. Its `Outer` is the rest of the list it stands in. -/
structure Expansion where
  macroName : String
  use : Site
  definition : Site
  deriving DecidableEq, Repr

/-- `Token`, with the flags expansion reads. -/
structure Token where
  kind : Kind
  text : String
  adjacent : Bool := false
  nlBefore : Bool := false
  span : Site := ⟨none, 0, 0⟩
  hide : HideSet := .none
  exp : List Expansion := []
  deriving DecidableEq

namespace Token

/-- `Site`: the use of the outermost expansion, or the token's own span. -/
def site (t : Token) : Site :=
  match t.exp.getLast? with
  | some root => if root.use.valid then root.use else t.span
  | none => t.span

/-- `IsName`. -/
def isName (t : Token) : Bool := t.kind = .ident || t.kind.isKeyword

/-- `Is`. -/
def spells (t : Token) (name : String) : Bool := t.isName && t.text = name

/-- `Spaced`. -/
def spaced (t : Token) : Bool := !t.adjacent

/-- A token `Mint`ed in the generated arena. -/
def mint (kind : Kind) (text : String) : Token := { kind, text }

end Token

/-- A character of a literal, with a backslash where it needs one. -/
def escapeChar (c : Char) : List Char := if c = '\\' || c = '"' then ['\\', c] else [c]

/-- The spelling `Stringize` gives one token of the argument. -/
def stringizeText (t : Token) : List Char :=
  if t.kind = .stringLit || t.kind = .charLit then t.text.toList.flatMap escapeChar else t.text.toList

/-- `Stringize`: a space where the argument had any, but not before its first token. -/
def stringize (arg : List Token) : Token :=
  let spelled : List (List Char) := arg.mapIdx fun i t => (if 0 < i && t.spaced then [' '] else []) ++ stringizeText t
  Token.mint .stringLit (String.ofList ('"' :: spelled.flatten ++ ['"']))

/-- `spaceLike`: the first token takes the parameter's spacing. -/
def spaceLike (param : Token) : List Token → List Token
  | [] => []
  | t :: ts => { t with adjacent := param.adjacent } :: ts

/-- `hsadd`. -/
def hsadd (hs : HideSet) (ts : List Token) : List Token := ts.map fun t => { t with hide := hs.union t.hide }

theorem mem_hsadd {hs : HideSet} {ts : List Token} {t : Token} (mem : t ∈ hsadd hs ts) :
    hs.toFinset ⊆ t.hide.toFinset := by
  obtain ⟨u, -, rfl⟩ := List.mem_map.1 mem
  rw [HideSet.toFinset_union]
  exact Finset.subset_union_left

end Vcx.Preprocessor
