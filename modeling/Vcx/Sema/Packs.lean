import Mathlib.Data.List.Dedup

/-!
# Pack expansions

`expandOne`, `packsIn`, `valuePacksIn` and `packLength` of `sema/expr.go` and `sema/sema.go`. An expansion's
pattern is copied once for each element, and each copy is checked in a scope where the packs that the
pattern mentions are their elements. Expressions are trees of which the identifiers matter; what checking
one comes to is the tree of what its names mean.
-/

namespace Vcx.Packs
set_option autoImplicit false

/-- An element of a template parameter pack: a type, or a value with its type. -/
inductive Elem where
  | type (t : String)
  | value (t : Option String) (v : Int)
  deriving DecidableEq, Repr

/-- What a name stands for: the first symbol that is found under it. -/
inductive Sym where
  /-- A `TypeSymbol` of a `types.Pack`. -/
  | typePack (elems : List Elem)
  /-- A `PackSymbol`: the function parameters of the pack. It is open in the template as written. -/
  | valuePack (elems : List Nat) (isOpen : Bool)
  | type (t : String)
  /-- A `VarSymbol` with a known value. -/
  | constant (t : Option String) (v : Int)
  | param (id : Nat)
  | other (id : Nat)
  deriving DecidableEq, Repr

/-- The names in scope, the innermost first. -/
abbrev Scope := List (String × Sym)

inductive Expr where
  /-- A name that is looked up in the scope around it. -/
  | name (n : String)
  /-- An identifier that is not: a member's, one behind `::`, one that the expression declares itself. -/
  | label (n : String)
  /-- `sizeof...(n)` -/
  | sizeofPack (n : String)
  /-- A pack expansion in a list, or the pattern of a fold. -/
  | expansion (pattern : Expr)
  | node (kind : String) (parts : List Expr)

/-- What an expression comes to. -/
inductive Term where
  | ref (s : Option Sym)
  | label (n : String)
  /-- The length of a pack, where it is one. -/
  | count (n : Option Nat)
  /-- An expansion, written out. -/
  | splice (copies : List Term)
  /-- An expansion that is left as it is. -/
  | unexpanded (pattern : Term)
  | node (kind : String) (parts : List Term)

/-! ### The packs of a pattern -/

mutual

/-- The identifiers that `ast.Inspect` comes to. -/
def idents : Expr → List String
  | .name n => [n]
  | .label n => [n]
  | .sizeofPack n => [n]
  | .expansion e => idents e
  | .node _ es => identsAll es

def identsAll : List Expr → List String
  | [] => []
  | e :: es => idents e ++ identsAll es

end

/-- `packsIn`: the template parameter packs among names. -/
def packsIn (s : Scope) (names : List String) : List (String × List Elem) :=
  names.dedup.filterMap fun n => match s.lookup n with
    | some (.typePack es) => some (n, es)
    | _ => none

/-- `valuePacksIn`: the function parameter packs among names. -/
def valuePacksIn (s : Scope) (names : List String) : List (String × List Nat × Bool) :=
  names.dedup.filterMap fun n => match s.lookup n with
    | some (.valuePack es isOpen) => some (n, es, isOpen)
    | _ => none

/-- The loop over the packs, with the length of those before (nothing for an open pack). -/
def measure : Option Nat → List (Option Nat) → Option Nat
  | n, [] => n
  | _, none :: _ => none
  | none, some len :: rest => measure (some len) rest
  | some n, some len :: rest => if n = len then measure (some len) rest else none

/-- How many copies there are. -/
def copies (s : Scope) (names : List String) : Option Nat :=
  measure none ((packsIn s names).map (fun p => some p.2.length) ++
    (valuePacksIn s names).map fun p => if p.2.2 then none else some p.2.1.length)

/-- What a template parameter pack's name is in a copy. -/
def Elem.sym : Elem → Sym
  | .type t => .type t
  | .value t v => .constant (some (t.getD "int")) v

/-- The scope of the copy at `i`: each pack is its element there. -/
def bound (s : Scope) (names : List String) (i : Nat) : Scope :=
  (valuePacksIn s names).filterMap (fun p => p.2.1[i]?.map fun x => (p.1, .param x)) ++
    ((packsIn s names).filterMap (fun p => p.2[i]?.map fun x => (p.1, x.sym)) ++ s)

/-- `packLength` -/
def packLength (s : Scope) (n : String) : Option Nat :=
  match s.lookup n with
  | some (.valuePack es isOpen) => if isOpen then none else some es.length
  | some (.typePack es) => some es.length
  | _ => none

mutual

/-- `CheckExpr`, as to what names mean. -/
def check (e : Expr) (s : Scope) : Term :=
  match e with
  | .name n => .ref (s.lookup n)
  | .label n => .label n
  | .sizeofPack n => .count (packLength s n)
  | .expansion e =>
    match copies s (idents e) with
    | some n => .splice ((List.range n).map fun i => check e (bound s (idents e) i))
    | none => .unexpanded (check e s)
  | .node k es => .node k (checkAll es s)
termination_by structural e

def checkAll (es : List Expr) (s : Scope) : List Term :=
  match es with
  | [] => []
  | e :: es => check e s :: checkAll es s
termination_by structural es

end

/-- `expandOne`: the copies of the pattern. -/
def expandOne (s : Scope) (e : Expr) : Option (List Term) :=
  (copies s (idents e)).map fun n => (List.range n).map fun i => check e (bound s (idents e) i)

/-! ### What an expansion means -/

mutual

/-- The names looked up outside nested expansions and `sizeof...`. -/
def outer : Expr → List String
  | .name n => [n]
  | .label _ => []
  | .sizeofPack _ => []
  | .expansion _ => []
  | .node _ es => outerAll es

def outerAll : List Expr → List String
  | [] => []
  | e :: es => outer e ++ outerAll es

end

mutual

/-- What an expression means: `s` is the scope around the expansion, `t` that of the copy, which nested expansions and
`sizeof...` do not see. -/
def meaning (s : Scope) (e : Expr) (t : Scope) : Term :=
  match e with
  | .name n => .ref (t.lookup n)
  | .label n => .label n
  | .sizeofPack n => .count (packLength s n)
  | .expansion e =>
    match copies s (outer e) with
    | some n => .splice ((List.range n).map fun i => meaning s e (bound s (outer e) i))
    | none => .unexpanded (meaning s e s)
  | .node k es => .node k (meaningAll s es t)
termination_by structural e

def meaningAll (s : Scope) (es : List Expr) (t : Scope) : List Term :=
  match es with
  | [] => []
  | e :: es => meaning s e t :: meaningAll s es t
termination_by structural es

end

/-- **The copies of a pattern**: one for each index up to the common length of the packs that it mentions outside
nested expansions and `sizeof...`, which are their elements there. -/
def expansion (s : Scope) (e : Expr) : Option (List Term) :=
  (copies s (outer e)).map fun n => (List.range n).map fun i => meaning s e (bound s (outer e) i)

/-! ### Patterns that are expanded rightly -/

mutual

/-- The names looked up inside nested expansions and `sizeof...`. -/
def inner : Expr → List String
  | .name _ => []
  | .label _ => []
  | .sizeofPack n => [n]
  | .expansion e => outer e ++ inner e
  | .node _ es => innerAll es

def innerAll : List Expr → List String
  | [] => []
  | e :: es => inner e ++ innerAll es

end

/-- A symbol of a pack. -/
def Sym.isPack : Sym → Bool
  | .typePack _ | .valuePack _ _ => true
  | _ => false

/-- A name is that of a pack. -/
def isPack (s : Scope) (n : String) : Bool := (s.lookup n).any Sym.isPack

/-- The packs mentioned anywhere have as many elements as those that the expansion is over; and unless that is none, no
nested expansion or `sizeof...` mentions one. -/
def Kept (s : Scope) (e : Expr) : Prop :=
  copies s (idents e) = copies s (outer e) ∧
    ∀ n, copies s (outer e) = some (n + 1) → ∀ m ∈ inner e, isPack s m = false

end Vcx.Packs
