import Vcx.Sema.Packs

/-!
# Fold-expressions

`expandFoldExpr` and `emptyFoldValue` of `sema/expr.go`, which write a fold out, and `expandFold` of
`sema/sema.go`, which combines the values of its operands. Both find out which operand is the pattern by the
packs that it mentions. The evaluator of constant expressions is a parameter: what it makes of a checked
expression and of an operator's operands.
-/

namespace Vcx.Fold
set_option autoImplicit false
open Vcx.Packs

inductive Op where
  | land | lor | comma
  | binary (k : String)
  /-- `=`, `+=` and the others. -/
  | assign (k : String)
  deriving DecidableEq, Repr

def Op.isAssign : Op → Bool
  | .assign _ => true
  | _ => false

/-- The operators with no value for an empty pack. -/
def Op.plain : Op → Bool
  | .binary _ | .assign _ => true
  | _ => false

/-- `ast.FoldExpr`: the operands left and right of the ellipsis. -/
structure FoldExpr where
  left : Option Expr
  right : Option Expr
  op : Op

/-- A written-out expression: of copies of the pattern and the initial value. -/
inductive Tree where
  | copy (t : Term)
  | init (e : Expr)
  | lit (b : Bool)
  | void
  /-- `ast.BinaryExpr` -/
  | binary (op : Op) (x y : Tree)
  /-- `ast.AssignExpr` -/
  | assign (op : Op) (x y : Tree)

/-! ### The expression written out -/

/-- `mentionsPack` -/
def mentionsPack (s : Scope) (e : Expr) : Bool :=
  !(packsIn s (idents e)).isEmpty || !(valuePacksIn s (idents e)).isEmpty

/-- The pattern, the initial value, and whether it stands on the left: the pattern is the first operand of which
`mentions` holds. -/
def choose (mentions : Expr → Bool) (f : FoldExpr) : Option (Expr × Option Expr × Bool) :=
  match f.left.filter mentions with
  | some l => some (l, f.right, false)
  | none => (f.right.filter mentions).map fun r => (r, f.left, true)

/-- `((x op a) op b) op c` -/
def foldLeft (join : Tree → Tree → Tree) (x : Tree) (xs : List Tree) : Tree := xs.foldl join x

/-- `x op (a op (b op c))` -/
def foldRight (join : Tree → Tree → Tree) : Tree → List Tree → Tree
  | x, [] => x
  | x, y :: ys => join x (foldRight join y ys)

/-- `emptyFoldValue` -/
def emptyFoldValue : Op → Option Tree
  | .land => some (.lit true)
  | .lor => some (.lit false)
  | _ => none

/-- `expandFoldExpr` -/
def expandFoldExpr (s : Scope) (f : FoldExpr) : Option Tree :=
  (choose (mentionsPack s) f).bind fun (pattern, init, leftFold) =>
    (expandOne s pattern).bind fun elems =>
      let seq := match init with
        | some i => if leftFold then .init i :: elems.map .copy else elems.map .copy ++ [.init i]
        | none => elems.map .copy
      match seq with
      | [] => emptyFoldValue f.op
      | x :: xs => some (if leftFold then foldLeft (.binary f.op) x xs else foldRight (.binary f.op) x xs)

/-! ### Constants -/

/-- An evaluator of constant expressions, with values `V` and what it keeps of objects `S`. -/
structure Evaluator (V S : Type) where
  /-- `Eval` of a checked expression. -/
  eval : Term → S → Option (V × S)
  toBool : V → Bool
  newBool : Bool → V
  void : V
  /-- `evalBinaryOp` -/
  binaryOp : Op → V → V → Option V
  /-- `evalAssign` -/
  assign : Op → Tree → Tree → S → Option (V × S)
  toBool_newBool : ∀ b, toBool (newBool b) = b
  /-- `evalBinaryOp` has no case for an assignment. -/
  no_assign : ∀ k x y, binaryOp (.assign k) x y = none

variable {V S : Type}

/-- `Combine` -/
def Evaluator.combine (ev : Evaluator V S) : Op → V → V → Option V
  | .land, x, y => some (ev.newBool (ev.toBool x && ev.toBool y))
  | .lor, x, y => some (ev.newBool (ev.toBool x || ev.toBool y))
  | .comma, _, y => some y
  | op, x, y => ev.binaryOp op x y

/-- Expressions one after another. -/
def Evaluator.evalAll (ev : Evaluator V S) : List Term → S → Option (List V × S)
  | [], st => some ([], st)
  | t :: ts, st => (ev.eval t st).bind fun (v, st) => (ev.evalAll ts st).map fun (vs, st) => (v :: vs, st)

def combineLeft (combine : V → V → Option V) : V → List V → Option V
  | acc, [] => some acc
  | acc, v :: vs => (combine acc v).bind fun acc => combineLeft combine acc vs

def combineRight (combine : V → V → Option V) : V → List V → Option V
  | v, [] => some v
  | v, w :: ws => (combineRight combine w ws).bind (combine v)

/-- An element's symbol, as `expandFold` binds it. -/
def foldSym : Elem → Sym
  | .type t => .type t
  | .value t v => .constant t v

/-- The scope of an element in `expandFold`: function parameter packs stay packs. -/
def boundTypes (s : Scope) (names : List String) (i : Nat) : Scope :=
  (packsIn s names).filterMap (fun p => p.2[i]?.map fun x => (p.1, foldSym x)) ++ s

/-- The value of a fold of nothing. -/
def emptyValue (ev : Evaluator V S) : Op → Option V
  | .land => some (ev.newBool true)
  | .lor => some (ev.newBool false)
  | .comma => some ev.void
  | _ => none

/-- `expandFold` -/
def expandFold (s : Scope) (ev : Evaluator V S) (f : FoldExpr) (st : S) : Option (V × S) :=
  (choose (fun e => !(packsIn s (idents e)).isEmpty) f).bind fun (pattern, init, leftFold) =>
    (measure none ((packsIn s (idents pattern)).map fun p => some p.2.length)).bind fun n =>
      (ev.evalAll ((List.range n).map fun i => check pattern (boundTypes s (idents pattern) i)) st).bind fun (values, st) =>
        (match init with
          | none => some (values, st)
          | some i => (ev.eval (check i s) st).map fun (v, st) => (if leftFold then v :: values else values ++ [v], st)).bind fun (values, st) =>
            (match values with
              | [] => emptyValue ev f.op
              | v :: vs => if leftFold then combineLeft (ev.combine f.op) v vs else combineRight (ev.combine f.op) v vs).map fun v => (v, st)

/-! ### What a fold-expression means -/

/-- The forms of a fold-expression. -/
inductive Form where
  /-- `(e op ...)` -/
  | right (e : Expr)
  /-- `(... op e)` -/
  | left (e : Expr)
  /-- `(e op ... op i)` -/
  | rightInit (e i : Expr)
  /-- `(i op ... op e)` -/
  | leftInit (i e : Expr)

/-- The cast-expression with the unexpanded packs. -/
def Form.pattern : Form → Expr
  | .right e | .left e | .rightInit e _ | .leftInit _ e => e

def Form.initial : Form → Option Expr
  | .right _ | .left _ => none
  | .rightInit _ i | .leftInit i _ => some i

/-- `parseParenOrFoldExpr` -/
def Form.parsed (op : Op) : Form → FoldExpr
  | .right e => ⟨some e, none, op⟩
  | .left e => ⟨none, some e, op⟩
  | .rightInit e i => ⟨some e, some i, op⟩
  | .leftInit i e => ⟨some i, some e, op⟩

/-- A fold-expression: its pattern has unexpanded packs, all of one length, and its initial value has none. -/
structure Proper (s : Scope) (form : Form) : Prop where
  pattern : ∃ n, copies s (outer form.pattern) = some n
  initial : ∀ i ∈ form.initial, ∀ m ∈ outer i, isPack s m = false

/-- Two operands joined: by an assignment where the operator is one. -/
def join (op : Op) (x y : Tree) : Tree := if op.isAssign then .assign op x y else .binary op x y

/-- An empty unary fold. -/
def identity : Op → Option Tree
  | .land => some (.lit true)
  | .lor => some (.lit false)
  | .comma => some .void
  | _ => none

/-- **What a fold-expression is written out as**; nothing where it is ill-formed. -/
def prescribed (s : Scope) (form : Form) (op : Op) : Option Tree :=
  (expansion s form.pattern).bind fun elems =>
    match form with
    | .right _ => match elems.map .copy with
      | [] => identity op
      | x :: xs => some (foldRight (join op) x xs)
    | .left _ => match elems.map .copy with
      | [] => identity op
      | x :: xs => some (foldLeft (join op) x xs)
    | .rightInit _ i => match elems.map .copy with
      | [] => some (.init i)
      | x :: xs => some (foldRight (join op) x (xs ++ [.init i]))
    | .leftInit i _ => some (foldLeft (join op) (.init i) (elems.map .copy))

/-- The value of a written-out expression. -/
def evalTree (s : Scope) (ev : Evaluator V S) : Tree → S → Option (V × S)
  | .copy t, st => ev.eval t st
  | .init e, st => ev.eval (check e s) st
  | .lit b, st => some (ev.newBool b, st)
  | .void, st => some (ev.void, st)
  | .binary .land x y, st => (evalTree s ev x st).bind fun (v, st) =>
    if ev.toBool v then (evalTree s ev y st).map fun (w, st) => (ev.newBool (ev.toBool w), st) else some (ev.newBool false, st)
  | .binary .lor x y, st => (evalTree s ev x st).bind fun (v, st) =>
    if ev.toBool v then some (ev.newBool true, st) else (evalTree s ev y st).map fun (w, st) => (ev.newBool (ev.toBool w), st)
  | .binary .comma x y, st => (evalTree s ev x st).bind fun (_, st) => evalTree s ev y st
  | .binary op x y, st => (evalTree s ev x st).bind fun (v, st) => (evalTree s ev y st).bind fun (w, st) =>
    (ev.binaryOp op v w).map fun r => (r, st)
  | .assign op x y, st => ev.assign op x y st

theorem evalTree_copy (s : Scope) (ev : Evaluator V S) (t : Term) (st : S) : evalTree s ev (.copy t) st = ev.eval t st := by
  rw [evalTree]

/-! ### Folds that are written out rightly -/

/-- How many operands the written-out expression has. -/
def Form.operands (s : Scope) (form : Form) : Nat := (copies s (outer form.pattern)).getD 0 + form.initial.toList.length

/-- The initial value of a left fold mentions no pack. With no operands at all the operator is not a comma, and one that has no
value, or the pattern is expanded rightly; with two or more it is not an assignment. -/
structure Kept (s : Scope) (form : Form) (op : Op) : Prop where
  choice : ∀ i e, form = .leftInit i e → mentionsPack s i = false
  operands : (form.operands s = 0 ∧ op.plain = true) ∨
    (Packs.Kept s form.pattern ∧ (form.operands s = 0 → op ≠ .comma) ∧ (2 ≤ form.operands s → op.isAssign = false))

/-- The folds whose constants are right: the pattern is expanded rightly and mentions packs of one kind, with typed values, an
initial value mentions none that would be taken for the pattern, and on the left it has neither effects nor cares for
those of the pattern. -/
structure Constant (s : Scope) (ev : Evaluator V S) (form : Form) : Prop where
  expanded : Packs.Kept s form.pattern
  choice : ∀ i e, form = .leftInit i e → packsIn s (idents i) = []
  kind : (valuePacksIn s (idents form.pattern) = [] ∧ ∀ p ∈ packsIn s (idents form.pattern), ∀ v, .value none v ∉ p.2) ∨
    (packsIn s (idents form.pattern) = [] ∧ ∀ i ∈ form.initial, packsIn s (idents i) = [])
  quiet : ∀ i e, form = .leftInit i e → ∃ r : Option V, ∀ st, ev.eval (check i s) st = r.map fun v => (v, st)

end Vcx.Fold
