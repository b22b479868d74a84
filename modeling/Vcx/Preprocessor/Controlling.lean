import Vcx.Preprocessor.Evaluator
import Vcx.Sema.IntLiteral

/-!
# The value of a controlling expression

The expressions of a `#if` line as trees, with the value that [expr] and [cpp.cond] give them: an `intmax_t` or a
`uintmax_t`, or none where what is evaluated divides by zero, overflows, or shifts by more than there is. Over
the same trees stands what the evaluator makes of them in one pass, `machine` and `report`: it goes through every
operand, evaluated or not, and takes back what it should not have said.
-/

namespace Vcx.Controlling
set_option autoImplicit false
open Vcx.Lib Vcx.Preprocessor
open Vcx.Token (Kind)
open Vcx.IntExpr (Literal)
open Vcx.IntLiteral (Accepted literal standardSuffix)

/-! ### Values -/

/-- An `intmax_t` or a `uintmax_t`. -/
@[ext] structure Value where
  unsigned : Bool
  val : Int
  range : InRange (!unsigned) 64 val
  deriving DecidableEq

/-- A number reduced to one of the two types. -/
def reduce (unsigned : Bool) (x : Int) : Value := ⟨unsigned, wrap (!unsigned) 64 x, wrap_inRange _ (by decide) x⟩

/-- The result of an arithmetic operator: the signed one has to be representable. -/
def exactly (unsigned : Bool) (x : Int) : Option Value :=
  if unsigned = true ∨ InRange true 64 x then some (reduce unsigned x) else none

/-- A conversion. -/
def Value.convert (unsigned : Bool) (v : Value) : Value := reduce unsigned v.val

/-- `true` and `false` as numbers. -/
def ofBool (t : Bool) : Value := reduce false (if t then 1 else 0)

/-- The value that a word of the evaluator stands for. -/
def value (w : Word) : Value := ⟨w.unsigned, w.number, w.number_inRange⟩

/-! ### Operators -/

/-- [expr.unary.op] -/
def unaryValue (op : Kind) (a : Value) : Option Value :=
  match op with
  | .add => some a
  | .sub => exactly a.unsigned (-a.val)
  | .tilde => some (reduce a.unsigned (-a.val - 1))
  | .not => some (ofBool (a.val = 0))
  | _ => none

/-- [expr.mul] to [expr.or], of operands of one type. -/
def usualValue (op : Kind) (unsigned : Bool) (x y : Int) : Option Value :=
  match op with
  | .add => exactly unsigned (x + y)
  | .sub => exactly unsigned (x - y)
  | .mul => exactly unsigned (x * y)
  | .quo => if y = 0 then none else exactly unsigned (x.tdiv y)
  | .rem => if y = 0 then none else (exactly unsigned (x.tdiv y)).map fun _ => reduce unsigned (x.tmod y)
  | .and => some (reduce unsigned (x.land y))
  | .or => some (reduce unsigned (x.lor y))
  | .xor => some (reduce unsigned (x.xor y))
  | .eql => some (ofBool (x = y))
  | .neq => some (ofBool (x ≠ y))
  | .lss => some (ofBool (x < y))
  | .gtr => some (ofBool (y < x))
  | .leq => some (ofBool (x ≤ y))
  | .geq => some (ofBool (y ≤ x))
  | _ => none

/-- The binary operators that evaluate both operands. A shift has the type of the left one ([expr.shift]), the
others bring both to a common type ([expr.arith.conv]). -/
def binaryValue (op : Kind) (a b : Value) : Option Value :=
  match op with
  | .shl => if 0 ≤ b.val ∧ b.val < 64 then some (reduce a.unsigned (a.val * 2 ^ b.val.toNat)) else none
  | .shr => if 0 ≤ b.val ∧ b.val < 64 then some (reduce a.unsigned (a.val / 2 ^ b.val.toNat)) else none
  | op =>
    let unsigned := a.unsigned || b.unsigned
    usualValue op unsigned (a.convert unsigned).val (b.convert unsigned).val

/-- `&&` and `||` -/
def isLogical (op : Kind) : Bool := op = .land || op = .lor

/-- What the left operand of `&&` or `||` already decides. -/
def decided (op : Kind) (a : Value) : Option Bool :=
  if op = .land then if a.val = 0 then some false else none
  else if a.val = 0 then none else some true

/-- The right operand is evaluated. -/
def entersRight (op : Kind) (a : Option Value) : Bool :=
  if isLogical op then a.any fun x => (decided op x).isNone else true

/-! ### Constants -/

/-- The value of an integer literal, where one of the two types has it ([lex.icon]). -/
def literalValue (l : Literal) : Option Value :=
  if l.value < 2 ^ 63 then some (reduce l.unsigned l.value)
  else if l.value < 2 ^ 64 ∧ (l.unsigned || !l.decimal) = true then some (reduce true l.value)
  else none

/-- A character constant of type `char32_t`, the only one of them that is promoted to an unsigned type. -/
def isChar32 (t : Token) : Bool := t.kind = .charLit && (bytes t.text).head? = some (byte 'U')

/-- The value of a constant. Which number a character has in `#if` is for the implementation to say
([cpp.cond]); its type is not. -/
def constantValue (t : Token) : Option Value :=
  match t.kind with
  | .kwTrue => some (ofBool true)
  | .kwFalse => some (ofBool false)
  | .intLit => literalValue (literal (bytes t.text))
  | .charLit => some (value { charConst t with unsigned := isChar32 t })
  | _ => none

/-- A constant that C++ has: an integer literal is spelled as [lex.icon] says. -/
structure IsConstant (t : Token) : Prop where
  valued : (constantValue t).isSome
  spelled : t.kind = .intLit → Accepted (bytes t.text) ∧ standardSuffix (bytes t.text) = true

/-! ### Expressions -/

/-- An expression, with its tokens. -/
inductive Expr where
  | constant (t : Token)
  | paren (l : Token) (a : Expr) (r : Token)
  | unary (op : Token) (a : Expr)
  | binary (op : Token) (a b : Expr)
  | cond (c : Expr) (q : Token) (t : Expr) (colon : Token) (f : Expr)

namespace Expr

def tokens : Expr → List Token
  | constant t => [t]
  | paren l a r => l :: (a.tokens ++ [r])
  | unary op a => op :: a.tokens
  | binary op a b => a.tokens ++ op :: b.tokens
  | cond c q t colon f => c.tokens ++ q :: (t.tokens ++ colon :: f.tokens)

/-- The binary operators, by how tightly they bind. -/
def operators : List (List Kind) :=
  [[.lor], [.land], [.or], [.xor], [.and], [.eql, .neq], [.lss, .gtr, .leq, .geq], [.shl, .shr], [.add, .sub],
    [.mul, .quo, .rem]]

/-- The level of a binary operator, from 1; 0 for any other token. -/
def precedence (op : Kind) : Nat := match operators.findIdx? (op ∈ ·) with | some n => n + 1 | none => 0

/-- The level of an expression: a conditional one is the loosest, a unary one tighter than every binary one. -/
def level : Expr → Nat
  | cond .. => 0
  | binary op _ _ => precedence op.kind
  | _ => operators.length + 1

/-- The grammar of [expr]: binary operators group from the left. -/
def Wf : Expr → Prop
  | constant t => IsConstant t
  | paren l a r => l.kind = .lparen ∧ a.Wf ∧ r.kind = .rparen
  | unary op a => op.kind ∈ [.add, .sub, .tilde, .not] ∧ a.Wf ∧ a.level = operators.length + 1
  | binary op a b => 0 < precedence op.kind ∧ a.Wf ∧ b.Wf ∧ precedence op.kind ≤ a.level ∧ precedence op.kind < b.level
  | cond c q t colon f => c.Wf ∧ 0 < c.level ∧ q.kind = .question ∧ t.Wf ∧ colon.kind = .colon ∧ f.Wf

/-! ### What C++ makes of one -/

/-- The type of an expression: whether it is `uintmax_t`. -/
def unsigned : Expr → Bool
  | constant t => (constantValue t).any (·.unsigned)
  | paren _ a _ => a.unsigned
  | unary op a => op.kind ≠ .not && a.unsigned
  | binary op a b =>
    if op.kind ∈ [.shl, .shr] then a.unsigned
    else op.kind ∈ [.add, .sub, .mul, .quo, .rem, .and, .or, .xor] && (a.unsigned || b.unsigned)
  | cond _ _ t _ f => t.unsigned || f.unsigned

/-- The value of an expression, `none` where its evaluation is an error. -/
def eval : Expr → Option Value
  | constant t => constantValue t
  | paren _ a _ => a.eval
  | unary op a => a.eval.bind (unaryValue op.kind)
  | binary op a b =>
    a.eval.bind fun x =>
      if isLogical op.kind then
        match decided op.kind x with
        | some t => some (ofBool t)
        | none => b.eval.map fun y => ofBool (y.val ≠ 0)
      else b.eval.bind (binaryValue op.kind x)
  | cond c _ t _ f =>
    c.eval.bind fun x => (if x.val ≠ 0 then t.eval else f.eval).map (·.convert (t.unsigned || f.unsigned))

/-- The subexpressions that are evaluated, itself the first of them. -/
def evaluated : Expr → List Expr
  | constant t => [constant t]
  | paren l a r => paren l a r :: a.evaluated
  | unary op a => unary op a :: a.evaluated
  | binary op a b => binary op a b :: (a.evaluated ++ if entersRight op.kind a.eval then b.evaluated else [])
  | cond c q t colon f =>
    cond c q t colon f :: (c.evaluated ++
      match c.eval with
      | some x => if x.val ≠ 0 then t.evaluated else f.evaluated
      | none => [])

/-! ### What the evaluator makes of one -/

/-- The word of a constant. -/
def constantWord (t : Token) : Word :=
  match t.kind with
  | .kwTrue => { u := 1 }
  | .intLit => (intConst t { toks := [] }).1
  | .charLit => charConst t
  | _ => { u := 0 }

/-- The word of a unary operator. -/
def unaryWord (op : Kind) (v : Word) : Word :=
  match op with
  | .sub => { v with u := -v.u }
  | .tilde => { v with u := ~~~v.u }
  | .not => boolean (v.u = 0)
  | _ => v

/-- The words that the evaluator computes. -/
def machine : Expr → Word
  | constant t => constantWord t
  | paren _ a _ => a.machine
  | unary op a => unaryWord op.kind a.machine
  | binary op a b =>
    if isLogical op.kind then (logical op.kind a.machine b.machine).1 else (apply op.kind a.machine b.machine).1
  | cond c _ t _ f => if c.machine.u ≠ 0 then t.machine else f.machine

/-- What it has reported once it has gone through an expression: the first failure that it did not take back. -/
def report : Expr → Option Diagnostic
  | constant _ => none
  | paren _ a _ => a.report
  | unary _ a => a.report
  | binary op a b =>
    if isLogical op.kind then a.report <|> if (logical op.kind a.machine b.machine).2 then none else b.report
    else a.report <|> b.report <|> (apply op.kind a.machine b.machine).2.map (⟨op.site, ·⟩)
  | cond c _ t _ f => c.report <|> if c.machine.u ≠ 0 then t.report <|> f.report else none

end Expr

/-! ### The claim of the evaluator -/

/-- The evaluator on a line, as `evaluate` starts it. -/
def controlling (site : Site) (line : List Token) : Word × Evaluator :=
  conditional site (4 * (line.length + 1)) { toks := line }

/-- The evaluator has the value of an expression, and reports where there is none. -/
structure Agrees (site : Site) (e : Expr) : Prop where
  value : ∀ v, e.eval = some v → Controlling.value (controlling site e.tokens).1 = v
  reports : (controlling site e.tokens).2.errs ≠ [] ↔ e.eval = none

/-- A division by zero, the one error that the evaluator knows. -/
def dividesByZero (op : Kind) (y : Value) : Bool := op ∈ [.quo, .rem] && y.val = 0

namespace Expr

/-- **The expressions it is right about.** What is evaluated in them does not overflow and shifts by less than 64;
the arm of a conditional expression that is taken has the type that the other one would give it; nothing is
reported of the second arm where it is not taken, and there is nothing to report of it where it is. -/
def Fits : Expr → Prop
  | constant t => isChar32 t = false
  | paren _ a _ => a.Fits
  | unary op a => a.Fits ∧ ∀ x, a.eval = some x → (unaryValue op.kind x).isSome
  | binary op a b =>
    a.Fits ∧ (entersRight op.kind a.eval = true → b.Fits) ∧
      (isLogical op.kind = false → ∀ x y, a.eval = some x → b.eval = some y →
        dividesByZero op.kind y = true ∨ (binaryValue op.kind x y).isSome)
  | cond c _ t _ f =>
    c.Fits ∧ ∀ x, c.eval = some x →
      if x.val ≠ 0 then t.Fits ∧ (t.eval.isSome → (f.unsigned = true → t.unsigned = true) ∧ f.report = none)
      else f.Fits ∧ f.eval.isSome ∧ (t.unsigned = true → f.unsigned = true)

end Expr

end Vcx.Controlling
