import Vcx.Token

/-!
# Syntax of constant evaluation

The nodes of `ast` that the constant evaluator distinguishes, and what it reads of them. An expression has a number,
since the analysis answers for a node and not for its text: the clones of a pattern are different nodes. A name or a
literal is a span, whose text is in the unit that is being read. A child that may be missing is Go's nil.
-/

namespace Vcx.ConstEval
set_option autoImplicit false

/-- A `*TypeId`, and the identifier that it is when it is no more than one. -/
structure TypeId where
  node : Nat
  name : Option Nat

/-- The `Kind` of a `*BasicLit`. -/
inductive LitKind where
  | true_ | false_ | nullptr | int | float | char | other
  deriving DecidableEq

/-- The `Kind` of a `*NamedCastExpr`. -/
inductive CastKind where
  | staticCast | dynamicCast | constCast | reinterpretCast | bitCast
  deriving DecidableEq

/-- The nodes of an `Expr`. -/
inductive Expr where
  | paren (node : Nat) (x : Expr)
  | basicLit (node : Nat) (kind : LitKind) (span : Nat)
  | stringLit (node : Nat) (spans : List Nat)
  | ident (node : Nat) (span : Nat)
  | unary (node : Nat) (op : Token.Kind) (x : Expr)
  | binary (node : Nat) (op : Token.Kind) (x y : Expr)
  | cond (node : Nat) (cond : Expr) (then_ : Option Expr) (else_ : Expr)
  | assign (node : Nat) (op : Token.Kind) (lhs rhs : Expr)
  | incDec (node : Nat) (op : Token.Kind) (x : Expr)
  | index (node : Nat) (x : Expr) (args : List Expr)
  | member (node : Nat) (op : Token.Kind) (x : Expr) (sel : Option Nat)
  | call (node : Nat) (fun_ : Expr) (args : List Expr)
  | cast (node : Nat) (type : Option TypeId) (x : Expr)
  | namedCast (node : Nat) (kind : CastKind) (type : Option TypeId) (x : Expr)
  | functionalCast (node : Nat) (args : Option (List Expr)) (argList : List Expr)
  | sizeof (node : Nat) (ellipsis : Bool) (type : Option TypeId) (x : Option Expr)
  | alignof (node : Nat) (type : Option TypeId)
  | initList (node : Nat) (items : List Expr)
  | typeTrait (node : Nat) (name : Nat) (args : List TypeId)
  | qualifiedName (node : Nat) (isTemplate : Bool)
  | fold (node : Nat)
  | templateName (node : Nat)
  | requires (node : Nat)
  | other (node : Nat)

/-- The nodes of a `Declarator`. The name of one is an identifier or it is none. -/
inductive Declarator where
  | name (ident : Option Nat)
  | pointer (kind : Token.Kind) (inner : Option Declarator)
  | array (inner : Option Declarator) (size : Option Expr)
  | func (inner : Option Declarator)
  | paren (inner : Option Declarator)
  | bitfield (inner : Option Declarator)
  | pack (inner : Option Declarator)
  | bad

/-- `DeclName`, where it is an identifier. -/
def Declarator.declName : Declarator → Option Nat
  | .name ident => ident
  | .pointer _ (some d) | .array (some d) _ | .func (some d) | .paren (some d) | .bitfield (some d) | .pack (some d) =>
    d.declName
  | _ => none

/-- An `*InitDeclarator`. -/
structure InitDeclarator where
  node : Nat
  decl : Option Declarator
  value : Option Expr
  args : List Expr
  braced : Option (List Expr)

/-- A `Decl`: a `*SimpleDecl` or another, which declares nothing here. -/
inductive Decl where
  | simple (inits : List InitDeclarator)
  | other

/-- The condition of a statement: an `Expr` or a `*SimpleDecl`. -/
inductive Cond where
  | expr (e : Expr)
  | decl (inits : List InitDeclarator)

/-- The nodes of a `Stmt`. -/
inductive Stmt where
  | compound (stmts : List Stmt)
  | expr (x : Option Expr)
  | decl (d : Decl)
  | if_ (consteval not : Bool) (init : Option Stmt) (cond : Option Cond) (then_ else_ : Option Stmt)
  | while_ (cond : Option Cond) (body : Option Stmt)
  | do_ (body : Option Stmt) (cond : Option Expr)
  | for_ (init : Option Stmt) (cond : Option Cond) (post : Option Expr) (body : Option Stmt)
  | rangeFor (init : Option Stmt) (decl : Decl) (range : Option Expr) (body : Option Stmt)
  | return_ (x : Option Expr)
  | break_
  | continue_
  | empty
  | switch (init : Option Stmt) (cond : Option Cond) (body : Option Stmt)
  | other

end Vcx.ConstEval
