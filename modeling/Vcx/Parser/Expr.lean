import Mathlib.Data.List.Basic

/-!
# Expressions

`parseExpr` of `parser/expr.go` and what it calls, on a list of tokens: operator precedence climbing, prefix operators,
postfix operators, parentheses and fold expressions, braced lists, and the look-aheads for casts, template arguments
and braced functional casts. Where a look-ahead answers yes, or a token begins what is not an expression of
operators and operands (a type, a lambda, a statement expression), nothing comes out; so it does for an error.
-/

namespace Vcx.Parse
set_option autoImplicit false

/-! ### Tokens -/

/-- The binary operators, the comma among them. -/
inductive Bin where
  | comma | lor | land | or | xor | and | eql | neq | lss | gtr | leq | geq | spaceship
  | shl | shr | add | sub | mul | quo | rem | periodStar | arrowStar
  deriving DecidableEq, Repr

/-- `Precedence`; every other token has 0. -/
def Bin.precedence : Bin → Nat
  | .comma => 1
  | .lor => 2
  | .land => 3
  | .or => 4
  | .xor => 5
  | .and => 6
  | .eql | .neq => 7
  | .lss | .gtr | .leq | .geq => 8
  | .spaceship => 9
  | .shl | .shr => 10
  | .add | .sub => 11
  | .mul | .quo | .rem => 12
  | .periodStar | .arrowStar => 13

/-- `isAssignOp` -/
inductive Assign where
  | assign | add | sub | mul | quo | rem | shl | shr | and | xor | or
  deriving DecidableEq, Repr

/-- A literal, adjacent strings taken as one, or `this`; a name; and the other tokens that the parser of expressions tells apart. -/
inductive Tok where
  | int (value : Nat)
  | lit (value : Nat)
  | ident (name : Nat)
  | type (name : Nat)
  | op (o : Bin)
  | assign (o : Assign)
  | inc | dec | not | tilde
  | question | colon | ellipsis | semi | scope | period | arrow
  | lparen | rparen | lbrack | rbrack | lbrace | rbrace
  | eof
  deriving DecidableEq, Repr

/-- The prefix operators. -/
inductive Prefix where
  | inc | dec | add | sub | not | tilde | mul | and
  deriving DecidableEq, Repr

def Prefix.tok : Prefix → Tok
  | .inc => .inc
  | .dec => .dec
  | .add => .op .add
  | .sub => .op .sub
  | .not => .not
  | .tilde => .tilde
  | .mul => .op .mul
  | .and => .op .and

/-- The first case of `parseCastOrUnaryExpr`. -/
def Tok.prefix? : Tok → Option Prefix
  | .inc => some .inc
  | .dec => some .dec
  | .op .add => some .add
  | .op .sub => some .sub
  | .not => some .not
  | .tilde => some .tilde
  | .op .mul => some .mul
  | .op .and => some .and
  | _ => none

def peek (ts : List Tok) : Tok := ts.headD .eof

/-- `isTypeStart` -/
def isTypeStart : Tok → Bool
  | .type _ | .ident _ | .scope => true
  | _ => false

/-- `typeIdToken` -/
def typeIdToken : Tok → Bool
  | .ident _ | .scope | .op .comma | .ellipsis | .op .mul | .op .and | .op .land
  | .lbrack | .rbrack | .op .lss | .op .gtr | .op .shr | .int _ | .type _ => true
  | _ => false

/-- `isExprStart` -/
def isExprStart : Tok → Bool
  | .ident _ | .int _ | .lit _ | .lparen | .lbrace | .lbrack | .inc | .dec | .op .add | .op .sub | .op .mul | .op .and
  | .not | .tilde | .type _ | .scope => true
  | _ => false

/-- `isFoldOp` -/
def isFoldOp : Tok → Bool
  | .op _ | .assign _ => true
  | _ => false

/-! ### What the source declared -/

inductive NameKind where
  | unknown | value | type | template | concept
  deriving DecidableEq, Repr

/-- `kindOf` -/
abbrev Names := Nat → NameKind

/-! ### Look-aheads -/

/-- The loop of `isCastExpr`. -/
def castFrom : List Tok → (depth : Nat) → (angles brackets : Int) → Bool
  | [], _, _, _ => false
  | t :: rest, depth, angles, brackets =>
    match t with
    | .eof | .semi | .lbrace | .rbrace => false
    | .lparen => castFrom rest (depth + 1) angles brackets
    | .lbrack => castFrom rest depth angles (brackets + 1)
    | .rbrack => castFrom rest depth angles (brackets - 1)
    | .int _ => if brackets = 0 then false else castFrom rest depth angles brackets
    | .op .lss => castFrom rest depth (angles + 1) brackets
    | .op .gtr => castFrom rest depth (angles - 1) brackets
    | .op .shr => castFrom rest depth (angles - 2) brackets
    | .rparen => if depth - 1 = 0 then angles = 0 && isExprStart (peek rest) else castFrom rest (depth - 1) angles brackets
    | t => if typeIdToken t then castFrom rest depth angles brackets else false

/-- `isCastExpr` -/
def isCastExpr (names : Names) : List Tok → Bool
  | .lparen :: t :: rest =>
    if !isTypeStart t then false
    else match t with
      | .ident n => if peek rest ≠ .scope ∧ names n = .value then false else castFrom rest 1 0 0
      | _ => castFrom rest 1 0 0
  | _ => false

/-- The loop of `isTemplateArgsAt`, behind the `<`; `within` says whether a list around this one is being parsed. -/
def templateArgsFrom (within : Bool) : List Tok → (depth : Int) → (nest : Nat) → Bool
  | [], _, _ => false
  | t :: rest, depth, nest =>
    match t with
    | .eof | .semi => false
    | .lparen | .lbrack => templateArgsFrom within rest depth (nest + 1)
    | .rparen | .rbrack => if nest = 0 then false else templateArgsFrom within rest depth (nest - 1)
    | .lbrace | .rbrace => if nest = 0 then false else templateArgsFrom within rest depth nest
    | .op .lss => templateArgsFrom within rest (if nest = 0 then depth + 1 else depth) nest
    | .op .gtr => if nest > 0 then templateArgsFrom within rest depth nest
      else if depth - 1 = 0 then true else templateArgsFrom within rest (depth - 1) nest
    | .op .shr => if nest > 0 then templateArgsFrom within rest depth nest
      else if depth - 2 < 0 ∧ !within then false
      else if depth - 2 ≤ 0 then true else templateArgsFrom within rest (depth - 2) nest
    | _ => templateArgsFrom within rest depth nest

mutual

/-- `isBracedFunctionalCast`, behind an identifier. -/
def bracedBehind : List Tok → Bool
  | .op .lss :: rest => bracedAngles rest 1 0
  | .scope :: .ident _ :: rest => bracedBehind rest
  | t :: _ => t = .lbrace
  | [] => false

/-- Its inner loop, over the tokens of a template-argument-list. -/
def bracedAngles : List Tok → (depth : Int) → (parens : Nat) → Bool
  | [], _, _ => false
  | t :: rest, depth, parens =>
    match t with
    | .op .lss => bracedAngles rest (if parens = 0 then depth + 1 else depth) parens
    | .op .gtr => if parens ≠ 0 then bracedAngles rest depth parens
      else if depth - 1 < 0 then false else if depth - 1 = 0 then bracedScope rest else bracedAngles rest (depth - 1) parens
    | .op .shr => if parens ≠ 0 then bracedAngles rest depth parens
      else if depth - 2 < 0 then false else if depth - 2 = 0 then bracedScope rest else bracedAngles rest (depth - 2) parens
    | .lparen | .lbrack => bracedAngles rest depth (parens + 1)
    | .rparen | .rbrack => if parens = 0 then false else bracedAngles rest depth (parens - 1)
    | .lbrace | .rbrace => if parens = 0 then false else bracedAngles rest depth parens
    | .eof | .semi => false
    | _ => bracedAngles rest depth parens

/-- Behind the list. -/
def bracedScope : List Tok → Bool
  | .scope :: .ident _ :: rest => bracedBehind rest
  | t :: _ => t = .lbrace
  | [] => false

end

/-! ### The tree -/

inductive Expr where
  | int (value : Nat)
  | lit (value : Nat)
  | name (name : Nat)
  /-- `PackName` -/
  | packName (name : Nat)
  | paren (x : Expr)
  | unary (op : Prefix) (x : Expr)
  | binary (op : Bin) (x y : Expr)
  | assign (op : Assign) (lhs rhs : Expr)
  /-- GNU's `a ?: b` has no second operand. -/
  | cond (c : Expr) (thenExpr : Option Expr) (elseExpr : Expr)
  /-- `PackExpansion` -/
  | pack (x : Expr)
  | leftFold (op : Tok) (right : Expr)
  | rightFold (left : Expr) (op : Tok) (init : Option (Tok × Expr))
  | index (x : Expr) (args : List Expr)
  | call (fn : Expr) (args : List Expr)
  | member (x : Expr) (arrow : Bool) (sel : Expr)
  | incDec (x : Expr) (inc : Bool)
  | list (items : List Expr)
  | typeCall (type : Nat) (args : List Expr)
  | typeList (type : Nat) (list : Expr)
  | nameList (name : Nat) (list : Expr)
  /-- A template argument read as a type-id. -/
  | typeId (tokens : List Tok)

/-- What a function of the parser reads, and what it leaves. -/
abbrev Read := Option (Expr × List Tok)

/-- `expect` -/
def expect (t : Tok) (ts : List Tok) : Option (List Tok) := if peek ts = t then some ts.tail else none

/-- The end of `parseBinaryExprRemainder`: a `...` that no expression follows. -/
def trailing (lhs : Expr) (ts : List Tok) : Expr × List Tok :=
  if peek ts = .ellipsis ∧ !isExprStart (peek ts.tail) then (.pack lhs, ts.tail) else (lhs, ts)

/-- `parseName` of an identifier that no template arguments follow. -/
def parseName (names : Names) (inTemplateArgs memberSelector : Bool) : List Tok → Read
  | .ident n :: rest =>
    -- parseUnqualifiedName: a template-id is not an operand here.
    if peek rest = .op .lss ∧ (names n = .template ∨ (memberSelector ∨ names n ≠ .value) ∧ templateArgsFrom inTemplateArgs rest.tail 1 0) then
      none
    else if peek rest = .scope then none
    else if peek rest = .ellipsis then some (.packName n, rest.tail)
    else some (.name n, rest)
  | _ => none

mutual

/-- `parseBinaryExpr` -/
def parseBinaryExpr (names : Names) : (fuel : Nat) → (inTemplateArgs : Bool) → (minPrec : Nat) → List Tok → Read
  | 0, _, _, _ => none
  | fuel + 1, inTemplateArgs, minPrec, ts =>
    (parseCastOrUnaryExpr names fuel inTemplateArgs ts).bind fun lhs =>
      parseBinaryExprRemainder names fuel inTemplateArgs lhs.1 minPrec lhs.2

/-- `parseBinaryExprRemainder` -/
def parseBinaryExprRemainder (names : Names) : (fuel : Nat) → (inTemplateArgs : Bool) → (lhs : Expr) → (minPrec : Nat) → List Tok → Read
  | 0, _, _, _, _ => none
  | fuel + 1, inTemplateArgs, lhs, minPrec, ts =>
    if (peek ts = .op .gtr ∨ peek ts = .op .shr) ∧ inTemplateArgs then some (trailing lhs ts)
    else match peek ts with
    | .assign op =>
      if minPrec ≤ 2 then
        (parseBinaryExpr names fuel inTemplateArgs 2 ts.tail).bind fun rhs =>
          parseBinaryExprRemainder names fuel inTemplateArgs (.assign op lhs rhs.1) minPrec rhs.2
      else some (trailing lhs ts)
    | .question =>
      if minPrec ≤ 2 then
        if peek ts.tail = .colon then
          (parseBinaryExpr names fuel inTemplateArgs 2 ts.tail.tail).bind fun elseExpr =>
            parseBinaryExprRemainder names fuel inTemplateArgs (.cond lhs none elseExpr.1) minPrec elseExpr.2
        else
          (parseBinaryExpr names fuel inTemplateArgs 1 ts.tail).bind fun thenExpr =>
            (expect .colon thenExpr.2).bind fun behind =>
              (parseBinaryExpr names fuel inTemplateArgs 2 behind).bind fun elseExpr =>
                parseBinaryExprRemainder names fuel inTemplateArgs (.cond lhs (some thenExpr.1) elseExpr.1) minPrec elseExpr.2
      else some (trailing lhs ts)
    | .op op =>
      if op.precedence < minPrec then some (trailing lhs ts)
      else
        (parseBinaryExpr names fuel inTemplateArgs (op.precedence + 1) ts.tail).bind fun rhs =>
          parseBinaryExprRemainder names fuel inTemplateArgs (.binary op lhs rhs.1) minPrec rhs.2
    -- Every other token has precedence 0, which is below any minPrec.
    | _ => some (trailing lhs ts)

/-- `parseCastOrUnaryExpr` -/
def parseCastOrUnaryExpr (names : Names) : (fuel : Nat) → (inTemplateArgs : Bool) → List Tok → Read
  | 0, _, _ => none
  | fuel + 1, inTemplateArgs, ts =>
    match (peek ts).prefix? with
    | some op => (parseCastOrUnaryExpr names fuel inTemplateArgs ts.tail).map fun operand => (.unary op operand.1, operand.2)
    | none => if isCastExpr names ts then none else parsePostfixExpr names fuel inTemplateArgs ts

/-- `parsePostfixExpr` -/
def parsePostfixExpr (names : Names) : (fuel : Nat) → (inTemplateArgs : Bool) → List Tok → Read
  | 0, _, _ => none
  | fuel + 1, inTemplateArgs, ts =>
    (parsePrimaryExpr names fuel inTemplateArgs ts).bind fun expr => parsePostfixRest names fuel inTemplateArgs expr.1 expr.2

/-- Its loop. -/
def parsePostfixRest (names : Names) : (fuel : Nat) → (inTemplateArgs : Bool) → Expr → List Tok → Read
  | 0, _, _, _ => none
  | fuel + 1, inTemplateArgs, expr, ts =>
    match peek ts with
    | .lbrack => (parseArgs names fuel inTemplateArgs .rbrack ts.tail).bind fun args =>
        parsePostfixRest names fuel inTemplateArgs (.index expr args.1) args.2
    | .lparen => (parseArgs names fuel inTemplateArgs .rparen ts.tail).bind fun args =>
        parsePostfixRest names fuel inTemplateArgs (.call expr args.1) args.2
    -- A kernel launch.
    | .op .shl => if peek ts.tail = .op .lss then none else some (expr, ts)
    | .period => (parseName names inTemplateArgs true ts.tail).bind fun sel =>
        parsePostfixRest names fuel inTemplateArgs (.member expr false sel.1) sel.2
    | .arrow => (parseName names inTemplateArgs true ts.tail).bind fun sel =>
        parsePostfixRest names fuel inTemplateArgs (.member expr true sel.1) sel.2
    | .inc => parsePostfixRest names fuel inTemplateArgs (.incDec expr true) ts.tail
    | .dec => parsePostfixRest names fuel inTemplateArgs (.incDec expr false) ts.tail
    | _ => some (expr, ts)

/-- The loop over the arguments of a call or a subscript, and the bracket that closes them. -/
def parseArgs (names : Names) : (fuel : Nat) → (inTemplateArgs : Bool) → (close : Tok) → List Tok → Option (List Expr × List Tok)
  | 0, _, _, _ => none
  | fuel + 1, inTemplateArgs, close, ts =>
    if peek ts = close then some ([], ts.tail)
    else
      (parseBinaryExpr names fuel inTemplateArgs 2 ts).bind fun arg =>
        if peek arg.2 = .op .comma then
          (parseArgs names fuel inTemplateArgs close arg.2.tail).map fun args => (arg.1 :: args.1, args.2)
        else (expect close arg.2).map fun behind => ([arg.1], behind)

/-- The loop of `parseInitList`, and the brace; a designator is no expression. -/
def parseItems (names : Names) : (fuel : Nat) → (inTemplateArgs : Bool) → List Tok → Option (List Expr × List Tok)
  | 0, _, _ => none
  | fuel + 1, inTemplateArgs, ts =>
    if peek ts = .rbrace then some ([], ts.tail)
    else if peek ts = .period then none
    else
      (if peek ts = .lbrace then (parseItems names fuel inTemplateArgs ts.tail).map fun items => (.list items.1, items.2)
        else parseBinaryExpr names fuel inTemplateArgs 2 ts).bind fun item =>
        if peek item.2 = .op .comma then
          (parseItems names fuel inTemplateArgs item.2.tail).map fun items => (item.1 :: items.1, items.2)
        else (expect .rbrace item.2).map fun behind => ([item.1], behind)

/-- `parsePrimaryExpr` -/
def parsePrimaryExpr (names : Names) : (fuel : Nat) → (inTemplateArgs : Bool) → List Tok → Read
  | 0, _, _ => none
  | fuel + 1, inTemplateArgs, ts =>
    match ts with
    | .int n :: rest => some (.int n, rest)
    | .lit n :: rest => some (.lit n, rest)
    | .lbrace :: rest => (parseItems names fuel inTemplateArgs rest).map fun items => (.list items.1, items.2)
    | .lparen :: rest => if peek rest = .lbrace then none else parseParenOrFoldExpr names fuel rest
    | .type n :: .lparen :: rest => (parseArgs names fuel inTemplateArgs .rparen rest).map fun args => (.typeCall n args.1, args.2)
    | .type n :: .lbrace :: rest => (parseItems names fuel inTemplateArgs rest).map fun items => (.typeList n (.list items.1), items.2)
    | .ident n :: rest =>
      if bracedBehind rest then
        match rest with
        | .lbrace :: rest => (parseItems names fuel inTemplateArgs rest).map fun items => (.nameList n (.list items.1), items.2)
        | _ => none
      else parseName names inTemplateArgs false ts
    | _ => none

/-- `parseParenOrFoldExpr`, behind the parenthesis; `inTemplateArgs` is zero inside. -/
def parseParenOrFoldExpr (names : Names) : (fuel : Nat) → List Tok → Read
  | 0, _ => none
  | fuel + 1, ts =>
    if peek ts = .ellipsis then
      (parseCastOrUnaryExpr names fuel false ts.tail.tail).bind fun right =>
        (expect .rparen right.2).map fun behind => (.leftFold (peek ts.tail) right.1, behind)
    else
      (parseCastOrUnaryExpr names fuel false ts).bind fun x =>
        if isFoldOp (peek x.2) ∧ peek x.2.tail = .ellipsis then
          if isFoldOp (peek x.2.tail.tail) then
            (parseCastOrUnaryExpr names fuel false x.2.tail.tail.tail).bind fun right =>
              (expect .rparen right.2).map fun behind => (.rightFold x.1 (peek x.2) (some (peek x.2.tail.tail, right.1)), behind)
          else (expect .rparen x.2.tail.tail).map fun behind => (.rightFold x.1 (peek x.2) none, behind)
        else
          (parseBinaryExprRemainder names fuel false x.1 1 x.2).bind fun x =>
            (expect .rparen x.2).map fun behind => (.paren x.1, behind)

end

/-- `parseExpr` -/
def parseExpr (names : Names) (fuel : Nat) (ts : List Tok) : Read := parseBinaryExpr names fuel false 1 ts

/-- `parseAssignmentExpr` -/
def parseAssignmentExpr (names : Names) (fuel : Nat) (inTemplateArgs : Bool) (ts : List Tok) : Read :=
  parseBinaryExpr names fuel inTemplateArgs 2 ts

end Vcx.Parse
