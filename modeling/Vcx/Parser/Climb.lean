import Vcx.Lib.Fuel
import Vcx.Parser.Expr

/-!
# Operator precedence climbing

The expression grammar of C++ as trees over operands of any kind, and how `parseBinaryExprRemainder` climbs up one: with
the first operand read and the tokens of the tree before it, it goes on as if the whole tree had been read. What the
parser makes of an operand where it stands is `Placed`, which the users of this module supply.
-/

namespace Vcx.Parse
set_option autoImplicit false
open Vcx.Lib

/-! ### The grammar -/

/-- The rank of a binary operator in the grammar: that of the comma is *expression*, then *logical-or*, *logical-and*,
*inclusive-or*, *exclusive-or*, *and*, *equality*, *relational*, *compare*, *shift*, *additive*, *multiplicative*
and *pm-expression*. -/
def Bin.rank : Bin → Nat
  | .comma => 1
  | .lor => 2
  | .land => 3
  | .or => 4
  | .xor => 5
  | .and => 6
  | .eql | .neq => 7
  | .lss | .gtr | .leq | .geq => 8
  | .spaceship => 9
  | .shl | .shr => 10
  | .add | .sub => 11
  | .mul | .quo | .rem => 12
  | .periodStar | .arrowStar => 13

theorem precedence_eq_rank (op : Bin) : op.precedence = op.rank := by cases op <;> rfl

/-- *expression*, *assignment-expression*, and the operators of a rank or above; 14 is *cast-expression*. -/
inductive Level where
  | expression | assignment
  | binary (rank : Nat)
  deriving DecidableEq, Repr

/-- The least rank of a binary operator at a level. -/
def Level.least : Level → Nat
  | .expression => 1
  | .assignment => 2
  | .binary rank => rank

/-- A right operand at a level ends before operators of a rank below this. -/
def Level.above : Level → Nat
  | .expression | .assignment => 2
  | .binary rank => rank + 1

/-- Binary operators group to the left; the right operand of a comma is an *assignment-expression*. -/
def Bin.left (op : Bin) : Level := if op = .comma then .expression else .binary op.rank

def Bin.right (op : Bin) : Level := if op = .comma then .assignment else .binary (op.rank + 1)

inductive Tree (ω : Type) where
  | operand (u : ω)
  | paren (x : Tree ω)
  | unary (op : Prefix) (x : Tree ω)
  | binary (op : Bin) (x y : Tree ω)
  | assign (op : Assign) (lhs rhs : Tree ω)
  | cond (c thenTree elseTree : Tree ω)

namespace Tree

variable {ω : Type}

/-- The tree is one of the grammar at a level. -/
def Fits : Level → Tree ω → Prop
  | _, operand _ => True
  | _, paren x => x.Fits .expression
  | _, unary _ x => x.Fits (.binary 14)
  | level, binary op x y => level.least ≤ op.rank ∧ x.Fits op.left ∧ y.Fits op.right
  | level, assign _ lhs rhs => (level = .expression ∨ level = .assignment) ∧ lhs.Fits (.binary 2) ∧ rhs.Fits .assignment
  | level, cond c thenTree elseTree =>
    (level = .expression ∨ level = .assignment) ∧ c.Fits (.binary 2) ∧ thenTree.Fits .expression ∧ elseTree.Fits .assignment

variable (spell : ω → List Tok) (node : ω → Expr)

def tokens : Tree ω → List Tok
  | operand u => spell u
  | paren x => .lparen :: (x.tokens ++ [.rparen])
  | unary op x => op.tok :: x.tokens
  | binary op x y => x.tokens ++ .op op :: y.tokens
  | assign op lhs rhs => lhs.tokens ++ .assign op :: rhs.tokens
  | cond c thenTree elseTree => c.tokens ++ .question :: (thenTree.tokens ++ .colon :: elseTree.tokens)

/-- The tree of the parser. -/
def expr : Tree ω → Expr
  | operand u => node u
  | paren x => .paren x.expr
  | unary op x => .unary op x.expr
  | binary op x y => .binary op x.expr y.expr
  | assign op lhs rhs => .assign op lhs.expr rhs.expr
  | cond c thenTree elseTree => .cond c.expr (some thenTree.expr) elseTree.expr

/-- An operator that ends a template argument. -/
def closes (op : Bin) : Bool := op = .gtr || op = .shr

/-- The operands are read for what they are where they stand, a parenthesis is not taken for a cast, and no operator
ends a template argument. -/
def Placed (names : Names) (inTemplateArgs : Bool) : Tree ω → List Tok → Prop
  | operand u, rest => Settles (fun fuel => parseCastOrUnaryExpr names fuel inTemplateArgs (spell u ++ rest)) (some (node u, rest))
  | paren x, rest => isCastExpr names (.lparen :: (x.tokens spell ++ .rparen :: rest)) = false ∧
      peek (x.tokens spell ++ .rparen :: rest) ≠ .lbrace ∧ x.Placed names false (.rparen :: rest)
  | unary _ x, rest => x.Placed names inTemplateArgs rest
  | binary op x y, rest => (inTemplateArgs = true → closes op = false) ∧
      x.Placed names inTemplateArgs (.op op :: (y.tokens spell ++ rest)) ∧ y.Placed names inTemplateArgs rest
  | assign op lhs rhs, rest => lhs.Placed names inTemplateArgs (.assign op :: (rhs.tokens spell ++ rest)) ∧
      rhs.Placed names inTemplateArgs rest
  | cond c thenTree elseTree, rest =>
    c.Placed names inTemplateArgs (.question :: (thenTree.tokens spell ++ .colon :: (elseTree.tokens spell ++ rest))) ∧
      thenTree.Placed names inTemplateArgs (.colon :: (elseTree.tokens spell ++ rest)) ∧ elseTree.Placed names inTemplateArgs rest

end Tree

/-! ### What follows -/

/-- The loop of `parseBinaryExprRemainder` stops before these tokens. -/
def Halts (inTemplateArgs : Bool) (minPrec : Nat) (rest : List Tok) : Prop :=
  match peek rest with
  | .op op => op.rank < minPrec ∨ inTemplateArgs = true ∧ Tree.closes op = true
  | .assign _ | .question => 2 < minPrec
  | .ellipsis => False
  | _ => True

/-- They do not go on with a postfix-expression. -/
def Apart (rest : List Tok) : Prop :=
  match peek rest with
  | .lbrack | .lparen | .period | .arrow | .inc | .dec => False
  | .op .shl => peek rest.tail ≠ .op .lss
  | _ => True

/-- What `parseParenOrFoldExpr` takes for a fold. -/
def Folds (ts : List Tok) : Prop := isFoldOp (peek ts) = true ∧ peek ts.tail = .ellipsis

theorem Halts.mono {inTemplateArgs : Bool} {p q : Nat} {rest : List Tok} (halts : Halts inTemplateArgs p rest) (le : p ≤ q) :
    Halts inTemplateArgs q rest := by
  unfold Halts at halts ⊢
  cases head : peek rest <;> simp only [head] at halts ⊢
  case op op => exact halts.imp (fun below => by omega) id
  case assign op => omega
  case question => omega

variable {names : Names} {inTemplateArgs : Bool} {minPrec : Nat} {rest : List Tok}

/-- Where the loop stops it leaves everything as it is. -/
theorem Halts.remainder (halts : Halts inTemplateArgs minPrec rest) (lhs : Expr) (fuel : Nat) :
    parseBinaryExprRemainder names (fuel + 1) inTemplateArgs lhs minPrec rest = some (lhs, rest) := by
  have trail : trailing lhs rest = (lhs, rest) := by
    unfold trailing
    rw [if_neg]
    rintro ⟨dots, -⟩
    unfold Halts at halts
    rw [dots] at halts
    exact halts
  rw [parseBinaryExprRemainder, trail]
  split
  · rfl
  · rename_i open_
    unfold Halts at halts
    cases head : peek rest <;> simp only [head] at halts open_ ⊢
    case op op =>
      obtain below | ⟨inside, closes⟩ := halts
      · rw [if_pos (precedence_eq_rank op ▸ below)]
      · refine absurd ⟨?_, inside⟩ open_
        simpa [Tree.closes] using closes
    case assign op => rw [if_neg (by omega)]
    case question => rw [if_neg (by omega)]

theorem Halts.settles (halts : Halts inTemplateArgs minPrec rest) (lhs : Expr) :
    Settles (fun fuel => parseBinaryExprRemainder names fuel inTemplateArgs lhs minPrec rest) (some (lhs, rest)) :=
  .succ (fun fuel => halts.remainder lhs fuel) (.const _)

theorem Apart.settles (apart : Apart rest) (x : Expr) :
    Settles (fun fuel => parsePostfixRest names fuel inTemplateArgs x rest) (some (x, rest)) := by
  refine .succ (g := fun _ => some (x, rest)) (fun fuel => ?_) (.const _)
  unfold Apart at apart
  rw [parsePostfixRest]
  cases head : peek rest <;> simp only [head] at apart ⊢
  case op op =>
    cases op <;> simp only at apart ⊢
    rw [if_neg apart]

/-! ### First tokens -/

/-- A token an operand can begin with. -/
def Tok.starts (t : Tok) : Prop :=
  t.prefix?.isSome = true ∨ match t with
    | .int _ | .lit _ | .lbrace | .lparen | .type _ | .ident _ => True
    | _ => False

theorem starts_of_read {ts : List Tok} {r : Expr × List Tok}
    (read : Settles (fun fuel => parseCastOrUnaryExpr names fuel inTemplateArgs ts) (some r)) : (peek ts).starts := by
  obtain ⟨n, from_⟩ := read
  have read := from_ (n + 3) (by omega)
  by_contra not
  unfold Tok.starts at not
  rw [not_or, Bool.not_eq_true, Option.isSome_eq_false_iff, Option.isNone_iff_eq_none] at not
  obtain ⟨noPrefix, other⟩ := not
  simp only [parseCastOrUnaryExpr, noPrefix, parsePostfixExpr] at read
  split at read
  · cases read
  · cases ts with
    | nil => simp [parsePrimaryExpr] at read
    | cons t rest =>
      cases t <;> simp [parsePrimaryExpr, peek] at read other

namespace Tree

variable {ω : Type} {spell : ω → List Tok} {node : ω → Expr} {x y : Tree ω}

/-- A tree begins with what an operand can begin with. -/
theorem Placed.starts : ∀ {x : Tree ω} {inTemplateArgs : Bool} {rest : List Tok}, x.Placed spell node names inTemplateArgs rest →
    (peek (x.tokens spell ++ rest)).starts
  | operand _, _, _, placed => starts_of_read placed
  | paren _, _, _, _ => .inr trivial
  | unary op _, _, _, _ => .inl (by cases op <;> rfl)
  | binary _ _ _, _, _, placed => by
    rw [tokens, List.append_assoc]
    exact starts placed.2.1
  | assign _ _ _, _, _, placed => by
    rw [tokens, List.append_assoc]
    exact starts placed.1
  | cond _ _ _, _, _, placed => by
    rw [tokens, List.append_assoc, List.cons_append, List.append_assoc]
    exact starts placed.1

end Tree

@[simp] theorem peek_cons (t : Tok) (ts : List Tok) : peek (t :: ts) = t := rfl

theorem Tok.starts.ne {t u : Tok} (starts : t.starts) (not : ¬ u.starts) : t ≠ u := fun eq => not (eq ▸ starts)

theorem Tok.not_starts {t : Tok} (noPrefix : t.prefix? = none)
    (other : match t with
      | .int _ | .lit _ | .lbrace | .lparen | .type _ | .ident _ => False
      | _ => True) : ¬ t.starts := by
  rintro (isPrefix | start)
  · rw [noPrefix] at isPrefix
    exact absurd isPrefix Bool.false_ne_true
  · cases t <;> first | exact other | exact start

/-- An operator that an operand follows neither launches a kernel nor begins a fold. -/
theorem Apart.of_op {op : Bin} {ts : List Tok} (starts : (peek ts).starts) : Apart (.op op :: ts) := by
  cases op <;> first | trivial | exact starts.ne (Tok.not_starts rfl trivial)

theorem not_folds {t : Tok} {ts : List Tok} (starts : (peek ts).starts) : ¬ Folds (t :: ts) :=
  fun folds => starts.ne (Tok.not_starts rfl trivial) folds.2

theorem not_folds_of_not_op {t : Tok} (ts : List Tok) (other : isFoldOp t = false) : ¬ Folds (t :: ts) :=
  fun folds => Bool.false_ne_true (other ▸ folds.1)

/-! ### Climbing -/

namespace Tree

variable {ω : Type} {spell : ω → List Tok} {node : ω → Expr} {x y : Tree ω}

/-- **The parser climbs the tree**: it reads a first operand, behind which no fold begins unless one does behind the tree, and its
loop then does what it would do with the whole tree read. -/
def Climbs (spell : ω → List Tok) (node : ω → Expr) (names : Names) (inTemplateArgs : Bool) (x : Tree ω) (minPrec : Nat)
    (rest : List Tok) : Prop :=
  ∃ lhs ts, Settles (fun fuel => parseCastOrUnaryExpr names fuel inTemplateArgs (x.tokens spell ++ rest)) (some (lhs, ts)) ∧
    (¬ Folds rest → ¬ Folds ts) ∧
    ∀ r, Settles (fun fuel => parseBinaryExprRemainder names fuel inTemplateArgs (x.expr node) minPrec rest) r →
      Settles (fun fuel => parseBinaryExprRemainder names fuel inTemplateArgs lhs minPrec ts) r

theorem Climbs.bind (climbs : x.Climbs spell node names inTemplateArgs minPrec rest) {r : Option (Expr × List Tok)}
    (settles : Settles (fun fuel => parseBinaryExprRemainder names fuel inTemplateArgs (x.expr node) minPrec rest) r) :
    Settles (fun fuel => parseBinaryExpr names fuel inTemplateArgs minPrec (x.tokens spell ++ rest)) r := by
  obtain ⟨lhs, ts, first, -, on⟩ := climbs
  exact .succ (fun fuel => by rw [parseBinaryExpr]) (first.bind (on _ settles))

/-- A tree that is climbed is parsed where the loop stops behind it. -/
theorem Climbs.settles (climbs : x.Climbs spell node names inTemplateArgs minPrec rest) (halts : Halts inTemplateArgs minPrec rest) :
    Settles (fun fuel => parseBinaryExpr names fuel inTemplateArgs minPrec (x.tokens spell ++ rest)) (some (x.expr node, rest)) :=
  climbs.bind (halts.settles _)

theorem Climbs.of_operand
    (read : Settles (fun fuel => parseCastOrUnaryExpr names fuel inTemplateArgs (x.tokens spell ++ rest)) (some (x.expr node, rest))) :
    x.Climbs spell node names inTemplateArgs minPrec rest :=
  ⟨_, _, read, id, fun _ settles => settles⟩

/-- A parenthesized tree is read as an operand. -/
theorem settles_paren (placed : (paren x).Placed spell node names inTemplateArgs rest) (apart : Apart rest)
    (climbs : x.Climbs spell node names false 1 (.rparen :: rest)) :
    Settles (fun fuel => parseCastOrUnaryExpr names fuel inTemplateArgs ((paren x).tokens spell ++ rest))
      (some ((paren x).expr node, rest)) := by
  obtain ⟨noCast, noBrace, inner⟩ := placed
  obtain ⟨lhs, ts, first, noFold, on⟩ := climbs
  have tokens_eq : (paren x).tokens spell ++ rest = .lparen :: (x.tokens spell ++ .rparen :: rest) := by simp [tokens]
  have dots : peek (x.tokens spell ++ .rparen :: rest) ≠ .ellipsis := inner.starts.ne (Tok.not_starts rfl trivial)
  have halts : Halts false 1 (.rparen :: rest) := trivial
  have inParens : Settles (fun fuel => parseParenOrFoldExpr names fuel (x.tokens spell ++ .rparen :: rest))
      (some (.paren (x.expr node), rest)) := by
    refine .succ (fun fuel => by rw [parseParenOrFoldExpr, if_neg dots]) (first.bind ?_)
    have open_ : ¬ (isFoldOp (peek ts) = true ∧ peek ts.tail = .ellipsis) := noFold (not_folds_of_not_op _ rfl)
    simp only [if_neg open_]
    exact (on _ (halts.settles _)).bind (.const _)
  rw [tokens_eq]
  refine .succ (g := fun fuel => parsePostfixExpr names fuel inTemplateArgs (.lparen :: (x.tokens spell ++ .rparen :: rest)))
    (fun fuel => ?_) ?_
  · rw [parseCastOrUnaryExpr]
    simp [Tok.prefix?, noCast]
  · refine .succ (fun fuel => by rw [parsePostfixExpr]) (Settles.bind (a := ((paren x).expr node, rest)) ?_ (apart.settles _))
    exact .succ (fun fuel => by rw [parsePrimaryExpr, if_neg noBrace]) inParens

theorem settles_unary (op : Prefix) {ts : List Tok} {y : Expr}
    (read : Settles (fun fuel => parseCastOrUnaryExpr names fuel inTemplateArgs ts) (some (y, rest))) :
    Settles (fun fuel => parseCastOrUnaryExpr names fuel inTemplateArgs (op.tok :: ts)) (some (.unary op y, rest)) := by
  have made : Settles (fun fuel => (parseCastOrUnaryExpr names fuel inTemplateArgs ts).map
      fun operand => (Expr.unary op operand.1, operand.2)) (some (.unary op y, rest)) := read.map
  refine .succ (fun fuel => ?_) made
  rw [parseCastOrUnaryExpr, peek_cons, show op.tok.prefix? = some op by cases op <;> rfl]
  rfl

theorem rank_lt (op : Bin) : op.rank < 14 := by cases op <;> decide

theorem rank_pos (op : Bin) : 0 < op.rank := by cases op <;> decide

theorem left_least (op : Bin) : op.left.least = op.rank := by cases op <;> rfl

theorem left_above (op : Bin) : op.left.above = op.rank + 1 := by cases op <;> rfl

theorem right_least (op : Bin) : op.right.least = op.rank + 1 := by cases op <;> rfl

theorem above_le_right (op : Bin) : op.rank + 1 ≤ op.right.above := by cases op <;> decide

theorem above_le {level : Level} {op : Bin} (le : level.least ≤ op.rank) : level.above ≤ op.rank + 1 := by
  have pos := rank_pos op
  cases level <;> simp only [Level.above, Level.least] at le ⊢ <;> omega

/-- The loop goes on with a binary operator and its right operand. -/
theorem remainder_binary {op : Bin} {ts : List Tok} {lhs y : Expr} {r : Option (Expr × List Tok)} (le : minPrec ≤ op.rank)
    (inside : inTemplateArgs = true → closes op = false)
    (right : Settles (fun fuel => parseBinaryExpr names fuel inTemplateArgs (op.rank + 1) ts) (some (y, rest)))
    (settles : Settles (fun fuel => parseBinaryExprRemainder names fuel inTemplateArgs (.binary op lhs y) minPrec rest) r) :
    Settles (fun fuel => parseBinaryExprRemainder names fuel inTemplateArgs lhs minPrec (.op op :: ts)) r := by
  have behind : Settles (fun fuel => (parseBinaryExpr names fuel inTemplateArgs (op.rank + 1) ts).bind fun rhs =>
      parseBinaryExprRemainder names fuel inTemplateArgs (.binary op lhs rhs.1) minPrec rhs.2) r := right.bind settles
  refine .succ (fun fuel => ?_) behind
  have goes : ¬ ((Tok.op op = .op .gtr ∨ Tok.op op = .op .shr) ∧ inTemplateArgs = true) := by
    rintro ⟨closing, within⟩
    have open_ := inside within
    obtain eq | eq := closing <;> (cases eq; exact absurd open_ (by decide))
  rw [parseBinaryExprRemainder, peek_cons, if_neg goes]
  simp only [precedence_eq_rank, if_neg (Nat.not_lt.mpr le), List.tail_cons]

/-- It goes on with an assignment. -/
theorem remainder_assign {op : Assign} {ts : List Tok} {lhs y : Expr} {r : Option (Expr × List Tok)} (le : minPrec ≤ 2)
    (right : Settles (fun fuel => parseBinaryExpr names fuel inTemplateArgs 2 ts) (some (y, rest)))
    (settles : Settles (fun fuel => parseBinaryExprRemainder names fuel inTemplateArgs (.assign op lhs y) minPrec rest) r) :
    Settles (fun fuel => parseBinaryExprRemainder names fuel inTemplateArgs lhs minPrec (.assign op :: ts)) r := by
  have behind : Settles (fun fuel => (parseBinaryExpr names fuel inTemplateArgs 2 ts).bind fun rhs =>
      parseBinaryExprRemainder names fuel inTemplateArgs (.assign op lhs rhs.1) minPrec rhs.2) r := right.bind settles
  refine .succ (fun fuel => ?_) behind
  rw [parseBinaryExprRemainder, peek_cons, if_neg (by simp)]
  simp only [if_pos le, List.tail_cons]

/-- It goes on with a conditional. -/
theorem remainder_cond {ts us : List Tok} {lhs x y : Expr} {r : Option (Expr × List Tok)} (le : minPrec ≤ 2)
    (noColon : peek ts ≠ .colon)
    (middle : Settles (fun fuel => parseBinaryExpr names fuel inTemplateArgs 1 ts) (some (x, .colon :: us)))
    (right : Settles (fun fuel => parseBinaryExpr names fuel inTemplateArgs 2 us) (some (y, rest)))
    (settles : Settles (fun fuel => parseBinaryExprRemainder names fuel inTemplateArgs (.cond lhs (some x) y) minPrec rest) r) :
    Settles (fun fuel => parseBinaryExprRemainder names fuel inTemplateArgs lhs minPrec (.question :: ts)) r := by
  have elses : Settles (fun fuel => (parseBinaryExpr names fuel inTemplateArgs 2 us).bind fun elseExpr =>
      parseBinaryExprRemainder names fuel inTemplateArgs (.cond lhs (some x) elseExpr.1) minPrec elseExpr.2) r := right.bind settles
  have behind : Settles (fun fuel => (parseBinaryExpr names fuel inTemplateArgs 1 ts).bind fun thenExpr =>
      (expect .colon thenExpr.2).bind fun behind => (parseBinaryExpr names fuel inTemplateArgs 2 behind).bind fun elseExpr =>
        parseBinaryExprRemainder names fuel inTemplateArgs (.cond lhs (some thenExpr.1) elseExpr.1) minPrec elseExpr.2) r :=
    middle.bind elses
  refine .succ (fun fuel => ?_) behind
  rw [parseBinaryExprRemainder, peek_cons, if_neg (by simp)]
  simp only [if_pos le, List.tail_cons]
  exact if_neg noColon

mutual

theorem reads : ∀ {x : Tree ω} {inTemplateArgs : Bool} {rest : List Tok}, x.Fits (.binary 14) →
    x.Placed spell node names inTemplateArgs rest → Apart rest →
    Settles (fun fuel => parseCastOrUnaryExpr names fuel inTemplateArgs (x.tokens spell ++ rest)) (some (x.expr node, rest))
  | operand _, _, _, _, placed, _ => placed
  | paren _, _, rest, fits, placed, apart =>
    settles_paren placed apart (climbs fits placed.2.2 (show Apart (.rparen :: rest) from trivial) trivial (Nat.le_refl 1))
  | unary op _, _, _, fits, placed, apart => settles_unary op (reads fits placed apart)
  | binary op _ _, _, _, fits, _, _ => absurd fits.1 (Nat.not_le.mpr (rank_lt op))
  | assign _ _ _, _, _, fits, _, _ => by obtain ⟨eq | eq, -⟩ := fits <;> cases eq
  | cond _ _ _, _, _, fits, _, _ => by obtain ⟨eq | eq, -⟩ := fits <;> cases eq

/-- **Every tree of the grammar is climbed.** -/
theorem climbs : ∀ {x : Tree ω} {level : Level} {inTemplateArgs : Bool} {minPrec : Nat} {rest : List Tok}, x.Fits level →
    x.Placed spell node names inTemplateArgs rest → Apart rest → Halts inTemplateArgs level.above rest → minPrec ≤ level.least →
    x.Climbs spell node names inTemplateArgs minPrec rest
  | operand _, _, _, _, _, _, placed, _, _, _ => .of_operand placed
  | paren _, _, _, _, rest, fits, placed, apart, _, _ =>
    .of_operand (settles_paren placed apart (climbs fits placed.2.2 (show Apart (.rparen :: rest) from trivial) trivial (Nat.le_refl 1)))
  | unary op _, _, _, _, _, fits, placed, apart, _, _ => .of_operand (settles_unary op (reads fits placed apart))
  | binary op x y, level, _, _, rest, fits, placed, apart, halts, le => by
    obtain ⟨rank, fitsX, fitsY⟩ := fits
    obtain ⟨inside, placedX, placedY⟩ := placed
    have stops := halts.mono (above_le rank)
    -- The loop that reads the left operand goes on with the operator.
    have left := climbs fitsX placedX (.of_op placedY.starts)
      (show Halts _ _ (.op op :: _) from .inl (by rw [left_above]; exact Nat.lt_succ_self _)) (Nat.le_trans (Nat.le_trans le rank) (Nat.le_of_eq (left_least op).symm))
    have right := climbs fitsY placedY apart (stops.mono (above_le_right op)) (Nat.le_of_eq (right_least op).symm)
    obtain ⟨lhs, ts, first, noFold, on⟩ := left
    refine ⟨lhs, ts, ?_, fun _ => noFold (not_folds placedY.starts), fun r settles => on r (remainder_binary (Nat.le_trans le rank) inside (right.settles stops) settles)⟩
    rwa [tokens, List.append_assoc]
  | assign op lhs rhs, level, inTemplateArgs, minPrec, rest, fits, placed, apart, halts, le => by
    obtain ⟨which, fitsL, fitsR⟩ := fits
    have two : minPrec ≤ 2 := by obtain rfl | rfl := which <;> exact Nat.le_trans le (by decide)
    have stops : Halts inTemplateArgs 2 rest := by obtain rfl | rfl := which <;> exact halts
    have left := climbs fitsL placed.1 trivial (show Halts inTemplateArgs 3 (.assign op :: _) from Nat.lt_succ_self 2) two
    have right := climbs fitsR placed.2 apart stops (Nat.le_refl 2)
    obtain ⟨lhs, ts, first, noFold, on⟩ := left
    refine ⟨lhs, ts, ?_, fun _ => noFold (not_folds placed.2.starts), fun r settles => on r (remainder_assign two (right.settles stops) settles)⟩
    rwa [tokens, List.append_assoc]
  | cond c thenTree elseTree, level, inTemplateArgs, minPrec, rest, fits, placed, apart, halts, le => by
    obtain ⟨which, fitsC, fitsT, fitsE⟩ := fits
    obtain ⟨placedC, placedT, placedE⟩ := placed
    have two : minPrec ≤ 2 := by obtain rfl | rfl := which <;> exact Nat.le_trans le (by decide)
    have stops : Halts inTemplateArgs 2 rest := by obtain rfl | rfl := which <;> exact halts
    have left := climbs fitsC placedC trivial (show Halts inTemplateArgs 3 (.question :: _) from Nat.lt_succ_self 2) two
    have middle := climbs fitsT placedT trivial trivial (Nat.le_refl 1)
    have right := climbs fitsE placedE apart stops (Nat.le_refl 2)
    obtain ⟨lhs, ts, first, noFold, on⟩ := left
    have noColon := placedT.starts.ne (Tok.not_starts (t := .colon) rfl trivial)
    have halted : Halts inTemplateArgs 1 (.colon :: (elseTree.tokens spell ++ rest)) := trivial
    refine ⟨lhs, ts, ?_, fun _ => noFold (not_folds_of_not_op _ rfl), fun r settles =>
      on r (remainder_cond two noColon (middle.settles halted) (right.settles stops) settles)⟩
    rwa [tokens, List.append_assoc, List.cons_append, List.append_assoc, List.cons_append]

end

end Tree

end Vcx.Parse
