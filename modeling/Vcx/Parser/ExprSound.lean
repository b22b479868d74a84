import Vcx.Parser.Climb

/-!
# Expressions of values

The operands are literals and names declared as values. No look-ahead takes such a name for anything else: a `(` before
it begins no cast, a `<` behind it no template arguments, and no brace is found behind those it might be. So each
expression is read as the grammar has it.
-/

namespace Vcx.Parse
set_option autoImplicit false
open Vcx.Lib

inductive Atom where
  | int (value : Nat)
  | lit (value : Nat)
  | name (name : Nat)
  deriving DecidableEq, Repr

namespace Atom

def tok : Atom → Tok
  | int n => .int n
  | lit n => .lit n
  | name n => .ident n

def spell (a : Atom) : List Tok := [a.tok]

def node : Atom → Expr
  | int n => .int n
  | lit n => .lit n
  | name n => .name n

/-- A name is declared as a value. -/
def Declared (names : Names) : Atom → Prop
  | name n => names n = .value
  | _ => True

end Atom

/-- What holds of every operand. -/
def Tree.All {ω : Type} (p : ω → Prop) : Tree ω → Prop
  | .operand u => p u
  | .paren x | .unary _ x => x.All p
  | .binary _ x y | .assign _ x y => x.All p ∧ y.All p
  | .cond c t e => c.All p ∧ t.All p ∧ e.All p

/-- The tokens that close an expression: the brackets and the `;` behind it, and the end. -/
def Tok.closesExpr : Tok → Bool
  | .rparen | .rbrack | .rbrace | .semi | .eof => true
  | _ => false

/-! ### Look-aheads -/

open Atom (spell node)

/-- No brace is found behind a template-argument-list that is open here. -/
def Quiet (parens : Nat) (rest : List Tok) : Prop := ∀ depth, 0 < depth → bracedAngles rest depth parens = false

variable {names : Names} {rest : List Tok}

attribute [local simp] bracedAngles

/-- The first token of a tree of values, and what it is not. -/
theorem exists_head : ∀ (x : Tree Atom) (rest : List Tok), ∃ t ts, x.tokens spell ++ rest = t :: ts ∧ t ≠ .scope ∧ t ≠ .lbrace
  | .operand u, rest => ⟨u.tok, rest, rfl, by cases u <;> simp [Atom.tok], by cases u <;> simp [Atom.tok]⟩
  | .paren x, rest => ⟨.lparen, x.tokens spell ++ [.rparen] ++ rest, rfl, by simp, by simp⟩
  | .unary op x, rest => ⟨op.tok, x.tokens spell ++ rest, rfl, by cases op <;> simp [Prefix.tok], by cases op <;> simp [Prefix.tok]⟩
  | .binary _ x _, rest => by
    rw [Tree.tokens, List.append_assoc]
    exact exists_head x _
  | .assign _ x _, rest => by
    rw [Tree.tokens, List.append_assoc]
    exact exists_head x _
  | .cond x _ _, rest => by
    rw [Tree.tokens, List.append_assoc]
    exact exists_head x _

theorem bracedScope_tokens (x : Tree Atom) (rest : List Tok) : bracedScope (x.tokens spell ++ rest) = false := by
  obtain ⟨t, ts, eq, noScope, noBrace⟩ := exists_head x rest
  rw [eq]
  cases t <;> simp_all [bracedScope]

/-- An operator opens a list, closes one, or says nothing. -/
theorem Quiet.op {parens : Nat} (op : Bin) {x : Tree Atom} (quiet : Quiet parens (x.tokens spell ++ rest)) :
    Quiet parens (.op op :: (x.tokens spell ++ rest)) := by
  intro depth pos
  have last := bracedScope_tokens x rest
  cases op <;> simp only [bracedAngles] <;> try exact quiet depth pos
  case lss => split <;> exact quiet _ (by omega)
  case gtr =>
    split_ifs
    · exact quiet depth pos
    · rfl
    · exact last
    · exact quiet _ (by omega)
  case shr =>
    split_ifs
    · exact quiet depth pos
    · rfl
    · exact last
    · exact quiet _ (by omega)

/-- The scan comes out of a tree as it went in. -/
theorem quiet_tokens : ∀ (x : Tree Atom) {parens : Nat} {rest : List Tok}, Quiet parens rest → Quiet parens (x.tokens spell ++ rest)
  | .operand u, _, _, quiet => fun depth pos => by cases u <;> exact quiet depth pos
  | .paren x, parens, rest, quiet => fun depth pos => by
    have inside : Quiet (parens + 1) (.rparen :: rest) := fun depth pos => by
      simp only [bracedAngles, Nat.add_sub_cancel, Nat.succ_ne_zero, if_false]
      exact quiet depth pos
    have := quiet_tokens x inside depth pos
    rw [Tree.tokens, List.cons_append, List.append_assoc, List.singleton_append, bracedAngles]
    exact this
  | .unary op x, _, _, quiet => fun depth pos => by
    have := quiet_tokens x quiet depth pos
    rw [Tree.tokens, List.cons_append]
    cases op <;> exact this
  | .binary op x y, _, _, quiet => by
    rw [Tree.tokens, List.append_assoc]
    exact quiet_tokens x (.op op (quiet_tokens y quiet))
  | .assign op x y, _, _, quiet => by
    rw [Tree.tokens, List.append_assoc]
    exact quiet_tokens x (fun depth pos => quiet_tokens y quiet depth pos)
  | .cond c t e, parens, rest, quiet => by
    rw [Tree.tokens, List.append_assoc, List.cons_append, List.append_assoc, List.cons_append]
    have colon : Quiet parens (.colon :: (e.tokens spell ++ rest)) := fun depth pos => quiet_tokens e quiet depth pos
    exact quiet_tokens c fun depth pos => quiet_tokens t colon depth pos

/-- A parenthesis before a tree of values begins no cast. -/
theorem not_cast : ∀ {x : Tree Atom} {rest : List Tok}, x.All (Atom.Declared names) → peek rest ≠ .scope →
    isCastExpr names (.lparen :: (x.tokens spell ++ rest)) = false
  | .operand u, _, declared, noScope => by
    cases u with
    | int n => rfl
    | lit n => rfl
    | name n =>
      have value : names n = .value := declared
      simp [Tree.tokens, spell, Atom.tok, isCastExpr, isTypeStart, noScope, value]
  | .paren x, _, _, _ => rfl
  | .unary op x, _, _, _ => by cases op <;> rfl
  | .binary op x y, _, declared, _ => by
    rw [Tree.tokens, List.append_assoc]
    exact not_cast declared.1 (by simp)
  | .assign op x y, _, declared, _ => by
    rw [Tree.tokens, List.append_assoc]
    exact not_cast declared.1 (by simp)
  | .cond c t e, _, declared, _ => by
    rw [Tree.tokens, List.append_assoc]
    exact not_cast declared.1 (by simp)

/-! ### Every expression -/

/-- What may follow an operand. -/
structure Follows (rest : List Tok) : Prop where
  quiet : Quiet 0 rest
  braced : bracedBehind rest = false
  noScope : peek rest ≠ .scope
  noDots : peek rest ≠ .ellipsis
  apart : Apart rest

theorem Follows.of_op {op : Bin} {x : Tree Atom} (follows : Follows rest) (starts : (peek (x.tokens spell ++ rest)).starts) :
    Follows (.op op :: (x.tokens spell ++ rest)) := by
  have quiet := quiet_tokens x follows.quiet
  refine ⟨.op op quiet, ?_, by simp, by simp, .of_op starts⟩
  cases op <;> first | exact quiet 1 (by decide) | rfl

theorem Follows.of_closing (closed : (peek rest).closesExpr = true) : Follows rest := by
  cases rest with
  | nil => exact ⟨fun _ _ => rfl, rfl, by decide, by decide, trivial⟩
  | cons t rest =>
    cases t <;> first
      | exact absurd closed Bool.false_ne_true
      | exact ⟨fun _ _ => by simp [bracedAngles], rfl, by simp, by simp, trivial⟩

/-- A literal or a value is read for what it is. -/
theorem settles_operand {u : Atom} (declared : u.Declared names) (follows : Follows rest) :
    Settles (fun fuel => parseCastOrUnaryExpr names fuel false (spell u ++ rest)) (some (node u, rest)) := by
  have primary : Settles (fun fuel => parsePrimaryExpr names fuel false (spell u ++ rest)) (some (node u, rest)) := by
    refine .succ (g := fun _ => some (node u, rest)) (fun fuel => ?_) (.const _)
    cases u with
    | int n => rfl
    | lit n => rfl
    | name n =>
      have value : names n = .value := declared
      simp [spell, Atom.tok, parsePrimaryExpr, follows.braced, parseName, value, follows.noScope, follows.noDots, node]
  have postfixed : Settles (fun fuel => parsePostfixExpr names fuel false (spell u ++ rest)) (some (node u, rest)) :=
    .succ (fun fuel => by rw [parsePostfixExpr]) (primary.bind (follows.apart.settles _))
  refine .succ (fun fuel => ?_) postfixed
  rw [parseCastOrUnaryExpr]
  cases u <;> rfl

/-- So it is wherever it stands. -/
theorem placed_of_follows : ∀ {x : Tree Atom} {rest : List Tok}, x.All (Atom.Declared names) → Follows rest →
    x.Placed spell node names false rest
  | .operand _, _, declared, follows => settles_operand declared follows
  | .paren x, rest, declared, _ => by
    obtain ⟨t, ts, eq, -, noBrace⟩ := exists_head x (.rparen :: rest)
    refine ⟨not_cast declared (by simp), ?_, placed_of_follows declared (.of_closing rfl)⟩
    rwa [eq]
  | .unary _ x, _, declared, follows => placed_of_follows (x := x) declared follows
  | .binary _ _ _, _, declared, follows =>
    have right := placed_of_follows declared.2 follows
    ⟨fun inside => absurd inside Bool.false_ne_true, placed_of_follows declared.1 (follows.of_op right.starts), right⟩
  | .assign _ y _, rest, declared, follows => by
    have right := placed_of_follows declared.2 follows
    refine ⟨placed_of_follows declared.1 ⟨?_, rfl, by simp, by simp, trivial⟩, right⟩
    exact fun depth pos => quiet_tokens _ follows.quiet depth pos
  | .cond c t e, rest, declared, follows => by
    obtain ⟨declaredC, declaredT, declaredE⟩ := declared
    have quiet := quiet_tokens e follows.quiet
    have colon : Follows (.colon :: (e.tokens spell ++ rest)) :=
      ⟨fun depth pos => quiet depth pos, rfl, by simp, by simp, trivial⟩
    have question : Follows (.question :: (t.tokens spell ++ .colon :: (e.tokens spell ++ rest))) :=
      ⟨fun depth pos => quiet_tokens t colon.quiet depth pos, rfl, by simp, by simp, trivial⟩
    exact ⟨placed_of_follows declaredC question, placed_of_follows declaredT colon, placed_of_follows declaredE follows⟩

theorem halts_of_closing (closed : (peek rest).closesExpr = true) (minPrec : Nat) : Halts false minPrec rest := by
  unfold Halts
  cases head : peek rest <;> simp_all [Tok.closesExpr]

/-- **Every expression of values is parsed as the grammar has it**, up to what closes it. -/
theorem parseExpr_reads {x : Tree Atom} (fits : x.Fits .expression) (declared : x.All (Atom.Declared names))
    (closed : (peek rest).closesExpr = true) :
    Settles (fun fuel => parseExpr names fuel (x.tokens spell ++ rest)) (some (x.expr node, rest)) := by
  have follows : Follows rest := .of_closing closed
  have climbs := Tree.climbs fits (placed_of_follows declared follows) follows.apart (halts_of_closing closed 2) (Nat.le_refl 1)
  exact climbs.settles (halts_of_closing closed 1)

/-- `a = b + 1, c ? d : -e;` is: the names are values. -/
theorem assignment_read : Settles (fun fuel => parseExpr (fun _ => .value) fuel
      [.ident 0, .assign .assign, .ident 1, .op .add, .int 1, .op .comma, .ident 2, .question, .ident 3, .colon, .op .sub, .ident 4, .semi])
    (some (.binary .comma (.assign .assign (.name 0) (.binary .add (.name 1) (.int 1))) (.cond (.name 2) (some (.name 3)) (.unary .sub (.name 4))),
      [.semi])) :=
  parseExpr_reads (x := .binary .comma
      (.assign .assign (.operand (.name 0)) (.binary .add (.operand (.name 1)) (.operand (.int 1))))
      (.cond (.operand (.name 2)) (.operand (.name 3)) (.unary .sub (.operand (.name 4)))))
    (by simp [Tree.Fits, Bin.left, Bin.right, Bin.rank, Level.least]) (by simp [Tree.All, Atom.Declared]) rfl

/-! ### Printing -/

namespace Tree

variable {ω : Type}

/-- The tree without its parentheses. -/
def bare : Tree ω → Tree ω
  | operand u => operand u
  | paren x => x.bare
  | unary op x => unary op x.bare
  | binary op x y => binary op x.bare y.bare
  | assign op lhs rhs => assign op lhs.bare rhs.bare
  | cond c t e => cond c.bare t.bare e.bare

/-- The tree with the parentheses that the grammar requires at a level. -/
def grouped : Level → Tree ω → Tree ω
  | _, operand u => operand u
  | level, paren x => x.grouped level
  | _, unary op x => unary op (x.grouped (.binary 14))
  | level, binary op x y =>
    if level.least ≤ op.rank then binary op (x.grouped op.left) (y.grouped op.right)
    else paren (binary op (x.grouped op.left) (y.grouped op.right))
  | level, assign op lhs rhs =>
    if level = .expression ∨ level = .assignment then assign op (lhs.grouped (.binary 2)) (rhs.grouped .assignment)
    else paren (assign op (lhs.grouped (.binary 2)) (rhs.grouped .assignment))
  | level, cond c t e =>
    if level = .expression ∨ level = .assignment then cond (c.grouped (.binary 2)) (t.grouped .expression) (e.grouped .assignment)
    else paren (cond (c.grouped (.binary 2)) (t.grouped .expression) (e.grouped .assignment))

attribute [local simp] Tree.grouped

theorem bare_grouped : ∀ (x : Tree ω) (level : Level), (x.grouped level).bare = x.bare
  | operand _, _ => rfl
  | paren x, level => bare_grouped x level
  | unary op x, _ => congrArg (unary op) (bare_grouped x _)
  | binary op x y, level => by
    rw [grouped]
    split <;> simp only [bare, bare_grouped x, bare_grouped y]
  | assign op x y, level => by
    rw [grouped]
    split <;> simp only [bare, bare_grouped x, bare_grouped y]
  | cond c t e, level => by
    rw [grouped]
    split <;> simp only [bare, bare_grouped c, bare_grouped t, bare_grouped e]

theorem grouped_fits : ∀ (x : Tree ω) (level : Level), (x.grouped level).Fits level
  | operand _, _ => trivial
  | paren x, level => grouped_fits x level
  | unary _ x, _ => grouped_fits x _
  | binary op x y, level => by
    rw [grouped]
    split
    · rename_i le
      exact ⟨le, grouped_fits x _, grouped_fits y _⟩
    · exact ⟨rank_pos op, grouped_fits x _, grouped_fits y _⟩
  | assign op x y, level => by
    rw [grouped]
    split
    · rename_i which
      exact ⟨which, grouped_fits x _, grouped_fits y _⟩
    · exact ⟨.inl rfl, grouped_fits x _, grouped_fits y _⟩
  | cond c t e, level => by
    rw [grouped]
    split
    · rename_i which
      exact ⟨which, grouped_fits c _, grouped_fits t _, grouped_fits e _⟩
    · exact ⟨.inl rfl, grouped_fits c _, grouped_fits t _, grouped_fits e _⟩

theorem grouped_all {p : ω → Prop} : ∀ {x : Tree ω} {level : Level}, x.All p → (x.grouped level).All p
  | operand _, _, all => all
  | paren x, _, all => grouped_all (x := x) all
  | unary _ x, _, all => grouped_all (x := x) all
  | binary op x y, level, all => by
    rw [grouped]
    split <;> exact ⟨grouped_all all.1, grouped_all all.2⟩
  | assign op x y, level, all => by
    rw [grouped]
    split <;> exact ⟨grouped_all all.1, grouped_all all.2⟩
  | cond c t e, level, all => by
    rw [grouped]
    split <;> exact ⟨grouped_all all.1, grouped_all all.2.1, grouped_all all.2.2⟩

end Tree

/-- **Any tree of values, printed with the parentheses that the grammar requires, is parsed back**: what is read is the tree, but
for the parentheses. -/
theorem parseExpr_grouped {x : Tree Atom} (declared : x.All (Atom.Declared names)) (closed : (peek rest).closesExpr = true) :
    ∃ y : Tree Atom, y.bare = x.bare ∧
      Settles (fun fuel => parseExpr names fuel ((x.grouped .expression).tokens spell ++ rest)) (some (y.expr node, rest)) := by
  have follows : Follows rest := .of_closing closed
  have climbs := Tree.climbs (x.grouped_fits .expression) (placed_of_follows (Tree.grouped_all declared) follows) follows.apart
    (halts_of_closing closed 2) (Nat.le_refl 1)
  exact ⟨_, x.bare_grouped _, climbs.settles (halts_of_closing closed 1)⟩

end Vcx.Parse
