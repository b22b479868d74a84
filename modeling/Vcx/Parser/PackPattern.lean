import Mathlib.Data.List.Forall2
import Vcx.Parser.Climb

/-!
# Patterns of pack expansions

An argument of a call, an item of a braced list and a template argument can be `E...`. The `...` is asked for at the end of
`parseBinaryExprRemainder`, which runs for every right operand, and in `parseName`: the innermost of them takes it.
-/

namespace Vcx.Parse
set_option autoImplicit false
open Vcx.Lib

/-! ### Template arguments -/

/-- What `parseTemplateArg` reads as a type-id: an argument that a value does not begin, where `typeId`, which stands for
`parseTypeId`, finds no error and stops at the end of the argument. -/
def templateType (names : Names) (typeId : List Tok → Option (List Tok × List Tok)) (ts : List Tok) : Option (List Tok × List Tok) :=
  let isValue := match peek ts with
    | .ident n => names n = .value || names n = .template
    | _ => false
  if isValue || !isTypeStart (peek ts) then none
  else (typeId ts).filter fun type =>
    match peek type.2 with
    | .op .comma | .op .gtr | .op .shr | .rparen | .eof => true
    | _ => false

/-- `parseTemplateArg` -/
def parseTemplateArg (names : Names) (typeId : List Tok → Option (List Tok × List Tok)) (fuel : Nat) (ts : List Tok) : Read :=
  match templateType names typeId ts with
  | some (type, rest) => some (.typeId type, rest)
  | none => parseAssignmentExpr names fuel true ts

/-- `consumeGreater`, where the cursor is at a `>` or a `>>`: half of a `>>` is left. -/
def consumeGreater : List Tok → List Tok
  | .op .gtr :: rest => rest
  | .op .shr :: rest => .op .gtr :: rest
  | ts => ts

/-- The loop of `parseTemplateName` over the arguments, and the `>` behind them. -/
def parseTemplateArgs (names : Names) (typeId : List Tok → Option (List Tok × List Tok)) :
    (fuel : Nat) → List Tok → Option (List Expr × List Tok)
  | 0, _ => none
  | fuel + 1, ts =>
    if peek ts = .op .gtr ∨ peek ts = .op .shr then some ([], consumeGreater ts)
    else
      (parseTemplateArg names typeId fuel ts).bind fun arg =>
        if peek arg.2 = .op .comma then
          (parseTemplateArgs names typeId fuel arg.2.tail).map fun args => (arg.1 :: args.1, args.2)
        else some ([arg.1], consumeGreater arg.2)

/-! ### Operands -/

/-- What a *cast-expression* is made of: a name, a member access, which ends in one, or anything that does not end in a
name, as a literal, a call, a subscript or a lambda. -/
inductive Operand where
  | closed (tokens : List Tok) (node : Expr)
  | name (n : Nat)
  | member (tokens : List Tok) (x : Expr) (arrow : Bool) (n : Nat)

namespace Operand

def spell : Operand → List Tok
  | closed tokens _ => tokens
  | name n => [.ident n]
  | member tokens _ arrow n => tokens ++ [if arrow then .arrow else .period, .ident n]

def node : Operand → Expr
  | closed _ node => node
  | name n => .name n
  | member _ x arrow n => .member x arrow (.name n)

/-- The operand, read with the `...` that follows it: one that ends in a name takes it. -/
def withDots : Operand → Option Expr
  | closed _ _ => none
  | name n => some (.packName n)
  | member _ x arrow n => some (.member x arrow (.packName n))

end Operand

open Operand (spell node)

namespace Tree

/-- A *cast-expression* that ends in a name. -/
def named : Tree Operand → Bool
  | operand u => u.withDots.isSome
  | unary _ x => x.named
  | _ => false

/-- The operands are read for what they are where they stand in `E...`, and an operand at its end does with the `...` what operands
of its kind do. -/
def PlacedDots (names : Names) (inTemplateArgs : Bool) : Tree Operand → List Tok → Prop
  | operand u, rest => Settles (fun fuel => parseCastOrUnaryExpr names fuel inTemplateArgs (spell u ++ .ellipsis :: rest))
      (match u.withDots with
        | none => some (node u, .ellipsis :: rest)
        | some x => some (x, rest))
  | paren x, rest => (paren x).Placed spell node names inTemplateArgs (.ellipsis :: rest)
  | unary _ x, rest => x.PlacedDots names inTemplateArgs rest
  | binary op x y, rest => (inTemplateArgs = true → closes op = false) ∧
      x.Placed spell node names inTemplateArgs (.op op :: (y.tokens spell ++ .ellipsis :: rest)) ∧ y.PlacedDots names inTemplateArgs rest
  | assign op lhs rhs, rest => lhs.Placed spell node names inTemplateArgs (.assign op :: (rhs.tokens spell ++ .ellipsis :: rest)) ∧
      rhs.PlacedDots names inTemplateArgs rest
  | cond c thenTree elseTree, rest =>
    c.Placed spell node names inTemplateArgs
        (.question :: (thenTree.tokens spell ++ .colon :: (elseTree.tokens spell ++ .ellipsis :: rest))) ∧
      thenTree.Placed spell node names inTemplateArgs (.colon :: (elseTree.tokens spell ++ .ellipsis :: rest)) ∧
      elseTree.PlacedDots names inTemplateArgs rest

/-- What the parser makes of `E...`. -/
def withDots : Tree Operand → Expr
  | operand u => u.withDots.getD (.pack (node u))
  | paren x => .pack (.paren (x.expr node))
  | unary op x => if x.named then .unary op x.withDots else .pack (.unary op (x.expr node))
  | binary op x y => .binary op (x.expr node) y.withDots
  | assign op lhs rhs => .assign op (lhs.expr node) rhs.withDots
  | cond c thenTree elseTree => .cond (c.expr node) (some (thenTree.expr node)) elseTree.withDots

end Tree

/-- The pattern of a pack expansion; that of a name is a node of its own. -/
def Expr.pattern : Expr → Option Expr
  | .pack x => some x
  | .packName n => some (.name n)
  | _ => none

/-! ### Where the `...` goes -/

variable {names : Names} {inTemplateArgs : Bool} {rest : List Tok}

/-- What may follow `E...`. -/
structure Ends (inTemplateArgs : Bool) (rest : List Tok) : Prop where
  halts : Halts inTemplateArgs 2 rest
  noExpr : isExprStart (peek rest) = false

namespace Tree

variable {x y : Tree Operand}

theorem PlacedDots.starts : ∀ {x : Tree Operand} {inTemplateArgs : Bool} {rest : List Tok}, x.PlacedDots names inTemplateArgs rest →
    (peek (x.tokens spell ++ .ellipsis :: rest)).starts
  | operand u, _, _, placed => by
    unfold PlacedDots at placed
    cases dots : u.withDots <;> (rw [dots] at placed; exact starts_of_read placed)
  | paren _, _, _, _ => .inr trivial
  | unary op _, _, _, _ => .inl (by cases op <;> rfl)
  | binary _ _ _, _, _, placed => by
    rw [tokens, List.append_assoc]
    exact placed.2.1.starts
  | assign _ _ _, _, _, placed => by
    rw [tokens, List.append_assoc]
    exact placed.1.starts
  | cond _ _ _, _, _, placed => by
    rw [tokens, List.append_assoc, List.cons_append, List.append_assoc]
    exact placed.1.starts

/-- A *cast-expression* with `...` behind it takes it if it ends in a name, and leaves it else. -/
theorem reads_dots : ∀ {x : Tree Operand}, x.Fits (.binary 14) → x.PlacedDots names inTemplateArgs rest →
    Settles (fun fuel => parseCastOrUnaryExpr names fuel inTemplateArgs (x.tokens spell ++ .ellipsis :: rest))
      (if x.named then some (x.withDots, rest) else some (x.expr node, .ellipsis :: rest))
  | operand u, _, placed => by
    unfold PlacedDots at placed
    unfold named withDots
    cases dots : u.withDots <;> (rw [dots] at placed; exact placed)
  | paren x, fits, placed => reads fits placed (show Apart (.ellipsis :: rest) from trivial)
  | unary op x, fits, placed => by
    have inner := reads_dots (x := x) fits placed
    unfold named withDots
    cases ends : x.named with
    | true =>
      rw [ends, if_pos rfl] at inner
      exact settles_unary op inner
    | false =>
      rw [ends, if_neg Bool.false_ne_true] at inner
      exact settles_unary op inner
  | binary op _ _, fits, _ => absurd fits.1 (Nat.not_le.mpr (rank_lt op))
  | assign _ _ _, fits, _ => by obtain ⟨eq | eq, -⟩ := fits <;> cases eq
  | cond _ _ _, fits, _ => by obtain ⟨eq | eq, -⟩ := fits <;> cases eq

/-- Behind an operand it is the end of `parseBinaryExprRemainder` that takes it. -/
theorem remainder_dots (noExpr : isExprStart (peek rest) = false) (lhs : Expr) (minPrec : Nat) :
    Settles (fun fuel => parseBinaryExprRemainder names fuel inTemplateArgs lhs minPrec (.ellipsis :: rest))
      (some (.pack lhs, rest)) := by
  refine .succ (g := fun _ => some (.pack lhs, rest)) (fun fuel => ?_) (.const _)
  rw [parseBinaryExprRemainder, peek_cons, if_neg (by simp)]
  simp [trailing, noExpr]

theorem settles_dots_operand {minPrec : Nat} (fits : x.Fits (.binary 14)) (placed : x.PlacedDots names inTemplateArgs rest)
    (whole : x.named = false → x.withDots = .pack (x.expr node)) (ends : Ends inTemplateArgs rest) (two : 2 ≤ minPrec) :
    Settles (fun fuel => parseBinaryExpr names fuel inTemplateArgs minPrec (x.tokens spell ++ .ellipsis :: rest))
      (some (x.withDots, rest)) := by
  have read := reads_dots fits placed
  refine .succ (fun fuel => by rw [parseBinaryExpr]) ?_
  cases named : x.named with
  | true =>
    rw [named, if_pos rfl] at read
    exact read.bind ((ends.halts.mono two).settles _)
  | false =>
    rw [named, if_neg Bool.false_ne_true] at read
    rw [whole named]
    exact read.bind (remainder_dots ends.noExpr _ _)

/-- The first right operand to end takes the `...`, or the name it ends in. -/
theorem settles_dots : ∀ {x : Tree Operand} {level : Level} {minPrec : Nat}, x.Fits level →
    x.PlacedDots names inTemplateArgs rest → Ends inTemplateArgs rest → 2 ≤ minPrec → minPrec ≤ level.least →
    Settles (fun fuel => parseBinaryExpr names fuel inTemplateArgs minPrec (x.tokens spell ++ .ellipsis :: rest))
      (some (x.withDots, rest))
  | operand u, _, _, _, placed, ends, two, _ =>
    settles_dots_operand (x := operand u) trivial placed (fun named => by cases u <;> first | rfl | cases named) ends two
  | paren x, _, _, fits, placed, ends, two, _ => settles_dots_operand (x := paren x) fits placed (fun _ => rfl) ends two
  | unary op x, _, _, fits, placed, ends, two, _ =>
    settles_dots_operand (x := unary op x) fits placed (fun named => if_neg (Bool.not_eq_true _ ▸ named)) ends two
  | binary op x y, level, minPrec, fits, placed, ends, two, le => by
    obtain ⟨rank, fitsX, fitsY⟩ := fits
    obtain ⟨inside, placedX, placedY⟩ := placed
    have left := climbs fitsX placedX (.of_op placedY.starts)
      (show Halts _ _ (.op op :: _) from .inl (by rw [left_above]; exact Nat.lt_succ_self _)) (Nat.le_trans (Nat.le_trans le rank) (Nat.le_of_eq (left_least op).symm))
    have right := settles_dots fitsY placedY ends (by have := rank_pos op; omega) (Nat.le_of_eq (right_least op).symm)
    rw [tokens, List.append_assoc]
    exact left.bind (remainder_binary (Nat.le_trans le rank) inside right ((ends.halts.mono two).settles _))
  | assign op lhs rhs, level, minPrec, fits, placed, ends, two, le => by
    obtain ⟨which, fitsL, fitsR⟩ := fits
    have small : minPrec ≤ 2 := by obtain rfl | rfl := which <;> exact Nat.le_trans le (by decide)
    have left := climbs fitsL placed.1 trivial
      (show Halts inTemplateArgs 3 (.assign op :: _) from Nat.lt_succ_self 2) small
    have right := settles_dots fitsR placed.2 ends (Nat.le_refl 2) (Nat.le_refl 2)
    rw [tokens, List.append_assoc]
    exact left.bind (remainder_assign small right ((ends.halts.mono two).settles _))
  | cond c thenTree elseTree, level, minPrec, fits, placed, ends, two, le => by
    obtain ⟨which, fitsC, fitsT, fitsE⟩ := fits
    obtain ⟨placedC, placedT, placedE⟩ := placed
    have small : minPrec ≤ 2 := by obtain rfl | rfl := which <;> exact Nat.le_trans le (by decide)
    have left := climbs fitsC placedC trivial
      (show Halts inTemplateArgs 3 (.question :: _) from Nat.lt_succ_self 2) small
    have middle := climbs fitsT placedT trivial trivial (Nat.le_refl 1)
    have halted : Halts inTemplateArgs 1 (.colon :: (elseTree.tokens spell ++ .ellipsis :: rest)) := trivial
    have right := settles_dots fitsE placedE ends (Nat.le_refl 2) (Nat.le_refl 2)
    rw [tokens, List.append_assoc, List.cons_append, List.append_assoc, List.cons_append]
    exact left.bind (remainder_cond small (placedT.starts.ne (Tok.not_starts rfl trivial)) (middle.settles halted) right
      ((ends.halts.mono two).settles _))

end Tree

/-! ### Lists of arguments -/

/-- An expression, with a `...` behind it or not. -/
structure Item where
  tree : Tree Operand
  dots : Bool

namespace Item

def tokens (i : Item) : List Tok := i.tree.tokens spell ++ if i.dots then [.ellipsis] else []

/-- What the parser makes of it. -/
def read (i : Item) : Expr := if i.dots then i.tree.withDots else i.tree.expr node

def Placed (names : Names) (inTemplateArgs : Bool) (i : Item) (rest : List Tok) : Prop :=
  if i.dots then i.tree.PlacedDots names inTemplateArgs rest else i.tree.Placed spell node names inTemplateArgs rest

end Item

/-- Where a list of arguments stands. -/
inductive Context where
  | call (inTemplateArgs : Bool)
  | subscript (inTemplateArgs : Bool)
  | list (inTemplateArgs : Bool)
  /-- The list is closed by a `>`, or by the first half of a `>>`. -/
  | template (shift : Bool)

namespace Context

def within : Context → Bool
  | call inside | subscript inside | list inside => inside
  | template _ => true

def close : Context → Tok
  | call _ => .rparen
  | subscript _ => .rbrack
  | list _ => .rbrace
  | template shift => .op (if shift then .shr else .gtr)

/-- What is left of the token that closes the list. -/
def left : Context → List Tok
  | template true => [.op .gtr]
  | _ => []

/-- What reads the list, behind its opening. -/
def parse (names : Names) (typeId : List Tok → Option (List Tok × List Tok)) : Context → Nat → List Tok → Option (List Expr × List Tok)
  | call inside, fuel, ts => parseArgs names fuel inside .rparen ts
  | subscript inside, fuel, ts => parseArgs names fuel inside .rbrack ts
  | list inside, fuel, ts => parseItems names fuel inside ts
  | template _, fuel, ts => parseTemplateArgs names typeId fuel ts

/-- An item is taken for an expression: no brace begins it, and it is no type-id. -/
def Enters (names : Names) (typeId : List Tok → Option (List Tok × List Tok)) : Context → List Tok → Prop
  | list _, ts => peek ts ≠ .lbrace
  | template _, ts => templateType names typeId ts = none
  | _, _ => True

/-- The tokens of a list, the one that closes it included. -/
def tokens (c : Context) : List Item → List Tok
  | [] => [c.close]
  | [i] => i.tokens ++ [c.close]
  | i :: j :: is => i.tokens ++ .op .comma :: c.tokens (j :: is)

/-- Every item is an expression of the grammar, and read as such. -/
def Placed (names : Names) (typeId : List Tok → Option (List Tok × List Tok)) (c : Context) : List Item → List Tok → Prop
  | [], _ => True
  | [i], rest => i.tree.Fits .assignment ∧ i.Placed names c.within (c.close :: rest) ∧
      c.Enters names typeId (i.tokens ++ c.close :: rest)
  | i :: j :: is, rest => (i.tree.Fits .assignment ∧ i.Placed names c.within (.op .comma :: (c.tokens (j :: is) ++ rest)) ∧
      c.Enters names typeId (i.tokens ++ .op .comma :: (c.tokens (j :: is) ++ rest))) ∧ c.Placed names typeId (j :: is) rest

end Context

/-- An item is read up to the comma or the token that closes the list. -/
theorem Item.settles {i : Item} (fits : i.tree.Fits .assignment) (placed : i.Placed names inTemplateArgs rest)
    (ends : Ends inTemplateArgs rest) (apart : Apart rest) :
    Settles (fun fuel => parseBinaryExpr names fuel inTemplateArgs 2 (i.tokens ++ rest)) (some (i.read, rest)) := by
  obtain ⟨x, dots⟩ := i
  unfold Item.Placed at placed
  cases dots with
  | true =>
    have := Tree.settles_dots fits placed ends (Nat.le_refl 2) (Nat.le_refl 2)
    simpa [Item.tokens, Item.read] using this
  | false =>
    have := (Tree.climbs fits placed apart ends.halts (Nat.le_refl 2)).settles ends.halts
    simpa [Item.tokens, Item.read] using this

theorem Item.Placed.starts {i : Item} (placed : i.Placed names inTemplateArgs rest) : (peek (i.tokens ++ rest)).starts := by
  obtain ⟨x, dots⟩ := i
  unfold Item.Placed at placed
  cases dots with
  | true => simpa [Item.tokens] using Tree.PlacedDots.starts placed
  | false => simpa [Item.tokens] using Tree.Placed.starts placed

theorem parseArgs_item {close : Tok} {ts us : List Tok} {x : Expr} {r : Option (List Expr × List Tok)} (opens : peek ts ≠ close)
    (read : Settles (fun fuel => parseBinaryExpr names fuel inTemplateArgs 2 ts) (some (x, us)))
    (behind : Settles (fun fuel => if peek us = .op .comma then
      (parseArgs names fuel inTemplateArgs close us.tail).map fun args => (x :: args.1, args.2)
      else (expect close us).map fun behind => ([x], behind)) r) :
    Settles (fun fuel => parseArgs names fuel inTemplateArgs close ts) r := by
  have all : Settles (fun fuel => (parseBinaryExpr names fuel inTemplateArgs 2 ts).bind fun arg =>
      if peek arg.2 = .op .comma then (parseArgs names fuel inTemplateArgs close arg.2.tail).map fun args => (arg.1 :: args.1, args.2)
      else (expect close arg.2).map fun behind => ([arg.1], behind)) r := read.bind behind
  exact .succ (fun fuel => by rw [parseArgs, if_neg opens]) all

theorem parseItems_item {ts us : List Tok} {x : Expr} {r : Option (List Expr × List Tok)} (opens : peek ts ≠ .rbrace)
    (noPeriod : peek ts ≠ .period) (noBrace : peek ts ≠ .lbrace)
    (read : Settles (fun fuel => parseBinaryExpr names fuel inTemplateArgs 2 ts) (some (x, us)))
    (behind : Settles (fun fuel => if peek us = .op .comma then
      (parseItems names fuel inTemplateArgs us.tail).map fun items => (x :: items.1, items.2)
      else (expect .rbrace us).map fun behind => ([x], behind)) r) :
    Settles (fun fuel => parseItems names fuel inTemplateArgs ts) r := by
  have all : Settles (fun fuel => (parseBinaryExpr names fuel inTemplateArgs 2 ts).bind fun item =>
      if peek item.2 = .op .comma then (parseItems names fuel inTemplateArgs item.2.tail).map fun items => (item.1 :: items.1, items.2)
      else (expect .rbrace item.2).map fun behind => ([item.1], behind)) r := read.bind behind
  exact .succ (fun fuel => by rw [parseItems, if_neg opens, if_neg noPeriod, if_neg noBrace]) all

variable {typeId : List Tok → Option (List Tok × List Tok)}

theorem parseTemplateArgs_item {ts us : List Tok} {x : Expr} {r : Option (List Expr × List Tok)}
    (opens : ¬ (peek ts = .op .gtr ∨ peek ts = .op .shr)) (noType : templateType names typeId ts = none)
    (read : Settles (fun fuel => parseBinaryExpr names fuel true 2 ts) (some (x, us)))
    (behind : Settles (fun fuel => if peek us = .op .comma then
      (parseTemplateArgs names typeId fuel us.tail).map fun args => (x :: args.1, args.2)
      else some ([x], consumeGreater us)) r) :
    Settles (fun fuel => parseTemplateArgs names typeId fuel ts) r := by
  have all : Settles (fun fuel => (parseBinaryExpr names fuel true 2 ts).bind fun arg =>
      if peek arg.2 = .op .comma then (parseTemplateArgs names typeId fuel arg.2.tail).map fun args => (arg.1 :: args.1, args.2)
      else some ([arg.1], consumeGreater arg.2)) r := read.bind behind
  exact .succ (fun fuel => by rw [parseTemplateArgs, if_neg opens, parseTemplateArg, noType]; rfl) all

namespace Context

variable {c : Context}

theorem ends_close (c : Context) (rest : List Tok) : Ends c.within (c.close :: rest) := by
  cases c with
  | template shift => cases shift <;> exact ⟨.inr ⟨rfl, rfl⟩, rfl⟩
  | _ => exact ⟨trivial, rfl⟩

theorem apart_close (c : Context) (rest : List Tok) : Apart (c.close :: rest) := by
  cases c with
  | template shift => cases shift <;> trivial
  | _ => trivial

theorem settles_nil (c : Context) (rest : List Tok) : Settles (fun fuel => c.parse names typeId fuel (c.close :: rest)) (some ([], c.left ++ rest)) := by
  refine .succ (g := fun _ => some ([], c.left ++ rest)) (fun fuel => ?_) (.const _)
  cases c with
  | template shift => cases shift <;> simp [parse, close, left, parseTemplateArgs, consumeGreater]
  | _ => simp [parse, close, left, parseArgs, parseItems]

theorem settles_last {ts : List Tok} {x : Expr} (starts : (peek ts).starts) (enters : c.Enters names typeId ts)
    (read : Settles (fun fuel => parseBinaryExpr names fuel c.within 2 ts) (some (x, c.close :: rest))) :
    Settles (fun fuel => c.parse names typeId fuel ts) (some ([x], c.left ++ rest)) := by
  cases c with
  | call inside => exact parseArgs_item (starts.ne (Tok.not_starts rfl trivial)) read (.const _)
  | subscript inside => exact parseArgs_item (starts.ne (Tok.not_starts rfl trivial)) read (.const _)
  | list inside =>
    exact parseItems_item (starts.ne (Tok.not_starts rfl trivial)) (starts.ne (Tok.not_starts rfl trivial)) enters read (.const _)
  | template shift =>
    have opens : ¬ (peek ts = .op .gtr ∨ peek ts = .op .shr) := fun closes => closes.elim
      (starts.ne (Tok.not_starts rfl trivial)) (starts.ne (Tok.not_starts rfl trivial))
    cases shift <;> exact parseTemplateArgs_item opens enters read (.const _)

theorem settles_cons {ts us vs : List Tok} {x : Expr} {es : List Expr} (starts : (peek ts).starts) (enters : c.Enters names typeId ts)
    (read : Settles (fun fuel => parseBinaryExpr names fuel c.within 2 ts) (some (x, .op .comma :: us)))
    (behind : Settles (fun fuel => c.parse names typeId fuel us) (some (es, vs))) :
    Settles (fun fuel => c.parse names typeId fuel ts) (some (x :: es, vs)) := by
  cases c with
  | call inside => exact parseArgs_item (starts.ne (Tok.not_starts rfl trivial)) read behind.map
  | subscript inside => exact parseArgs_item (starts.ne (Tok.not_starts rfl trivial)) read behind.map
  | list inside =>
    exact parseItems_item (starts.ne (Tok.not_starts rfl trivial)) (starts.ne (Tok.not_starts rfl trivial)) enters read behind.map
  | template shift =>
    have opens : ¬ (peek ts = .op .gtr ∨ peek ts = .op .shr) := fun closes => closes.elim
      (starts.ne (Tok.not_starts rfl trivial)) (starts.ne (Tok.not_starts rfl trivial))
    exact parseTemplateArgs_item opens enters read behind.map

theorem settles_items (c : Context) : ∀ {items : List Item} {rest : List Tok}, c.Placed names typeId items rest →
    Settles (fun fuel => c.parse names typeId fuel (c.tokens items ++ rest)) (some (items.map Item.read, c.left ++ rest))
  | [], rest, _ => settles_nil c rest
  | [i], rest, placed => by
    obtain ⟨fits, placed, enters⟩ := placed
    have ends := c.ends_close rest
    rw [tokens, List.append_assoc, List.singleton_append]
    exact settles_last placed.starts enters (Item.settles fits placed ends (c.apart_close rest))
  | i :: j :: is, rest, placed => by
    obtain ⟨⟨fits, placed, enters⟩, others⟩ := placed
    have ends : Ends c.within (.op .comma :: (c.tokens (j :: is) ++ rest)) := ⟨.inl (Nat.lt_succ_self 1), rfl⟩
    rw [tokens, List.append_assoc, List.cons_append]
    exact settles_cons placed.starts enters (Item.settles fits placed ends trivial) (settles_items c others)

end Context

/-! ### Patterns -/

/-- The `...` takes the whole expression: it has no binary operator, assignment or conditional outside of brackets, and it
does not end in a name, unless it is one. -/
def Tree.kept : Tree Operand → Bool
  | .operand (.member _ _ _ _) => false
  | .operand _ | .paren _ => true
  | .unary _ x => !x.named
  | _ => false

theorem pattern_withDots (x : Tree Operand) : x.withDots.pattern = some (x.expr node) ↔ x.kept = true := by
  cases x with
  | operand u => cases u <;> simp [Tree.withDots, Operand.withDots, Expr.pattern, Tree.expr, Operand.node, Tree.kept]
  | paren x => simp [Tree.withDots, Expr.pattern, Tree.expr, Tree.kept]
  | unary op x =>
    cases named : x.named <;> simp [Tree.withDots, named, Expr.pattern, Tree.expr, Tree.kept]
  | binary op x y => simp [Tree.withDots, Expr.pattern, Tree.kept]
  | assign op lhs rhs => simp [Tree.withDots, Expr.pattern, Tree.kept]
  | cond c t e => simp [Tree.withDots, Expr.pattern, Tree.kept]

/-- **Each item `E...` of a list is read as a pack expansion of all of `E`.** -/
def Expanded (names : Names) (typeId : List Tok → Option (List Tok × List Tok)) (c : Context) (items : List Item) (rest : List Tok) : Prop :=
  ∃ es left, Settles (fun fuel => c.parse names typeId fuel (c.tokens items ++ rest)) (some (es, left)) ∧
    List.Forall₂ (fun i e => i.dots = true → e.pattern = some (i.tree.expr node)) items es

/-- **The patterns are whole exactly where no operator and no name but a lone one comes before the `...`.** -/
theorem expanded_iff {typeId : List Tok → Option (List Tok × List Tok)} {c : Context} {items : List Item}
    (placed : c.Placed names typeId items rest) :
    Expanded names typeId c items rest ↔ ∀ i ∈ items, i.dots = true → i.tree.kept = true := by
  have read := c.settles_items placed
  have patterns : List.Forall₂ (fun i e => i.dots = true → e.pattern = some (i.tree.expr node)) items (items.map Item.read) ↔
      ∀ i ∈ items, i.dots = true → i.tree.kept = true := by
    rw [List.forall₂_map_right_iff, List.forall₂_same]
    refine forall₂_congr fun i _ => ?_
    refine imp_congr_right fun dots => ?_
    rw [Item.read, if_pos dots, pattern_withDots]
  constructor
  · rintro ⟨es, left, settles, all⟩
    obtain ⟨rfl, -⟩ := Prod.mk.inj (Option.some.inj (settles.unique read))
    exact patterns.mp all
  · intro kept
    exact ⟨_, _, read, patterns.mpr kept⟩

/-- `f(g(a)...)`: the pattern is the call. -/
theorem call_expanded : Expanded (fun _ => .value) (fun _ => none) (.call false)
    [⟨.operand (.closed [.ident 0, .lparen, .ident 1, .rparen] (.call (.name 0) [.name 1])), true⟩] [.semi] := by
  have placed : (Context.call false).Placed (fun _ => .value) (fun _ => none)
      [⟨.operand (.closed [.ident 0, .lparen, .ident 1, .rparen] (.call (.name 0) [.name 1])), true⟩] [.semi] :=
    ⟨trivial, ⟨8, fun m le => by obtain ⟨k, rfl⟩ := Nat.exists_eq_add_of_le' le; rfl⟩, trivial⟩
  exact (expanded_iff placed).mpr (by simp [Tree.kept])

/-- `f(a + b...)`: the pattern is `b`. -/
theorem sum_not_expanded : ¬ Expanded (fun _ => .value) (fun _ => none) (.call false)
    [⟨.binary .add (.operand (.name 0)) (.operand (.name 1)), true⟩] [.semi] := by
  rintro ⟨es, left, settles, all⟩
  have read : Settles (fun fuel => (Context.call false).parse (fun _ => .value) (fun _ => none) fuel
      [.ident 0, .op .add, .ident 1, .ellipsis, .rparen, .semi]) (some ([.binary .add (.name 0) (.packName 1)], [.semi])) :=
    ⟨12, fun m le => by obtain ⟨k, rfl⟩ := Nat.exists_eq_add_of_le' le; rfl⟩
  obtain ⟨rfl, -⟩ := Prod.mk.inj (Option.some.inj (settles.unique read))
  cases all with
  | cons first _ => exact absurd (first rfl) (by simp [Expr.pattern])

end Vcx.Parse
