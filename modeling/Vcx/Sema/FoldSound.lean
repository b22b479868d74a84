import Vcx.Sema.Fold
import Vcx.Sema.PacksSound

/-!
# Fold-expressions, proved

Written out, a fold is a comb of operands: from its spine the operands are read back, so two folds of one shape are
equal only if their operands are. Combining values from one end is evaluating the comb: where a `&&` or `||` stops,
the rest cannot change the value any more.
-/

namespace Vcx.Fold
set_option autoImplicit false
open Vcx.Packs

variable {s : Scope} {form : Form} {op : Op}

/-! ### The operands -/

/-- The operands from left to right. -/
def Form.seq (elems : List Term) : Form → List Tree
  | .right _ | .left _ => elems.map .copy
  | .rightInit _ i => elems.map .copy ++ [.init i]
  | .leftInit i _ => .init i :: elems.map .copy

def Form.leftward : Form → Bool
  | .right _ | .rightInit _ _ => false
  | .left _ | .leftInit _ _ => true

/-- Operands associated to the side of the fold. -/
def Form.associate (form : Form) (join : Tree → Tree → Tree) (x : Tree) (xs : List Tree) : Tree :=
  if form.leftward then foldLeft join x xs else foldRight join x xs

attribute [local simp] Form.seq

theorem seq_length (elems : List Term) : (form.seq elems).length = elems.length + form.initial.toList.length := by
  cases form <;> simp [Form.seq, Form.initial]

theorem seq_injective {a b : List Term} (eq : form.seq a = form.seq b) : a = b := by
  have copies : a.map Tree.copy = b.map Tree.copy := by
    cases form with
    | right | left => exact eq
    | rightInit _ i => exact List.append_cancel_right eq
    | leftInit i _ => exact (List.cons.inj eq).2
  exact List.map_injective_iff.2 (fun _ _ => Tree.copy.inj) copies

/-- An operand is no operator's expression. -/
def Tree.isLeaf : Tree → Bool
  | .copy _ | .init _ => true
  | _ => false

theorem seq_leaves (elems : List Term) : ∀ t ∈ form.seq elems, t.isLeaf = true := by
  intro t mem
  cases form <;> simp only [Form.seq, List.mem_append, List.mem_cons, List.mem_map, List.not_mem_nil, or_false] at mem
  case right | left =>
    obtain ⟨_, _, rfl⟩ := mem
    rfl
  case rightInit =>
    rcases mem with ⟨_, _, rfl⟩ | rfl <;> rfl
  case leftInit =>
    rcases mem with rfl | ⟨_, _, rfl⟩ <;> rfl

theorem prescribed_eq : prescribed s form op = (expansion s form.pattern).bind fun elems => match form.seq elems with
    | [] => identity op
    | x :: xs => some (form.associate (join op) x xs) := by
  unfold prescribed
  congr 1
  funext elems
  cases form with
  | right | left | rightInit => cases elems <;> rfl
  | leftInit => rfl

/-! ### The choice of the pattern -/

theorem mentionsPack_of_isPack {e : Expr} {m : String} (mem : m ∈ idents e) (pack : isPack s m = true) : mentionsPack s e = true := by
  have deduped := List.mem_dedup.2 mem
  unfold mentionsPack
  rcases isPack_iff.1 pack with ⟨es, bound⟩ | ⟨es, isOpen, bound⟩
  · have found : (m, es) ∈ packsIn s (idents e) := List.mem_filterMap.2 ⟨m, deduped, by rw [bound]⟩
    simp [List.ne_nil_of_mem found]
  · have found : (m, es, isOpen) ∈ valuePacksIn s (idents e) := List.mem_filterMap.2 ⟨m, deduped, by rw [bound]⟩
    simp [List.ne_nil_of_mem found]

theorem Proper.mentions (proper : Proper s form) : mentionsPack s form.pattern = true := by
  obtain ⟨n, some_⟩ := proper.pattern
  obtain ⟨⟨m, mem, pack⟩, -⟩ := copies_iff.1 some_
  exact mentionsPack_of_isPack (outer_subset mem) pack

theorem choose_eq (mentions : Expr → Bool) (op : Op) (pattern : mentions form.pattern = true)
    (choice : ∀ i e, form = .leftInit i e → mentions i = false) :
    choose mentions (form.parsed op) = some (form.pattern, form.initial, form.leftward) := by
  unfold choose
  cases form with
  | right e | rightInit e i =>
    have filtered : (some e).filter mentions = some e := by rw [Option.filter_some, if_pos (show mentions e = true from pattern)]
    simp only [Form.parsed, filtered]
    rfl
  | left e =>
    have filtered : (some e).filter mentions = some e := by rw [Option.filter_some, if_pos (show mentions e = true from pattern)]
    simp only [Form.parsed, filtered, Option.filter_none, Option.map_some]
    rfl
  | leftInit i e =>
    have filtered : (some e).filter mentions = some e := by rw [Option.filter_some, if_pos (show mentions e = true from pattern)]
    have passed : (some i).filter mentions = none := by simp [choice i e rfl]
    simp only [Form.parsed, filtered, passed, Option.map_some]
    rfl

theorem expandFoldExpr_eq (proper : Proper s form) (choice : ∀ i e, form = .leftInit i e → mentionsPack s i = false) :
    expandFoldExpr s (form.parsed op) = (expandOne s form.pattern).bind fun elems => match form.seq elems with
      | [] => emptyFoldValue op
      | x :: xs => some (form.associate (.binary op) x xs) := by
  rw [expandFoldExpr, choose_eq (mentionsPack s) op proper.mentions choice, Option.bind_some]
  refine congrArg (fun k => (expandOne s form.pattern).bind k) (funext fun elems => ?_)
  cases form with
  | right | left | rightInit => cases elems <;> rfl
  | leftInit => rfl

/-! ### Combs -/

/-- The operands of a comb to the left. -/
def leftSpine : Tree → List Tree
  | .binary _ x y => leftSpine x ++ [y]
  | t => [t]

def rightSpine : Tree → List Tree
  | .binary _ x y => x :: rightSpine y
  | t => [t]

theorem leftSpine_foldLeft (x : Tree) (xs : List Tree) : leftSpine (foldLeft (.binary op) x xs) = leftSpine x ++ xs := by
  induction xs generalizing x with
  | nil => exact (List.append_nil _).symm
  | cons y ys ih =>
    have step := ih (.binary op x y)
    rw [leftSpine, List.append_assoc] at step
    exact step

theorem rightSpine_foldRight {x : Tree} {xs : List Tree} (leaves : ∀ t ∈ x :: xs, t.isLeaf = true) :
    rightSpine (foldRight (.binary op) x xs) = x :: xs := by
  induction xs generalizing x with
  | nil =>
    have leaf := leaves x List.mem_cons_self
    cases x <;> first | rfl | cases leaf
  | cons y ys ih => rw [foldRight, rightSpine, ih fun t mem => leaves t (List.mem_cons_of_mem _ mem)]

theorem leftSpine_leaf {x : Tree} (leaf : x.isLeaf = true) : leftSpine x = [x] := by
  cases x <;> first | rfl | cases leaf

/-- Folds of one shape are equal only if their operands are. -/
theorem associate_injective {x y : Tree} {xs ys : List Tree} (leaves : ∀ t ∈ x :: xs, t.isLeaf = true)
    (leaves' : ∀ t ∈ y :: ys, t.isLeaf = true) (eq : form.associate (.binary op) x xs = form.associate (.binary op) y ys) :
    x :: xs = y :: ys := by
  unfold Form.associate at eq
  split at eq
  · have spines := congrArg leftSpine eq
    rw [leftSpine_foldLeft, leftSpine_foldLeft, leftSpine_leaf (leaves x List.mem_cons_self),
      leftSpine_leaf (leaves' y List.mem_cons_self)] at spines
    exact spines
  · have spines := congrArg rightSpine eq
    rwa [rightSpine_foldRight leaves, rightSpine_foldRight leaves'] at spines

/-- The top of a fold of two operands or more. -/
theorem associate_top {f : Tree → Tree → Tree} (x y : Tree) (ys : List Tree) : ∃ a b, form.associate f x (y :: ys) = f a b := by
  unfold Form.associate
  split
  · rw [foldLeft, ← List.dropLast_append_getLast (List.cons_ne_nil y ys), List.foldl_append]
    exact ⟨_, _, rfl⟩
  · exact ⟨_, _, rfl⟩

/-! ### The expression written out -/

theorem Proper.expansion (proper : Proper s form) : ∃ elems, expansion s form.pattern = some elems ∧
    (form.seq elems).length = form.operands s := by
  obtain ⟨n, some_⟩ := proper.pattern
  refine ⟨_, by rw [Packs.expansion, some_]; rfl, ?_⟩
  rw [seq_length, List.length_map, List.length_range, Form.operands, some_, Option.getD_some]

/-- Copies that are made at all are as many as there should be. -/
theorem Proper.expandOne_length (proper : Proper s form) {elems : List Term} (made : expandOne s form.pattern = some elems) :
    (form.seq elems).length = form.operands s := by
  obtain ⟨n, some_⟩ := proper.pattern
  obtain ⟨k, all, rfl⟩ := Option.map_eq_some_iff.1 made
  obtain ⟨⟨m, mem, pack⟩, same⟩ := copies_iff.1 some_
  have length := (copies_iff.1 all).2 m (outer_subset mem) pack
  obtain rfl : k = n := by simpa [same m mem pack] using length.symm
  rw [seq_length, List.length_map, List.length_range, Form.operands, some_, Option.getD_some]

theorem kept_iff {elems : List Term} (expands : Packs.expansion s form.pattern = some elems) :
    Packs.Kept s form.pattern ↔ expandOne s form.pattern = some elems := by
  rw [← expands]
  exact ⟨expandOne_of_kept, kept_of_expansion⟩

theorem written_none (proper : Proper s form) (choice : ∀ i e, form = .leftInit i e → mentionsPack s i = false)
    (zero : form.operands s = 0) : expandFoldExpr s (form.parsed op) = prescribed s form op ↔
      op.plain = true ∨ Packs.Kept s form.pattern ∧ op ≠ .comma := by
  obtain ⟨elems, expands, length⟩ := proper.expansion
  have empty : form.seq elems = [] := List.length_eq_zero_iff.1 (length.trans zero)
  rw [expandFoldExpr_eq proper choice, prescribed_eq, expands, Option.bind_some, empty, kept_iff expands]
  cases made : expandOne s form.pattern with
  | none => cases op <;> simp [identity, Op.plain]
  | some elems' =>
    have empty' : form.seq elems' = [] := List.length_eq_zero_iff.1 ((proper.expandOne_length made).trans zero)
    have same : elems' = elems := seq_injective (empty'.trans empty.symm)
    rw [Option.bind_some, empty', same]
    cases op <;> simp [identity, emptyFoldValue, Op.plain]

theorem written_some (proper : Proper s form) (choice : ∀ i e, form = .leftInit i e → mentionsPack s i = false)
    (some_ : form.operands s ≠ 0) : expandFoldExpr s (form.parsed op) = prescribed s form op ↔
      Packs.Kept s form.pattern ∧ (2 ≤ form.operands s → op.isAssign = false) := by
  obtain ⟨elems, expands, length⟩ := proper.expansion
  obtain ⟨x, xs, seq⟩ := List.exists_cons_of_ne_nil (List.ne_nil_of_length_pos (by omega : 0 < (form.seq elems).length))
  rw [expandFoldExpr_eq proper choice, prescribed_eq, expands, Option.bind_some, seq, kept_iff expands]
  cases made : expandOne s form.pattern with
  | none => simp
  | some elems' =>
    have length' := proper.expandOne_length made
    obtain ⟨y, ys, seq'⟩ := List.exists_cons_of_ne_nil (List.ne_nil_of_length_pos (by omega : 0 < (form.seq elems').length))
    have leaves : ∀ t ∈ x :: xs, t.isLeaf = true := seq ▸ seq_leaves elems
    have leaves' : ∀ t ∈ y :: ys, t.isLeaf = true := seq' ▸ seq_leaves elems'
    have same : some elems' = some elems ↔ y :: ys = x :: xs := by
      rw [← seq, ← seq', Option.some.injEq]
      exact ⟨fun eq => eq ▸ rfl, seq_injective⟩
    have total : ys.length = xs.length := by
      have := length.trans length'.symm
      rw [seq, seq'] at this
      simpa using this.symm
    simp only [Option.bind_some, seq', Option.some.injEq]
    rw [← Option.some.injEq elems' elems, same]
    rw [seq, List.length_cons] at length
    cases assigns : op.isAssign with
    | false =>
      have plain : join op = Tree.binary op := by
        funext a b
        simp [join, assigns]
      simp only [plain, implies_true, and_true]
      exact ⟨associate_injective leaves' leaves, fun eq => by obtain ⟨rfl, rfl⟩ := List.cons.inj eq; rfl⟩
    | true =>
      cases xs with
      | nil =>
        obtain rfl := List.length_eq_zero_iff.1 total
        have one : ¬ 2 ≤ form.operands s := by simp [← length]
        simp [one, Form.associate, foldLeft, foldRight]
      | cons z zs =>
        -- an assignment has been made a binary expression
        obtain ⟨w, ws, rfl⟩ := List.exists_cons_of_length_eq_add_one total
        have two : 2 ≤ form.operands s := by simp [← length]
        obtain ⟨a, b, top⟩ := associate_top (f := join op) x z zs
        obtain ⟨c, d, top'⟩ := associate_top (f := Tree.binary op) y w ws
        rw [top, top', join, if_pos assigns]
        simp [two]

/-- The leftmost operand. -/
def firstOperand : Tree → Tree
  | .binary _ x _ | .assign _ x _ => firstOperand x
  | t => t

theorem firstOperand_foldRight (x : Tree) (xs : List Tree) : firstOperand (foldRight (.binary op) x xs) = firstOperand x := by
  cases xs <;> rfl

theorem firstOperand_foldLeft (x : Tree) (xs : List Tree) : firstOperand (foldLeft (join op) x xs) = firstOperand x := by
  induction xs generalizing x with
  | nil => rfl
  | cons y ys ih =>
    refine (ih (join op x y)).trans ?_
    unfold join
    split <;> rfl

/-- An initial value taken for the pattern changes the expression. -/
theorem written_choice {i e : Expr} (proper : Proper s (.leftInit i e)) (mentions : mentionsPack s i = true) :
    expandFoldExpr s (Form.parsed op (.leftInit i e)) ≠ prescribed s (.leftInit i e) op := by
  obtain ⟨elems, expands, -⟩ := proper.expansion
  have differ : e ≠ i := by
    rintro rfl
    obtain ⟨n, some_⟩ := proper.pattern
    obtain ⟨⟨m, mem, pack⟩, -⟩ := copies_iff.1 some_
    rw [proper.initial e rfl m mem] at pack
    cases pack
  have chosen : choose (mentionsPack s) (Form.parsed op (.leftInit i e)) = some (i, some e, false) := by
    have filtered : (some i).filter (mentionsPack s) = some i := by rw [Option.filter_some, if_pos mentions]
    simp only [choose, Form.parsed, filtered]
  rw [expandFoldExpr, chosen, prescribed_eq, expands]
  simp only [Option.bind_some, Form.seq]
  cases expandOne s i with
  | none => simp
  | some copies =>
    -- the first operand written out is a copy, or the pattern itself, and should be the initial value
    obtain ⟨y, ys, seq, head⟩ : ∃ y ys, copies.map Tree.copy ++ [.init e] = y :: ys ∧ firstOperand y ≠ .init i := by
      cases copies with
      | nil => exact ⟨_, _, rfl, fun eq => differ (Tree.init.inj eq)⟩
      | cons c cs => exact ⟨_, _, rfl, fun eq => by cases eq⟩
    simp only [Option.bind_some, seq, Bool.false_eq_true, ↓reduceIte]
    intro eq
    have first := congrArg firstOperand (Option.some.inj eq)
    rw [firstOperand_foldRight] at first
    exact head (first.trans (firstOperand_foldLeft _ _))

/-- **A fold is written out as prescribed exactly when it is one of `Kept`.** -/
theorem written_iff (proper : Proper s form) (op : Op) :
    expandFoldExpr s (form.parsed op) = prescribed s form op ↔ Kept s form op := by
  by_cases choice : ∀ i e, form = .leftInit i e → mentionsPack s i = false
  · by_cases zero : form.operands s = 0
    · rw [written_none proper choice zero]
      constructor
      · rintro (plain | ⟨kept, comma⟩)
        · exact ⟨choice, .inl ⟨zero, plain⟩⟩
        · exact ⟨choice, .inr ⟨kept, fun _ => comma, by omega⟩⟩
      · rintro ⟨-, ⟨-, plain⟩ | ⟨kept, comma, -⟩⟩
        · exact .inl plain
        · exact .inr ⟨kept, comma zero⟩
    · rw [written_some proper choice zero]
      constructor
      · rintro ⟨kept, assigns⟩
        exact ⟨choice, .inr ⟨kept, fun none_ => absurd none_ zero, assigns⟩⟩
      · rintro ⟨-, ⟨none_, -⟩ | ⟨kept, -, assigns⟩⟩
        · exact absurd none_ zero
        · exact ⟨kept, assigns⟩
  · refine ⟨fun eq => absurd eq ?_, fun kept => absurd kept.choice choice⟩
    simp only [not_forall] at choice
    obtain ⟨i, e, rfl, mentions⟩ := choice
    exact written_choice proper (by simpa using mentions)

/-! ### Values -/

variable {V S : Type} {ev : Evaluator V S}

/-- Operands one after another. -/
def evalSeq (s : Scope) (ev : Evaluator V S) : List Tree → S → Option (List V × S)
  | [], st => some ([], st)
  | t :: ts, st => (evalTree s ev t st).bind fun (v, st) => (evalSeq s ev ts st).map fun (vs, st) => (v :: vs, st)

attribute [local simp] evalSeq

theorem evalSeq_copies (elems : List Term) (st : S) : evalSeq s ev (elems.map .copy) st = ev.evalAll elems st := by
  induction elems generalizing st with
  | nil => rfl
  | cons t ts ih =>
    simp only [List.map_cons, evalSeq, Evaluator.evalAll, evalTree_copy, ih]

theorem evalSeq_append (xs ys : List Tree) (st : S) : evalSeq s ev (xs ++ ys) st =
    (evalSeq s ev xs st).bind fun (vs, st) => (evalSeq s ev ys st).map fun (ws, st) => (vs ++ ws, st) := by
  induction xs generalizing st with
  | nil =>
    simp only [List.nil_append, evalSeq, Option.bind_some]
    exact Option.map_id'.symm
  | cons x xs ih =>
    simp only [List.cons_append, evalSeq, ih]
    cases evalTree s ev x st with
    | none => rfl
    | some r =>
      cases first : evalSeq s ev xs r.2 with
      | none => simp [first]
      | some q => simp [first, Option.map_map, Function.comp_def]

/-- The value does not depend on what comes further to the right. -/
def absorbs (ev : Evaluator V S) (op : Op) (v : V) : Prop :=
  op = .land ∧ ev.toBool v = false ∨ op = .lor ∧ ev.toBool v = true

/-- An operator's expression has the value combined from its operands' values, unless its left operand decides. -/
theorem evalTree_join {x y : Tree} {st st₁ st₂ : S} {v w r : V} (left : evalTree s ev x st = some (v, st₁))
    (right : evalTree s ev y st₁ = some (w, st₂) ∨ absorbs ev op v) (combined : ev.combine op v w = some r) :
    ∃ st', evalTree s ev (join op x y) st = some (r, st') ∧ (st' = st₂ ∨ absorbs ev op r) := by
  cases op with
  | land =>
    simp only [Evaluator.combine, Option.some.injEq] at combined
    subst combined
    cases first : ev.toBool v with
    | false => exact ⟨st₁, by simp [join, Op.isAssign, evalTree, left, first], .inr (.inl ⟨rfl, by simp [ev.toBool_newBool]⟩)⟩
    | true =>
      have right := right.resolve_right (by simp [absorbs, first])
      exact ⟨st₂, by simp [join, Op.isAssign, evalTree, left, first, right], .inl rfl⟩
  | lor =>
    simp only [Evaluator.combine, Option.some.injEq] at combined
    subst combined
    cases first : ev.toBool v with
    | true => exact ⟨st₁, by simp [join, Op.isAssign, evalTree, left, first], .inr (.inr ⟨rfl, by simp [ev.toBool_newBool]⟩)⟩
    | false =>
      have right := right.resolve_right (by simp [absorbs, first])
      exact ⟨st₂, by simp [join, Op.isAssign, evalTree, left, first, right], .inl rfl⟩
  | comma =>
    have right := right.resolve_right (by simp [absorbs])
    obtain rfl : w = r := Option.some.inj combined
    exact ⟨st₂, by simp [join, Op.isAssign, evalTree, left, right], .inl rfl⟩
  | binary k =>
    have right := right.resolve_right (by simp [absorbs])
    have combined : ev.binaryOp (.binary k) v w = some r := combined
    exact ⟨st₂, by simp [join, Op.isAssign, evalTree, left, right, combined], .inl rfl⟩
  | assign k =>
    have combined : ev.binaryOp (.assign k) v w = some r := combined
    rw [ev.no_assign] at combined
    cases combined

theorem combineRight_eval {x : Tree} {xs : List Tree} {st st' : S} {v r : V} {vs : List V}
    (values : evalSeq s ev (x :: xs) st = some (v :: vs, st')) (combined : combineRight (ev.combine op) v vs = some r) :
    ∃ st'', evalTree s ev (foldRight (join op) x xs) st = some (r, st'') := by
  induction xs generalizing x st v vs r with
  | nil =>
    simp only [evalSeq, Option.map_some, Option.bind_eq_some_iff, Option.some.injEq, Prod.mk.injEq, List.cons.injEq] at values
    obtain ⟨⟨u, st₁⟩, here, ⟨rfl, rfl⟩, rfl⟩ := values
    obtain rfl : u = r := Option.some.inj combined
    exact ⟨_, here⟩
  | cons y ys ih =>
    rw [evalSeq, Option.bind_eq_some_iff] at values
    obtain ⟨⟨u, st₁⟩, here, others⟩ := values
    obtain ⟨⟨ws, st₂⟩, rest, eq⟩ := Option.map_eq_some_iff.1 others
    clear others
    simp only [Prod.mk.injEq, List.cons.injEq] at eq
    obtain ⟨⟨rfl, rfl⟩, rfl⟩ := eq
    cases ws with
    | nil =>
      rw [evalSeq, Option.bind_eq_some_iff] at rest
      obtain ⟨_, _, last⟩ := rest
      obtain ⟨_, _, eq⟩ := Option.map_eq_some_iff.1 last
      cases eq
    | cons w ws =>
      obtain ⟨q, inner, outer⟩ := Option.bind_eq_some_iff.1 combined
      obtain ⟨st₃, right⟩ := ih rest inner
      obtain ⟨st₄, whole, -⟩ := evalTree_join here (.inl right) outer
      exact ⟨st₄, whole⟩

/-- The expression so far has the value so far; and it leaves the same objects, unless that value decides. -/
theorem combineLeft_eval {x : Tree} {xs : List Tree} {st st₁ st₂ st' : S} {v r : V} {vs : List V}
    (left : evalTree s ev x st = some (v, st₁)) (same : st₁ = st₂ ∨ absorbs ev op v) (values : evalSeq s ev xs st₂ = some (vs, st'))
    (combined : combineLeft (ev.combine op) v vs = some r) : ∃ st'', evalTree s ev (foldLeft (join op) x xs) st = some (r, st'') := by
  induction xs generalizing x v st₁ st₂ vs with
  | nil =>
    cases values
    obtain rfl : v = r := Option.some.inj combined
    exact ⟨_, left⟩
  | cons y ys ih =>
    rw [evalSeq, Option.bind_eq_some_iff] at values
    obtain ⟨⟨w, st₃⟩, here, others⟩ := values
    obtain ⟨⟨ws, st₄⟩, rest, eq⟩ := Option.map_eq_some_iff.1 others
    clear others
    simp only [Prod.mk.injEq] at eq
    obtain ⟨rfl, rfl⟩ := eq
    obtain ⟨q, step, combined⟩ := Option.bind_eq_some_iff.1 combined
    have right : evalTree s ev y st₁ = some (w, st₃) ∨ absorbs ev op v := by
      rcases same with rfl | decides
      · exact .inl here
      · exact .inr decides
    obtain ⟨st₅, joined, same'⟩ := evalTree_join left right step
    exact ih joined same' rest combined

/-! ### Constants -/

/-- The scopes of the two expansions are the same where the pattern mentions no function parameter packs. -/
theorem boundTypes_eq {names : List String} (values : valuePacksIn s names = [])
    (typed : ∀ p ∈ packsIn s names, ∀ v, .value none v ∉ p.2) (i : Nat) : boundTypes s names i = bound s names i := by
  rw [boundTypes, bound, values, List.filterMap_nil, List.nil_append]
  congr 1
  refine List.filterMap_congr fun p mem => ?_
  cases at_ : p.2[i]? with
  | none => rfl
  | some x =>
    cases x with
    | type t => rfl
    | value t v =>
      cases t with
      | some t => rfl
      | none => exact absurd (List.mem_of_getElem? at_) (typed p mem v)

/-- The elements of a constant fold are the copies of its pattern. -/
theorem elements_eq (kept : Packs.Kept s form.pattern) (values : valuePacksIn s (idents form.pattern) = [])
    (typed : ∀ p ∈ packsIn s (idents form.pattern), ∀ v, .value none v ∉ p.2) :
    (measure none ((packsIn s (idents form.pattern)).map fun p => some p.2.length)).map (fun n =>
      (List.range n).map fun i => check form.pattern (boundTypes s (idents form.pattern) i)) = expansion s form.pattern := by
  rw [← expandOne_of_kept kept, expandOne, copies, values, List.map_nil, List.append_nil]
  simp only [boundTypes_eq values typed]

theorem operands_eval (quiet : ∀ i e, form = .leftInit i e → ∃ r : Option V, ∀ st, ev.eval (check i s) st = r.map fun v => (v, st))
    {elems : List Term} {vs ws : List V} {st st₁ st₂ : S} (values : ev.evalAll elems st = some (vs, st₁))
    (init : (match form.initial with
      | none => some (vs, st₁)
      | some i => (ev.eval (check i s) st₁).map fun (v, st) => (if form.leftward then v :: vs else vs ++ [v], st)) = some (ws, st₂)) :
    evalSeq s ev (form.seq elems) st = some (ws, st₂) := by
  rw [← evalSeq_copies (s := s)] at values
  cases form with
  | right | left =>
    cases init
    exact values
  | rightInit e i =>
    obtain ⟨⟨v, st₃⟩, last, eq⟩ := Option.map_eq_some_iff.1 init
    obtain ⟨rfl, rfl⟩ := Prod.mk.inj eq
    simp only [Form.seq, evalSeq_append, values, Option.bind_some, evalSeq, evalTree, last, Option.map_some]
    rfl
  | leftInit i e =>
    obtain ⟨r, quiet⟩ := quiet i e rfl
    obtain ⟨⟨v, st₃⟩, last, eq⟩ := Option.map_eq_some_iff.1 init
    obtain ⟨rfl, rfl⟩ := Prod.mk.inj eq
    rw [quiet] at last
    obtain ⟨u, rfl, eq⟩ := Option.map_eq_some_iff.1 last
    obtain ⟨rfl, rfl⟩ := Prod.mk.inj eq
    simp only [Form.seq, evalSeq, evalTree, quiet, Option.map_some, Option.bind_some, values]
    rfl

/-- **A constant that is computed for a fold is the value of the expression that it is written out as.** -/
theorem constant_eq (proper : Proper s form) (constant : Constant s ev form) {st st' : S} {r : V}
    (computed : expandFold s ev (form.parsed op) st = some (r, st')) :
    ∃ t st'', prescribed s form op = some t ∧ evalTree s ev t st = some (r, st'') := by
  obtain ⟨kept, choice, kind, quiet⟩ := constant
  rcases kind with ⟨noValues, typed⟩ | ⟨noTypes, initTypes⟩
  · have pattern : !(packsIn s (idents form.pattern)).isEmpty := by
      have mentions := proper.mentions
      simpa [mentionsPack, noValues] using mentions
    have chosen := choose_eq (fun e => !(packsIn s (idents e)).isEmpty) op pattern
      fun i e eq => by simp [choice i e eq]
    have elements := elements_eq kept noValues typed
    have parsed : (form.parsed op).op = op := by cases form <;> rfl
    rw [expandFold, chosen, Option.bind_some] at computed
    obtain ⟨n, length, computed⟩ := Option.bind_eq_some_iff.1 computed
    obtain ⟨⟨vs, st₁⟩, values, computed⟩ := Option.bind_eq_some_iff.1 computed
    obtain ⟨⟨ws, st₂⟩, operands, computed⟩ := Option.bind_eq_some_iff.1 computed
    obtain ⟨q, combined, eq⟩ := Option.map_eq_some_iff.1 computed
    obtain ⟨rfl, rfl⟩ := Prod.mk.inj eq
    rw [length, Option.map_some] at elements
    have all := operands_eval quiet values operands
    rw [prescribed_eq, ← elements, Option.bind_some]
    rw [parsed] at combined
    cases seq : form.seq ((List.range n).map fun i => check form.pattern (boundTypes s (idents form.pattern) i)) with
    | nil =>
      rw [seq] at all
      cases all
      cases op <;> simp_all [emptyValue, identity, evalTree]
    | cons x xs =>
      rw [seq] at all
      obtain ⟨w, ws', rfl⟩ : ∃ w ws', ws = w :: ws' := by
        rw [evalSeq, Option.bind_eq_some_iff] at all
        obtain ⟨_, _, last⟩ := all
        obtain ⟨_, _, eq⟩ := Option.map_eq_some_iff.1 last
        exact ⟨_, _, (Prod.mk.inj eq).1.symm⟩
      refine ⟨form.associate (join op) x xs, ?_⟩
      simp only [true_and]
      unfold Form.associate
      cases side : form.leftward with
      | false =>
        rw [side] at combined
        exact combineRight_eval all combined
      | true =>
        rw [side] at combined
        rw [evalSeq, Option.bind_eq_some_iff] at all
        obtain ⟨⟨u, st₃⟩, first, last⟩ := all
        obtain ⟨⟨us, st₄⟩, rest, eq⟩ := Option.map_eq_some_iff.1 last
        clear last
        simp only [Prod.mk.injEq, List.cons.injEq] at eq
        obtain ⟨⟨rfl, rfl⟩, rfl⟩ := eq
        exact combineLeft_eval first (.inl rfl) rest combined
  · -- no operand has a template parameter pack: there is no constant
    have none_ : choose (fun e => !(packsIn s (idents e)).isEmpty) (form.parsed op) = none := by
      have passed : ∀ e, packsIn s (idents e) = [] → (some e).filter (fun e => !(packsIn s (idents e)).isEmpty) = none := by
        intro e none_
        simp [none_]
      unfold choose
      cases form with
      | right e | left e => simp only [Form.parsed, passed e noTypes, Option.filter_none, Option.map_none]
      | rightInit e i | leftInit i e => simp only [Form.parsed, passed e noTypes, passed i (initTypes i rfl), Option.map_none]
    rw [expandFold, none_] at computed
    cases computed

/-- **Fold-expressions**: when one is written out as prescribed, and when a constant computed for it is the value of that. -/
theorem fold_iff (proper : Proper s form) (op : Op) :
    (expandFoldExpr s (form.parsed op) = prescribed s form op ↔ Kept s form op) ∧
      ∀ {V S : Type} (ev : Evaluator V S), Constant s ev form → ∀ st r st', expandFold s ev (form.parsed op) st = some (r, st') →
        ∃ t st'', prescribed s form op = some t ∧ evalTree s ev t st = some (r, st'') :=
  ⟨written_iff proper op, fun _ constant _ _ _ computed => constant_eq proper constant computed⟩

/-- `(args + ... + 1)` with two arguments. -/
theorem sum_written : Proper [("args", .valuePack [1, 2] false)] (.rightInit (.name "args") (.node "1" [])) ∧
    expandFoldExpr [("args", .valuePack [1, 2] false)] ⟨some (.name "args"), some (.node "1" []), .binary "+"⟩ =
      prescribed [("args", .valuePack [1, 2] false)] (.rightInit (.name "args") (.node "1" [])) (.binary "+") := by
  have proper : Proper [("args", .valuePack [1, 2] false)] (.rightInit (.name "args") (.node "1" [])) := by
    refine ⟨⟨2, rfl⟩, fun i eq m mem => ?_⟩
    cases eq
    cases mem
  refine ⟨proper, (fold_iff proper (.binary "+")).1.2 ⟨fun i e eq => (by cases eq), .inr ⟨⟨rfl, ?_⟩, ?_, fun _ => rfl⟩⟩⟩
  · intro _ _ _ mem
    cases mem
  · intro none_
    cases none_

/-- `(f(args), ...)` without arguments is nothing, and no error. -/
theorem comma_refused : expandFoldExpr [("args", .valuePack [] false)] ⟨some (.node "call" [.name "f", .name "args"]), none, .comma⟩ ≠
    prescribed [("args", .valuePack [] false)] (.right (.node "call" [.name "f", .name "args"])) .comma := by
  intro eq
  cases eq

end Vcx.Fold
