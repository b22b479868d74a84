import Vcx.Lib.Word
import Vcx.Preprocessor.Constants

/-!
# Which controlling expressions are evaluated right

An operator on words is the operator on the values they stand for, where that has a result. What an expression
comes to follows by induction on it, and the one pass of the evaluator over its tokens by an induction with a
bound on the fuel.
-/

namespace Vcx.Controlling
set_option autoImplicit false
open Vcx.Lib Vcx.Preprocessor
open Vcx.Token (Kind)
open Vcx.IntLiteral (Accepted standardSuffix)

/-! ### Operators on words -/

theorem u_eq (w : Word) : w.u = BitVec.ofInt 64 w.number := by
  have same : (w.u.toNat : Int) % 2 ^ 64 = w.number % 2 ^ 64 := (number_emod_congr w).symm
  rw [← ofInt_eq_iff.mpr same, BitVec.ofInt_natCast, BitVec.ofNat_toNat, BitVec.setWidth_eq]

/-- The word of a number, as a value. -/
theorem value_ofInt (unsigned : Bool) (x : Int) : value ⟨BitVec.ofInt 64 x, unsigned⟩ = reduce unsigned x := by
  rw [value_eq]
  ext
  · rfl
  · refine wrap_congr ?_
    have nonneg := Int.emod_nonneg x (two_pow_pos' 64).ne'
    rw [BitVec.toNat_ofInt]
    omega

theorem value_boolean (t : Bool) : value (boolean t) = ofBool t := by
  cases t <;> decide

theorem exactly_some {unsigned : Bool} {x : Int} {v : Value} (has : exactly unsigned x = some v) : reduce unsigned x = v := by
  unfold exactly at has
  split at has
  · exact Option.some.inj has
  · cases has

theorem reduce_val (v : Value) : reduce v.unsigned v.val = v := by
  ext
  · rfl
  · exact wrap_of_inRange (by decide) v.range

/-- Two words of one type, and the numbers in them. -/
structure Operands (unsigned : Bool) (a b : Word) (x y : Int) : Prop where
  left : InRange (!unsigned) 64 x
  right : InRange (!unsigned) 64 y
  leftWord : a.u = BitVec.ofInt 64 x
  rightWord : b.u = BitVec.ofInt 64 y

section
variable {unsigned : Bool} {a b : Word} {x y : Int} {v : Value}

theorem Operands.zero_iff (both : Operands unsigned a b x y) : b.u = 0 ↔ y = 0 := by
  rw [both.rightWord]
  exact ofInt_eq_zero_iff (by decide) both.right

theorem Operands.eq_iff (both : Operands unsigned a b x y) : a.u = b.u ↔ x = y := by
  rw [both.leftWord, both.rightWord]
  exact ofInt_inj_of_inRange (by decide) both.left both.right

/-- The order of the words, read as their type says. -/
theorem Operands.lt_eq (both : Operands unsigned a b x y) :
    (if unsigned then decide (a.u < b.u) else decide (a.i < b.i)) = decide (x < y) := by
  obtain ⟨left, right, leftWord, rightWord⟩ := both
  cases unsigned with
  | true => rw [← ult_ofInt left right, ← leftWord, ← rightWord, BitVec.ult_eq_decide]; rfl
  | false => rw [← slt_ofInt (by decide) left right, ← leftWord, ← rightWord, BitVec.slt_eq_decide]; rfl

theorem Operands.le_eq (both : Operands unsigned a b x y) :
    (if unsigned then decide (a.u ≤ b.u) else decide (a.i ≤ b.i)) = decide (x ≤ y) := by
  obtain ⟨left, right, leftWord, rightWord⟩ := both
  cases unsigned with
  | true => rw [← ule_ofInt left right, ← leftWord, ← rightWord, BitVec.ule_eq_decide]; rfl
  | false => rw [← sle_ofInt (by decide) left right, ← leftWord, ← rightWord, BitVec.sle_eq_decide]; rfl

theorem Operands.swap (both : Operands unsigned a b x y) : Operands unsigned b a y x :=
  ⟨both.right, both.left, both.rightWord, both.leftWord⟩

theorem applyUsual_value {op : Kind} (both : Operands unsigned a b x y) (has : usualValue op unsigned x y = some v) :
    (applyUsual op a b unsigned).2 = none ∧ value (applyUsual op a b unsigned).1 = v := by
  unfold usualValue at has
  split at has
  · refine ⟨rfl, ?_⟩
    rw [← exactly_some has, ← value_ofInt, BitVec.ofInt_add, ← both.leftWord, ← both.rightWord]
    rfl
  · refine ⟨rfl, ?_⟩
    rw [← exactly_some has, ← value_ofInt, ofInt_sub, ← both.leftWord, ← both.rightWord]
    rfl
  · refine ⟨rfl, ?_⟩
    rw [← exactly_some has, ← value_ofInt, BitVec.ofInt_mul, ← both.leftWord, ← both.rightWord]
    rfl
  · split at has
    · cases has
    next nonzero =>
    rw [applyUsual, if_neg (mt both.zero_iff.mp nonzero), ← exactly_some has, ← value_ofInt]
    cases unsigned with
    | true => rw [if_pos rfl, ofInt_udiv both.left both.right, ← both.leftWord, ← both.rightWord]; exact ⟨rfl, rfl⟩
    | false =>
      rw [if_neg Bool.false_ne_true, ofInt_tdiv (by decide) both.left both.right, ← both.leftWord, ← both.rightWord]
      exact ⟨rfl, rfl⟩
  · split at has
    · cases has
    next nonzero =>
    obtain ⟨-, -, eq⟩ := Option.map_eq_some_iff.mp has
    rw [applyUsual, if_neg (mt both.zero_iff.mp nonzero), ← eq, ← value_ofInt]
    cases unsigned with
    | true => rw [if_pos rfl, ofInt_umod both.left both.right, ← both.leftWord, ← both.rightWord]; exact ⟨rfl, rfl⟩
    | false =>
      rw [if_neg Bool.false_ne_true, ofInt_tmod (by decide) both.left both.right, ← both.leftWord, ← both.rightWord]
      exact ⟨rfl, rfl⟩
  · refine ⟨rfl, ?_⟩
    rw [← Option.some.inj has, ← value_ofInt, ofInt_land, ← both.leftWord, ← both.rightWord]
    rfl
  · refine ⟨rfl, ?_⟩
    rw [← Option.some.inj has, ← value_ofInt, ofInt_lor, ← both.leftWord, ← both.rightWord]
    rfl
  · refine ⟨rfl, ?_⟩
    rw [← Option.some.inj has, ← value_ofInt, ofInt_xor, ← both.leftWord, ← both.rightWord]
    rfl
  · refine ⟨rfl, ?_⟩
    rw [← Option.some.inj has, ← value_boolean, applyUsual, decide_eq_decide.mpr both.eq_iff]
  · refine ⟨rfl, ?_⟩
    rw [← Option.some.inj has, ← value_boolean, applyUsual, decide_eq_decide.mpr (not_congr both.eq_iff)]
  · refine ⟨rfl, ?_⟩
    rw [← Option.some.inj has, ← value_boolean, applyUsual, both.lt_eq]
  · refine ⟨rfl, ?_⟩
    rw [← Option.some.inj has, ← value_boolean, applyUsual, both.swap.lt_eq]
  · refine ⟨rfl, ?_⟩
    rw [← Option.some.inj has, ← value_boolean, applyUsual, both.le_eq]
  · refine ⟨rfl, ?_⟩
    rw [← Option.some.inj has, ← value_boolean, applyUsual, both.swap.le_eq]
  · cases has

end

/-! ### What the operators report -/

theorem prec_eq (op : Kind) : prec op = Expr.precedence op := by cases op <;> rfl

theorem mem_shared {op : Kind} (pos : 0 < Expr.precedence op) (binary : isLogical op = false) : op ∈ shared := by
  have table : ∀ op : Kind, 0 < Expr.precedence op → isLogical op = false → op ∈ shared := by
    intro op
    cases op <;> decide
  exact table op pos binary

theorem number_value (w : Word) : (value w).val = w.number := rfl

theorem division_none_iff {op : Kind} (division : op = .quo ∨ op = .rem) (a b : Word) (unsigned : Bool) :
    (applyUsual op a b unsigned).2 = none ↔ b.u ≠ 0 := by
  by_cases zero : b.u = 0
  · rcases division with rfl | rfl
    · simp [applyUsual, zero]
    · simp [applyUsual, zero]
  · refine iff_of_true ?_ zero
    rcases division with rfl | rfl
    · rw [applyUsual, if_neg zero]
      split <;> rfl
    · rw [applyUsual, if_neg zero]
      split <;> rfl

/-- Only a division says something. -/
theorem apply_none_iff {op : Kind} (mem : op ∈ shared) (a b : Word) :
    (apply op a b).2 = none ↔ dividesByZero op (value b) = false := by
  have zero : b.u = 0 ↔ (value b).val = 0 := Word.number_eq_zero.symm
  by_cases division : op = .quo ∨ op = .rem
  · have usually : apply op a b = applyUsual op (usual a b).1 (usual a b).2.1 (usual a b).2.2 := by
      rcases division with rfl | rfl <;> rfl
    rw [usually, division_none_iff division, Ne, show (usual a b).2.1.u = b.u from rfl, zero]
    simp [dividesByZero, division]
  · refine iff_of_true ?_ (by simp [dividesByZero, division])
    simp only [shared, List.mem_cons, List.not_mem_nil, or_false] at mem
    obtain ⟨notQuo, notRem⟩ := not_or.mp division
    rcases mem with rfl | rfl | rfl | rfl | rfl | rfl | rfl | rfl | rfl | rfl | rfl | rfl | rfl | rfl | rfl | rfl
    case inr.inr.inr.inl => exact absurd rfl notQuo
    case inr.inr.inr.inr.inl => exact absurd rfl notRem
    case inr.inr.inr.inr.inr.inr.inr.inr.inr.inl =>
      simp only [apply]
      split <;> rfl
    all_goals rfl

attribute [local simp] binaryValue usualValue

theorem dividesByZero_none {op : Kind} {x y : Value} (zero : dividesByZero op y = true) : binaryValue op x y = none := by
  simp only [dividesByZero, Bool.and_eq_true, List.mem_cons, List.not_mem_nil, or_false, decide_eq_true_eq] at zero
  obtain ⟨op, zero⟩ := zero
  have converted : (y.convert (x.unsigned || y.unsigned)).val = 0 := by
    simp only [Value.convert, reduce, zero]
    exact wrap_of_inRange (by decide) (by cases x.unsigned || y.unsigned <;> decide)
  rcases op with rfl | rfl
  · simp [binaryValue, usualValue, converted]
  · simp [binaryValue, usualValue, converted]

/-- **An operator on words is the operator on their values**, where that has a result. -/
theorem apply_value {op : Kind} {a b : Word} {v : Value} (has : binaryValue op (value a) (value b) = some v) :
    (apply op a b).2 = none ∧ value (apply op a b).1 = v := by
  have count (within : 0 ≤ (value b).val ∧ (value b).val < 64) : (b.u &&& 63).toNat = (value b).val.toNat := by
    have mod := b.number_emod
    rw [number_value] at within ⊢
    have small : b.u.toNat < 64 := by omega
    rw [count_eq small]
    omega
  unfold binaryValue at has
  split at has
  · split at has
    · next within =>
      refine ⟨rfl, ?_⟩
      rw [← Option.some.inj has, ← value_ofInt, ofInt_shl, number_value, ← u_eq, ← count within]
      rfl
    · cases has
  · split at has
    · next within =>
      rw [← Option.some.inj has, ← value_ofInt, ← count within, number_value]
      have range := a.number_inRange
      cases un : a.unsigned with
      | true =>
        rw [un] at range
        simp only [apply, un, if_true, true_and]
        rw [ofInt_ushr range, ← u_eq]
        exact congrArg (fun s => value ⟨_, s⟩) un.symm
      | false =>
        rw [un] at range
        simp only [apply, un, Bool.false_eq_true, if_false, true_and]
        rw [ofInt_sshr (by decide) range, ← u_eq]
        exact congrArg (fun s => value ⟨_, s⟩) un.symm
    · cases has
  · next notShl notShr =>
    have usually : apply op a b = applyUsual op (usual a b).1 (usual a b).2.1 (usual a b).2.2 := by
      unfold apply
      split
      · exact absurd rfl notShl
      · exact absurd rfl notShr
      · rfl
    have word (w : Word) : w.u = BitVec.ofInt 64 ((value w).convert (a.unsigned || b.unsigned)).val :=
      (u_eq w).trans (ofInt_wrap _ _ _).symm
    have both : Operands (a.unsigned || b.unsigned) (usual a b).1 (usual a b).2.1 _ _ :=
      ⟨((value a).convert _).range, ((value b).convert _).range, word a, word b⟩
    rw [usually]
    exact applyUsual_value both has

attribute [local simp] Expr.unaryWord

theorem unaryWord_value {op : Kind} {a : Word} {v : Value} (has : unaryValue op (value a) = some v) :
    value (Expr.unaryWord op a) = v := by
  unfold unaryValue at has
  split at has
  · exact Option.some.inj has
  · rw [← exactly_some has, ← value_ofInt, BitVec.ofInt_neg, number_value, ← u_eq]
    rfl
  · rw [← Option.some.inj has, ← value_ofInt, number_value, ofInt_not, ← u_eq]
    rfl
  · rw [← Option.some.inj has, ← value_boolean, Expr.unaryWord]
    exact congrArg (fun t => value (boolean t)) (decide_eq_decide.mpr Word.number_eq_zero.symm)
  · cases has

theorem logical_decided (op : Kind) (a b : Word) :
    (∀ t, decided op (value a) = some t → logical op a b = (boolean t, true)) ∧
      (decided op (value a) = none → logical op a b = (boolean (b.u ≠ 0), false)) := by
  have zero : (value a).val = 0 ↔ a.u = 0#64 := Word.number_eq_zero
  unfold decided logical
  by_cases isAnd : op = .land
  · simp only [if_pos isAnd, zero]
    by_cases none_ : a.u = 0#64
    · simp [none_]
    · simp [none_]
  · simp only [if_neg isAnd, zero]
    by_cases none_ : a.u = 0#64
    · simp [none_]
    · simp [none_]

/-! ### Types -/

theorem exactly_unsigned {unsigned : Bool} {x : Int} {v : Value} (has : exactly unsigned x = some v) :
    v.unsigned = unsigned := by
  rw [← exactly_some has]
  rfl

theorem unaryValue_unsigned {op : Kind} {a v : Value} (has : unaryValue op a = some v) :
    v.unsigned = (op ≠ .not && a.unsigned) := by
  unfold unaryValue at has
  split at has
  · rw [← Option.some.inj has]
    simp
  · rw [exactly_unsigned has]
    simp
  · rw [← Option.some.inj has]
    simp [reduce]
  · rw [← Option.some.inj has]
    simp [ofBool, reduce]
  · cases has

/-- The type of a result, by the operator. -/
theorem usualValue_unsigned {op : Kind} {unsigned : Bool} {x y : Int} {v : Value} (has : usualValue op unsigned x y = some v) :
    v.unsigned = (op ∈ [.add, .sub, .mul, .quo, .rem, .and, .or, .xor] && unsigned) := by
  unfold usualValue at has
  split at has
  case h_4 =>
    split at has
    · cases has
    · rw [exactly_unsigned has]
      simp
  case h_5 =>
    split at has
    · cases has
    · obtain ⟨-, -, eq⟩ := Option.map_eq_some_iff.mp has
      rw [← eq]
      simp [reduce]
  case h_15 => cases has
  all_goals first
    | rw [exactly_unsigned has]; simp
    | rw [← Option.some.inj has]; simp [ofBool, reduce]

theorem binaryValue_unsigned {op : Kind} {a b v : Value} (has : binaryValue op a b = some v) :
    v.unsigned = if op ∈ [Kind.shl, Kind.shr] then a.unsigned
      else (op ∈ [.add, .sub, .mul, .quo, .rem, .and, .or, .xor] && (a.unsigned || b.unsigned)) := by
  unfold binaryValue at has
  split at has
  · split at has
    · rw [← Option.some.inj has]
      simp [reduce]
    · cases has
  · split at has
    · rw [← Option.some.inj has]
      simp [reduce]
    · cases has
  · next notShl notShr =>
    rw [usualValue_unsigned has, if_neg]
    simp only [List.mem_cons, List.not_mem_nil, or_false, not_or]
    exact ⟨fun eq => notShl eq, fun eq => notShr eq⟩

attribute [local simp] Expr.eval

theorem eval_unsigned {e : Expr} : ∀ {v : Value}, e.eval = some v → v.unsigned = e.unsigned := by
  induction e with
  | constant t =>
    intro v has
    simp only [Expr.eval] at has
    simp [Expr.unsigned, has]
  | paren l a r ih => exact ih
  | unary op a ih =>
    intro v has
    obtain ⟨x, isX, has⟩ := Option.bind_eq_some_iff.mp has
    rw [unaryValue_unsigned has, ih isX]
    rfl
  | binary op a b ihA ihB =>
    intro v has
    obtain ⟨x, isX, has⟩ := Option.bind_eq_some_iff.mp has
    rw [Expr.unsigned]
    split at has
    · next isLogical_ =>
      have signed : v.unsigned = false := by
        split at has
        · rw [← Option.some.inj has]
          rfl
        · obtain ⟨y, -, eq⟩ := Option.map_eq_some_iff.mp has
          rw [← eq]
          rfl
      rw [signed]
      simp only [isLogical, Bool.or_eq_true, decide_eq_true_eq] at isLogical_
      rcases isLogical_ with eq | eq <;> simp [eq]
    · obtain ⟨y, isY, has⟩ := Option.bind_eq_some_iff.mp has
      rw [binaryValue_unsigned has, ihA isX, ihB isY]
  | cond c q t colon f =>
    intro v has
    obtain ⟨x, -, has⟩ := Option.bind_eq_some_iff.mp has
    obtain ⟨y, -, eq⟩ := Option.map_eq_some_iff.mp has
    rw [← eq]
    rfl

/-- A conversion to a type it has already, and only that, leaves a value as it is. -/
theorem convert_eq_iff {unsigned : Bool} {v : Value} : v.convert unsigned = v ↔ unsigned = v.unsigned := by
  refine ⟨fun same => congrArg Value.unsigned same, ?_⟩
  rintro rfl
  exact reduce_val v

/-! ### Expressions -/

/-- The words and the reports that an expression comes to are those of its value. -/
structure Follows (e : Expr) : Prop where
  value : ∀ v, e.eval = some v → Controlling.value e.machine = v
  reports : e.report ≠ none ↔ e.eval = none

attribute [local simp] Expr.machine Expr.report

theorem Follows.quiet {e : Expr} (follows : Follows e) {v : Value} (has : e.eval = some v) :
    e.report = none ∧ Controlling.value e.machine = v := by
  refine ⟨?_, follows.value v has⟩
  by_contra said
  rw [follows.reports.mp said] at has
  cases has

theorem Follows.of_some {e : Expr} {v : Value} (has : e.eval = some v) (quiet : e.report = none)
    (value : Controlling.value e.machine = v) : Follows e := by
  refine ⟨fun w isW => ?_, iff_of_false (by simp [quiet]) (by simp [has])⟩
  rw [has] at isW
  rw [value, Option.some.inj isW]

theorem Follows.of_none {e : Expr} (none_ : e.eval = none) (said : e.report ≠ none) : Follows e := by
  refine ⟨fun w isW => ?_, iff_of_true said none_⟩
  rw [none_] at isW
  cases isW

theorem orElse_ne_none {r : Option Diagnostic} (said : r ≠ none) (other : Option Diagnostic) : (r <|> other) ≠ none := by
  obtain ⟨d, rfl⟩ := Option.ne_none_iff_exists'.mp said
  exact Option.some_ne_none d

theorem constantWord_unsigned {t : Token} {v : Value} (spelled : t.kind = .intLit → Accepted (bytes t.text) ∧ standardSuffix (bytes t.text) = true)
    (has : constantValue t = some v) : value (Expr.constantWord t) = v ↔ isChar32 t = false := by
  unfold constantValue at has
  unfold Expr.constantWord
  split at has
  · next kind =>
    rw [kind, ← Option.some.inj has]
    exact iff_of_true (value_boolean true) (by simp [isChar32, kind])
  · next kind =>
    rw [kind, ← Option.some.inj has]
    exact iff_of_true (value_boolean false) (by simp [isChar32, kind])
  · next kind =>
    obtain ⟨accepted, standard⟩ := spelled kind
    rw [kind]
    exact iff_of_true (intConst_literal accepted standard has _).2 (by simp [isChar32, kind])
  · next kind =>
    rw [kind, ← Option.some.inj has, value_inj]
    refine ⟨fun same => (congrArg Word.unsigned same).symm.trans rfl, fun signed => ?_⟩
    rw [signed]
    rfl
  · cases has

theorem follows_constant {t : Token} (isConstant : IsConstant t) : Follows (.constant t) ↔ isChar32 t = false := by
  obtain ⟨v, has⟩ := Option.isSome_iff_exists.mp isConstant.valued
  rw [← constantWord_unsigned isConstant.spelled has]
  exact ⟨fun follows => follows.value v has, fun same => .of_some has rfl same⟩

theorem follows_paren {l r : Token} {a : Expr} : Follows (.paren l a r) ↔ Follows a :=
  ⟨fun follows => ⟨follows.value, follows.reports⟩, fun follows => ⟨follows.value, follows.reports⟩⟩

theorem follows_unary {op : Token} {a : Expr} (follows : Follows a) :
    Follows (.unary op a) ↔ ∀ x, a.eval = some x → (unaryValue op.kind x).isSome := by
  constructor
  · intro all x isX
    have quiet := (follows.quiet isX).1
    rw [← Option.ne_none_iff_isSome]
    intro none_
    exact all.reports.mpr (by simp [Expr.eval, isX, none_]) quiet
  · intro some_
    cases isX : a.eval with
    | none => exact .of_none (by simp [Expr.eval, isX]) (follows.reports.mpr isX)
    | some x =>
      obtain ⟨v, has⟩ := Option.isSome_iff_exists.mp (some_ x isX)
      obtain ⟨quiet, word⟩ := follows.quiet isX
      rw [← word] at has
      exact .of_some (by simp [Expr.eval, isX, ← word, has]) quiet (unaryWord_value has)

theorem follows_binary {op : Token} {a b : Expr} (pos : 0 < Expr.precedence op.kind) (binary : isLogical op.kind = false)
    (left : Follows a) (right : Follows b) :
    Follows (.binary op a b) ↔ ∀ x y, a.eval = some x → b.eval = some y →
      dividesByZero op.kind y = true ∨ (binaryValue op.kind x y).isSome := by
  have report_ : (Expr.binary op a b).report =
      (a.report <|> b.report <|> (apply op.kind a.machine b.machine).2.map (⟨op.site, ·⟩)) := by
    simp [Expr.report, binary]
  have eval_ : (Expr.binary op a b).eval = a.eval.bind fun x => b.eval.bind (binaryValue op.kind x) := by
    simp [Expr.eval, binary]
  have machine_ : (Expr.binary op a b).machine = (apply op.kind a.machine b.machine).1 := by
    simp [Expr.machine, binary]
  cases isX : a.eval with
  | none =>
    refine iff_of_true (.of_none (by rw [eval_, isX]; rfl) ?_) (by simp)
    rw [report_]
    exact orElse_ne_none (left.reports.mpr isX) _
  | some x =>
    obtain ⟨quietA, wordA⟩ := left.quiet isX
    cases isY : b.eval with
    | none =>
      refine iff_of_true (.of_none (by rw [eval_, isX, isY]; rfl) ?_) (by simp)
      rw [report_, quietA]
      exact orElse_ne_none (right.reports.mpr isY) _
    | some y =>
      obtain ⟨quietB, wordB⟩ := right.quiet isY
      have only : (Expr.binary op a b).report = (apply op.kind a.machine b.machine).2.map (⟨op.site, ·⟩) := by
        rw [report_, quietA, quietB]
        rfl
      have value_ : (Expr.binary op a b).eval = binaryValue op.kind x y := by
        rw [eval_, isX, isY]
        rfl
      have none_iff := apply_none_iff (mem_shared pos binary) a.machine b.machine
      rw [wordB] at none_iff
      constructor
      · rintro follows _ _ ⟨⟩ ⟨⟩
        by_cases zero : dividesByZero op.kind y = true
        · exact .inl zero
        · refine .inr ?_
          rw [← value_, ← Option.ne_none_iff_isSome]
          intro none_
          exact follows.reports.mpr none_ (by rw [only, none_iff.mpr (by simpa using zero)]; rfl)
      · intro all
        rcases all x y rfl rfl with zero | some_
        · refine .of_none (by rw [value_, dividesByZero_none zero]) ?_
          rw [only, Ne, Option.map_eq_none_iff, none_iff, zero]
          exact Bool.true_eq_false_eq_False
        · obtain ⟨v, has⟩ := Option.isSome_iff_exists.mp some_
          rw [← wordA, ← wordB] at has
          obtain ⟨quiet, word⟩ := apply_value has
          rw [wordA, wordB] at has
          exact .of_some (value_.trans has) (by rw [only, quiet]; rfl) (by rw [machine_, word])

theorem follows_logical {op : Token} {a b : Expr} (logical_ : isLogical op.kind = true) (left : Follows a)
    (right : entersRight op.kind a.eval = true → Follows b) : Follows (.binary op a b) := by
  have report_ : (Expr.binary op a b).report =
      (a.report <|> if (logical op.kind a.machine b.machine).2 then none else b.report) := by
    simp [Expr.report, logical_]
  have machine_ : (Expr.binary op a b).machine = (logical op.kind a.machine b.machine).1 := by
    simp [Expr.machine, logical_]
  cases isX : a.eval with
  | none =>
    refine .of_none (by simp [Expr.eval, isX]) ?_
    rw [report_]
    exact orElse_ne_none (left.reports.mpr isX) _
  | some x =>
    obtain ⟨quietA, wordA⟩ := left.quiet isX
    have known := logical_decided op.kind a.machine b.machine
    rw [wordA] at known
    cases side : decided op.kind x with
    | some t =>
      have word := known.1 t side
      refine .of_some (v := ofBool t) (by simp [Expr.eval, isX, logical_, side]) (by rw [report_, quietA, word]; rfl) ?_
      rw [machine_, word, value_boolean]
    | none =>
      have word := known.2 side
      have follows := right (by simp [entersRight, logical_, isX, side])
      have only : (Expr.binary op a b).report = b.report := by
        rw [report_, quietA, word]
        rfl
      have value_ : (Expr.binary op a b).eval = b.eval.map fun y => ofBool (y.val ≠ 0) := by
        simp [Expr.eval, isX, logical_, side]
      cases isY : b.eval with
      | none =>
        refine .of_none (by rw [value_, isY]; rfl) ?_
        rw [only]
        exact follows.reports.mpr isY
      | some y =>
        obtain ⟨quietB, wordB⟩ := follows.quiet isY
        refine .of_some (by rw [value_, isY]; rfl) (by rw [only, quietB]) ?_
        rw [machine_, word, value_boolean, ← wordB]
        exact congrArg ofBool (decide_eq_decide.mpr (not_congr Word.number_eq_zero.symm))

/-- Of the arms one is evaluated; the evaluator forgets what it said of both where it is the second. -/
theorem follows_cond {c t f : Expr} {q colon : Token} (condition : Follows c)
    (arm : ∀ x, c.eval = some x → Follows (if x.val ≠ 0 then t else f)) :
    Follows (.cond c q t colon f) ↔ ∀ x, c.eval = some x →
      if x.val ≠ 0 then t.eval.isSome → (f.unsigned = true → t.unsigned = true) ∧ f.report = none
      else f.eval.isSome ∧ (t.unsigned = true → f.unsigned = true) := by
  cases isX : c.eval with
  | none =>
    refine iff_of_true (.of_none (by simp [Expr.eval, isX]) ?_) (by simp)
    exact orElse_ne_none (condition.reports.mpr isX) _
  | some x =>
    obtain ⟨quietC, wordC⟩ := condition.quiet isX
    have nonzero : c.machine.u ≠ 0 ↔ x.val ≠ 0 := by
      rw [← wordC]
      exact not_congr Word.number_eq_zero.symm
    have taken := arm x isX
    have single (P : Value → Prop) : (∀ y, some x = some y → P y) ↔ P x :=
      ⟨fun all => all x rfl, by rintro holds _ ⟨⟩; exact holds⟩
    rw [single]
    by_cases true_ : x.val ≠ 0
    · rw [if_pos true_] at taken ⊢
      have report_ : (Expr.cond c q t colon f).report = (t.report <|> f.report) := by
        simp only [Expr.report, quietC, if_pos (nonzero.mpr true_)]
        rfl
      have eval_ : (Expr.cond c q t colon f).eval = t.eval.map (·.convert (t.unsigned || f.unsigned)) := by
        simp only [Expr.eval, isX, Option.bind_some, if_pos true_]
      have machine_ : (Expr.cond c q t colon f).machine = t.machine := by
        simp only [Expr.machine, if_pos (nonzero.mpr true_)]
      cases isV : t.eval with
      | none =>
        refine iff_of_true (.of_none (by rw [eval_, isV]; rfl) ?_) (by simp)
        rw [report_]
        exact orElse_ne_none (taken.reports.mpr isV) _
      | some v =>
        obtain ⟨quietT, wordT⟩ := taken.quiet isV
        have only : (Expr.cond c q t colon f).report = f.report := by
          rw [report_, quietT]
          rfl
        have value_ : (Expr.cond c q t colon f).eval = some (v.convert (t.unsigned || f.unsigned)) := by
          rw [eval_, isV]
          rfl
        have type : (t.unsigned || f.unsigned) = v.unsigned ↔ (f.unsigned = true → t.unsigned = true) := by
          rw [eval_unsigned isV]
          cases t.unsigned <;> cases f.unsigned <;> decide
        rw [← type, ← convert_eq_iff, Option.isSome_some]
        constructor
        · intro follows _
          obtain ⟨quiet, word⟩ := follows.quiet value_
          exact ⟨by rw [← word, machine_, wordT], by rw [← only, quiet]⟩
        · intro fits
          obtain ⟨same, quiet⟩ := fits rfl
          exact .of_some value_ (only.trans quiet) (by rw [machine_, wordT, same])
    · rw [if_neg true_] at taken ⊢
      have zero : ¬ c.machine.u ≠ 0 := mt nonzero.mp true_
      have report_ : (Expr.cond c q t colon f).report = none := by
        simp only [Expr.report, quietC, if_neg zero]
        rfl
      have eval_ : (Expr.cond c q t colon f).eval = f.eval.map (·.convert (t.unsigned || f.unsigned)) := by
        simp only [Expr.eval, isX, Option.bind_some, if_neg true_]
      have machine_ : (Expr.cond c q t colon f).machine = f.machine := by
        simp only [Expr.machine, if_neg zero]
      cases isV : f.eval with
      | none =>
        refine iff_of_false (fun follows => ?_) (by simp)
        exact follows.reports.mpr (by rw [eval_, isV]; rfl) report_
      | some v =>
        obtain ⟨-, wordF⟩ := taken.quiet isV
        have value_ : (Expr.cond c q t colon f).eval = some (v.convert (t.unsigned || f.unsigned)) := by
          rw [eval_, isV]
          rfl
        have type : (t.unsigned || f.unsigned) = v.unsigned ↔ (t.unsigned = true → f.unsigned = true) := by
          rw [eval_unsigned isV]
          cases t.unsigned <;> cases f.unsigned <;> decide
        rw [← type, ← convert_eq_iff, Option.isSome_some]
        constructor
        · intro follows
          exact ⟨rfl, by rw [← follows.value _ value_, machine_, wordF]⟩
        · rintro ⟨-, same⟩
          exact .of_some value_ report_ (by rw [machine_, wordF, same])

theorem Expr.mem_evaluated (e : Expr) : e ∈ e.evaluated := by
  cases e <;> exact List.mem_cons_self

theorem fits_iff {e : Expr} : e.Wf → ((∀ s ∈ e.evaluated, Follows s) ↔ e.Fits) := by
  induction e with
  | constant t =>
    intro wf
    rw [Expr.evaluated, List.forall_mem_singleton, follows_constant wf]
    rfl
  | paren l a r ih =>
    rintro ⟨-, wf, -⟩
    rw [Expr.evaluated, List.forall_mem_cons, ih wf, follows_paren]
    exact ⟨And.right, fun fits => ⟨(ih wf).mpr fits a a.mem_evaluated, fits⟩⟩
  | unary op a ih =>
    rintro ⟨-, wf, -⟩
    rw [Expr.evaluated, List.forall_mem_cons, ih wf, and_comm, Expr.Fits]
    refine and_congr_right fun fits => follows_unary ?_
    exact (ih wf).mpr fits a a.mem_evaluated
  | binary op a b ihA ihB =>
    rintro ⟨pos, wfA, wfB, -⟩
    have right : (∀ s ∈ (if entersRight op.kind a.eval then b.evaluated else []), Follows s) ↔
        (entersRight op.kind a.eval = true → b.Fits) := by
      split
      · next enters => simp only [enters, true_imp_iff, ihB wfB]
      · next skips => simp [skips]
    rw [Expr.evaluated, List.forall_mem_cons, List.forall_mem_append, ihA wfA, right, Expr.Fits, and_comm, and_assoc]
    refine and_congr_right fun fitsA => and_congr_right fun fitsB => ?_
    have followsA := (ihA wfA).mpr fitsA a a.mem_evaluated
    have followsB (enters : entersRight op.kind a.eval = true) := (ihB wfB).mpr (fitsB enters) b b.mem_evaluated
    cases logical_ : isLogical op.kind with
    | true => exact iff_of_true (follows_logical logical_ followsA followsB) (by simp)
    | false =>
      rw [follows_binary pos logical_ followsA (followsB (by simp [entersRight, logical_]))]
      exact ⟨fun all _ => all, fun all => all rfl⟩
  | cond c q t colon f ihC ihT ihF =>
    rintro ⟨wfC, -, -, wfT, -, wfF⟩
    have arm (x : Value) : (∀ s ∈ (if x.val ≠ 0 then t.evaluated else f.evaluated), Follows s) ↔
        if x.val ≠ 0 then t.Fits else f.Fits := by
      split
      · exact ihT wfT
      · exact ihF wfF
    rw [Expr.evaluated, List.forall_mem_cons, List.forall_mem_append, ihC wfC, Expr.Fits, and_comm, and_assoc]
    refine and_congr_right fun fitsC => ?_
    have followsC := (ihC wfC).mpr fitsC c c.mem_evaluated
    cases isX : c.eval with
    | none =>
      rw [follows_cond followsC (by simp [isX])]
      simp [isX]
    | some x =>
      simp only [arm, Option.some.injEq, forall_eq']
      by_cases true_ : x.val ≠ 0
      · simp only [if_pos true_]
        refine and_congr_right fun fitsT => ?_
        have followsT := (ihT wfT).mpr fitsT t t.mem_evaluated
        rw [follows_cond followsC (by rw [isX]; rintro _ ⟨⟩; rwa [if_pos true_]), isX]
        simp only [Option.some.injEq, forall_eq', if_pos true_]
      · simp only [if_neg true_]
        refine and_congr_right fun fitsF => ?_
        have followsF := (ihF wfF).mpr fitsF f f.mem_evaluated
        rw [follows_cond followsC (by rw [isX]; rintro _ ⟨⟩; rwa [if_neg true_]), isX]
        simp only [Option.some.injEq, forall_eq', if_neg true_]

/-! ### The pass over the tokens -/

/-- An evaluator at other tokens, once it has met a failure, if any. -/
def after (e : Evaluator) (ts : List Token) : Option Diagnostic → Evaluator
  | none => { e with toks := ts }
  | some d => { e with toks := ts }.fail d.site d.msg

section
variable {site : Site} (s : Evaluator) (ts ts' : List Token) (r r' : Option Diagnostic)

@[simp] theorem after_toks : (after s ts r).toks = ts := by
  cases r with
  | none => rfl
  | some d =>
    simp only [after, Evaluator.fail]
    split <;> rfl

@[simp] theorem after_move : { after s ts r with toks := ts' } = after s ts' r := by
  cases r with
  | none => rfl
  | some d =>
    simp only [after, Evaluator.fail]
    split <;> rfl

/-- The first failure is the one reported. -/
theorem after_fail (d : Diagnostic) : (after s ts r).fail d.site d.msg = after s ts (r <|> some d) := by
  cases r with
  | none => rfl
  | some d' =>
    change _ = after s ts (some d')
    simp only [after, Evaluator.fail]
    by_cases bad : s.bad = true
    · simp [bad]
    · simp [bad]

/-- What was reported on the way is taken back, and nothing else. -/
theorem after_retract : (after s ts (r <|> r')).retract (after s ts' r) = after s ts r := by
  cases r with
  | none =>
    cases r' with
    | none => simp [after, Evaluator.retract]
    | some d =>
      change (after s ts (some d)).retract _ = _
      simp only [after, Evaluator.fail, Evaluator.retract]
      split <;> simp
  | some d =>
    change (after s ts (some d)).retract _ = _
    simp only [after, Evaluator.fail, Evaluator.retract]
    split <;> simp

theorem after_apply (op : Token) (a b : Word) :
    (after s ts r).apply op a b =
      ((apply op.kind a b).1, after s ts (r <|> (apply op.kind a b).2.map (⟨op.site, ·⟩))) := by
  rcases result : apply op.kind a b with ⟨v, _ | msg⟩
  · simp [Evaluator.apply, result]
  · simp only [Evaluator.apply, result, Option.map_some]
    rw [← after_fail]

end

theorem orElse_assoc (a b c : Option Diagnostic) : ((a <|> b) <|> c) = (a <|> b <|> c) := by
  cases a <;> rfl

theorem orElse_none (a : Option Diagnostic) : (a <|> none) = a := by
  cases a <;> rfl

/-- What can stand behind an expression: no binary operator that binds tighter than `least`. -/
def Stops (least : Nat) (rest : List Token) : Prop := ∀ t ∈ rest.head?, prec t.kind < least

theorem binaryLoop_stops (site : Site) (least : Nat) (lhs : Word) (s : Evaluator) {fuel : Nat} (some_ : 0 < fuel)
    (stops : Stops least s.toks) : binaryLoop site fuel least lhs s = (lhs, s) := by
  obtain ⟨fuel, rfl⟩ := Nat.exists_eq_succ_of_ne_zero some_.ne'
  rw [binaryLoop]
  split
  · rfl
  · next t ts isToks => rw [if_pos (stops t (by rw [isToks]; rfl))]

/-- The evaluator reads an expression: each of its three functions comes to the words and the reports of it, with
whatever stands behind, if the fuel is enough for the tokens there are. -/
structure Reads (site : Site) (e : Expr) : Prop where
  unary : e.level = Expr.operators.length + 1 → ∀ (fuel : Nat) (s : Evaluator) (rest : List Token) (r : Option Diagnostic),
    4 * (e.tokens ++ rest).length + 1 ≤ fuel →
      Preprocessor.unary site fuel (after s (e.tokens ++ rest) r) = (e.machine, after s rest (r <|> e.report))
  binary : 0 < e.level → ∀ (fuel least : Nat) (s : Evaluator) (rest : List Token) (r : Option Diagnostic),
    0 < least → least ≤ e.level → Stops (e.level + 1) rest → 4 * (e.tokens ++ rest).length + 2 ≤ fuel →
      ∃ fuel', 4 * rest.length + 1 ≤ fuel' ∧
        Preprocessor.binary site fuel least (after s (e.tokens ++ rest) r) =
          binaryLoop site fuel' least e.machine (after s rest (r <|> e.report))
  conditional : ∀ (fuel : Nat) (s : Evaluator) (rest : List Token) (r : Option Diagnostic),
    Stops 1 rest → (∀ t ∈ rest.head?, t.kind ≠ .question) → 4 * (e.tokens ++ rest).length + 3 ≤ fuel →
      Preprocessor.conditional site fuel (after s (e.tokens ++ rest) r) = (e.machine, after s rest (r <|> e.report))

section
variable {site : Site} {e : Expr}

theorem Stops.mono {least least' : Nat} {rest : List Token} (stops : Stops least rest) (le : least ≤ least') :
    Stops least' rest := fun t mem => Nat.lt_of_lt_of_le (stops t mem) le

/-- Where a binary expression ends, a conditional one does, unless a `?` stands there. -/
theorem Reads.of_binary (pos : 0 < e.level) (unary : e.level = Expr.operators.length + 1 →
      ∀ (fuel : Nat) (s : Evaluator) (rest : List Token) (r : Option Diagnostic), 4 * (e.tokens ++ rest).length + 1 ≤ fuel →
        Preprocessor.unary site fuel (after s (e.tokens ++ rest) r) = (e.machine, after s rest (r <|> e.report)))
    (binary : ∀ (fuel least : Nat) (s : Evaluator) (rest : List Token) (r : Option Diagnostic),
      0 < least → least ≤ e.level → Stops (e.level + 1) rest → 4 * (e.tokens ++ rest).length + 2 ≤ fuel →
        ∃ fuel', 4 * rest.length + 1 ≤ fuel' ∧
          Preprocessor.binary site fuel least (after s (e.tokens ++ rest) r) =
            binaryLoop site fuel' least e.machine (after s rest (r <|> e.report))) : Reads site e := by
  refine ⟨unary, fun _ => binary, fun fuel s rest r stops noQuestion enough => ?_⟩
  obtain ⟨fuel, rfl⟩ := Nat.exists_eq_succ_of_ne_zero (show fuel ≠ 0 by omega)
  obtain ⟨fuel', enough', read⟩ := binary fuel 1 s rest r Nat.one_pos pos (stops.mono (by omega)) (by omega)
  have ended := binaryLoop_stops site 1 e.machine (after s rest (r <|> e.report))
    (show 0 < fuel' by omega) (by rwa [after_toks])
  rw [Preprocessor.conditional]
  simp only [read, ended, after_toks]
  cases rest with
  | nil => rfl
  | cons t rest => simp only [if_pos (noQuestion t rfl)]

theorem Reads.of_unary (tight : e.level = Expr.operators.length + 1)
    (unary : ∀ (fuel : Nat) (s : Evaluator) (rest : List Token) (r : Option Diagnostic),
      4 * (e.tokens ++ rest).length + 1 ≤ fuel →
        Preprocessor.unary site fuel (after s (e.tokens ++ rest) r) = (e.machine, after s rest (r <|> e.report))) :
    Reads site e := by
  refine .of_binary (by omega) (fun _ => unary) fun fuel least s rest r _ _ _ enough => ?_
  obtain ⟨fuel, rfl⟩ := Nat.exists_eq_succ_of_ne_zero (show fuel ≠ 0 by omega)
  refine ⟨fuel, ?_, ?_⟩
  · rw [List.length_append] at enough
    omega
  · rw [Preprocessor.binary]
    simp only [unary fuel s rest r (by omega)]

attribute [local simp] Expr.tokens unary

theorem reads_constant {t : Token} (isConstant : IsConstant t) : Reads site (.constant t) := by
  refine .of_unary rfl fun fuel s rest r enough => ?_
  obtain ⟨fuel, rfl⟩ := Nat.exists_eq_succ_of_ne_zero (show fuel ≠ 0 by omega)
  obtain ⟨v, has⟩ := Option.isSome_iff_exists.mp isConstant.valued
  have quiet : (r <|> (Expr.constant t).report) = r := orElse_none r
  rw [Preprocessor.unary, quiet]
  simp only [Expr.tokens, List.cons_append, List.nil_append, after_toks, after_move, Expr.machine, Expr.constantWord]
  unfold constantValue at has
  split at has
  · next kind => simp only [kind]
  · next kind => simp only [kind]
  · next kind =>
    obtain ⟨accepted, standard⟩ := isConstant.spelled kind
    have here := intConst_literal accepted standard has (after s rest r)
    have alone := intConst_literal accepted standard has { toks := [] }
    simp only [kind]
    exact Prod.ext (value_inj.mp (here.2.trans alone.2.symm)) here.1
  · next kind => simp only [kind]
  · cases has

theorem reads_paren {l r : Token} {a : Expr} (left : l.kind = .lparen) (right : r.kind = .rparen) (ih : Reads site a) :
    Reads site (.paren l a r) := by
  refine .of_unary rfl fun fuel s rest d enough => ?_
  obtain ⟨fuel, rfl⟩ := Nat.exists_eq_succ_of_ne_zero (show fuel ≠ 0 by omega)
  have shape : (Expr.paren l a r).tokens ++ rest = l :: (a.tokens ++ r :: rest) := by simp [Expr.tokens]
  rw [shape, List.length_cons] at enough
  have inner := ih.conditional fuel s (r :: rest) d (by rintro _ ⟨⟩; rw [right]; decide) (by rintro _ ⟨⟩; rw [right]; decide)
    (by omega)
  rw [shape, Preprocessor.unary]
  simp only [after_toks, after_move, left, inner, right, if_true]
  rfl

theorem reads_unary {op : Token} {a : Expr} (isUnary : op.kind ∈ [.add, .sub, .tilde, .not])
    (tight : a.level = Expr.operators.length + 1) (ih : Reads site a) : Reads site (.unary op a) := by
  refine .of_unary rfl fun fuel s rest d enough => ?_
  obtain ⟨fuel, rfl⟩ := Nat.exists_eq_succ_of_ne_zero (show fuel ≠ 0 by omega)
  have shape : (Expr.unary op a).tokens ++ rest = op :: (a.tokens ++ rest) := by simp [Expr.tokens]
  rw [shape, List.length_cons] at enough
  have operand := ih.unary tight fuel s rest d (by omega)
  rw [shape, Preprocessor.unary]
  simp only [List.mem_cons, List.not_mem_nil, or_false] at isUnary
  simp only [after_toks, after_move, Expr.machine, Expr.report]
  rcases isUnary with kind | kind | kind | kind
  · simp only [kind, operand, Expr.unaryWord]
  · simp only [kind, operand, Expr.unaryWord]
  · simp only [kind, operand, Expr.unaryWord]
  · simp only [kind, operand, Expr.unaryWord]

/-- A binary expression: the loop comes to its operator with the left operand, and goes on behind the right one. -/
theorem reads_binary {op : Token} {a b : Expr} (pos : 0 < Expr.precedence op.kind)
    (left : Expr.precedence op.kind ≤ a.level) (right : Expr.precedence op.kind < b.level)
    (ihA : Reads site a) (ihB : Reads site b) : Reads site (.binary op a b) := by
  have loose : Expr.precedence op.kind ≠ Expr.operators.length + 1 := by
    have table : ∀ k : Kind, Expr.precedence k ≠ Expr.operators.length + 1 := by
      intro k
      cases k <;> decide
    exact table op.kind
  refine .of_binary pos (fun tight => absurd tight loose) fun fuel least s rest d some_ le stops enough => ?_
  change least ≤ Expr.precedence op.kind at le
  change Stops (Expr.precedence op.kind + 1) rest at stops
  have shape : (Expr.binary op a b).tokens ++ rest = a.tokens ++ op :: (b.tokens ++ rest) := by simp [Expr.tokens]
  rw [shape] at enough ⊢
  have stopsA : Stops (a.level + 1) (op :: (b.tokens ++ rest)) := by
    rintro _ ⟨⟩
    rw [prec_eq]
    omega
  obtain ⟨fuelA, enoughA, readA⟩ := ihA.binary (by omega) fuel least s _ d some_ (by omega) stopsA enough
  rw [List.length_cons] at enoughA
  obtain ⟨fuelA, rfl⟩ := Nat.exists_eq_succ_of_ne_zero (show fuelA ≠ 0 by omega)
  obtain ⟨fuelB, enoughB, readB⟩ := ihB.binary (by omega) fuelA (Expr.precedence op.kind + 1) s rest (d <|> a.report)
    (by omega) (by omega) (stops.mono (by omega)) (by omega)
  have endB := binaryLoop_stops site (Expr.precedence op.kind + 1) b.machine (after s rest ((d <|> a.report) <|> b.report))
    (show 0 < fuelB by omega) (by rwa [after_toks])
  refine ⟨fuelA, by rw [List.length_append] at enoughA; omega, ?_⟩
  rw [readA, binaryLoop]
  simp only [after_toks, after_move, prec_eq, if_neg (Nat.not_lt.mpr le), readB, endB]
  cases isLogical_ : isLogical op.kind with
  | true =>
    have condition : (op.kind = .land || op.kind = .lor) = true := isLogical_
    simp only [condition, if_true, Expr.machine, Expr.report, isLogical_]
    cases skips : (logical op.kind a.machine b.machine).2 with
    | true =>
      simp only [if_true, after_retract, orElse_none]
    | false =>
      simp only [Bool.false_eq_true, if_false, orElse_assoc]
  | false =>
    have condition : (op.kind = .land || op.kind = .lor) = false := isLogical_
    simp only [condition, Bool.false_eq_true, if_false, Expr.machine, Expr.report, isLogical_, after_apply, orElse_assoc]

/-- A conditional one: both arms are gone through. -/
theorem reads_cond {q colon : Token} {c t f : Expr} (pos : 0 < c.level) (question : q.kind = .question)
    (isColon : colon.kind = .colon) (ihC : Reads site c) (ihT : Reads site t) (ihF : Reads site f) :
    Reads site (.cond c q t colon f) := by
  have loosest : (Expr.cond c q t colon f).level = 0 := rfl
  refine ⟨by simp [loosest, Expr.operators], by simp [loosest], ?_⟩
  intro fuel s rest d stops noQuestion enough
  obtain ⟨fuel, rfl⟩ := Nat.exists_eq_succ_of_ne_zero (show fuel ≠ 0 by omega)
  have shape : (Expr.cond c q t colon f).tokens ++ rest = c.tokens ++ q :: (t.tokens ++ colon :: (f.tokens ++ rest)) := by
    simp [Expr.tokens]
  rw [shape] at enough ⊢
  have stopsC : Stops 1 (q :: (t.tokens ++ colon :: (f.tokens ++ rest))) := by
    rintro _ ⟨⟩
    rw [question]
    decide
  obtain ⟨fuelC, enoughC, readC⟩ := ihC.binary pos fuel 1 s _ d Nat.one_pos pos (stopsC.mono (by omega)) (by omega)
  have endC := binaryLoop_stops site 1 c.machine
    (after s (q :: (t.tokens ++ colon :: (f.tokens ++ rest))) (d <|> c.report))
    (show 0 < fuelC by omega) (by rwa [after_toks])
  simp only [List.length_append, List.length_cons] at enough
  have readT := ihT.conditional fuel s (colon :: (f.tokens ++ rest)) (d <|> c.report)
    (by rintro _ ⟨⟩; rw [isColon]; decide) (by rintro _ ⟨⟩; rw [isColon]; decide)
    (by simp only [List.length_append, List.length_cons]; omega)
  have readF := ihF.conditional fuel s rest ((d <|> c.report) <|> t.report) stops noQuestion
    (by simp only [List.length_append]; omega)
  rw [Preprocessor.conditional]
  simp only [readC, endC, after_toks, question, ne_eq, not_true_eq_false, if_false, after_move, readT, isColon, readF]
  simp only [Expr.machine, Expr.report]
  by_cases nonzero : c.machine.u ≠ 0
  · rw [if_pos nonzero, if_pos nonzero, if_pos nonzero, ← orElse_assoc, ← orElse_assoc]
  · rw [if_neg nonzero, if_neg nonzero, if_neg nonzero, orElse_assoc (d <|> c.report), after_retract, orElse_none]

/-- **The pass over the tokens**, by induction on the expression. -/
theorem reads {e : Expr} : e.Wf → Reads site e := by
  induction e with
  | constant t => exact reads_constant
  | paren l a r ih => exact fun ⟨left, wf, right⟩ => reads_paren left right (ih wf)
  | unary op a ih => exact fun ⟨isUnary, wf, tight⟩ => reads_unary isUnary tight (ih wf)
  | binary op a b ihA ihB =>
    exact fun ⟨pos, wfA, wfB, left, right⟩ => reads_binary pos left right (ihA wfA) (ihB wfB)
  | cond c q t colon f ihC ihT ihF =>
    exact fun ⟨wfC, pos, question, wfT, isColon, wfF⟩ => reads_cond pos question isColon (ihC wfC) (ihT wfT) (ihF wfF)

end

/-! ### Lines -/

section
variable {e : Expr}

/-- A line that is one expression: all of it is read. -/
theorem controlling_eq (site : Site) (wf : e.Wf) :
    controlling site e.tokens = (e.machine, after { toks := [] } [] e.report) := by
  have read := (reads wf : Reads site e).conditional (4 * (e.tokens.length + 1)) { toks := [] } [] none
    (by rintro _ ⟨⟩) (by rintro _ ⟨⟩) (by simp only [List.append_nil]; omega)
  rw [List.append_nil] at read
  exact read

theorem after_errs (ts : List Token) (r : Option Diagnostic) :
    (after { toks := [] } ts r).errs = r.toList ∧ (after { toks := [] } ts r).bad = r.isSome := by
  cases r <;> exact ⟨rfl, rfl⟩

theorem agrees_iff_follows (site : Site) (wf : e.Wf) : Agrees site e ↔ Follows e := by
  have line := controlling_eq site wf
  have errs : (controlling site e.tokens).2.errs ≠ [] ↔ e.report ≠ none := by
    rw [line, (after_errs [] e.report).1]
    cases e.report <;> simp
  have word : (controlling site e.tokens).1 = e.machine := by rw [line]
  constructor
  · rintro ⟨value, reports⟩
    exact ⟨by rwa [word] at value, by rwa [errs] at reports⟩
  · rintro ⟨value, reports⟩
    exact ⟨by rwa [word], by rwa [errs]⟩

/-- What is evaluated is an expression of the grammar too. -/
theorem evaluated_wf : e.Wf → ∀ s ∈ e.evaluated, s.Wf := by
  induction e with
  | constant t =>
    rintro wf _ (_ | ⟨_, mem⟩)
    · exact wf
    · cases mem
  | paren l a r ih =>
    rintro wf _ (_ | ⟨_, mem⟩)
    · exact wf
    · exact ih wf.2.1 _ mem
  | unary op a ih =>
    rintro wf _ (_ | ⟨_, mem⟩)
    · exact wf
    · exact ih wf.2.1 _ mem
  | binary op a b ihA ihB =>
    rintro wf s (_ | ⟨_, mem⟩)
    · exact wf
    · rcases List.mem_append.mp mem with left | right
      · exact ihA wf.2.1 s left
      · split at right
        · exact ihB wf.2.2.1 s right
        · cases right
  | cond c q t colon f ihC ihT ihF =>
    rintro wf s (_ | ⟨_, mem⟩)
    · exact wf
    · rcases List.mem_append.mp mem with condition | arm
      · exact ihC wf.1 s condition
      · split at arm
        · split at arm
          · exact ihT wf.2.2.2.1 s arm
          · exact ihF wf.2.2.2.2.2 s arm
        · cases arm

/-- **Where the evaluator is right**: about a controlling expression and all that is evaluated in it. -/
theorem agrees_iff_fits (site : Site) (wf : e.Wf) : (∀ s ∈ e.evaluated, Agrees site s) ↔ e.Fits := by
  rw [← fits_iff wf]
  exact forall₂_congr fun s mem => agrees_iff_follows site (evaluated_wf wf s mem)

end

/-- `1 / 0` -/
def oneOverZero : Expr := .binary (.mint .quo "/") (.constant (.mint .intLit "1")) (.constant (.mint .intLit "0"))

theorem wf_number {text : String} (has : (constantValue (.mint .intLit text)).isSome = true)
    (start : (bytes text).head?.any Scanner.isDigit = true) (classified : Scanner.classify (bytes text) = (.intLit, false, none))
    (standard : standardSuffix (bytes text) = true) : (Expr.constant (.mint .intLit text)).Wf :=
  ⟨has, fun _ => ⟨⟨start, classified⟩, standard⟩⟩

theorem oneOverZero_wf : oneOverZero.Wf :=
  ⟨by decide, wf_number (by decide) (by decide) (by decide) (by decide),
    wf_number (by decide) (by decide) (by decide) (by decide), by decide, by decide⟩

/-- `0 && 1 / 0` is `0`, and nothing is reported. -/
theorem zeroAnd_agrees : Agrees ⟨none, 0, 0⟩ (.binary (.mint .land "&&") (.constant (.mint .intLit "0")) oneOverZero) := by
  have wf : (Expr.binary (.mint .land "&&") (.constant (.mint .intLit "0")) oneOverZero).Wf :=
    ⟨by decide, wf_number (by decide) (by decide) (by decide) (by decide), oneOverZero_wf, by decide, by decide⟩
  refine (agrees_iff_fits _ wf).mpr ⟨(by decide : isChar32 _ = false), fun enters => ?_, fun both => ?_⟩ _ (Expr.mem_evaluated _)
  · exact absurd enters (by decide)
  · exact absurd both (by decide)

/-- `1 ? 1 : 1 / 0` is `1`, and a division by zero is reported. -/
theorem untakenArm_disagrees : ¬ ∀ (site : Site) (e : Expr), e.Wf → Agrees site e := by
  intro all
  have one : (Expr.constant (.mint .intLit "1")).Wf := wf_number (by decide) (by decide) (by decide) (by decide)
  have agrees := all ⟨none, 0, 0⟩ (.cond (.constant (.mint .intLit "1")) (.mint .question "?")
    (.constant (.mint .intLit "1")) (.mint .colon ":") oneOverZero) ⟨one, by decide, rfl, one, rfl, oneOverZero_wf⟩
  have none_ := agrees.reports.mp (by decide)
  revert none_
  decide

end Vcx.Controlling
