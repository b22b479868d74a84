import Vcx.Constexpr.Evaluator

/-!
# What the evaluator's programs do

The actions that the program of each query may do, whatever they answer: an expression asks for its operands, a
statement for its parts, and only declarations, ranged loops and calls declare anything.
-/

namespace Vcx.ConstEval
set_option autoImplicit false
open Vcx.Lib Vcx.Types

/-- The operands of an expression, evaluated or not. -/
def Expr.operands : Expr → List Expr
  | .paren _ x | .unary _ _ x | .incDec _ _ x | .cast _ _ x | .namedCast _ _ _ x | .member _ _ x _ => [x]
  | .binary _ _ x y | .assign _ _ x y => [x, y]
  | .cond _ c t e => c :: t.toList ++ [e]
  | .index _ x args => x :: args
  | .call _ _ args => args
  | .functionalCast _ args argList => argList ++ args.getD []
  | .sizeof _ _ _ x => x.toList
  | .initList _ items => items
  | _ => []

/-- A primitive that declares nothing and leaves names as they resolve. -/
def Prim.quiet : Prim → Prop
  | .declare .. | .enterNames _ => False
  | _ => True

/-- What is permitted to the evaluation of expressions among some. -/
structure Permits (P : Act Prim Query → Prop) (xs : List Expr) : Prop where
  asksValue : ∀ x ∈ xs, P (.ask (.value x))
  asksPlace : ∀ x ∈ xs, P (.ask (.place x))
  asksBinary : ∀ op l r, P (.ask (.binaryOp op l r))
  asksCall : ∀ fn args, P (.ask (.callBody fn args))
  does : ∀ p : Prim, p.quiet → P (.prim p)

variable {P : Act Prim Query → Prop} {xs : List Expr} {E : Env}

open Program (All all_pure all_fail all_ofExcept all_bind)

theorem Permits.mono {ys : List Expr} (permits : Permits P xs) (sub : ys ⊆ xs) : Permits P ys :=
  ⟨fun x mem => permits.asksValue x (sub mem), fun x mem => permits.asksPlace x (sub mem), permits.asksBinary,
    permits.asksCall, permits.does⟩

namespace Permits

variable (permits : Permits P xs)
include permits

theorem act {α : Type} {p : Prim} {k : Reply p → Ev α} (quiet : p.quiet) (rest : ∀ x, (k x).All P) :
    All P (.act (.prim p) k : Ev α) :=
  ⟨permits.does p quiet, rest⟩

theorem all_value {e : Expr} (mem : e ∈ xs) : (value e).All P := ⟨permits.asksValue e mem, fun _ => trivial⟩

theorem all_place {e : Expr} (mem : e ∈ xs) : (place e).All P := ⟨permits.asksPlace e mem, fun _ => trivial⟩

theorem all_text (span : Nat) : (text span).All P := ⟨permits.does _ trivial, fun _ => trivial⟩

theorem all_lookup (name : String) : (lookup name).All P := ⟨permits.does _ trivial, fun _ => trivial⟩

theorem all_resolvers : resolvers.All P := ⟨permits.does _ trivial, fun _ => trivial⟩

theorem all_hold (t : Constexpr.Value) : (hold t).All P := ⟨permits.does _ trivial, fun _ => trivial⟩

theorem all_newArray (elems : List (Option Value)) (t : Option Ty) : (newArray elems t).All P :=
  ⟨permits.does _ trivial, fun _ => trivial⟩

theorem all_write (p : Place) (v : Value) : (write p v).All P := ⟨permits.does _ trivial, fun _ => trivial⟩

theorem all_readValue (p : Place) : (readValue p).All P := by
  refine ⟨permits.does _ trivial, fun r => ?_⟩
  match r with
  | .ok (some _) | .ok none | .error _ => exact trivial

theorem all_binaryOp (op : Token.Kind) (l r : Value) : (binaryOp op l r).All P := ⟨permits.asksBinary op l r, fun _ => trivial⟩

theorem all_values {es : List Expr} (sub : es ⊆ xs) : (values es).All P := by
  induction es with
  | nil => exact all_pure _
  | cons e rest ih =>
    refine all_bind (permits.all_value (sub List.mem_cons_self)) fun v => ?_
    exact all_bind (ih fun x mem => sub (List.mem_cons_of_mem e mem)) fun vs => all_pure _

theorem all_evalInt {e : Expr} (mem : e ∈ xs) : (evalInt e).All P :=
  all_bind (permits.all_value mem) fun _ => all_ofExcept _

theorem all_evalBasicLit (kind : LitKind) (span : Nat) : (evalBasicLit E kind span).All P := by
  cases kind with
  | int =>
    refine all_bind (permits.all_text span) fun t => ?_
    split
    · exact all_pure _
    · exact all_fail _
  | float =>
    refine all_bind (permits.all_text span) fun t => ?_
    split
    · exact all_pure _
    · exact all_fail _
  | char => exact all_bind (permits.all_text span) fun t => all_ofExcept _
  | true_ | false_ | nullptr => exact all_pure _
  | other => exact all_fail _

theorem all_texts (spans : List Nat) : (texts spans).All P := by
  induction spans with
  | nil => exact all_pure _
  | cons span rest ih => exact all_bind (permits.all_text span) fun t => all_bind ih fun ts => all_pure _

theorem all_evalStringLit (spans : List Nat) : (evalStringLit spans).All P := by
  refine all_bind (permits.all_texts spans) fun segs => ?_
  split
  · exact all_fail _
  · split
    · exact all_fail _
    · exact all_pure _

theorem all_evalIdent (span : Nat) : (evalIdent span).All P := by
  refine all_bind (permits.all_text span) fun name => all_bind (permits.all_lookup name) fun found => ?_
  split
  · exact permits.all_readValue _
  · refine all_bind permits.all_resolvers fun r => ?_
    split
    · exact permits.all_hold _
    · exact all_fail _

theorem all_stepPlace {x : Expr} (mem : x ∈ xs) (op : Token.Kind) : (stepPlace E op x).All P :=
  all_bind (permits.all_place mem) fun p => all_bind (permits.all_readValue p) fun _ =>
    all_bind (permits.all_binaryOp _ _ _) fun _ => all_bind (permits.all_write _ _) fun _ => all_pure _

theorem all_evalUnary {x : Expr} (mem : x ∈ xs) (op : Token.Kind) : (evalUnary E op x).All P := by
  unfold evalUnary
  split
  · exact all_bind (permits.all_place mem) fun p => permits.act (p := .object p.obj) trivial fun _ => all_pure _
  · exact all_bind (permits.all_value mem) fun v => all_bind (all_ofExcept _) fun p => permits.all_readValue p
  · exact all_bind (permits.all_value mem) fun v => all_bind (permits.all_stepPlace mem _) fun _ => all_pure _
  · exact all_bind (permits.all_value mem) fun v => all_bind (permits.all_stepPlace mem _) fun _ => all_pure _
  · exact all_bind (permits.all_value mem) fun v => all_ofExcept _

theorem all_evalBinary {x y : Expr} (left : x ∈ xs) (right : y ∈ xs) (op : Token.Kind) : (evalBinary E op x y).All P := by
  unfold evalBinary
  split
  · refine all_bind (permits.all_value left) fun v => ?_
    split
    · exact all_pure _
    · exact all_bind (permits.all_value right) fun _ => all_pure _
  · refine all_bind (permits.all_value left) fun v => ?_
    split
    · exact all_pure _
    · exact all_bind (permits.all_value right) fun _ => all_pure _
  · exact all_bind (permits.all_value left) fun _ => permits.all_value right
  · exact all_bind (permits.all_value left) fun _ => all_bind (permits.all_value right) fun _ => permits.all_binaryOp _ _ _

theorem all_evalCond {c e : Expr} {t : Option Expr} (cond : c ∈ xs) (then_ : ∀ x, t = some x → x ∈ xs) (else_ : e ∈ xs) :
    (evalCond E c t e).All P := by
  refine all_bind (permits.all_value cond) fun v => ?_
  split
  · split
    · exact all_pure _
    · exact permits.all_value (then_ _ rfl)
  · exact permits.all_value else_

theorem all_evalAssign {x y : Expr} (left : x ∈ xs) (right : y ∈ xs) (op : Token.Kind) : (evalAssign op x y).All P := by
  refine all_bind (permits.all_place left) fun p => all_bind (permits.all_value right) fun v => ?_
  split
  · exact all_bind (permits.all_write p v) fun _ => all_pure _
  · refine all_bind (permits.all_readValue p) fun cur => ?_
    split
    · exact all_fail _
    · exact all_bind (permits.all_binaryOp _ _ _) fun new => all_bind (permits.all_write p new) fun _ => all_pure _

theorem all_convertTo (v : Value) (type : Option TypeId) : (convertTo E v type).All P := by
  refine all_bind permits.all_resolvers fun r => ?_
  split <;> exact all_pure _

theorem all_callFunction {args : List Expr} (sub : args ⊆ xs) (fn : FuncInfo) : (callFunction E fn args).All P := by
  refine all_bind ⟨permits.does .depth trivial, fun _ => trivial⟩ fun d => ?_
  split
  · exact all_fail _
  · exact all_bind (permits.all_values sub) fun vals => ⟨permits.asksCall fn vals, fun _ => trivial⟩

theorem all_evalCallee {args : List Expr} (sub : args ⊆ xs) (e fun_ : Expr) (r : Resolvers) :
    (evalCallee E e fun_ args r).All P := by
  simp only [evalCallee]
  split
  · refine all_bind (permits.all_text _) fun name => ?_
    split
    · exact all_pure _
    · split
      · rename_i first eq
        split at eq
        · exact permits.all_value (sub (List.mem_of_mem_head? eq))
        · cases eq
      · split
        · exact permits.all_callFunction sub _
        · refine all_bind (all_ofExcept _) fun fn => ?_
          split
          · exact permits.all_callFunction sub _
          · exact all_fail _
  · split
    · exact permits.all_callFunction sub _
    · exact all_fail _

theorem all_evalCall {args : List Expr} (sub : args ⊆ xs) (e fun_ : Expr) : (evalCall E e fun_ args).All P := by
  refine all_bind permits.all_resolvers fun r => ?_
  split
  · exact all_bind (permits.all_value (sub List.mem_cons_self)) fun _ => all_pure _
  · exact all_pure _
  · exact permits.all_evalCallee sub e fun_ r

theorem all_evalNamedCast {x : Expr} (mem : x ∈ xs) (kind : CastKind) (type : Option TypeId) :
    (evalNamedCast E kind type x).All P := by
  unfold evalNamedCast
  split
  · exact all_fail _
  · exact all_bind (permits.all_value mem) fun _ => all_bind permits.all_resolvers fun _ => all_ofExcept _
  · exact all_bind (permits.all_value mem) fun _ => permits.all_convertTo _ _

theorem all_evalInitList {items : List Expr} (sub : items ⊆ xs) : (evalInitList items).All P :=
  all_bind (permits.all_values sub) fun _ => permits.all_newArray _ _

theorem all_evalFunctionalCast {args : Option (List Expr)} {argList : List Expr} (list : argList ⊆ xs)
    (braced : args.getD [] ⊆ xs) : (evalFunctionalCast args argList).All P := by
  unfold evalFunctionalCast
  split
  · exact permits.all_value (list List.mem_cons_self)
  · exact permits.all_evalInitList braced
  · exact all_pure _

theorem all_evalSizeof {x : Option Expr} (mem : ∀ y, x = some y → y ∈ xs) (e : Expr) (ellipsis : Bool) (type : Option TypeId) :
    (evalSizeof E e ellipsis type x).All P := by
  refine all_bind permits.all_resolvers fun r => ?_
  split
  · split
    · exact all_pure _
    · exact all_fail _
  · split
    · split
      · exact all_fail _
      · split
        · exact all_pure _
        · exact all_fail _
    · simp only
      split
      · exact all_pure _
      · refine all_bind (permits.all_value (mem _ rfl)) fun v => ?_
        split
        · exact all_pure _
        · exact all_fail _
    · exact all_fail _

theorem all_evalAlignof (type : Option TypeId) : (evalAlignof E type).All P := by
  unfold evalAlignof
  split
  · exact all_fail _
  · refine all_bind permits.all_resolvers fun r => ?_
    split
    · exact all_fail _
    · split
      · exact all_pure _
      · exact all_fail _

theorem all_evalTypeTrait (e : Expr) : (evalTypeTrait E e).All P := by
  refine all_bind permits.all_resolvers fun r => all_bind (all_ofExcept _) fun answer => ?_
  split <;> exact all_pure _

theorem all_evalConcept {resolve : Resolvers → Ev Value} (all : ∀ r, (resolve r).All P) (e : Expr) (isTemplate : Bool) :
    (evalConcept e isTemplate resolve).All P := by
  refine all_bind permits.all_resolvers fun r => ?_
  split
  · exact all_pure _
  · exact all r

theorem all_memberName (sel : Option Nat) : (memberName sel).All P := by
  cases sel with
  | none => exact all_pure _
  | some span => exact permits.all_text span

theorem all_placeOf {e : Expr} (sub : e.operands ⊆ xs) : (placeOf e).All P := by
  unfold placeOf
  split
  · exact permits.all_place (sub List.mem_cons_self)
  · refine all_bind (permits.all_text _) fun name => all_bind (permits.all_lookup name) fun found => ?_
    split
    · exact all_pure _
    · refine all_bind permits.all_resolvers fun r => ?_
      split
      · exact all_fail _
      · exact all_bind (permits.all_hold _) fun v => permits.act (p := .temporary ..) trivial fun _ => all_pure _
  · exact all_bind (permits.all_evalStringLit _) fun v => permits.act (p := .temporary ..) trivial fun _ => all_pure _
  · exact all_bind (permits.all_value (sub List.mem_cons_self)) fun v => all_ofExcept _
  · refine all_bind (permits.all_place (sub List.mem_cons_self)) fun p => ?_
    split
    · exact all_fail _
    · exact all_bind (permits.all_evalInt (sub (List.mem_cons_of_mem _ List.mem_cons_self))) fun i => all_pure _
  · have mem := sub List.mem_cons_self
    refine all_bind (permits.all_memberName _) fun field => ?_
    split
    · exact all_fail _
    · split
      · exact all_bind (permits.all_value mem) fun v => all_bind (all_ofExcept _) fun p => all_pure _
      · exact all_bind (permits.all_place mem) fun p => all_pure _
  · exact all_fail _

theorem all_evalNode {e : Expr} (sub : e.operands ⊆ xs) : (evalNode E e).All P := by
  unfold evalNode
  split
  · exact permits.all_value (sub List.mem_cons_self)
  · exact permits.all_evalBasicLit _ _
  · exact permits.all_evalStringLit _
  · exact permits.all_evalIdent _
  · exact permits.all_evalUnary (sub List.mem_cons_self) _
  · exact permits.all_evalBinary (sub List.mem_cons_self) (sub (List.mem_cons_of_mem _ List.mem_cons_self)) _
  · refine permits.all_evalCond (sub List.mem_cons_self) (fun x eq => sub ?_) (sub ?_)
    · simp [Expr.operands, eq]
    · simp [Expr.operands]
  · exact permits.all_evalAssign (sub List.mem_cons_self) (sub (List.mem_cons_of_mem _ List.mem_cons_self)) _
  · exact all_bind (permits.all_stepPlace (sub List.mem_cons_self) _) fun _ => all_pure _
  · exact all_bind (permits.all_placeOf sub) fun p => permits.all_readValue p
  · exact all_bind (permits.all_placeOf sub) fun p => permits.all_readValue p
  · exact permits.all_evalCall sub _ _
  · exact all_bind (permits.all_value (sub List.mem_cons_self)) fun v => permits.all_convertTo _ _
  · exact permits.all_evalNamedCast (sub List.mem_cons_self) _ _
  · exact permits.all_evalFunctionalCast (fun x mem => sub (List.mem_append_left _ mem))
      (fun x mem => sub (List.mem_append_right _ mem))
  · exact permits.all_evalSizeof (fun y eq => sub (by rw [eq]; exact List.mem_cons_self)) _ _ _
  · exact permits.all_evalAlignof _
  · exact permits.all_evalInitList sub
  · exact permits.all_evalTypeTrait _
  · exact permits.all_evalConcept (fun r => all_bind (all_ofExcept _) fun t => permits.all_hold t) _ _
  · exact all_bind permits.all_resolvers fun r => all_bind (all_ofExcept _) fun t => permits.all_hold t
  · refine permits.all_evalConcept (fun r => all_bind (all_ofExcept _) fun t => ?_) _ _
    split
    · exact permits.all_hold _
    · exact all_fail _
  · exact all_bind permits.all_resolvers fun r => all_bind (all_ofExcept _) fun t => all_pure _
  · exact all_fail _

theorem all_afterStep {e : Expr} (sub : e.operands ⊆ xs) : (afterStep E e).All P := by
  refine all_bind permits.all_resolvers fun r => ?_
  split
  · exact permits.all_hold _
  · exact permits.all_evalNode sub

end Permits

/-! ### Values -/

theorem all_equalOptions (asks : ∀ l r, P (.ask (.equal l r))) (left right : Option Value) : (equalOptions left right).All P := by
  unfold equalOptions
  split
  · exact ⟨asks _ _, fun _ => trivial⟩
  · exact all_pure _
  · exact all_pure _

theorem all_equalElements (asks : ∀ l r, P (.ask (.equal l r))) (xs ys : List (Option Value)) : (equalElements xs ys).All P := by
  fun_induction equalElements xs ys with
  | case1 l ls r rs ih =>
    refine all_bind (all_equalOptions asks l r) fun same => ?_
    split
    · exact ih
    · exact all_pure _
  | case2 => exact all_pure _

theorem all_equalFields (asks : ∀ l r, P (.ask (.equal l r))) (other fields : List (String × Option Value)) :
    (equalFields other fields).All P := by
  fun_induction equalFields other fields with
  | case1 => exact all_pure _
  | case2 => exact all_pure _
  | case3 name v rest w found ih =>
    refine all_bind (all_equalOptions asks v w) fun same => ?_
    split
    · exact ih
    · exact all_pure _

theorem all_evalEqual (asks : ∀ l r, P (.ask (.equal l r))) (does : ∀ p : Prim, p.quiet → P (.prim p)) (left right : Value) :
    (evalEqual E left right).All P := by
  unfold evalEqual
  split
  · refine all_bind ⟨does _ trivial, fun _ => trivial⟩ fun xs => all_bind ⟨does _ trivial, fun _ => trivial⟩ fun ys => ?_
    split
    · exact all_pure _
    · exact all_equalElements asks _ _
  · refine ⟨does _ trivial, fun m => ⟨does _ trivial, fun n => ?_⟩⟩
    simp only
    split
    · exact all_pure _
    · exact all_equalFields asks _ _
  · exact all_pure _

theorem all_evalBinaryOp (asks : ∀ l r, P (.ask (.equal l r))) (op : Token.Kind) (left right : Value) :
    (evalBinaryOp E op left right).All P := by
  simp only [evalBinaryOp]
  split
  · exact all_ofExcept _
  · exact all_bind ⟨asks _ _, fun _ => trivial⟩ fun _ => all_pure _

end Vcx.ConstEval
