import Mathlib.Data.List.Basic

/-!
# Break and continue

`CheckStmt` of `sema/stmt.go` with the counter `loopDepth`, and the parts of `CheckExpr` that come back to
statements: lambda-expressions, statement expressions, and a call of a generic lambda, for which
`instantiateLambdaCall` checks a copy of the body. Other expressions are the operands that are checked.
Types, scopes and the Objective-C statements are left out; an absent part is `empty` or no operands.
-/

namespace Vcx.Jumps
set_option autoImplicit false

/-- What `if constexpr` knows of its condition: whether it stands in a dependent context, and the outcome of
`EvalBool`. -/
structure Decided where
  dependent : Bool
  passed : Except String Bool

mutual
inductive Stmt where
  | empty
  | expr (e : Expr)
  /-- A declaration, by its initializers. -/
  | decl (inits : List Expr)
  | compound (stmts : List Stmt)
  /-- `if`, also one with `constexpr` whose condition is no expression. -/
  | if_ (init : Stmt) (cond : Cond) (thn els : Stmt)
  | ifConstexpr (init : Stmt) (tok : Nat) (cond : Expr) (decided : Decided) (thn els : Stmt)
  | switch (init : Stmt) (cond : Cond) (body : Stmt)
  | while_ (cond : Cond) (body : Stmt)
  | do_ (body : Stmt) (cond : Expr)
  | for_ (init : Stmt) (cond : Cond) (post : Expr) (body : Stmt)
  | rangeFor (init : Stmt) (range : Expr) (body : Stmt)
  | break_ (tok : Nat)
  | continue_ (tok : Nat)
  | return_ (x : Expr)
  | labeled (value : Expr) (s : Stmt)
  | attr (s : Stmt)
  | try_ (body : Stmt) (handlers : List Stmt)

/-- A condition is an expression or declares. -/
inductive Cond where
  | expr (e : Expr)
  | decl (inits : List Expr)

inductive Expr where
  | operands (xs : List Expr)
  | stmtExpr (body : Stmt)
  /-- `inits`: the initializers of the captures. -/
  | lambda (inits : List Expr) (body : Stmt)
  /-- A call that makes a specialization of a generic lambda: its operands, and the copy of the body. -/
  | specialize (xs : List Expr) (body : Stmt)
end

/-- The two statements that jump. -/
inductive Keyword where
  | break_ | continue_
  deriving DecidableEq, Repr

/-- The errors of the checks below, with the token they are reported at. -/
inductive Error where
  | jump (k : Keyword) (tok : Nat)
  | notConstant (tok : Nat) (err : String)
  deriving DecidableEq, Repr

def Error.msg : Error → String
  | .jump .break_ _ => "'break' statement not in loop or switch statement"
  | .jump .continue_ _ => "'continue' statement not in loop statement"
  | .notConstant _ err => "if constexpr condition is not a constant expression: " ++ err

/-- `loopDepth` is an `int`. -/
structure St where
  loopDepth : Int := 0
  errors : List Error := []
  deriving DecidableEq, Repr

def St.errorAt (st : St) (e : Error) : St := { st with errors := st.errors ++ [e] }

/-- `a.loopDepth++` -/
def St.enter (st : St) : St := { st with loopDepth := st.loopDepth + 1 }

/-- `a.loopDepth--` -/
def St.leave (st : St) : St := { st with loopDepth := st.loopDepth - 1 }

/-- `if a.loopDepth <= 0 { a.errorAt(...) }` -/
def St.jump (st : St) (k : Keyword) (tok : Nat) : St := if st.loopDepth ≤ 0 then st.errorAt (.jump k tok) else st

mutual
def checkStmt : Stmt → St → St
  | .empty, st => st
  | .expr e, st => checkExpr e st
  | .decl inits, st => checkExprs inits st
  | .compound stmts, st => checkStmts stmts st
  | .if_ init cond thn els, st => checkStmt els (checkStmt thn (checkCond cond (checkStmt init st)))
  | .ifConstexpr init tok cond decided thn els, st =>
    match decided.passed, decided.dependent with
    | .error _, true => checkStmt els (checkStmt thn (checkExpr cond (checkStmt init st)))
    | .error err, false => (checkStmt init st).errorAt (.notConstant tok err)
    | .ok true, true => checkStmt thn (checkStmt init st)
    | .ok true, false => checkStmt thn (checkExpr cond (checkStmt init st))
    | .ok false, true => checkStmt els (checkStmt init st)
    | .ok false, false => checkStmt els (checkExpr cond (checkStmt init st))
  -- `switch` and `for` look at a condition that is an expression only
  | .switch init cond body, st => (checkStmt body (checkExprCond cond (checkStmt init st.enter))).leave
  | .while_ cond body, st => (checkStmt body (checkCond cond st.enter)).leave
  | .do_ body cond, st => (checkExpr cond (checkStmt body st.enter)).leave
  | .for_ init cond post body, st =>
    (checkStmt body (checkExpr post (checkExprCond cond (checkStmt init st.enter)))).leave
  | .rangeFor init range body, st => (checkStmt body (checkExpr range (checkStmt init st.enter))).leave
  | .break_ tok, st => st.jump .break_ tok
  | .continue_ tok, st => st.jump .continue_ tok
  | .return_ x, st => checkExpr x st
  | .labeled value s, st => checkStmt s (checkExpr value st)
  | .attr s, st => checkStmt s st
  | .try_ body handlers, st => checkStmts handlers (checkStmt body st)

def checkStmts : List Stmt → St → St
  | [], st => st
  | s :: ss, st => checkStmts ss (checkStmt s st)

/-- The condition of `if` and `while`. -/
def checkCond : Cond → St → St
  | .expr e, st => checkExpr e st
  | .decl inits, st => checkExprs inits st

/-- The condition of `switch` and `for`. -/
def checkExprCond : Cond → St → St
  | .expr e, st => checkExpr e st
  | .decl _, st => st

def checkExpr : Expr → St → St
  | .operands xs, st => checkExprs xs st
  | .stmtExpr body, st => checkStmt body st
  -- `checkLambdaExpr` and `instantiateLambdaCall` put the scope and the function aside, not the counter
  | .lambda inits body, st => checkStmt body (checkExprs inits st)
  | .specialize xs body, st => checkStmt body (checkExprs xs st)

def checkExprs : List Expr → St → St
  | [], st => st
  | e :: es, st => checkExprs es (checkExpr e st)
end

/-! ### Where a jump stands -/

/-- What stands around a place in a function body: the loops and the switches of the function or lambda body
it lies in, and the loops and switches around that body. -/
structure Context where
  loops : Nat := 0
  switches : Nat := 0
  outer : Nat := 0
  deriving DecidableEq, Repr

def Context.loop (c : Context) : Context := { c with loops := c.loops + 1 }

def Context.switch (c : Context) : Context := { c with switches := c.switches + 1 }

/-- The body of a lambda: nothing of its own stands around it. -/
def Context.lambda (c : Context) : Context := ⟨0, 0, c.loops + c.switches + c.outer⟩

/-- A `break` or `continue` of a body. -/
structure Jump where
  keyword : Keyword
  tok : Nat
  context : Context
  /-- It is not in a part of an `if constexpr`, or in a condition, that the check passes over. -/
  checked : Bool := true
  deriving DecidableEq, Repr

def Jump.passedOver (j : Jump) : Jump := { j with checked := false }

def Jump.error (j : Jump) : Error := .jump j.keyword j.tok

/-- A `break` needs a loop or a switch of its own body around it, a `continue` a loop. -/
def Jump.misplaced (j : Jump) : Prop :=
  match j.keyword with
  | .break_ => j.context.loops = 0 ∧ j.context.switches = 0
  | .continue_ => j.context.loops = 0

/-- Nothing stands around it, not even around the lambdas that it lies in. -/
def Jump.bare (j : Jump) : Prop := j.context.loops = 0 ∧ j.context.switches = 0 ∧ j.context.outer = 0

instance (j : Jump) : Decidable j.misplaced := by unfold Jump.misplaced; split <;> infer_instance
instance (j : Jump) : Decidable j.bare := inferInstanceAs (Decidable (_ ∧ _))

mutual
/-- The jumps of a statement that stands in `c`. -/
def jumps : Stmt → Context → List Jump
  | .empty, _ => []
  | .expr e, c | .return_ e, c => exprJumps e c
  | .decl inits, c => exprsJumps inits c
  | .compound stmts, c => stmtsJumps stmts c
  | .if_ init cond thn els, c => jumps init c ++ condJumps cond c ++ jumps thn c ++ jumps els c
  | .ifConstexpr init _ cond decided thn els, c =>
    let inCond := exprJumps cond c
    let inThen := jumps thn c
    let inElse := jumps els c
    jumps init c ++
      match decided.passed, decided.dependent with
      | .error _, true => inCond ++ inThen ++ inElse
      | .error _, false => (inCond ++ inThen ++ inElse).map Jump.passedOver
      | .ok true, true => inCond.map Jump.passedOver ++ inThen ++ inElse.map Jump.passedOver
      | .ok true, false => inCond ++ inThen ++ inElse.map Jump.passedOver
      | .ok false, true => (inCond ++ inThen).map Jump.passedOver ++ inElse
      | .ok false, false => inCond ++ inThen.map Jump.passedOver ++ inElse
  | .switch init cond body, c => jumps init c.switch ++ exprCondJumps cond c.switch ++ jumps body c.switch
  | .while_ cond body, c => condJumps cond c.loop ++ jumps body c.loop
  | .do_ body cond, c => jumps body c.loop ++ exprJumps cond c.loop
  | .for_ init cond post body, c =>
    jumps init c.loop ++ exprCondJumps cond c.loop ++ exprJumps post c.loop ++ jumps body c.loop
  | .rangeFor init range body, c => jumps init c.loop ++ exprJumps range c.loop ++ jumps body c.loop
  | .break_ tok, c => [{ keyword := .break_, tok, context := c }]
  | .continue_ tok, c => [{ keyword := .continue_, tok, context := c }]
  | .labeled value s, c => exprJumps value c ++ jumps s c
  | .attr s, c => jumps s c
  | .try_ body handlers, c => jumps body c ++ stmtsJumps handlers c

def stmtsJumps : List Stmt → Context → List Jump
  | [], _ => []
  | s :: ss, c => jumps s c ++ stmtsJumps ss c

def condJumps : Cond → Context → List Jump
  | .expr e, c => exprJumps e c
  | .decl inits, c => exprsJumps inits c

def exprCondJumps : Cond → Context → List Jump
  | .expr e, c => exprJumps e c
  | .decl inits, c => (exprsJumps inits c).map Jump.passedOver

def exprJumps : Expr → Context → List Jump
  | .operands xs, c => exprsJumps xs c
  | .stmtExpr body, c => jumps body c
  | .lambda inits body, c => exprsJumps inits c ++ jumps body c.lambda
  | .specialize xs body, c => exprsJumps xs c ++ jumps body c.lambda

def exprsJumps : List Expr → Context → List Jump
  | [], _ => []
  | e :: es, c => exprJumps e c ++ exprsJumps es c
end

/-! ### What the counter knows -/

/-- The counter is the number of all loops and switches around, across lambdas. -/
def Context.total (c : Context) : Nat := c.loops + c.switches + c.outer

@[simp] theorem Context.total_loop (c : Context) : c.loop.total = c.total + 1 := by
  simp only [Context.total, Context.loop]
  omega

@[simp] theorem Context.total_switch (c : Context) : c.switch.total = c.total + 1 := by
  simp only [Context.total, Context.switch]
  omega

@[simp] theorem Context.total_lambda (c : Context) : c.lambda.total = c.total := by
  simp [Context.total, Context.lambda]

/-- The check reports a jump. -/
def Jump.reported (j : Jump) : Bool := j.checked && j.context.total == 0

/-- The errors that a check in a state adds are those of the reported jumps, apart from the conditions of
`if constexpr`; and the counter is as it was. -/
structure Adds (js : List Jump) (st after : St) : Prop where
  depth : after.loopDepth = st.loopDepth
  errors : ∀ k tok, .jump k tok ∈ after.errors ↔
    .jump k tok ∈ st.errors ∨ ∃ j ∈ js, j.reported ∧ j.error = .jump k tok

theorem Adds.refl (st : St) : Adds [] st st := ⟨rfl, by simp⟩

theorem Adds.append {js ks : List Jump} {st mid after : St} (first : Adds js st mid) (second : Adds ks mid after) :
    Adds (js ++ ks) st after where
  depth := second.depth.trans first.depth
  errors k tok := by
    rw [second.errors, first.errors, or_assoc]
    simp only [List.mem_append, or_and_right, exists_or]

theorem Adds.passedOver (js : List Jump) (st : St) : Adds (js.map Jump.passedOver) st st := by
  refine ⟨rfl, fun k tok => ⟨Or.inl, ?_⟩⟩
  rintro (mem | ⟨j, mem, reported, -⟩)
  · exact mem
  · obtain ⟨j, -, rfl⟩ := List.mem_map.mp mem
    simp [Jump.reported, Jump.passedOver] at reported

/-- A loop or switch around: the counter goes up before and down after. -/
theorem Adds.around {js : List Jump} {st after : St} (inside : Adds js st.enter after) : Adds js st after.leave where
  depth := by
    have depth := inside.depth
    simp only [St.enter] at depth
    simp only [St.leave]
    omega
  errors := inside.errors

theorem Adds.notConstant (st : St) (tok : Nat) (err : String) : Adds [] st (st.errorAt (.notConstant tok err)) :=
  ⟨rfl, by simp [St.errorAt]⟩

theorem Adds.jump {st : St} {c : Context} (k : Keyword) (tok : Nat) (depth : st.loopDepth = c.total) :
    Adds [{ keyword := k, tok, context := c }] st (st.jump k tok) := by
  unfold St.jump
  split
  · next none =>
    have total : c.total = 0 := by omega
    refine ⟨rfl, fun k' tok' => ?_⟩
    simp [St.errorAt, Jump.reported, Jump.error, total, @eq_comm _ k', @eq_comm _ tok']
  · next some =>
    have total : c.total ≠ 0 := by omega
    exact ⟨rfl, by simp [Jump.reported, total]⟩

theorem enter_depth {st : St} {c : Context} (depth : st.loopDepth = c.total) :
    st.enter.loopDepth = c.loop.total ∧ st.enter.loopDepth = c.switch.total := by
  simp [St.enter, depth]

mutual
/-- Checking a statement reports its jumps that have no loop and no switch around at all. -/
theorem checkStmt_adds : ∀ (s : Stmt) (c : Context) (st : St), st.loopDepth = c.total → Adds (jumps s c) st (checkStmt s st)
  | .empty, _, st, _ => .refl st
  | .expr e, c, st, depth | .return_ e, c, st, depth => checkExpr_adds e c st depth
  | .decl inits, c, st, depth => checkExprs_adds inits c st depth
  | .compound stmts, c, st, depth => checkStmts_adds stmts c st depth
  | .if_ init cond thn els, c, st, depth => by
    have inInit := checkStmt_adds init c st depth
    have inCond := checkCond_adds cond c _ (inInit.depth.trans depth)
    have inThen := checkStmt_adds thn c _ ((inInit.append inCond).depth.trans depth)
    have inElse := checkStmt_adds els c _ (((inInit.append inCond).append inThen).depth.trans depth)
    exact ((inInit.append inCond).append inThen).append inElse
  | .ifConstexpr init tok cond decided thn els, c, st, depth => by
    have inInit := checkStmt_adds init c st depth
    have inCond := checkExpr_adds cond c _ (inInit.depth.trans depth)
    have passes := fun js => Adds.passedOver js
    obtain ⟨dependent, passed⟩ := decided
    match passed, dependent with
    | .error _, true =>
      have inThen := checkStmt_adds thn c _ ((inInit.append inCond).depth.trans depth)
      exact inInit.append ((inCond.append inThen).append
        (checkStmt_adds els c _ (((inInit.append inCond).append inThen).depth.trans depth)))
    | .error err, false =>
      have reported := (passes (exprJumps cond c ++ jumps thn c ++ jumps els c) (checkStmt init st)).append
        (Adds.notConstant _ tok err)
      rw [List.append_nil] at reported
      exact inInit.append reported
    | .ok true, true =>
      exact inInit.append (((passes _ _).append (checkStmt_adds thn c _ (inInit.depth.trans depth))).append (passes _ _))
    | .ok true, false =>
      have inThen := checkStmt_adds thn c _ ((inInit.append inCond).depth.trans depth)
      exact inInit.append ((inCond.append inThen).append (passes _ _))
    | .ok false, true =>
      exact inInit.append ((passes _ _).append (checkStmt_adds els c _ (inInit.depth.trans depth)))
    | .ok false, false =>
      exact inInit.append ((inCond.append (passes _ _)).append
        (checkStmt_adds els c _ ((inInit.append inCond).depth.trans depth)))
  | .switch init cond body, c, st, depth => by
    have depth := (enter_depth depth).2
    have inInit := checkStmt_adds init c.switch _ depth
    have inCond := checkExprCond_adds cond c.switch _ (inInit.depth.trans depth)
    have inBody := checkStmt_adds body c.switch _ ((inInit.append inCond).depth.trans depth)
    exact ((inInit.append inCond).append inBody).around
  | .while_ cond body, c, st, depth => by
    have depth := (enter_depth depth).1
    have inCond := checkCond_adds cond c.loop _ depth
    exact (inCond.append (checkStmt_adds body c.loop _ (inCond.depth.trans depth))).around
  | .do_ body cond, c, st, depth => by
    have depth := (enter_depth depth).1
    have inBody := checkStmt_adds body c.loop _ depth
    exact (inBody.append (checkExpr_adds cond c.loop _ (inBody.depth.trans depth))).around
  | .for_ init cond post body, c, st, depth => by
    have depth := (enter_depth depth).1
    have inInit := checkStmt_adds init c.loop _ depth
    have inCond := checkExprCond_adds cond c.loop _ (inInit.depth.trans depth)
    have inPost := checkExpr_adds post c.loop _ ((inInit.append inCond).depth.trans depth)
    have inBody := checkStmt_adds body c.loop _ (((inInit.append inCond).append inPost).depth.trans depth)
    exact (((inInit.append inCond).append inPost).append inBody).around
  | .rangeFor init range body, c, st, depth => by
    have depth := (enter_depth depth).1
    have inInit := checkStmt_adds init c.loop _ depth
    have inRange := checkExpr_adds range c.loop _ (inInit.depth.trans depth)
    exact ((inInit.append inRange).append
      (checkStmt_adds body c.loop _ ((inInit.append inRange).depth.trans depth))).around
  | .break_ tok, _, _, depth => .jump .break_ tok depth
  | .continue_ tok, _, _, depth => .jump .continue_ tok depth
  | .labeled value s, c, st, depth => by
    have inValue := checkExpr_adds value c st depth
    exact inValue.append (checkStmt_adds s c _ (inValue.depth.trans depth))
  | .attr s, c, st, depth => checkStmt_adds s c st depth
  | .try_ body handlers, c, st, depth => by
    have inBody := checkStmt_adds body c st depth
    exact inBody.append (checkStmts_adds handlers c _ (inBody.depth.trans depth))

theorem checkStmts_adds : ∀ (ss : List Stmt) (c : Context) (st : St), st.loopDepth = c.total →
    Adds (stmtsJumps ss c) st (checkStmts ss st)
  | [], _, st, _ => .refl st
  | s :: ss, c, st, depth => by
    have first := checkStmt_adds s c st depth
    exact first.append (checkStmts_adds ss c _ (first.depth.trans depth))

theorem checkCond_adds : ∀ (cond : Cond) (c : Context) (st : St), st.loopDepth = c.total →
    Adds (condJumps cond c) st (checkCond cond st)
  | .expr e, c, st, depth => checkExpr_adds e c st depth
  | .decl inits, c, st, depth => checkExprs_adds inits c st depth

theorem checkExprCond_adds : ∀ (cond : Cond) (c : Context) (st : St), st.loopDepth = c.total →
    Adds (exprCondJumps cond c) st (checkExprCond cond st)
  | .expr e, c, st, depth => checkExpr_adds e c st depth
  | .decl inits, c, st, _ => .passedOver (exprsJumps inits c) st

theorem checkExpr_adds : ∀ (e : Expr) (c : Context) (st : St), st.loopDepth = c.total →
    Adds (exprJumps e c) st (checkExpr e st)
  | .operands xs, c, st, depth => checkExprs_adds xs c st depth
  | .stmtExpr body, c, st, depth => checkStmt_adds body c st depth
  | .lambda inits body, c, st, depth => by
    have inInits := checkExprs_adds inits c st depth
    exact inInits.append (checkStmt_adds body c.lambda _ ((inInits.depth.trans depth).trans (by simp)))
  | .specialize xs body, c, st, depth => by
    have inOperands := checkExprs_adds xs c st depth
    exact inOperands.append (checkStmt_adds body c.lambda _ ((inOperands.depth.trans depth).trans (by simp)))

theorem checkExprs_adds : ∀ (es : List Expr) (c : Context) (st : St), st.loopDepth = c.total →
    Adds (exprsJumps es c) st (checkExprs es st)
  | [], _, st, _ => .refl st
  | e :: es, c, st, depth => by
    have first := checkExpr_adds e c st depth
    exact first.append (checkExprs_adds es c _ (first.depth.trans depth))
end

/-! ### Which jumps are reported -/

/-- A token is one statement: the jumps at it, in a body and in the copies of it that calls of a generic lambda
make, stand in the same place of the same body. -/
def OneStatement (js : List Jump) : Prop :=
  ∀ j ∈ js, ∀ k ∈ js, j.error = k.error → j.context.loops = k.context.loops ∧ j.context.switches = k.context.switches

theorem Jump.reported_iff (j : Jump) : j.reported ↔ j.checked ∧ j.bare := by
  have total : j.context.total = 0 ↔ j.bare := by
    simp only [Context.total, Jump.bare]
    omega
  simp [Jump.reported, total]

theorem error_mem_iff (body : Stmt) (k : Keyword) (tok : Nat) :
    .jump k tok ∈ (checkStmt body {}).errors ↔ ∃ j ∈ jumps body {}, (j.checked ∧ j.bare) ∧ j.error = .jump k tok := by
  rw [(checkStmt_adds body {} {} rfl).errors k tok]
  simp [Jump.reported_iff]

/-- A jump with nothing around is out of place. -/
theorem Jump.bare.misplaced {j : Jump} (bare : j.bare) : j.misplaced := by
  obtain ⟨loops, switches, -⟩ := bare
  unfold Jump.misplaced
  split
  · exact ⟨loops, switches⟩
  · exact loops

theorem OneStatement.misplaced {js : List Jump} (one : OneStatement js) {j k : Jump} (jMem : j ∈ js) (kMem : k ∈ js)
    (same : j.error = k.error) : j.misplaced ↔ k.misplaced := by
  obtain ⟨loops, switches⟩ := one j jMem k kMem same
  have keyword : j.keyword = k.keyword := by
    simp only [Jump.error, Error.jump.injEq] at same
    exact same.1
  simp only [Jump.misplaced, keyword, loops, switches]

/-- **The loop context is restored by every construct**, wherever it stands. -/
theorem checkStmt_loopDepth (s : Stmt) (st : St) (depth : 0 ≤ st.loopDepth) :
    (checkStmt s st).loopDepth = st.loopDepth :=
  (checkStmt_adds s { loops := st.loopDepth.toNat } st (by simp only [Context.total]; omega)).depth

/-- **Exactly the misplaced jumps are reported if and only if** each misplaced jump is checked, where it is
written or in a copy of its body, with no loop and no switch around at all. -/
theorem misplaced_reported_iff (body : Stmt) (one : OneStatement (jumps body {})) :
    ((∀ j ∈ jumps body {}, j.error ∈ (checkStmt body {}).errors ↔ j.misplaced) ∧
      ∀ (s : Stmt) (st : St), 0 ≤ st.loopDepth → (checkStmt s st).loopDepth = st.loopDepth) ↔
    ∀ j ∈ jumps body {}, j.misplaced → ∃ k ∈ jumps body {}, k.error = j.error ∧ k.checked ∧ k.bare := by
  constructor
  · rintro ⟨exact_, -⟩ j mem misplaced
    have reported := (exact_ j mem).mpr misplaced
    obtain ⟨k, kMem, bare, same⟩ := (error_mem_iff body j.keyword j.tok).mp reported
    exact ⟨k, kMem, same, bare⟩
  · intro condition
    refine ⟨fun j mem => ⟨fun reported => ?_, fun misplaced => ?_⟩, checkStmt_loopDepth⟩
    · obtain ⟨k, kMem, bare, same⟩ := (error_mem_iff body j.keyword j.tok).mp reported
      exact (one.misplaced kMem mem same).mp bare.2.misplaced
    · obtain ⟨k, kMem, same, bare⟩ := condition j mem misplaced
      exact (error_mem_iff body j.keyword j.tok).mpr ⟨k, kMem, bare, same⟩

/-- `switch (0) { continue; }` -/
def switchContinue : Stmt := .switch .empty (.expr (.operands [])) (.compound [.continue_ 1])

/-- `while (0) { [] { break; }; }` -/
def lambdaBreak : Stmt := .while_ (.expr (.operands [])) (.compound [.expr (.lambda [] (.compound [.break_ 1]))])

/-- A `continue` in a switch and a `break` in a lambda in a loop are not reported. -/
theorem misplaced_unreported :
    (¬ ∀ j ∈ jumps switchContinue {}, j.error ∈ (checkStmt switchContinue {}).errors ↔ j.misplaced) ∧
      ¬ ∀ j ∈ jumps lambdaBreak {}, j.error ∈ (checkStmt lambdaBreak {}).errors ↔ j.misplaced := by
  constructor <;> decide

/-- `while (0) { break; } continue;` -/
theorem misplaced_reported_loop :
    let body : Stmt := .compound [.while_ (.expr (.operands [])) (.compound [.break_ 1]), .continue_ 2]
    ∀ j ∈ jumps body {}, j.error ∈ (checkStmt body {}).errors ↔ j.misplaced := by
  refine ((misplaced_reported_iff _ ?_).mpr ?_).1
  · unfold OneStatement
    decide
  · decide

end Vcx.Jumps
