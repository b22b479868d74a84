import Vcx.Lib.Landing

/-!
# Calls that throw

The lowering of a function's statements with its calls: where each unwinds to, what is destroyed on
the way, and the handlers that are open. Of an expression the calls are kept, the temporaries they
make and the branches of `&&`, `||` and `?:`. Every call is noted with what encloses it in the
source, which no instruction depends on.
-/

namespace Vcx.Unwind
set_option autoImplicit false
open Vcx.Lib

/-- An object with a destructor: a variable, a temporary or a part of the object being built. -/
abbrev Obj := Nat

abbrev TypeInfo := Nat

/-- What a handler catches by; `none` is `catch (...)`. -/
abbrev Clause := Option TypeInfo

/-- A handler: its try-block and its place among the handlers. -/
structure HandlerId where
  tryBlock : Nat
  idx : Nat
  deriving Repr, DecidableEq

/-- What encloses a point of the source, the innermost first: the objects declared before it in a
block that is still open, try-blocks, handlers, loops and switches. -/
inductive Around
  | object (x : Obj)
  | tryBlock (t : Nat) (clauses : List Clause)
  | handler (h : HandlerId)
  | loop
  | switch
  deriving Repr, DecidableEq

/-! ### The source -/

/-- What a call makes: an object where it is wanted, or a temporary, registered before its
arguments are evaluated. -/
inductive Made
  | nothing
  | inPlace (x : Obj)
  | temp (x : Obj)
  deriving Repr, DecidableEq

/-- `leaf` has no call in it. `copied` is a temporary registered once it has been made (a braced
argument, a copy for a parameter). `logic` is `&&` or `||`. -/
inductive Expr
  | leaf (k : Nat)
  | comma (x y : Expr)
  | call (k : Nat) (made : Made) (args : Expr)
  | copied (k : Nat) (x : Obj) (arg : Expr)
  | logic (x y : Expr)
  | cond (temp : Option Obj) (c x y : Expr)
  | throw_ (operand : Expr)
  | rethrow
  deriving Repr, DecidableEq

/-- A declarator. An object is registered after a constructor, and before any other initializer. A
reference may be bound to a temporary, at its own address or not. -/
inductive Decl
  | value (e : Expr)
  | constructed (x : Obj) (e : Expr)
  | tracked (x : Obj) (e : Expr)
  | reference (e : Expr) (bound : Option (Obj × Bool))
  | static (e : Expr)
  deriving Repr, DecidableEq

inductive Simple
  | expr (e : Expr)
  | decl (ds : List Decl)
  deriving Repr, DecidableEq

inductive Cond
  | expr (e : Expr)
  | decl (d : Decl)
  deriving Repr, DecidableEq

inductive Return
  | nothing
  | value (e : Expr)
  | reference (e : Expr)
  deriving Repr, DecidableEq

inductive Label
  | value
  | dflt
  deriving Repr, DecidableEq

/-- A range-based loop over a class: the temporary its range is bound to, its iterators, its
condition and its step. -/
structure Protocol where
  bound : Option (Obj × Bool)
  iters : List (Expr × Option Obj)
  cond : Expr
  step : Expr
  deriving Repr, DecidableEq

/-- The parameter of a handler, if it is an object that is copied. -/
abbrev Param := Option (Nat × Obj)

mutual

inductive Stmt
  | simple (s : Simple)
  | compound (body : Stmts)
  | ifStmt (init : Option Simple) (cond : Cond) (arm : Stmt)
  | ifElse (init : Option Simple) (cond : Cond) (arm els : Stmt)
  | ifConst (init : Option Simple) (taken : Stmt)
  | whileStmt (cond : Cond) (body : Stmt)
  | doStmt (body : Stmt) (cond : Expr)
  | forStmt (init : Option Simple) (cond post : Option Expr) (body : Stmt)
  | rangeForStmt (init : Option Simple) (range : Expr) (proto : Option Protocol) (var : Expr × Option Obj) (body : Stmt)
  | switchStmt (init : Option Simple) (cond : Expr) (body : Items)
  | breakStmt
  | continueStmt
  | gotoStmt (name : Nat)
  | labeledStmt (name : Nat) (s : Stmt)
  | returnStmt (value : Return)
  | tryStmt (t : Nat) (body : Stmt) (handlers : Handlers)

inductive Stmts
  | nil
  | cons (s : Stmt) (rest : Stmts)

/-- The statements of a switch body, each with the run of labels before it. -/
inductive Items
  | nil
  | cons (labels : List Label) (s : Stmt) (rest : Items)

inductive Handlers
  | nil
  | cons (clause : Clause) (param : Param) (body : Stmt) (rest : Handlers)

end

def Handlers.clauses : Handlers → List Clause
  | .nil => []
  | .cons c _ _ rest => c :: rest.clauses

/-- The groups of a switch body: the runs of labels it has. -/
def caseGroups : Items → List (List Label)
  | .nil => []
  | .cons labels _ rest => if labels = [] then caseGroups rest else labels :: caseGroups rest

/-- A function: its parameters that it destroys itself; a constructor's initializers, with the parts
they build; the members and bases that a destructor destroys. The handlers of a constructor's or a
destructor's function-try-block rethrow. -/
structure Function where
  params : List Obj := []
  tryBlock : Option (Nat × Handlers) := none
  inits : List (Expr × Option Obj) := []
  body : Stmt
  members : List Obj := []
  rethrows : Bool := false

/-! ### What a declaration adds around what follows it -/

def Decl.declares : Decl → List Around
  | .constructed x _ | .tracked x _ | .reference _ (some (x, _)) => [.object x]
  | .value _ | .static _ | .reference _ none => []

def declared (ds : List Decl) : List Around := (ds.map Decl.declares).flatten.reverse

def Simple.declares : Simple → List Around
  | .expr _ => []
  | .decl ds => declared ds

def Cond.declares : Cond → List Around
  | .expr _ => []
  | .decl d => d.declares

def initDeclares (init : Option Simple) : List Around := (init.map Simple.declares).getD []

def Stmt.declares : Stmt → List Around
  | .simple s => s.declares
  | .labeledStmt _ s => s.declares
  | _ => []

def objectOf (x : Option Obj) : List Around := x.toList.map .object

/-! ### The function being lowered -/

/-- Where a jump statement goes. -/
inductive Jump
  | out
  | next
  | label (name : Nat)
  deriving Repr, DecidableEq

/-- What is called. `point`, `fullEnd` and `jump` are no calls: control is at a point of the source, at
the end of a full-expression, or at a `break`, `continue` or `goto` that is carried out. -/
inductive Callee
  | point (k : Nat)
  | fullEnd
  | jump (j : Jump)
  | call (k : Nat) (made : Made)
  | allocate
  | raise
  | rethrowEnd
  | destroy (x : Obj)
  | beginCatch (h : HandlerId)
  | endCatch
  deriving Repr, DecidableEq

/-- A call, what encloses it, and whether anything is registered there to be destroyed. -/
structure Call where
  callee : Callee
  around : List Around
  live : Bool
  deriving Repr, DecidableEq

/-- What a pad answers to. -/
inductive Clauses
  | catches (clauses : List Clause)
  | cleanup
  deriving Repr, DecidableEq

abbrev Pad := Landing.Pad Call Clauses

structure TryFrame where
  clauses : List Clause
  dispatch : Nat
  depth : Nat
  deriving Repr

/-- A label: its block, the depth of the scopes at it once it is reached, and the jumps to it before
that, each with its block and the scopes live at it. -/
structure LabelState where
  blk : Nat
  depth : Option Nat := none
  pending : List (Nat × List (List Obj)) := []
  deriving Repr

/-- Where `break` and `continue` go, and the depth of the scopes they leave. -/
structure Targets where
  breakTo : Option Nat := none
  continueTo : Option Nat := none
  breakDepth : Nat := 0
  continueDepth : Nat := 0

/-- All stacks have their last entry first. -/
structure Fn extends Landing.Graph Call Clauses where
  scopes : List (List Obj) := []
  temps : List Obj := []
  partials : List Obj := []
  tries : List TryFrame := []
  catchEnds : List HandlerId := []
  targets : Targets := {}
  labels : Nat → Option LabelState := fun _ => none

namespace Fn

def close (fl : Fn) (t : Landing.Term Call Clauses) : Fn := { fl with toGraph := fl.toGraph.close t }
def enter (fl : Fn) (l : Nat) : Fn := { fl with toGraph := fl.toGraph.enter l }
def alloc (fl : Fn) (count : Nat) : Fn := { fl with toGraph := fl.toGraph.alloc count }

def hasLiveObjects (fl : Fn) : Bool := !fl.temps.isEmpty || !fl.partials.isEmpty || fl.scopes.any (!·.isEmpty)

def call (fl : Fn) (around : List Around) (callee : Callee) : Call := ⟨callee, around, fl.hasLiveObjects⟩

/-- A call that nothing is made ready for. -/
def plain (around : List Around) (callee : Callee) (fl : Fn) : Fn :=
  { fl with toGraph := fl.toGraph.emit (fl.call around callee) }

def pushScope (fl : Fn) : Fn := { fl with scopes := [] :: fl.scopes }

/-- Registers an object with the current scope. -/
def track (x : Obj) (fl : Fn) : Fn :=
  match fl.scopes with
  | [] => fl
  | top :: outer => { fl with scopes := (x :: top) :: outer }

def trackPartial (x : Obj) (fl : Fn) : Fn := { fl with partials := x :: fl.partials }

def temporary (x : Obj) (fl : Fn) : Fn := { fl with temps := x :: fl.temps }

/-- The objects of the scopes from `depth` outward, in the order they are destroyed in. -/
def unwound (scopes : List (List Obj)) (depth : Nat) : List Obj := (scopes.take (scopes.length - depth)).flatten

def destroys (fl : Fn) (around : List Around) (objs : List Obj) : List Call := objs.map fun x => fl.call around (.destroy x)

/-- Where a call inside a try unwinds to. Where nothing of the try is live this is the try's own
pad, which calls nothing. -/
def tryPad (fl : Fn) (around : List Around) (t : TryFrame) : Pad :=
  ⟨.catches t.clauses, fl.destroys around (fl.temps ++ unwound fl.scopes t.depth), some t.dispatch⟩

def cleanupPad (fl : Fn) (around : List Around) : Pad :=
  ⟨.cleanup, fl.destroys around (fl.temps ++ fl.scopes.flatten ++ fl.partials) ++
    fl.catchEnds.map fun _ => fl.call around .endCatch, none⟩

/-- Where a call unwinds to; where there is no pad a call is a call. -/
def unwindPad (fl : Fn) (around : List Around) : Option Pad :=
  match fl.tries with
  | t :: _ => some (fl.tryPad around t)
  | [] => if fl.hasLiveObjects then some (fl.cleanupPad around) else none

def emitCall (around : List Around) (callee : Callee) (fl : Fn) : Fn :=
  if fl.blk = none then fl
  else
    match fl.unwindPad around with
    | none => fl.plain around callee
    | some pad => ((fl.alloc 1).close (.invoke (fl.call around callee) fl.next pad)).enter fl.next

def destroyObjs (around : List Around) (objs : List Obj) (fl : Fn) : Fn :=
  objs.foldl (fun fl x => emitCall around (.destroy x) fl) fl

def destroyFrom (around : List Around) (depth : Nat) (fl : Fn) : Fn := destroyObjs around (unwound fl.scopes depth) fl

def popScope (around : List Around) (fl : Fn) : Fn :=
  destroyObjs around (fl.scopes.headD []) { fl with scopes := fl.scopes.tail }

def endFullExpr (around : List Around) (fl : Fn) : Fn := destroyObjs around fl.temps { fl with temps := [] }

/-- The temporary at the address goes to the enclosing scope, and the others are destroyed. -/
def extendTemporary (around : List Around) (bound : Option (Obj × Bool)) (fl : Fn) : Fn :=
  match bound with
  | some (x, true) =>
    if x ∈ fl.temps then endFullExpr around (track x { fl with temps := fl.temps.filter (· ≠ x) })
    else endFullExpr around fl
  | _ => endFullExpr around fl

def endOpenCatches (around : List Around) (fl : Fn) : Fn :=
  fl.catchEnds.foldl (fun fl _ => plain around .endCatch fl) fl

/-- The block ends after a call that does not return. -/
def unreachable (fl : Fn) : Fn := fl.close .trap

def jump (target : Option Nat) (fl : Fn) : Fn :=
  match target with
  | none => fl
  | some l => fl.close (.br l)

/-- Nothing is lowered where control cannot be. -/
def reachable (lower : Fn → Fn) (fl : Fn) : Fn := if fl.blk = none then fl else lower fl

/-! ### Expressions -/

/-- The right operand is evaluated or not. -/
def shortCircuit (rhs : Fn → Fn) (fl : Fn) : Fn :=
  let right := fl.next
  let join := fl.next + 1
  let short := fl.next + 2
  let fl := ((fl.alloc 3).close (.brIf right short)).enter short
  let fl := (fl.close (.br join)).enter right
  ((rhs fl).close (.br join)).enter join

/-- One of the arms is evaluated. -/
def conditional (arm els : Fn → Fn) (fl : Fn) : Fn :=
  let body := fl.next
  let other := fl.next + 1
  let join := fl.next + 2
  let fl := ((fl.alloc 3).close (.brIf body other)).enter body
  let fl := ((arm fl).close (.br join)).enter other
  ((els fl).close (.br join)).enter join

def expr (around : List Around) : Expr → Fn → Fn
  | .leaf k => plain around (.point k)
  | .comma x y => fun fl => expr around y (expr around x fl)
  | .call k (.temp x) args => fun fl => emitCall around (.call k (.temp x)) (expr around args (temporary x fl))
  | .call k made args => fun fl => emitCall around (.call k made) (expr around args fl)
  | .copied k x arg => fun fl => temporary x (emitCall around (.call k (.temp x)) (expr around arg fl))
  | .logic x y => fun fl => reachable (shortCircuit (expr around y)) (expr around x fl)
  | .cond temp c x y => fun fl =>
      reachable (conditional (expr around x) (expr around y)) (temp.toList.foldl (fun fl x => temporary x fl) (expr around c fl))
  | .throw_ operand => fun fl =>
      (emitCall around .raise (expr around operand (emitCall around .allocate fl))).unreachable
  | .rethrow => fun fl => (emitCall around .raise fl).unreachable

/-- A full-expression and the destruction of its temporaries. -/
def fullExpr (around : List Around) (e : Expr) (fl : Fn) : Fn :=
  endFullExpr around (plain around .fullEnd (expr around e fl))

def declareLocal (around : List Around) (d : Decl) (fl : Fn) : Fn :=
  match d with
  | .value e => fullExpr around e fl
  | .constructed x e => endFullExpr around (plain around .fullEnd (track x (expr around e fl)))
  | .tracked x e => fullExpr around e (track x fl)
  | .reference e bound => extendTemporary around bound (plain around .fullEnd (expr around e fl))
  | .static e =>
    -- the initializer runs once, and its full-expression is not ended
    let init := fl.next
    let join := fl.next + 1
    let fl := ((fl.alloc 2).close (.brIf join init)).enter init
    ((plain around .fullEnd (expr around e fl)).close (.br join)).enter join

def decls (around : List Around) : List Decl → Fn → Fn
  | [], fl => fl
  | d :: ds, fl => decls (d.declares ++ around) ds (reachable (declareLocal around d) fl)

def simple (around : List Around) (s : Simple) (fl : Fn) : Fn :=
  match s with
  | .expr e => fullExpr around e fl
  | .decl ds => decls around ds fl

def initStmt (around : List Around) (init : Option Simple) (fl : Fn) : Fn :=
  match init with
  | none => fl
  | some s => simple around s fl

def cond (around : List Around) (c : Cond) (fl : Fn) : Fn :=
  match c with
  | .expr e => fullExpr around e fl
  | .decl d => declareLocal around d fl

def returnStmt (around : List Around) (value : Return) (fl : Fn) : Fn :=
  let fl := match value with
    | .nothing => fl
    | .value e => fullExpr around e fl
    | .reference e => plain around .fullEnd (expr around e fl)
  (endOpenCatches around (destroyFrom around 0 fl)).close .ret

/-! ### Statements with a body -/

def branch (arm : Fn → Fn) (fl : Fn) : Fn :=
  let body := fl.next
  let join := fl.next + 1
  let fl := ((fl.alloc 2).close (.brIf body join)).enter body
  ((arm fl).close (.br join)).enter join

def branchElse (arm els : Fn → Fn) (fl : Fn) : Fn :=
  let body := fl.next
  let join := fl.next + 1
  let other := fl.next + 2
  let fl := ((fl.alloc 3).close (.brIf body other)).enter body
  let fl := ((arm fl).close (.br join)).enter other
  ((els fl).close (.br join)).enter join

/-- A loop's body with its targets, joined to `next`. -/
def loop (body next exit : Nat) (stmt : Fn → Fn) (fl : Fn) : Fn :=
  let depth := fl.scopes.length
  let inner := stmt ({ fl with targets := ⟨some exit, some next, depth, depth⟩ }.enter body)
  { inner.close (.br next) with targets := fl.targets }.enter exit

/-- A loop once its condition has been written to its header. -/
def whileLoop (header : Nat) (stmt : Fn → Fn) (fl : Fn) : Fn :=
  loop (header + 1) header (header + 2) stmt (fl.close (.brIf (header + 1) (header + 2)))

/-- A variable of the condition is declared in a scope around the whole loop. -/
def whileStmt (around : List Around) (c : Cond) (stmt : Fn → Fn) (fl : Fn) : Fn :=
  let header := fl.next
  let fl := ((fl.alloc 3).close (.br header)).enter header
  match c with
  | .decl d => popScope around (reachable (whileLoop header stmt) (declareLocal around d fl.pushScope))
  | .expr e => reachable (whileLoop header stmt) (fullExpr around e fl)

def doStmt (around : List Around) (stmt : Fn → Fn) (e : Expr) (fl : Fn) : Fn :=
  let body := fl.next
  let next := fl.next + 1
  let exit := fl.next + 2
  let fl := loop body next exit stmt ((fl.alloc 3).close (.br body))
  ((fullExpr around e (fl.enter next)).close (.brIf body exit)).enter exit

/-- A `for` loop after its init-statement. -/
def forLoop (around : List Around) (c post : Option Expr) (stmt : Fn → Fn) (fl : Fn) : Fn :=
  let header := fl.next
  let body := fl.next + 1
  let step := fl.next + 2
  let exit := fl.next + 3
  let fl := ((fl.alloc 4).close (.br header)).enter header
  let fl := match c with
    | some e => (fullExpr around e fl).close (.brIf body exit)
    | none => fl.close (.br body)
  let fl := (loop body step exit stmt fl).enter step
  let fl := match post with
    | some e => fullExpr around e fl
    | none => fl
  (fl.close (.br header)).enter exit

/-- A pass of a range-based loop: the variable is declared in a scope of its own. -/
def rangePass (around : List Around) (ends : Bool) (var : Expr × Option Obj) (stmt : Fn → Fn) (fl : Fn) : Fn :=
  let fl := expr around var.1 fl.pushScope
  let fl := var.2.toList.foldl (fun fl x => track x fl) fl
  let fl := if ends then endFullExpr around (plain around .fullEnd fl) else fl
  popScope around (stmt fl)

/-- A range-based loop once its range is there. -/
def rangeLoop (around : List Around) (proto : Option Protocol) (var : Expr × Option Obj) (stmt : Fn → Fn) (fl : Fn) : Fn :=
  let head := fl.next
  let body := fl.next + 1
  let step := fl.next + 2
  let exit := fl.next + 3
  let fl := ((fl.alloc 4).close (.br head)).enter head
  let fl := match proto with
    | some p => fullExpr around p.cond fl
    | none => fl
  let fl := loop body step exit (rangePass (.loop :: around) proto.isSome var stmt) (fl.close (.brIf body exit))
  let fl := fl.enter step
  let fl := match proto with
    | some p => fullExpr around p.step fl
    | none => fl
  (fl.close (.br head)).enter exit

/-- The iterators, each registered once it is there. -/
def iterators (around : List Around) : List (Expr × Option Obj) → Fn → Fn
  | [], fl => fl
  | it :: its, fl => iterators (objectOf it.2 ++ around) its (it.2.toList.foldl (fun fl x => track x fl) (expr around it.1 fl))

def boundObject (bound : Option (Obj × Bool)) : List Around := objectOf (bound.map (·.1))

def itersDeclare (iters : List (Expr × Option Obj)) : List Around := (iters.map fun it => objectOf it.2).flatten.reverse

/-- What a range-based loop declares before its passes. -/
def rangeDeclares (proto : Option Protocol) : List Around :=
  match proto with
  | some p => itersDeclare p.iters ++ boundObject p.bound
  | none => []

def rangeSetup (around : List Around) (range : Expr) (proto : Option Protocol) (fl : Fn) : Fn :=
  match proto with
  | some p =>
    let inner := boundObject p.bound ++ around
    let fl := extendTemporary around p.bound (plain around .fullEnd (expr around range fl))
    endFullExpr inner (plain inner .fullEnd (iterators inner p.iters fl))
  | none => expr around range fl

/-! ### Switch -/

/-- The tests of the dispatch: for each value the body it goes to, the bodies being numbered from
`body` on. -/
def tests : List (List Label) → Nat → List Nat
  | [], _ => []
  | g :: groups, body => List.replicate (g.count .value) body ++ tests groups (body + 1)

/-- Where the dispatch ends if no value matches. -/
def defaultBody : List (List Label) → Nat → Nat → Nat
  | [], _, exit => exit
  | g :: groups, body, exit => defaultBody groups (body + 1) (if .dflt ∈ g then body else exit)

/-- One comparison: to its body, or on to a new block. -/
def test (fl : Fn) (body : Nat) : Fn := ((fl.alloc 1).close (.brIf body fl.next)).enter fl.next

/-- The dispatch: the exit's block and then the bodies' are taken, and the tests are written. -/
def dispatch (groups : List (List Label)) (fl : Fn) : Fn :=
  ((tests groups (fl.next + 1)).foldl test (fl.alloc (1 + groups.length))).close
    (.br (defaultBody groups (fl.next + 1) fl.next))

/-- A switch once its condition has been evaluated. -/
def switchBody (groups : List (List Label)) (bodies : Nat → Fn → Fn) (fl : Fn) : Fn :=
  if groups = [] then fl
  else
    let start := dispatch groups fl
    let targets := { fl.targets with breakTo := some fl.next, breakDepth := fl.scopes.length }
    let inner := bodies (fl.next + 1) { start with targets := targets }
    { inner.close (.br fl.next) with targets := fl.targets }.enter fl.next

/-! ### Jumps to labels -/

def setLabel (name : Nat) (l : LabelState) (fl : Fn) : Fn := { fl with labels := Function.update fl.labels name (some l) }

/-- A label's block is made where it is first met. -/
def label (name : Nat) (fl : Fn) : Fn :=
  match fl.labels name with
  | some _ => fl
  | none => (fl.alloc 1).setLabel name { blk := fl.next }

/-- A jump to a label that has not been reached goes to a block of its own. -/
def gotoStmt (around : List Around) (name : Nat) (fl : Fn) : Fn :=
  let fl := label name fl
  match fl.labels name with
  | none => fl
  | some l =>
    match l.depth with
    | some depth => (plain around (.jump (.label name)) (destroyFrom around depth fl)).close (.br l.blk)
    | none =>
      ((plain around (.jump (.label name)) (fl.alloc 1)).close (.br fl.next)).setLabel name
        { l with pending := l.pending ++ [(fl.next, fl.scopes)] }

/-- A jump that waited for its label leaves the scopes between the two. -/
def arrive (around : List Around) (l : LabelState) (depth : Nat) (fl : Fn) (p : Nat × List (List Obj)) : Fn :=
  (destroyObjs around (unwound p.2 depth) (fl.enter p.1)).close (.br l.blk)

/-- A second label of one name is refused: its block is closed. -/
def labeledStmt (around : List Around) (name : Nat) (stmt : Fn → Fn) (fl : Fn) : Fn :=
  let fl := label name fl
  match fl.labels name with
  | none => fl
  | some l =>
    if l.depth.isSome then fl
    else
    let depth := fl.scopes.length
    let fl := (fl.close (.br l.blk)).setLabel name ⟨l.blk, some depth, []⟩
    stmt ((l.pending.foldl (arrive around l depth) fl).enter l.blk)

/-! ### Handlers -/

/-- Opens a try: the block its handlers are chosen in, and the one that control goes on at. -/
def beginTry (clauses : List Clause) (fl : Fn) : Fn :=
  { fl.alloc 2 with tries := ⟨clauses, fl.next, fl.scopes.length⟩ :: fl.tries }

/-- The parameter is bound to the exception, or is a copy of it. -/
def bindCaught (around : List Around) (param : Param) (fl : Fn) : Fn :=
  match param with
  | none => fl
  | some (k, x) => track x (emitCall around (.call k (.inPlace x)) fl)

/-- One handler, from its block on. That it catches is a plain call. -/
def handler (around : List Around) (h : HandlerId) (param : Param) (body : Fn → Fn) (done : Nat) (rethrow : Bool)
    (fl : Fn) : Fn :=
  let inner := .handler h :: around
  let fl := (plain around (.beginCatch h) fl).pushScope
  let fl := body (bindCaught inner param { fl with catchEnds := h :: fl.catchEnds })
  let fl := popScope inner { fl with catchEnds := fl.catchEnds.tail }
  if rethrow then (emitCall inner .rethrowEnd fl).unreachable
  else (emitCall around .endCatch fl).close (.br done)

/-- Closes a try: the selector chooses among the handlers' blocks, which are those from `hit` on, in
the order of the clauses; where it is none of them the exception goes on. -/
def endTry (clauses : List Clause) (handlers : Nat → Fn → Fn) (dispatch done : Nat) (fl : Fn) : Fn :=
  let fl := ({ fl with tries := fl.tries.tail }.close (.br done)).enter dispatch
  let hit := fl.next
  let fl := (fl.alloc clauses.length).close (.choose ((List.range clauses.length).map (hit + ·)))
  (handlers hit fl).enter done

/-- The body runs between the opening of the try and its end. -/
def tryBlock (around : List Around) (t : Nat) (clauses : List Clause) (body : List Around → Fn → Fn)
    (handlers : Nat → Nat → Fn → Fn) (fl : Fn) : Fn :=
  if clauses = [] then body around fl
  else
    let dispatch := fl.next
    let done := fl.next + 1
    endTry clauses (handlers done) dispatch done (body (.tryBlock t clauses :: around) (beginTry clauses fl))

end Fn

open Fn

mutual

/-- A label for `goto` somewhere in the statement. -/
def hasNamedLabel : Stmt → Bool
  | .labeledStmt _ _ => true
  | .compound body => anyNamedLabel body
  | .ifStmt _ _ arm => hasNamedLabel arm
  | .ifElse _ _ arm els => hasNamedLabel arm || hasNamedLabel els
  | .ifConst _ taken => hasNamedLabel taken
  | .whileStmt _ body | .doStmt body _ | .forStmt _ _ _ body | .rangeForStmt _ _ _ _ body => hasNamedLabel body
  | .switchStmt _ _ body => itemsNamedLabel body
  | .tryStmt _ body handlers => hasNamedLabel body || handlersNamedLabel handlers
  | .simple _ | .breakStmt | .continueStmt | .gotoStmt _ | .returnStmt _ => false

def anyNamedLabel : Stmts → Bool
  | .nil => false
  | .cons s rest => hasNamedLabel s || anyNamedLabel rest

def itemsNamedLabel : Items → Bool
  | .nil => false
  | .cons _ s rest => hasNamedLabel s || itemsNamedLabel rest

def handlersNamedLabel : Handlers → Bool
  | .nil => false
  | .cons _ _ body rest => hasNamedLabel body || handlersNamedLabel rest

end

mutual

def stmt (around : List Around) : Stmt → Fn → Fn
  | .simple s => reachable (simple around s)
  | .compound body => fun fl =>
      if fl.blk = none ∧ anyNamedLabel body = false then fl else popScope around (stmts around body fl.pushScope)
  | .ifStmt init c arm => reachable fun fl =>
      let inner := initDeclares init ++ around
      popScope around (reachable (fun fl => reachable (branch (stmt (c.declares ++ inner) arm)) (cond inner c fl))
        (initStmt around init fl.pushScope))
  | .ifElse init c arm els => reachable fun fl =>
      let inner := initDeclares init ++ around
      popScope around (reachable (fun fl => reachable (branchElse (stmt (c.declares ++ inner) arm) (stmt (c.declares ++ inner) els))
        (cond inner c fl)) (initStmt around init fl.pushScope))
  | .ifConst init taken => reachable fun fl =>
      popScope around (stmt (initDeclares init ++ around) taken (initStmt around init fl.pushScope))
  | .whileStmt c body => reachable (whileStmt around c (stmt (.loop :: (c.declares ++ around)) body))
  | .doStmt body e => reachable (doStmt around (stmt (.loop :: around) body) e)
  | .forStmt init c post body => reachable fun fl =>
      let inner := initDeclares init ++ around
      popScope around (reachable (forLoop inner c post (stmt (.loop :: inner) body)) (initStmt around init fl.pushScope))
  | .rangeForStmt init range proto var body => reachable fun fl =>
      let inner := initDeclares init ++ around
      let within := rangeDeclares proto ++ inner
      popScope around (reachable
        (fun fl => rangeLoop within proto var (stmt (objectOf var.2 ++ .loop :: within) body) (rangeSetup inner range proto fl))
        (initStmt around init fl.pushScope))
  | .switchStmt init e body => reachable fun fl =>
      let inner := initDeclares init ++ around
      reachable (fun fl => reachable (switchBody (caseGroups body) (caseBodies (.switch :: inner) body)) (fullExpr inner e fl))
        (initStmt around init fl)
  | .breakStmt => reachable fun fl =>
      (plain around (.jump .out) (destroyFrom around fl.targets.breakDepth fl)).jump fl.targets.breakTo
  | .continueStmt => reachable fun fl =>
      (plain around (.jump .next) (destroyFrom around fl.targets.continueDepth fl)).jump fl.targets.continueTo
  | .gotoStmt name => reachable (gotoStmt around name)
  | .labeledStmt name s => labeledStmt around name (stmt around s)
  | .returnStmt value => reachable (returnStmt around value)
  | .tryStmt t body handlers => reachable fun fl =>
      tryBlock around t handlers.clauses (fun around fl =>
          if handlers.clauses = [] then stmt around body fl else popScope around (stmt around body fl.pushScope))
        (handlerBodies around t false handlers 0) fl

def stmts (around : List Around) : Stmts → Fn → Fn
  | .nil => id
  | .cons s rest => fun fl => stmts (s.declares ++ around) rest (stmt around s fl)

/-- The bodies of a switch in source order, each falling into the next; `body` is the block of
the next group. What stands before the first label is not reached. -/
def caseBodies (around : List Around) : Items → Nat → Fn → Fn
  | .nil, _ => id
  | .cons labels s rest, body => fun fl =>
      if labels = [] then caseBodies (s.declares ++ around) rest body (stmt around s fl)
      else caseBodies (s.declares ++ around) rest (body + 1) (stmt around s ((fl.close (.br body)).enter body))

/-- The handlers from the one at `idx` on, whose block is `hit`. -/
def handlerBodies (around : List Around) (t : Nat) (rethrow : Bool) : Handlers → Nat → Nat → Nat → Fn → Fn
  | .nil, _, _, _ => id
  | .cons _ param body rest, idx, done, hit => fun fl =>
      let inner := objectOf (param.map (·.2)) ++ .handler ⟨t, idx⟩ :: around
      handlerBodies around t rethrow rest (idx + 1) done (hit + 1)
        (handler around ⟨t, idx⟩ param (stmt inner body) done rethrow (fl.enter hit))

end

namespace Fn

/-- A constructor's initializers: their temporaries are left to the next full-expression. -/
def memInits (around : List Around) : List (Expr × Option Obj) → Fn → Fn
  | [], fl => fl
  | (e, x) :: inits, fl =>
    memInits around inits (x.toList.foldl (fun fl x => trackPartial x fl) (plain around .fullEnd (expr around e fl)))

end Fn

/-- A function. Its entry is block 0. -/
def lowered (f : Function) : Fn :=
  let around := f.params.map Around.object
  let body := fun around fl => stmt around f.body (memInits around f.inits fl)
  let fl : Fn := { next := 1, blk := some 0, scopes := [f.params] }
  let fl := match f.tryBlock with
    | none => body around fl
    | some (t, handlers) => tryBlock around t handlers.clauses body (handlerBodies around t f.rethrows handlers 0) fl
  (destroyFrom around 0 (destroyObjs around f.members fl)).close .ret

end Vcx.Unwind
