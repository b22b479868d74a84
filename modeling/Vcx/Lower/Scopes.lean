import Vcx.Lib.Paths

/-!
# Scopes and the statements of a function

The lowering walks a function's statements and keeps a stack of scopes with the objects to be
destroyed on leaving them: a block's end destroys its scope, `break` and `continue` those inside
the loop, `return` all of them. Expressions are opaque here; what a statement does is the
sequence of evaluations, constructions and destructions it writes to the blocks.
-/

namespace Vcx.Lower
set_option autoImplicit false
open Vcx.Lib

/-- An automatic object whose class has a destructor. -/
abbrev Obj := Nat

inductive Event
  | eval (e : Nat)
  | construct (x : Obj)
  | destroy (x : Obj)
  deriving Repr, DecidableEq

/-! ### Statements -/

/-- The statements that may also be an init-statement. A declaration is the list of the objects
it declares that have a destructor. -/
inductive Simple
  | empty
  | expr (e : Nat)
  | decl (objs : List Obj)
  deriving Repr, DecidableEq

/-- The condition of an `if` or a `while`: an expression, or the declaration of a variable, which
is an object with a destructor or not. -/
inductive Cond
  | expr (e : Nat)
  | decl (obj : Option Obj)
  deriving Repr, DecidableEq

inductive Label
  | value
  | dflt
  deriving Repr, DecidableEq

/-- What the range of a range-based loop has to be destroyed: of a class its temporary and the
iterators; of an array the elements of the braced list that it is, if it is one. -/
inductive Range
  | ofClass (objs : List Obj)
  | ofArray (elems : List Obj)
  deriving Repr, DecidableEq

def Range.objs : Range → List Obj
  | .ofClass objs => objs
  | .ofArray elems => elems

mutual

/-- `ifConst` is an `if` whose condition is settled in the analysis (`if constexpr`,
`if consteval`): only the arm that is taken is lowered. The object of `rangeForStmt` is its
variable. -/
inductive Stmt
  | simple (s : Simple)
  | compound (body : Stmts)
  | ifStmt (init : Simple) (cond : Cond) (arm : Stmt)
  | ifElse (init : Simple) (cond : Cond) (arm els : Stmt)
  | ifConst (init : Simple) (taken : Stmt)
  | whileStmt (cond : Cond) (body : Stmt)
  | doStmt (body : Stmt) (cond : Nat)
  | forStmt (init : Simple) (cond post : Option Nat) (body : Stmt)
  | rangeForStmt (init : Simple) (range : Range) (var : Option Obj) (body : Stmt)
  | switchStmt (init : Simple) (cond : Nat) (body : Items)
  | breakStmt
  | continueStmt
  | returnStmt (value : Option Nat)

inductive Stmts
  | nil
  | cons (s : Stmt) (rest : Stmts)

/-- The statements of a switch body, each with the run of labels before it. -/
inductive Items
  | nil
  | cons (labels : List Label) (s : Stmt) (rest : Items)

end

/-- The groups of a switch body: the runs of labels it has. A statement belongs to the group of
the last labels before it. -/
def caseGroups : Items → List (List Label)
  | .nil => []
  | .cons labels _ rest => if labels = [] then caseGroups rest else labels :: caseGroups rest

/-! ### The function being lowered -/

/-- Where `break` and `continue` go, and the depth of the scopes they leave. -/
structure Targets where
  breakTo : Option Nat := none
  continueTo : Option Nat := none
  breakDepth : Nat := 0
  continueDepth : Nat := 0

/-- `scopes` is the stack of scopes, the innermost first, each with its last object first. -/
structure Fn extends Graph Event where
  scopes : List (List Obj) := []
  targets : Targets := {}

namespace Fn

def emit (fl : Fn) (e : Event) : Fn := { fl with toGraph := fl.toGraph.emit e }
def close (fl : Fn) (t : Term) : Fn := { fl with toGraph := fl.toGraph.close t }
def enter (fl : Fn) (l : Nat) : Fn := { fl with toGraph := fl.toGraph.enter l }
def alloc (fl : Fn) (count : Nat) : Fn := { fl with toGraph := fl.toGraph.alloc count }

def emitAll (fl : Fn) (es : List Event) : Fn := { fl with toGraph := fl.toGraph.emitAll es }

def destroyScope (fl : Fn) (objs : List Obj) : Fn := fl.emitAll (objs.map .destroy)

/-- The objects of the scopes from `depth` outward, in the order they are destroyed in. -/
def unwound (scopes : List (List Obj)) (depth : Nat) : List Obj := (scopes.take (scopes.length - depth)).flatten

def destroyFrom (fl : Fn) (depth : Nat) : Fn := fl.destroyScope (unwound fl.scopes depth)

def pushScope (fl : Fn) : Fn := { fl with scopes := [] :: fl.scopes }

/-- Closes a block. Where control does not reach its end, nothing is written. -/
def popScope (fl : Fn) : Fn := { fl.destroyScope (fl.scopes.headD []) with scopes := fl.scopes.tail }

/-- Registers an object with the current scope. -/
def track (fl : Fn) (x : Obj) : Fn :=
  match fl.scopes with
  | [] => fl
  | top :: outer => { fl with scopes := (x :: top) :: outer }

def declareLocal (fl : Fn) (x : Obj) : Fn := (fl.emit (.construct x)).track x

def jump (fl : Fn) (target : Option Nat) : Fn :=
  match target with
  | none => fl
  | some l => fl.close (.br l)

def returnWith (fl : Fn) (value : Option Nat) : Fn := ((fl.emitAll (value.toList.map .eval)).destroyFrom 0).close .ret

def simple (s : Simple) (fl : Fn) : Fn :=
  match s with
  | .empty => fl
  | .expr e => fl.emit (.eval e)
  | .decl objs => objs.foldl declareLocal fl

def cond (c : Cond) (fl : Fn) : Fn :=
  match c with
  | .expr e => fl.emit (.eval e)
  | .decl obj => obj.toList.foldl declareLocal fl

/-- An `if`'s arms, once its condition has been evaluated. -/
def branch (arm : Fn → Fn) (fl : Fn) : Fn :=
  let body := fl.next
  let join := fl.next + 1
  let fl := ((fl.alloc 2).close (.brIf body join)).enter body
  ((arm fl).close (.br join)).enter join

def branchElse (arm els : Fn → Fn) (fl : Fn) : Fn :=
  let body := fl.next
  let join := fl.next + 1
  let other := fl.next + 2
  let fl := ((fl.alloc 3).close (.brIf body other)).enter body
  let fl := ((arm fl).close (.br join)).enter other
  ((els fl).close (.br join)).enter join

/-- A loop's body with its targets, joined to `next`. -/
def loop (body next exit : Nat) (stmt : Fn → Fn) (fl : Fn) : Fn :=
  let depth := fl.scopes.length
  let inner := stmt ({ fl with targets := ⟨some exit, some next, depth, depth⟩ }.enter body)
  { inner.close (.br next) with targets := fl.targets }.enter exit

/-- A variable of the condition is declared in a scope around the whole loop. -/
def whileStmt (c : Cond) (stmt : Fn → Fn) (fl : Fn) : Fn :=
  let header := fl.next
  let body := fl.next + 1
  let exit := fl.next + 2
  let fl := ((fl.alloc 3).close (.br header)).enter header
  match c with
  | .decl obj => (loop body header exit stmt ((cond (.decl obj) fl.pushScope).close (.brIf body exit))).popScope
  | .expr e => loop body header exit stmt ((cond (.expr e) fl).close (.brIf body exit))

def doStmt (stmt : Fn → Fn) (e : Nat) (fl : Fn) : Fn :=
  let body := fl.next
  let next := fl.next + 1
  let exit := fl.next + 2
  let fl := loop body next exit stmt ((fl.alloc 3).close (.br body))
  (((fl.enter next).emit (.eval e)).close (.brIf body exit)).enter exit

/-- A `for` loop after its init-statement. -/
def forLoop (c post : Option Nat) (stmt : Fn → Fn) (fl : Fn) : Fn :=
  let header := fl.next
  let body := fl.next + 1
  let step := fl.next + 2
  let exit := fl.next + 3
  let fl := ((fl.alloc 4).close (.br header)).enter header
  let fl := match c with
    | some e => (fl.emit (.eval e)).close (.brIf body exit)
    | none => fl.close (.br body)
  let fl := loop body step exit stmt fl
  let fl := ((fl.enter step).emitAll (post.toList.map .eval)).close (.br header)
  fl.enter exit

def forStmt (init : Simple) (c post : Option Nat) (stmt : Fn → Fn) (fl : Fn) : Fn :=
  (forLoop c post stmt (simple init fl.pushScope)).popScope

/-- A pass of a range-based loop: the variable is declared in a scope of its own. -/
def rangePass (var : Option Obj) (stmt : Fn → Fn) (fl : Fn) : Fn :=
  (stmt (var.toList.foldl declareLocal fl.pushScope)).popScope

/-- A range-based loop once its range and its iterators are there. -/
def rangeLoop (var : Option Obj) (stmt : Fn → Fn) (fl : Fn) : Fn :=
  let head := fl.next
  let body := fl.next + 1
  let step := fl.next + 2
  let exit := fl.next + 3
  let fl := ((fl.alloc 4).close (.br head)).enter head
  let fl := loop body step exit (rangePass var stmt) (fl.close (.brIf body exit))
  let fl := (fl.enter step).close (.br head)
  fl.enter exit

/-- The elements of a braced list are built in the range's array and registered nowhere. -/
def rangeObjects (range : Range) (fl : Fn) : Fn :=
  match range with
  | .ofClass objs => objs.foldl declareLocal fl
  | .ofArray elems => fl.emitAll (elems.map .construct)

def rangeForStmt (init : Simple) (range : Range) (var : Option Obj) (stmt : Fn → Fn) (fl : Fn) : Fn :=
  (rangeLoop var stmt (rangeObjects range (simple init fl.pushScope))).popScope

/-- The tests of the dispatch: for each value the body it goes to, the bodies being numbered from
`body` on. -/
def tests : List (List Label) → Nat → List Nat
  | [], _ => []
  | g :: groups, body => List.replicate (g.count .value) body ++ tests groups (body + 1)

/-- Where the dispatch ends if no value matches. -/
def defaultBody : List (List Label) → Nat → Nat → Nat
  | [], _, exit => exit
  | g :: groups, body, exit => defaultBody groups (body + 1) (if .dflt ∈ g then body else exit)

/-- One comparison: to its body, or on to a new block. -/
def test (fl : Fn) (body : Nat) : Fn := ((fl.alloc 1).close (.brIf body fl.next)).enter fl.next

/-- The dispatch: the exit's block and then the bodies' are taken, and the tests are written. -/
def dispatch (groups : List (List Label)) (fl : Fn) : Fn :=
  ((tests groups (fl.next + 1)).foldl test (fl.alloc (1 + groups.length))).close
    (.br (defaultBody groups (fl.next + 1) fl.next))

/-- A switch once its condition has been evaluated. -/
def switchBody (groups : List (List Label)) (bodies : Nat → Fn → Fn) (fl : Fn) : Fn :=
  if groups = [] then fl
  else
    let start := dispatch groups fl
    let targets := { fl.targets with breakTo := some fl.next, breakDepth := fl.scopes.length }
    let inner := bodies (fl.next + 1) { start with targets := targets }
    { inner.close (.br fl.next) with targets := fl.targets }.enter fl.next

/-- A switch pushes no scope: the objects of its init-statement and of its body go to the scope
around it. -/
def switchStmt (init : Simple) (e : Nat) (groups : List (List Label)) (bodies : Nat → Fn → Fn) (fl : Fn) : Fn :=
  switchBody groups bodies ((simple init fl).emit (.eval e))

/-- Nothing is lowered where control cannot be. -/
def reachable (lower : Fn → Fn) (fl : Fn) : Fn := if fl.blk = none then fl else lower fl

end Fn

open Fn

mutual

def stmt : Stmt → Fn → Fn
  | .simple s => reachable (simple s)
  | .compound body => reachable fun fl => (stmts body fl.pushScope).popScope
  | .ifStmt init c arm => reachable fun fl => (branch (stmt arm) (cond c (simple init fl.pushScope))).popScope
  | .ifElse init c arm els => reachable fun fl =>
      (branchElse (stmt arm) (stmt els) (cond c (simple init fl.pushScope))).popScope
  | .ifConst init taken => reachable fun fl => (stmt taken (simple init fl.pushScope)).popScope
  | .whileStmt c body => reachable (whileStmt c (stmt body))
  | .doStmt body e => reachable (doStmt (stmt body) e)
  | .forStmt init c post body => reachable (forStmt init c post (stmt body))
  | .rangeForStmt init range var body => reachable (rangeForStmt init range var (stmt body))
  | .switchStmt init e body => reachable (switchStmt init e (caseGroups body) (caseBodies body))
  | .breakStmt => reachable fun fl => (fl.destroyFrom fl.targets.breakDepth).jump fl.targets.breakTo
  | .continueStmt => reachable fun fl => (fl.destroyFrom fl.targets.continueDepth).jump fl.targets.continueTo
  | .returnStmt value => reachable fun fl => fl.returnWith value

def stmts : Stmts → Fn → Fn
  | .nil => id
  | .cons s rest => fun fl => stmts rest (stmt s fl)

/-- The bodies of a switch in source order, each falling into the next; `body` is the block of
the next group. What stands before the first label is not reached. -/
def caseBodies : Items → Nat → Fn → Fn
  | .nil, _ => id
  | .cons labels s rest, body => fun fl =>
      if labels = [] then caseBodies rest body (stmt s fl)
      else caseBodies rest (body + 1) (stmt s ((fl.close (.br body)).enter body))

end

/-- A function with the parameters that it destroys itself, the last first. Its entry is block 0. -/
def lowered (params : List Obj) (body : Stmts) : Fn :=
  let fl : Fn := { next := 1, blk := some 0, scopes := [params] }
  ((stmt (.compound body) fl).destroyFrom 0).close .ret

end Vcx.Lower
