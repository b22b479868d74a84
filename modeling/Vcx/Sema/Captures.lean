import Vcx.Lib.Levels

/-!
# Lambda captures

`checkLambdaExpr` and `implicitCapture` on the body of a function: what is declared, which names stand in which
lambdas, and what each lambda captures. Beside it, what C++ says each lambda captures. A variable is told by its
level on the chain of scopes; `scopeEncloses` of two scopes on one chain compares levels.
-/

namespace Vcx.Captures
set_option autoImplicit false
open Vcx.Lib

/-! ### Bodies -/

/-- What a name stands for: a variable of a block or function scope, one that is static or extern or of another
scope, or no variable. -/
inductive Storage
  | automatic | fixed | other
  deriving DecidableEq, Repr

/-- A symbol of a scope. One declared by an init-capture has no `SymScope`. -/
structure Entry where
  name : String
  storage : Storage
  init : Bool := false
  deriving DecidableEq, Repr

mutual

/-- A part of a body, as far as names go: a name may be odr-used or not. -/
inductive Item
  | declare (name : String) (storage : Storage)
  | use (name : String) (odr : Bool)
  | block (body : Items)
  /-- the capture-default is by reference or by copy -/
  | lambda (captures : CaptureList) (default : Option Bool) (params : List String) (body : Items)

inductive Items
  | nil
  | cons (first : Item) (rest : Items)

/-- `&x` and `x`, and these with an initializer. -/
inductive CaptureList
  | nil
  | simple (name : String) (byRef : Bool) (rest : CaptureList)
  | init (name : String) (byRef : Bool) (value : Items) (rest : CaptureList)

end

/-- The scope chain behind an item: only declarations change it. -/
def Item.declares (env : List Entry) : Item → List Entry
  | .declare name storage => { name, storage } :: env
  | _ => env

def initEntry (name : String) : Entry := { name, storage := .automatic, init := true }

/-- The scope chain behind a lambda-introducer. -/
def CaptureList.declares (env : List Entry) : CaptureList → List Entry
  | .nil => env
  | .simple _ _ rest => rest.declares env
  | .init name _ _ rest => rest.declares (initEntry name :: env)

/-- The scope chain of a lambda's body. -/
def bodyScope (captures : CaptureList) (params : List String) (env : List Entry) : List Entry :=
  (params.map fun name => { name, storage := .automatic }).reverse ++ captures.declares env

/-! ### The checker -/

/-- `Capture`: `sym` is the level of the captured variable, which an init-capture has none of. -/
structure Capture where
  name : String
  sym : Option Nat
  byRef : Bool
  deriving DecidableEq, Repr

/-- `LambdaInfo`. Its scope `Inner` holds the levels from `inner` on. `uncaptured` has the variables that
`is not captured: the lambda has no capture-default` was reported for. -/
structure LambdaInfo where
  inner : Nat
  default : Option Bool
  captures : List Capture
  uncaptured : List Nat := []
  deriving DecidableEq, Repr

/-- `LookupUnqualified` -/
def lookup (env : List Entry) (name : String) : Option (Nat × Entry) := resolve (fun _ e => e.name == name) env

/-- The loop of `implicitCapture`, over the lambdas around, innermost first. -/
def implicitCapture (v : Nat) (name : String) : List LambdaInfo → List LambdaInfo
  | [] => []
  | info :: outer =>
    -- declared inside this lambda
    if info.inner ≤ v then info :: outer
    else if info.captures.any (·.name == name) then info :: outer
    else match info.default with
      | none => { info with uncaptured := info.uncaptured ++ [v] } :: outer
      | some byRef =>
        { info with captures := info.captures ++ [⟨name, some v, byRef⟩] } :: implicitCapture v name outer

/-- `checkExpr` of an identifier -/
def checkIdent (env : List Entry) (name : String) (lambdas : List LambdaInfo) : List LambdaInfo :=
  match lookup env name with
  | some (v, e) => if e.storage = .automatic && !e.init then implicitCapture v name lambdas else lambdas
  | none => lambdas

/-- The scope chain, the lambdas around, and those done. -/
structure State where
  env : List Entry
  lambdas : List LambdaInfo
  done : List LambdaInfo
  deriving Repr

/-- A lambda's body is done. -/
def State.pop (s : State) (env : List Entry) : State :=
  match s.lambdas with
  | info :: outer => { env, lambdas := outer, done := s.done ++ [info] }
  | [] => { s with env }

mutual

def Item.check (s : State) : Item → State
  | .declare name storage => { s with env := { name, storage } :: s.env }
  | .use name _ => { s with lambdas := checkIdent s.env name s.lambdas }
  | .block body => { body.check s with env := s.env }
  | .lambda captures default params body =>
    -- the initializers are checked before the lambda is among those around, in its own scope
    let (s', list) := captures.check s.env s []
    let info : LambdaInfo := { inner := s.env.length, default, captures := list }
    (body.check { s' with env := bodyScope captures params s.env, lambdas := info :: s'.lambdas }).pop s.env

def Items.check (s : State) : Items → State
  | .nil => s
  | .cons first rest => rest.check (first.check s)

/-- The captures of a lambda-introducer met in the scope `outer`: its names are looked up there, and its
initializers with the init-captures before them. -/
def CaptureList.check (outer : List Entry) (s : State) (list : List Capture) : CaptureList → State × List Capture
  | .nil => (s, list)
  | .simple name byRef rest =>
    match lookup outer name with
    | some (v, e) =>
      if e.storage = .other then rest.check outer s list
      else rest.check outer s (list ++ [⟨name, some v, byRef⟩])
    | none => rest.check outer s list
  | .init name byRef value rest =>
    let s' := value.check s
    rest.check outer { s' with env := initEntry name :: s.env } (list ++ [⟨name, none, byRef⟩])

end

/-! ### C++ -/

/-- How a body is read: by the standard, or by the checker. -/
inductive Reading
  | standard | checker
  deriving DecidableEq, Repr

/-- To the standard the init-captures of a lambda-introducer are not in scope before its end: `late` has their
levels. -/
def Reading.lookup (r : Reading) (late : List Nat) (env : List Entry) (name : String) : Option (Nat × Entry) :=
  match r with
  | .standard => resolve (fun l e => e.name == name && !late.contains l) env
  | .checker => Captures.lookup env name

/-- Whether naming a variable makes the lambda around need it. -/
def Reading.counts : Reading → Bool → Entry → Bool
  | .standard, odr, e => e.storage = .automatic && odr
  | .checker, _, e => e.storage = .automatic && !e.init

/-- The variables that one name makes needed. -/
def Reading.use (r : Reading) (late : List Nat) (env : List Entry) (name : String) (odr : Bool) : List Nat :=
  match r.lookup late env name with
  | some (v, e) => if r.counts odr e then [v] else []
  | none => []

/-- The variables captured explicitly, without an initializer. -/
def CaptureList.explicit (r : Reading) (late : List Nat) (outer : List Entry) : CaptureList → List Nat
  | .nil => []
  | .simple name _ rest =>
    (match r.lookup late outer name with
      | some (v, e) => if e.storage = .other then [] else [v]
      | none => []) ++ rest.explicit r late outer
  | .init _ _ _ rest => rest.explicit r late outer

/-- What a lambda captures by its capture-default, of what its body needs. -/
def implicit (default : Option Bool) (outer : List Entry) (explicit needed : List Nat) : List Nat :=
  if default.isSome then needed.filter fun v => v < outer.length && !explicit.contains v else []

/-- The levels out of scope in the initializer of a capture. -/
def lateIn (late : List Nat) (outer env : List Entry) : List Nat :=
  late ++ List.range' outer.length (env.length - outer.length)

mutual

/-- The variables that a body needs: to the standard, those it odr-uses and those that the lambdas in it
capture; to the checker, those it names and those that the lambdas in it capture by their capture-defaults. -/
def Item.needs (r : Reading) (late : List Nat) (env : List Entry) : Item → List Nat
  | .declare _ _ => []
  | .use name odr => r.use late env name odr
  | .block body => body.needs r late env
  | .lambda captures default params body =>
    let explicit := captures.explicit r late env
    captures.needs r late env env ++ (if r = .standard then explicit else []) ++
      implicit default env explicit (body.needs r late (bodyScope captures params env))

def Items.needs (r : Reading) (late : List Nat) (env : List Entry) : Items → List Nat
  | .nil => []
  | .cons first rest => first.needs r late env ++ rest.needs r late (first.declares env)

/-- The same of the initializers of a lambda-introducer. -/
def CaptureList.needs (r : Reading) (late : List Nat) (outer env : List Entry) : CaptureList → List Nat
  | .nil => []
  | .simple _ _ rest => rest.needs r late outer env
  | .init name _ value rest =>
    value.needs r (lateIn late outer env) env ++ rest.needs r late outer (initEntry name :: env)

end

mutual

/-- The variables the checker finds named in a body itself, not in the bodies of lambdas. -/
def Item.named (env : List Entry) : Item → List Nat
  | .declare _ _ => []
  | .use name odr => Reading.checker.use [] env name odr
  | .block body => body.named env
  | .lambda captures _ _ _ => captures.named env

def Items.named (env : List Entry) : Items → List Nat
  | .nil => []
  | .cons first rest => first.named env ++ rest.named (first.declares env)

def CaptureList.named (env : List Entry) : CaptureList → List Nat
  | .nil => []
  | .simple _ _ rest => rest.named env
  | .init name _ value rest => value.named env ++ rest.named (initEntry name :: env)

end

mutual

/-- The variables that the outermost lambdas in a body capture by their capture-defaults. -/
def Item.passed (late : List Nat) (env : List Entry) : Item → List Nat
  | .declare _ _ => []
  | .use _ _ => []
  | .block body => body.passed late env
  | .lambda captures default params body =>
    captures.passed late env env ++ implicit default env (captures.explicit .standard late env)
      (body.needs .standard late (bodyScope captures params env))

def Items.passed (late : List Nat) (env : List Entry) : Items → List Nat
  | .nil => []
  | .cons first rest => first.passed late env ++ rest.passed late (first.declares env)

def CaptureList.passed (late : List Nat) (outer env : List Entry) : CaptureList → List Nat
  | .nil => []
  | .simple _ _ rest => rest.passed late outer env
  | .init name _ value rest =>
    value.passed (lateIn late outer env) env ++ rest.passed late outer (initEntry name :: env)

end

/-- What a lambda is checked against. -/
structure Lambda where
  /-- the automatic variables declared outside it -/
  outside : List Nat
  default : Option Bool
  /-- what it captures explicitly -/
  explicit : List Nat
  /-- the same as the checker looks the names up -/
  found : List Nat
  /-- what its body needs -/
  needed : List Nat
  /-- the same as the checker reads it -/
  met : List Nat
  named : List Nat
  passed : List Nat

/-- The automatic variables of a scope chain. -/
def automatics (env : List Entry) : List Nat :=
  (List.range env.length).filter fun l => (atLevel env l).any (·.storage = .automatic)

/-- The lambda of a lambda-expression, in a scope. -/
def lambdaAt (late : List Nat) (env : List Entry) (captures : CaptureList) (default : Option Bool)
    (params : List String) (body : Items) : Lambda where
  outside := automatics env
  default
  explicit := captures.explicit .standard late env
  found := captures.explicit .checker late env
  needed := body.needs .standard late (bodyScope captures params env)
  met := body.needs .checker late (bodyScope captures params env)
  named := body.named (bodyScope captures params env)
  passed := body.passed late (bodyScope captures params env)

mutual

/-- The lambdas of a body, each after those inside it. -/
def Item.lambdas (late : List Nat) (env : List Entry) : Item → List Lambda
  | .declare _ _ => []
  | .use _ _ => []
  | .block body => body.lambdas late env
  | .lambda captures default params body =>
    captures.lambdas late env env ++ body.lambdas late (bodyScope captures params env) ++
      [lambdaAt late env captures default params body]

def Items.lambdas (late : List Nat) (env : List Entry) : Items → List Lambda
  | .nil => []
  | .cons first rest => first.lambdas late env ++ rest.lambdas late (first.declares env)

def CaptureList.lambdas (late : List Nat) (outer env : List Entry) : CaptureList → List Lambda
  | .nil => []
  | .simple _ _ rest => rest.lambdas late outer env
  | .init name _ value rest =>
    value.lambdas (lateIn late outer env) env ++ rest.lambdas late outer (initEntry name :: env)

end

/-- The captures of a variable. -/
def LambdaInfo.count (info : LambdaInfo) (v : Nat) : Nat := info.captures.countP (·.sym = some v)

/-- **What C++ says of a lambda's captures**: one of each variable from outside that is captured explicitly, or
needed and captured by default; and an error for one that is needed and is neither. -/
def Agrees (info : LambdaInfo) (k : Lambda) : Prop :=
  ∀ v ∈ k.outside,
    (info.count v = if v ∈ k.explicit ∨ k.default.isSome = true ∧ v ∈ k.needed then 1 else 0) ∧
      (v ∈ info.uncaptured ↔ v ∉ k.explicit ∧ k.default = none ∧ v ∈ k.needed)

/-- When the checker does what C++ says to a lambda. Its explicit captures are found, once each. And of the
variables it does not capture explicitly, those named in its body itself are needed; those needed are named in
its body itself or captured by default in it. -/
def Lambda.kept (k : Lambda) : Bool :=
  k.outside.all fun v =>
    k.found.count v == (if v ∈ k.explicit then 1 else 0) &&
      (k.explicit.contains v || !k.named.contains v || k.needed.contains v) &&
      (k.explicit.contains v || !k.needed.contains v || k.named.contains v || k.passed.contains v)

end Vcx.Captures
