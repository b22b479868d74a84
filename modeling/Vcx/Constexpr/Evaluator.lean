import Vcx.Lib.Program
import Vcx.Literal.Decode
import Vcx.Sema.IntLiteral
import Vcx.Constexpr.Syntax
import Vcx.Constexpr.Operators

/-!
# The constant evaluator

`constexpr/eval.go`: expressions, places and statements, as programs over the evaluator's state. A function of the
source that calls itself through others is a query; what it does with scopes on the way in, and undoes by `defer`, is
done around the query. The functions that the analysis hands to the evaluator are parameters, and answer with values
that share nothing.
-/

namespace Vcx.ConstEval
set_option autoImplicit false
open Vcx.Lib Vcx.Types
open Vcx.Constexpr (IntValue newBigInt PathStep Error)

/-! ### The context -/

/-- A `FuncInfo`, with what its `Enter` makes names resolve to. -/
structure FuncInfo where
  unit : Option Nat
  name : String
  paramNames : List String
  paramTypes : List Ty
  body : Option (List Stmt)
  templateNames : List String
  templateValues : List (Option Constexpr.Value)
  enter : Option Nat

/-- What the analysis answers. A function that is not set answers as one that knows nothing. -/
structure Resolvers where
  resolveVar : String → Option Constexpr.Value
  resolveFunc : String → Except Error (Option FuncInfo)
  resolveCall : Expr → Option FuncInfo
  resolveType : TypeId → Option Ty
  resolveDeclType : InitDeclarator → Option Ty
  resolveTypeExpr : Expr → Option Ty
  resolveQualified : Expr → Except Error Constexpr.Value
  /-- The answer of `evalTypeTrait`: a truth value, or the offset of a member. -/
  typeTrait : Expr → Except Error (Bool ⊕ Int)
  expandFold : Expr → Except Error Constexpr.Value
  folded : Expr → Option Int
  prechecked : Expr → Option Constexpr.Value
  typeOfExpr : Expr → Option Ty
  resolveConcept : Expr → Except Error (Option Constexpr.Value)
  conceptValue : Expr → Option Bool
  resolveRequires : Expr → Except Error Bool

/-- The part of a `Context` that an evaluation does not change. -/
structure Env extends Target where
  text : Nat → Nat → String
  globals : List (String × Nat)
  funcs : List (String × FuncInfo)
  maxCallDepth : Nat
  maxSteps : Nat
  resolvers : Nat → Resolvers

/-- The part of a `Context` that it does, the innermost scope first. -/
structure State where
  heap : Heap
  objects : List Object
  scopes : List (List (String × Nat))
  unit : Nat
  names : Nat
  callDepth : Nat
  steps : Nat

/-- `Lookup` in the scopes. -/
def lookupScopes (name : String) : List (List (String × Nat)) → Option Nat
  | [] => none
  | frame :: rest => (frame.lookup name).or (lookupScopes name rest)

/-- An entry of a scope: a second declaration of a name takes the place of the first. -/
def bindVar (frame : List (String × Nat)) (name : String) (obj : Nat) : List (String × Nat) :=
  match frame with
  | [] => [(name, obj)]
  | (k, x) :: rest => if k = name then (k, obj) :: rest else (k, x) :: bindVar rest name obj

/-- The object of a number. -/
def State.object (s : State) (obj : Nat) : Object := s.objects.getD obj ⟨"", none, none, false, false⟩

/-- `PushScope`. -/
def State.pushScope (s : State) : State := { s with scopes := [] :: s.scopes }

/-- What a scope declared is dead. -/
def endLifetimes (frame : List (String × Nat)) (objects : List Object) : List Object :=
  frame.foldl (fun os x => os.modify x.2 fun o => { o with isAlive := false }) objects

/-- `PopScope`. The outermost scope stays. -/
def State.popScope (s : State) : State :=
  match s.scopes with
  | frame :: parent :: rest => { s with objects := endLifetimes frame s.objects, scopes := parent :: rest }
  | _ => s

def State.addObject (s : State) (o : Object) : Nat × State :=
  (s.objects.length, { s with objects := s.objects ++ [o] })

/-- `DeclareVar`. -/
def State.declareVar (s : State) (name : String) (typ : Option Ty) (val : Option Value) (isConst : Bool) : Nat × State :=
  let (obj, s) := s.addObject (newObject name typ val isConst)
  match s.scopes with
  | [] => (obj, s)
  | frame :: rest => (obj, { s with scopes := bindVar frame name obj :: rest })

def Heap.newElements (H : Heap) (elems : List (Option Value)) : Nat × Heap :=
  (H.nextElements, { H with elements := Function.update H.elements H.nextElements elems, nextElements := H.nextElements + 1 })

/-- `NewArray`. -/
def Heap.newArray (H : Heap) (elems : List (Option Value)) (elemType : Option Ty) : Value × Heap :=
  let (a, H) := H.newElements elems
  (.array a elemType (elemType.map fun t => .array t elems.length false), H)

mutual

/-- A value of the analysis, with slices and maps of its own. -/
def Heap.hold (H : Heap) : Constexpr.Value → Value × Heap
  | .void => (.void, H)
  | .int v => (.int v, H)
  | .float bits typ => (.float bits typ, H)
  | .bool b => (.bool b, H)
  | .nullptr => (.nullptr, H)
  | .pointer target offset path typ => (.pointer target offset path typ, H)
  | .reference target path typ => (.reference target path typ, H)
  | .array elems elemType =>
    let (elems, H) := H.holdElements elems
    H.newArray elems (some elemType)
  | .record r fields bases active =>
    let (fields, H) := H.holdEntries fields
    let (bases, H) := H.holdEntries bases
    (.record r H.nextMembers active,
      { H with members := Function.update H.members H.nextMembers ⟨fields, bases⟩, nextMembers := H.nextMembers + 1 })
  | .string val typ => (.string val.toUTF8.toList typ, H)

def Heap.holdElements (H : Heap) : List (Option Constexpr.Value) → List (Option Value) × Heap
  | [] => ([], H)
  | none :: rest =>
    let (rest, H) := H.holdElements rest
    (none :: rest, H)
  | some t :: rest =>
    let (v, H) := H.hold t
    let (rest, H) := H.holdElements rest
    (some v :: rest, H)

def Heap.holdEntries (H : Heap) : List (String × Option Constexpr.Value) → List (String × Option Value) × Heap
  | [] => ([], H)
  | (name, none) :: rest =>
    let (rest, H) := H.holdEntries rest
    ((name, none) :: rest, H)
  | (name, some t) :: rest =>
    let (v, H) := H.hold t
    let (rest, H) := H.holdEntries rest
    ((name, some v) :: rest, H)

end

/-! ### Queries and primitives -/

/-- What `EvalLValue` finds. -/
structure Place where
  obj : Nat
  path : List PathStep
  offset : Int

/-- A `FlowSignal`, with the value of a return. -/
inductive Flow where
  | none
  | ret (v : Value)
  | brk
  | cont

inductive Prim where
  | step (stmt : Bool)
  | text (span : Nat)
  | lookup (name : String)
  | resolvers
  | depth
  | object (obj : Nat)
  | read (p : Place)
  | write (p : Place) (val : Value)
  | declare (name : String) (typ : Option Ty) (val : Option Value) (isConst : Bool)
  | temporary (name : String) (typ : Option Ty) (val : Value)
  | hold (t : Constexpr.Value)
  | newArray (elems : List (Option Value)) (elemType : Option Ty)
  | newElements (elems : List (Option Value))
  | elements (a : Nat)
  | members (r : Nat)
  | setElement (a i : Nat) (v : Option Value)
  | enterNames (names : Nat)

abbrev Reply : Prim → Type
  | .step _ => Except Error Unit
  | .text _ => String
  | .lookup _ => Option Nat
  | .resolvers => Resolvers
  | .depth => Nat
  | .object _ => Object
  | .read _ => Except Error (Option Value)
  | .write .. => Except Error Unit
  | .declare .. => Nat
  | .temporary .. => Nat
  | .hold _ => Value
  | .newArray .. => Value
  | .newElements _ => Nat
  | .elements _ => List (Option Value)
  | .members _ => Maps
  | .setElement .. => Unit
  | .enterNames _ => Unit

/-- The functions of the evaluator that end in one another. -/
inductive Query where
  | value (e : Expr)
  | place (e : Expr)
  | binaryOp (op : Token.Kind) (left right : Value)
  | stmt (s : Stmt)
  | block (stmts : List Stmt)
  | inScope (s : Stmt)
  | whileLoop (cond : Option Cond) (body : Option Stmt)
  | doLoop (body : Option Stmt) (cond : Option Expr)
  | forLoop (cond : Option Cond) (post : Option Expr) (body : Option Stmt)
  | iteration (name : String) (val : Option Value) (back : Option (Nat × Nat)) (body : Option Stmt)
  | callBody (fn : FuncInfo) (args : List Value)
  | equal (left right : Value)

abbrev Result : Query → Type
  | .value _ => Value
  | .place _ => Place
  | .binaryOp .. => Value
  | .callBody .. => Value
  | .equal .. => Bool
  | _ => Flow

abbrev Ev (α : Type) : Type := Program Reply Result Error α

def step (stmt : Bool) : Ev Unit := .act (.prim (.step stmt)) .done
def text (span : Nat) : Ev String := .act (.prim (.text span)) fun x => pure x
def lookup (name : String) : Ev (Option Nat) := .act (.prim (.lookup name)) fun x => pure x
def resolvers : Ev Resolvers := .act (.prim .resolvers) fun x => pure x
def depth : Ev Nat := .act (.prim .depth) fun x => pure x
def object (obj : Nat) : Ev Object := .act (.prim (.object obj)) fun x => pure x
def write (p : Place) (val : Value) : Ev Unit := .act (.prim (.write p val)) .done
def hold (t : Constexpr.Value) : Ev Value := .act (.prim (.hold t)) fun x => pure x
def elements (a : Nat) : Ev (List (Option Value)) := .act (.prim (.elements a)) fun x => pure x

def declare (name : String) (typ : Option Ty) (val : Option Value) (isConst : Bool) : Ev Nat :=
  .act (.prim (.declare name typ val isConst)) fun x => pure x

def temporary (name : String) (typ : Option Ty) (val : Value) : Ev Nat :=
  .act (.prim (.temporary name typ val)) fun x => pure x

def newArray (elems : List (Option Value)) (elemType : Option Ty) : Ev Value :=
  .act (.prim (.newArray elems elemType)) fun x => pure x

/-- A read. Every element of an array that the evaluator makes has a value, and a nil one would end the program. -/
def readValue (p : Place) : Ev Value :=
  .act (.prim (.read p)) fun
    | .ok (some v) => pure v
    | .ok none => .fail (.other "nil value")
    | .error e => .fail e

def value (e : Expr) : Ev Value := .act (.ask (.value e)) .done
def place (e : Expr) : Ev Place := .act (.ask (.place e)) .done
def stmt (s : Stmt) : Ev Flow := .act (.ask (.stmt s)) .done
def block (stmts : List Stmt) : Ev Flow := .act (.ask (.block stmts)) .done
def equal (left right : Value) : Ev Bool := .act (.ask (.equal left right)) .done
def binaryOp (op : Token.Kind) (left right : Value) : Ev Value := .act (.ask (.binaryOp op left right)) .done

/-- `Eval`, which gives nothing for nil. -/
def valueOf : Option Expr → Ev Value
  | some e => value e
  | none => pure .void

/-- `EvalStmt`, which does nothing for nil. -/
def stmtOf : Option Stmt → Ev Flow
  | some s => stmt s
  | none => pure .none

def values : List Expr → Ev (List Value)
  | [] => pure []
  | e :: rest => do
    let v ← value e
    let vs ← values rest
    pure (v :: vs)

/-! ### Expressions -/

variable (E : Env)

/-- The number of an integer constant, or of a truth value. -/
def intOf (v : Value) : Except Error Int :=
  match v with
  | .int x => .ok x.int64
  | .bool b => .ok (boolInt b)
  | _ => .error (.nonConstexpr ("expected integer constant, got " ++ v.kind))

/-- `EvalInt`. -/
def evalInt (e : Expr) : Ev Int := do
  let v ← value e
  .ofExcept (intOf v)

/-- `EvalBool`. -/
def evalBool (e : Expr) : Ev Bool := do
  let v ← value e
  pure (v.toBool E.floats)

def bytes (s : String) : List UInt8 := s.toUTF8.toList

/-- `parseCharLiteral`. -/
def parseCharLiteral (spelling : String) : Except Error Value :=
  match Literal.char (bytes spelling) with
  | .error _ => .error (.nonConstexpr "malformed character literal")
  | .ok (v, _, true) => .ok (newInt E.toTarget v (some (.basic .int)))
  | .ok (v, .utf8, false) => .ok (newInt E.toTarget v (some (.basic .char8)))
  | .ok (v, .utf16, false) => .ok (newInt E.toTarget v (some (.basic .char16)))
  | .ok (v, .utf32, false) => .ok (newInt E.toTarget v (some (.basic .char32)))
  | .ok (v, .wide, false) => .ok (newInt E.toTarget v (some (.basic .wChar)))
  | .ok (v, .narrow, false) =>
    .ok (newInt E.toTarget (if 0x7F < v ∧ E.model.charSigned then wrap true 8 v else v) (some (.basic .char)))

/-- `evalBasicLit`. -/
def evalBasicLit (kind : LitKind) (span : Nat) : Ev Value :=
  match kind with
  | .true_ => pure (.bool true)
  | .false_ => pure (.bool false)
  | .nullptr => pure .nullptr
  | .int => do
    let spelling ← text span
    match IntLiteral.parseIntegerLiteral E.model (bytes spelling) with
    | some (k, n) => pure (newInt E.toTarget n (some (.basic k)))
    | none => .fail (.other ("malformed integer literal " ++ quoted spelling))
  | .float => do
    let spelling ← text span
    match E.floats.parse spelling with
    | some x => pure (.float x (some (.basic .double)))
    | none => .fail (.other ("malformed float literal " ++ quoted spelling))
  | .char => do
    let spelling ← text span
    .ofExcept (parseCharLiteral E spelling)
  | .other => .fail (.nonConstexpr "unrecognized literal kind")

def texts : List Nat → Ev (List String)
  | [] => pure []
  | span :: rest => do
    let t ← text span
    let ts ← texts rest
    pure (t :: ts)

/-- `evalStringLit`. -/
def evalStringLit (spans : List Nat) : Ev Value := do
  let segs ← texts spans
  match Literal.decode (segs.map bytes) with
  | .error _ => .fail (.nonConstexpr "malformed string literal")
  | .ok s =>
    if s.enc ≠ .narrow ∧ s.enc ≠ .utf8 then
      .fail (.nonConstexpr "a string literal of this encoding has no value in a constant expression yet")
    else pure (newString (s.units.map UInt8.ofNat))

/-- `evalIdent`. -/
def evalIdent (span : Nat) : Ev Value := do
  let name ← text span
  match ← lookup name with
  | some obj => readValue ⟨obj, [], 0⟩
  | none =>
    let r ← resolvers
    match r.resolveVar name with
    | some t => hold t
    | none => .fail (.nonConstexpr ("undeclared identifier " ++ quoted name ++ " in constant expression"))

/-- `evalBinaryOp`. -/
def evalBinaryOp (op : Token.Kind) (left right : Value) : Ev Value :=
  let l := promoteBool E.toTarget op left right
  let r := promoteBool E.toTarget op right left
  match combine E.toTarget op l r with
  | .done result => .ofExcept result
  | .equal negated => do
    let same ← equal l r
    pure (.bool (same != negated))

/-- The place that a pointer's value is; `what` is what is done to it. -/
def pointee (v : Value) (what : String) : Except Error Place :=
  match v with
  | .pointer (some obj) offset path _ => .ok ⟨obj, path, offset⟩
  | .pointer none .. => .error .nullPointer
  | _ => .error (.ub what)

/-- The place of an operand is found, changed by one, and written. -/
def stepPlace (op : Token.Kind) (x : Expr) : Ev (Value × Value) := do
  let p ← place x
  let old ← readValue p
  let new ← binaryOp op old (newInt E.toTarget 1 old.type)
  write p new
  pure (old, new)

/-- `evalUnary`. -/
def evalUnary (op : Token.Kind) (x : Expr) : Ev Value :=
  match op with
  | .and => do
    let p ← place x
    let o ← object p.obj
    pure (.pointer (some p.obj) p.offset p.path (o.typ.map Ty.pointer))
  | .mul => do
    let v ← value x
    let p ← .ofExcept (pointee v ("dereference of non-pointer value " ++ v.kind))
    readValue p
  | .inc => do
    let _ ← value x
    let (_, new) ← stepPlace E .add x
    pure new
  | .dec => do
    let _ ← value x
    let (_, new) ← stepPlace E .sub x
    pure new
  | _ => do
    let v ← value x
    .ofExcept (evalUnaryOp E.toTarget op v)

/-- `evalPostfixIncDec`. -/
def evalPostfixIncDec (op : Token.Kind) (x : Expr) : Ev Value := do
  let (old, _) ← stepPlace E (if op = .inc then .add else .sub) x
  pure old

/-- `evalBinary`. -/
def evalBinary (op : Token.Kind) (x y : Expr) : Ev Value :=
  match op with
  | .land => do
    let left ← value x
    if !left.toBool E.floats then pure (.bool false)
    else
      let right ← value y
      pure (.bool (right.toBool E.floats))
  | .lor => do
    let left ← value x
    if left.toBool E.floats then pure (.bool true)
    else
      let right ← value y
      pure (.bool (right.toBool E.floats))
  | .comma => do
    let _ ← value x
    value y
  | _ => do
    let left ← value x
    let right ← value y
    binaryOp op left right

/-- `evalCond`. -/
def evalCond (cond : Expr) (then_ : Option Expr) (else_ : Expr) : Ev Value := do
  let c ← value cond
  if c.toBool E.floats then
    match then_ with
    | none => pure c
    | some e => value e
  else value else_

/-- `evalAssign`. -/
def evalAssign (op : Token.Kind) (lhs rhs : Expr) : Ev Value := do
  let p ← place lhs
  let v ← value rhs
  if op = .assign then
    write p v
    pure v
  else
    let cur ← readValue p
    match assignOp op with
    | none => .fail (.nonConstexpr "unsupported assignment operator")
    | some binOp =>
      let new ← binaryOp binOp cur v
      write p new
      pure new

/-- `convertTo`. -/
def convertTo (v : Value) (type : Option TypeId) : Ev Value := do
  let r ← resolvers
  match type.bind r.resolveType with
  | some t => pure (convertToType E.toTarget v t)
  | none => pure v

/-- `callFunction`. -/
def callFunction (fn : FuncInfo) (args : List Expr) : Ev Value := do
  let d ← depth
  if E.maxCallDepth ≤ d then
    .fail (.other ("maximum constexpr call depth (" ++ toString E.maxCallDepth ++ ") exceeded in call to " ++ quoted fn.name))
  else
    let vals ← values args
    .act (.ask (.callBody fn vals)) .done

/-- `evalCall` of what is not a conversion. -/
def evalCallee (e fun_ : Expr) (args : List Expr) (r : Resolvers) : Ev Value :=
  let unknown : Ev Value := .fail (.nonConstexpr "call to non-constexpr function")
  match fun_ with
  | .ident _ span => do
    let name ← text span
    if name = "__builtin_is_constant_evaluated" then pure (.bool true)
    else
      match if name = "__builtin_expect" then args.head? else none with
      | some first => value first
      | none =>
        match (E.funcs.lookup name).or (r.resolveCall e) with
        | some fn => callFunction E fn args
        | none =>
          match ← .ofExcept (r.resolveFunc name) with
          | some fn => callFunction E fn args
          | none => unknown
  | _ =>
    match r.resolveCall e with
    | some fn => callFunction E fn args
    | none => unknown

/-- `evalCall`. -/
def evalCall (e fun_ : Expr) (args : List Expr) : Ev Value := do
  let r ← resolvers
  match r.resolveTypeExpr fun_, args with
  | some t, [x] => do
    let v ← value x
    pure (convertToType E.toTarget v t)
  | some t, [] => pure (newInt E.toTarget 0 (some t))
  | _, _ => evalCallee E e fun_ args r

/-- `evalNamedCast`. -/
def evalNamedCast (kind : CastKind) (type : Option TypeId) (x : Expr) : Ev Value :=
  match kind with
  | .reinterpretCast => .fail (.ub "reinterpret_cast is not permitted in constant expressions")
  | .bitCast => do
    let v ← value x
    let r ← resolvers
    .ofExcept (bitCast E.toTarget v (type.bind r.resolveType))
  | _ => do
    let v ← value x
    convertTo E v type

/-- `evalInitList`. -/
def evalInitList (items : List Expr) : Ev Value := do
  let vals ← values items
  let elemType :=
    match vals with
    | [] => some (.basic .int)
    | v :: _ => v.type
  newArray (vals.map some) elemType

/-- `evalFunctionalCast`. -/
def evalFunctionalCast (args : Option (List Expr)) (argList : List Expr) : Ev Value :=
  match argList, args with
  | [x], _ => value x
  | _, some items => evalInitList items
  | _, none => pure .void

/-- The name of a member, and none of what is no name. -/
def memberName : Option Nat → Ev String
  | none => pure ""
  | some span => text span

/-- `EvalLValue`. -/
def placeOf (e : Expr) : Ev Place :=
  let unplaced : Ev Place := .fail (.nonConstexpr "cannot evaluate as lvalue")
  match e with
  | .paren _ x => place x
  | .ident _ span => do
    let name ← text span
    match ← lookup name with
    | some obj => pure ⟨obj, [], 0⟩
    | none =>
      let r ← resolvers
      match r.resolveVar name with
      | none => .fail (.nonConstexpr ("identifier " ++ quoted name ++ " not found for lvalue"))
      | some t =>
        let v ← hold t
        let obj ← temporary name v.type v
        pure ⟨obj, [], 0⟩
  | .stringLit _ spans => do
    let v ← evalStringLit spans
    let obj ← temporary "" v.type v
    pure ⟨obj, [], 0⟩
  | .unary _ .mul x => do
    let v ← value x
    .ofExcept (pointee v "dereference of non-pointer in lvalue")
  | .index _ x args => do
    let p ← place x
    match args with
    | [] => .fail (.other "empty index expression")
    | arg :: _ =>
      let i ← evalInt arg
      pure { p with path := p.path ++ [.index i] }
  | .member _ op x sel => do
    let field ← memberName sel
    if field = "" then .fail (.other "invalid member name in lvalue")
    else if op = .arrow then
      let v ← value x
      let p ← .ofExcept (pointee v "arrow on non-pointer in lvalue")
      pure { p with path := p.path ++ [.field field] }
    else
      let p ← place x
      pure { p with path := p.path ++ [.field field] }
  | _ => unplaced

def sizeType : Option Ty := some (.basic .uLong)

/-- `evalSizeof`. -/
def evalSizeof (e : Expr) (ellipsis : Bool) (type : Option TypeId) (x : Option Expr) : Ev Value := do
  let r ← resolvers
  if ellipsis then
    match r.folded e with
    | some n => pure (newInt E.toTarget n sizeType)
    | none => .fail (.nonConstexpr "sizeof... of a pack this evaluator cannot count")
  else
    match type, x with
    | some id, _ =>
      match r.resolveType id with
      | none => .fail (.nonConstexpr "sizeof of a type this evaluator cannot resolve")
      | some t =>
        match sizeOf_ E.toTarget t with
        | some n => pure (newInt E.toTarget n sizeType)
        | none => .fail (.nonConstexpr "sizeof of an incomplete type")
    | none, some x =>
      let known (t : Option Ty) : Option Nat := t.bind fun t => sizeOf_ E.toTarget t.removeReference
      match (known (r.typeOfExpr x)).or (known (r.resolveTypeExpr x)) with
      | some n => pure (newInt E.toTarget n sizeType)
      | none => do
        let v ← value x
        match v.type.bind (sizeOf_ E.toTarget) with
        | some n => pure (newInt E.toTarget n sizeType)
        | none => .fail (.nonConstexpr "sizeof of an operand this evaluator cannot type")
    | none, none => .fail (.nonConstexpr "sizeof of an operand this evaluator cannot type")

/-- `evalAlignof`. -/
def evalAlignof (type : Option TypeId) : Ev Value := do
  match type with
  | none => .fail (.nonConstexpr "alignof without a type-id")
  | some id =>
    let r ← resolvers
    match r.resolveType id with
    | none => .fail (.nonConstexpr "alignof of a type this evaluator cannot resolve")
    | some t =>
      match alignOf_ E.toTarget t with
      | some n => pure (newInt E.toTarget n sizeType)
      | none => .fail (.nonConstexpr "alignof of an incomplete type")

/-- `evalTypeTrait`. -/
def evalTypeTrait (e : Expr) : Ev Value := do
  let r ← resolvers
  match ← .ofExcept (r.typeTrait e) with
  | .inl b => pure (.bool b)
  | .inr n => pure (newInt E.toTarget n (some (.basic .uLongLong)))

/-- The value of a name that the analysis resolves: a concept-id's truth value, or what `resolve` gives. -/
def evalConcept (e : Expr) (isTemplate : Bool) (resolve : Resolvers → Ev Value) : Ev Value := do
  let r ← resolvers
  match if isTemplate then r.conceptValue e else none with
  | some b => pure (.bool b)
  | none => resolve r

/-- The `switch` of `Eval`. -/
def evalNode (e : Expr) : Ev Value :=
  match e with
  | .paren _ x => value x
  | .basicLit _ kind span => evalBasicLit E kind span
  | .stringLit _ spans => evalStringLit spans
  | .ident _ span => evalIdent span
  | .unary _ op x => evalUnary E op x
  | .binary _ op x y => evalBinary E op x y
  | .cond _ cond then_ else_ => evalCond E cond then_ else_
  | .assign _ op lhs rhs => evalAssign op lhs rhs
  | .incDec _ op x => evalPostfixIncDec E op x
  | .index .. | .member .. => do
    let p ← placeOf e
    readValue p
  | .call _ fun_ args => evalCall E e fun_ args
  | .cast _ type x => do
    let v ← value x
    convertTo E v type
  | .namedCast _ kind type x => evalNamedCast E kind type x
  | .functionalCast _ args argList => evalFunctionalCast args argList
  | .sizeof _ ellipsis type x => evalSizeof E e ellipsis type x
  | .alignof _ type => evalAlignof E type
  | .initList _ items => evalInitList items
  | .typeTrait .. => evalTypeTrait E e
  | .qualifiedName _ isTemplate => evalConcept e isTemplate fun r => do
    let t ← .ofExcept (r.resolveQualified e)
    hold t
  | .fold _ => do
    let r ← resolvers
    let t ← .ofExcept (r.expandFold e)
    hold t
  | .templateName _ => evalConcept e true fun r => do
    match ← .ofExcept (r.resolveConcept e) with
    | some t => hold t
    | none => .fail (.nonConstexpr "a template-id is a value only when it is a concept-id")
  | .requires _ => do
    let r ← resolvers
    let b ← .ofExcept (r.resolveRequires e)
    pure (.bool b)
  | .other _ => .fail (.nonConstexpr "unsupported expression node")

/-- `Eval`, behind its step. -/
def afterStep (e : Expr) : Ev Value := do
  let r ← resolvers
  match r.prechecked e with
  | some t => hold t
  | none => evalNode E e

/-- `Eval`. -/
def eval (e : Expr) : Ev Value := do
  step false
  afterStep E e

/-! ### Statements -/

/-- The statements of a block, until one leaves it. -/
def runStmts : List Stmt → Ev Flow
  | [] => pure .none
  | s :: rest => do
    match ← stmt s with
    | .none => runStmts rest
    | flow => pure flow

/-- `declaredArrayBound`. An error in the bound is no bound. -/
def declaredArrayBound : Option Declarator → Ev (Option Nat)
  | some (.array _ (some size)) =>
    .act (.ask (.value size)) fun
      | .error _ => pure none
      | .ok v =>
        match intOf v with
        | .ok n => pure (if n < 0 then none else some n.toNat)
        | .error _ => pure none
  | some (.pointer _ inner) | some (.paren inner) => declaredArrayBound inner
  | _ => pure none

/-- The elements that a list leaves out. -/
def padArray (d : Option Declarator) (val : Option Value) : Ev (Option Value) :=
  match val with
  | some (.array a elemType _) => do
    match ← declaredArrayBound d with
    | none => pure val
    | some n =>
      let elems ← elements a
      if elems.length < n then
        let elemType := elemType.getD (.basic .int)
        let v ← newArray (elems ++ List.replicate (n - elems.length) (some (newInt E.toTarget 0 (some elemType)))) (some elemType)
        pure (some v)
      else pure val
  | _ => pure val

/-- The initializer of a declaration. -/
def initializer (init : InitDeclarator) : Ev (Option Value) :=
  match init.value, init.braced, init.args with
  | some e, _, _ => do
    let v ← value e
    pure (some v)
  | none, some items, _ => do
    let v ← evalInitList items
    pure (some v)
  | none, none, [e] => do
    let v ← value e
    pure (some v)
  | none, none, _ => pure none

/-- The type of a declared object and its value, which the declared type governs. -/
def declaredAs (type : Option Ty) (val : Option Value) : Option Ty × Option Value :=
  match type with
  | some t =>
    let t := t.unqualify
    (some t, val.map fun v => if t.isReference || isArray t then v else convertToType E.toTarget v t)
  | none => ((val.map Value.type).getD (some (.basic .int)), val)

/-- One pass of the loop of `evalDeclStmt`. -/
def declareInit (init : InitDeclarator) : Ev Unit := do
  match init.decl.bind Declarator.declName with
  | none => pure ()
  | some span =>
    let name ← text span
    if name = "" then pure ()
    else
      let val ← initializer init
      let val ← padArray E init.decl val
      let r ← resolvers
      let (typ, val) := declaredAs E (r.resolveDeclType init) val
      let _ ← declare name typ val false
      pure ()

def declareInits : List InitDeclarator → Ev Flow
  | [] => pure .none
  | init :: rest => do
    declareInit E init
    declareInits rest

/-- `evalDeclStmt`. -/
def evalDeclStmt : Decl → Ev Flow
  | .simple inits => declareInits E inits
  | .other => pure .none

/-- The condition of an `if`: one that is no expression is not looked at. -/
def ifCondition (consteval not : Bool) (cond : Option Cond) : Ev Bool :=
  if consteval then pure !not
  else
    match cond with
    | some (.expr e) => evalBool E e
    | _ => pure false

/-- `evalIfStmt` behind its init-statement. -/
def evalIfStmt (consteval not : Bool) (cond : Option Cond) (then_ else_ : Option Stmt) : Ev Flow := do
  let b ← ifCondition E consteval not cond
  if b then stmtOf then_ else stmtOf else_

/-- The condition of a loop: one that is no expression is not looked at. -/
def loopCondition (cond : Option Cond) : Ev Bool :=
  match cond with
  | some (.expr e) => evalBool E e
  | _ => pure true

/-- One pass of `evalWhileStmt`. -/
def evalWhileStmt (cond : Option Cond) (body : Option Stmt) : Ev Flow := do
  let b ← loopCondition E cond
  if !b then pure .none
  else
    match ← stmtOf body with
    | .brk => pure .none
    | .ret v => pure (.ret v)
    | _ => .act (.ask (.whileLoop cond body)) .done

/-- One pass of `evalDoStmt`. -/
def evalDoStmt (body : Option Stmt) (cond : Option Expr) : Ev Flow := do
  match ← stmtOf body with
  | .brk => pure .none
  | .ret v => pure (.ret v)
  | _ =>
    let b ← loopCondition E (cond.map Cond.expr)
    if b then .act (.ask (.doLoop body cond)) .done else pure .none

/-- One pass of the loop of `evalForStmt`. -/
def evalForStmt (cond : Option Cond) (post : Option Expr) (body : Option Stmt) : Ev Flow := do
  let b ← loopCondition E cond
  if !b then pure .none
  else
    match ← stmtOf body with
    | .brk => pure .none
    | .ret v => pure (.ret v)
    | _ =>
      let _ ← valueOf post
      .act (.ask (.forLoop cond post body)) .done

/-- Whether pointer declarators around a name make it a reference. -/
def refDeclarator : Option Declarator → Bool
  | some (.pointer kind inner) => kind = .and || kind = .land || refDeclarator inner
  | _ => false

/-- `rangeLoopVar`. -/
def rangeLoopVar (d : Decl) : Ev (String × Bool) :=
  match d with
  | .simple (init :: _) =>
    match init.decl.bind Declarator.declName with
    | none => pure ("", refDeclarator init.decl)
    | some span => do
      let name ← text span
      pure (name, refDeclarator init.decl)
  | _ => pure ("", false)

/-- One pass of a ranged loop, in a scope of its own. What a reference was bound to is written back. -/
def evalIteration (name : String) (val : Option Value) (back : Option (Nat × Nat)) (body : Option Stmt) : Ev Flow := do
  let obj ← declare name (val.bind Value.type) val false
  match body, back with
  | none, _ => pure .none
  | some s, none => stmt s
  | some s, some (a, i) =>
    .act (.ask (.stmt s)) fun flow =>
      .act (.prim (.object obj)) fun o => .act (.prim (.setElement a i o.val)) fun _ => .done flow

/-- The passes of a ranged loop from an index on. -/
def rangePasses (name : String) (byRef : Bool) (body : Option Stmt) (a i : Nat) : Nat → Ev Flow
  | 0 => pure .none
  | n + 1 => do
    let elems ← elements a
    let flow ← .act (.ask (.iteration name (elems.getD i none) (if byRef then some (a, i) else none) body)) .done
    match (flow : Flow) with
    | .brk => pure .none
    | .ret v => pure (.ret v)
    | _ => rangePasses name byRef body a (i + 1) n

/-- The slice that a ranged loop goes through: a string's characters are one of their own. -/
def rangeElements (range : Value) : Ev Nat :=
  match range with
  | .array a _ _ => pure a
  | .string s _ =>
    .act (.prim (.newElements ((List.range (s.length + 1)).map fun i => some (newInt E.toTarget (charAt s i) (some (.basic .char))))))
      fun a => pure a
  | v => .fail (.nonConstexpr ("a ranged loop over " ++ goType (some v) ++
      " needs begin() and end(), which this evaluator does not call yet"))

/-- `evalRangeForStmt` behind its init-statement. -/
def evalRangeForStmt (d : Decl) (range : Option Expr) (body : Option Stmt) : Ev Flow := do
  let v ← valueOf range
  let a ← rangeElements E v
  let (name, byRef) ← rangeLoopVar d
  if name = "" then .fail (.nonConstexpr "a ranged loop whose declaration names nothing")
  else
    let elems ← elements a
    rangePasses name byRef body a 0 elems.length

/-- An init-statement, and what stands behind it unless that leaves. -/
def afterInit (init : Option Stmt) (rest : Ev Flow) : Ev Flow := do
  match ← stmtOf init with
  | .none => rest
  | flow => pure flow

/-- The statements that open a scope of their own, in it. -/
def evalInScope (s : Stmt) : Ev Flow :=
  match s with
  | .if_ consteval not init cond then_ else_ => afterInit init (evalIfStmt E consteval not cond then_ else_)
  | .for_ init cond post body => afterInit init (.act (.ask (.forLoop cond post body)) .done)
  | .rangeFor init d range body => afterInit init (evalRangeForStmt E d range body)
  | _ => pure .none

/-- The `switch` of `EvalStmt`. -/
def evalStmtNode (s : Stmt) : Ev Flow :=
  match s with
  | .compound stmts => block stmts
  | .expr x => do
    let _ ← valueOf x
    pure .none
  | .decl d => evalDeclStmt E d
  | .if_ consteval not none cond then_ else_ => evalIfStmt E consteval not cond then_ else_
  | .if_ _ _ (some _) .. | .for_ .. | .rangeFor .. => .act (.ask (.inScope s)) .done
  | .while_ cond body => .act (.ask (.whileLoop cond body)) .done
  | .do_ body cond => .act (.ask (.doLoop body cond)) .done
  | .return_ x => do
    let v ← valueOf x
    pure (.ret v)
  | .break_ => pure .brk
  | .continue_ => pure .cont
  | .empty => pure .none
  | .switch .. | .other => .fail (.nonConstexpr "unsupported statement type")

/-- `EvalStmt`. -/
def evalStmt (s : Stmt) : Ev Flow := do
  step true
  evalStmtNode E s

/-! ### Calls -/

/-- The template parameters that have a name and a value. -/
def declareTemplates : List String → List (Option Constexpr.Value) → Ev Unit
  | name :: names, some t :: ts => do
    if name = "" then declareTemplates names ts
    else
      let v ← hold t
      let _ ← declare name v.type (some v) true
      declareTemplates names ts
  | _ :: names, none :: ts => declareTemplates names ts
  | _, _ => pure ()

/-- The parameters. One without an argument has no value. -/
def declareParams : List String → List Ty → List Value → Ev Unit
  | [], _, _ => pure ()
  | name :: names, types, vals => do
    let _ ← declare name types.head? vals.head? false
    declareParams names types.tail vals.tail

/-- `callFunction` in the scope of the call. -/
def evalCallBody (fn : FuncInfo) (args : List Value) : Ev Value := do
  declareTemplates fn.templateNames fn.templateValues
  declareParams fn.paramNames fn.paramTypes args
  match fn.body with
  | none => pure .void
  | some stmts =>
    let enter : Ev Unit :=
      match fn.enter with
      | none => pure ()
      | some names => .act (.prim (.enterNames names)) fun _ => pure ()
    enter
    match ← block stmts with
    | .ret v => pure v
    | _ => pure .void

/-! ### `Equal` -/

/-- Two values that may be missing. -/
def equalOptions (left right : Option Value) : Ev Bool :=
  match left, right with
  | some l, some r => equal l r
  | none, none => pure true
  | _, _ => pure false

def equalElements : List (Option Value) → List (Option Value) → Ev Bool
  | l :: ls, r :: rs => do
    if ← equalOptions l r then equalElements ls rs else pure false
  | _, _ => pure true

/-- The fields of one record in another. -/
def equalFields (other : List (String × Option Value)) : List (String × Option Value) → Ev Bool
  | [] => pure true
  | (name, v) :: rest =>
    match other.lookup name with
    | none => pure false
    | some w => do
      if ← equalOptions v w then equalFields other rest else pure false

/-- `Equal`, of values that hold nothing. -/
def equalScalars (left right : Value) : Bool :=
  match left, right with
  | .void, .void => true
  | .int x, .int y => x.val = y.val
  | .int x, .bool b | .bool b, .int x => decide (x.val ≠ 0) = b
  | .float x _, .float y _ => E.floats.eq x y
  | .float x _, .int y => E.floats.eq x (E.floats.ofInt y.int64)
  | .bool b, .bool c => b = c
  | .nullptr, .nullptr => true
  | .nullptr, .pointer target .. | .pointer target .., .nullptr => target.isNone
  | .pointer target offset path _, .pointer target' offset' path' _ =>
    target.isNone && target'.isNone || target = target' && offset = offset' && path = path'
  | .reference target .., .reference target' .. => target = target'
  | .string s _, .string s' _ => s = s'
  | _, _ => false

/-- `Equal`. -/
def evalEqual (left right : Value) : Ev Bool :=
  match left, right with
  | .array a _ _, .array b _ _ => do
    let xs ← elements a
    let ys ← elements b
    if xs.length ≠ ys.length then pure false else equalElements xs ys
  | .record _ r _, .record _ q _ =>
    .act (.prim (.members r)) fun m => .act (.prim (.members q)) fun n =>
      if m.fields.length ≠ n.fields.length then pure false else equalFields n.fields m.fields
  | _, _ => pure (equalScalars E left right)

/-! ### The machine -/

/-- The program of a query. -/
def body : (q : Query) → Ev (Result q)
  | .value e => eval E e
  | .place e => placeOf e
  | .binaryOp op left right => evalBinaryOp E op left right
  | .stmt s => evalStmt E s
  | .block stmts => runStmts stmts
  | .inScope s => evalInScope E s
  | .whileLoop cond body => evalWhileStmt E cond body
  | .doLoop body cond => evalDoStmt E body cond
  | .forLoop cond post body => evalForStmt E cond post body
  | .iteration name val back body => evalIteration name val back body
  | .callBody fn args => evalCallBody fn args
  | .equal left right => evalEqual E left right

def stepLimit (stmt : Bool) : Error :=
  .other ((if stmt then "constexpr step limit (" ++ toString E.maxSteps ++ ") exceeded"
    else "constexpr evaluation exceeded maximum step limit (" ++ toString E.maxSteps ++ ")"))

/-- What the primitives do. -/
def doPrim : (p : Prim) → State → Reply p × State
  | .step stmt, s =>
    (if E.maxSteps < s.steps + 1 then .error (stepLimit E stmt) else .ok (), { s with steps := s.steps + 1 })
  | .text span, s => (E.text s.unit span, s)
  | .lookup name, s => ((lookupScopes name s.scopes).or (E.globals.lookup name), s)
  | .resolvers, s => (E.resolvers s.names, s)
  | .depth, s => (s.callDepth, s)
  | .object obj, s => (s.object obj, s)
  | .read p, s => ((s.object p.obj).read E.hierarchy s.heap p.path p.offset, s)
  | .write p val, s =>
    let (r, o, H) := (s.object p.obj).write E.hierarchy s.heap p.path p.offset (some val)
    (r, { s with objects := s.objects.set p.obj o, heap := H })
  | .declare name typ val isConst, s => s.declareVar name typ val isConst
  | .temporary name typ val, s => s.addObject (newObject name typ (some val) true)
  | .hold t, s =>
    let (v, H) := s.heap.hold t
    (v, { s with heap := H })
  | .newArray elems elemType, s =>
    let (v, H) := s.heap.newArray elems elemType
    (v, { s with heap := H })
  | .newElements elems, s =>
    let (a, H) := s.heap.newElements elems
    (a, { s with heap := H })
  | .elements a, s => (s.heap.elements a, s)
  | .members r, s => (s.heap.members r, s)
  | .setElement a i v, s => ((), { s with heap := s.heap.setElement a i v })
  | .enterNames names, s => ((), { s with names })

/-- What is done on the way into a query. -/
def enter : Query → State → State
  | .block _, s | .inScope _, s | .iteration .., s => s.pushScope
  | .callBody fn _, s => { s with callDepth := s.callDepth + 1, unit := fn.unit.getD s.unit, scopes := [[]] }
  | _, s => s

/-- What is done on the way out, by `defer`: of the state it was entered in, a call's is saved. -/
def leave : Query → State → State → State
  | .block _, _, t | .inScope _, _, t | .iteration .., _, t => t.popScope
  | .callBody .., s, t => { t with callDepth := t.callDepth - 1, unit := s.unit, scopes := s.scopes, names := s.names }
  | _, _, t => t

def machine : Machine Reply Result Error State where
  prim := doPrim E
  enter := enter
  leave := leave
  body := body E

end Vcx.ConstEval
