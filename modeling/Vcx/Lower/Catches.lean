import Vcx.Lower.Unwind

/-!
# Every handler that is entered is ended

A monitor keeps the handlers that `__cxa_begin_catch` has opened and `__cxa_end_catch` not yet
ended. It demands that these are the handlers around each point of the source that control is at,
and that none is open where the function is left.
-/

namespace Vcx.Unwind
set_option autoImplicit false
open Vcx.Lib.Landing

/-! ### What is watched -/

/-- The handlers around a point, the innermost first. -/
def handlersOf : List Around → List HandlerId
  | [] => []
  | .handler h :: around => h :: handlersOf around
  | .object _ :: around | .tryBlock _ _ :: around | .loop :: around | .switch :: around => handlersOf around

/-- The try-blocks around a point, the innermost first, each with its clauses and the handlers
around it. -/
def triesOf : List Around → List (List Clause × List HandlerId)
  | [] => []
  | .tryBlock _ clauses :: around => (clauses, handlersOf around) :: triesOf around
  | .object _ :: around | .handler _ :: around | .loop :: around | .switch :: around => triesOf around

/-- A point of the source that control is at, the call of a destructor apart. -/
def Callee.isPoint : Callee → Bool
  | .point _ | .fullEnd | .jump _ | .call _ _ | .allocate | .raise | .rethrowEnd => true
  | .destroy _ | .beginCatch _ | .endCatch => false

/-- What a call does to the open handlers; `none` where it should not have been made. -/
def opens (c : Call) (catches : List HandlerId) : Option (List HandlerId) :=
  match c.callee, catches with
  | .beginCatch h, catches => some (h :: catches)
  | .endCatch, [] => none
  | .endCatch, _ :: outer => some outer
  | _, catches => if c.callee.isPoint = true ∧ catches ≠ handlersOf c.around then none else some catches

variable {ε : Type}

def watch (catches : List HandlerId) : Event Call ε → Option (List HandlerId)
  | .did c | .threw c _ => opens c catches
  | .left => if catches = [] then some [] else none

/-- In a run every handler that is entered is ended once before control is outside of it, and no
other is. -/
def CatchesEnded (w : List (Event Call ε)) : Prop := (w.foldlM watch []).isSome = true

/-! ### The runtime -/

def Callee.mayThrow : Callee → Bool
  | .call _ _ | .allocate | .raise | .rethrowEnd | .destroy _ => true
  | .point _ | .fullEnd | .jump _ | .beginCatch _ | .endCatch => false

section runtime
variable (catches : TypeInfo → ε → Bool)

def answers (e : ε) : Clause → Bool
  | none => true
  | some t => catches t e

/-- A pad is entered if it is to clean up or one of its clauses answers; the selector is the
clause's position, from one. -/
def entered : Clauses → ε → Option Nat
  | .cleanup, _ => some 0
  | .catches clauses, e => (clauses.findIdx? (answers catches e)).map (· + 1)

def itanium : Runtime Call Clauses ε := ⟨fun _ => True, fun c _ => c.callee.mayThrow = true, entered catches⟩

/-- What surrounds a call in a handler catches what it throws, within the handler; or there is no
try-block around the handler and something to be destroyed. -/
def Held (e : ε) (live : Bool) : List Around → Prop
  | [] => False
  | .object _ :: around | .loop :: around | .switch :: around => Held e live around
  | .tryBlock _ clauses :: _ => clauses.any (answers catches e) = true
  | .handler _ :: around => live = true ∧ triesOf around = []

/-- A call throws outside of all handlers, or it is no destructor and the exception is held. -/
def Ends (c : Call) (e : ε) : Prop :=
  handlersOf c.around = [] ∨ ((∀ x, c.callee ≠ .destroy x) ∧ c.callee ≠ .rethrowEnd ∧ Held catches e c.live c.around)

end runtime

/-! ### Jumps -/

/-- The handlers around the statement that `break` leaves. -/
def breakHandlers : List Around → List HandlerId
  | [] => []
  | .loop :: around | .switch :: around => handlersOf around
  | .object _ :: around | .tryBlock _ _ :: around | .handler _ :: around => breakHandlers around

/-- The handlers around the loop that `continue` goes on with. -/
def continueHandlers : List Around → List HandlerId
  | [] => []
  | .loop :: around => handlersOf around
  | .object _ :: around | .tryBlock _ _ :: around | .handler _ :: around | .switch :: around => continueHandlers around

/-- The handlers around where a jump goes, `env` being those around each label. -/
def Jump.handlers (env : Nat → List HandlerId) (around : List Around) : Jump → List HandlerId
  | .out => breakHandlers around
  | .next => continueHandlers around
  | .label name => env name

/-- A jump that leaves no handler. -/
def Stays (env : Nat → List HandlerId) (c : Call) : Prop :=
  ∀ j, c.callee = .jump j → handlersOf c.around = j.handlers env c.around

mutual

/-- `env` has the handlers around each label of a statement that stands in `handlers`. -/
def Stmt.labelled (env : Nat → List HandlerId) (handlers : List HandlerId) : Stmt → Prop
  | .simple _ | .returnStmt _ | .breakStmt | .continueStmt | .gotoStmt _ => True
  | .compound body => body.labelled env handlers
  | .ifStmt _ _ arm => arm.labelled env handlers
  | .ifElse _ _ arm els => arm.labelled env handlers ∧ els.labelled env handlers
  | .ifConst _ taken => taken.labelled env handlers
  | .whileStmt _ body | .doStmt body _ | .forStmt _ _ _ body | .rangeForStmt _ _ _ _ body => body.labelled env handlers
  | .switchStmt _ _ body => body.labelled env handlers
  | .labeledStmt name s => handlers = env name ∧ s.labelled env handlers
  | .tryStmt t body rest => body.labelled env handlers ∧ rest.labelled env t handlers 0

def Stmts.labelled (env : Nat → List HandlerId) (handlers : List HandlerId) : Stmts → Prop
  | .nil => True
  | .cons s rest => s.labelled env handlers ∧ rest.labelled env handlers

def Items.labelled (env : Nat → List HandlerId) (handlers : List HandlerId) : Items → Prop
  | .nil => True
  | .cons _ s rest => s.labelled env handlers ∧ rest.labelled env handlers

def Handlers.labelled (env : Nat → List HandlerId) (t : Nat) (handlers : List HandlerId) : Handlers → Nat → Prop
  | .nil, _ => True
  | .cons _ _ body rest, idx => body.labelled env (⟨t, idx⟩ :: handlers) ∧ rest.labelled env t handlers (idx + 1)

end

/-- The labels of the function stand in the handlers that `env` has for them. -/
def Function.Labelled (f : Function) (env : Nat → List HandlerId) : Prop :=
  f.body.labelled env [] ∧ ∀ t handlers, f.tryBlock = some (t, handlers) → handlers.labelled env t [] 0

end Vcx.Unwind
