import Mathlib.Algebra.Ring.Nat
import Mathlib.Data.List.Basic
import Mathlib.Data.List.Pairwise

/-!
# The switch statement

`switchStmt` and `caseGroups` of `lower/switch.go`. The body is regrouped into runs of labels with the
statements that follow them; a chain of comparisons dispatches to the groups, and each group falls into the
next. Statements are what the lowering looks at: labels, attributes, and for any other whether a block is
there when it has been lowered. A run is the list of the positions of the statements it comes to.
-/

namespace Vcx.Switch
set_option autoImplicit false

/-- `case value:`, `case low ... high:` or `default:`, with the values of the constants. -/
inductive Label where
  | case (value : Int)
  /-- `named`: what stands before the ellipsis ends in a name. -/
  | range (low high : Int) (named : Bool)
  | default
  deriving DecidableEq, Repr

inductive Stmt where
  /-- A `case` or `default` label and its statement. -/
  | label (l : Label) (s : Stmt)
  /-- A label that has a name. -/
  | named (name : String) (s : Stmt)
  /-- `[[likely]] s` -/
  | attr (s : Stmt)
  /-- Any other statement: whether control never comes out at its end, and whether there is a block after it
  where there was none before it, because of a named label in it. -/
  | other (ends revives : Bool)
  deriving DecidableEq, Repr

/-- The registers that a promoted condition is held in. -/
inductive Reg where
  | i32 | i64 | i128
  deriving DecidableEq, Repr

def Reg.bits : Reg → Nat
  | .i32 => 32
  | .i64 => 64
  | .i128 => 128

/-- The promoted type of the condition. -/
structure CondType where
  reg : Reg
  signed : Bool
  deriving DecidableEq, Repr

/-! ### The lowering -/

/-- `parseCaseOrDefaultStmt` comes to the colon. In `case A ... B:` the name takes the ellipsis, as that of a
pack, and what follows is not the colon. -/
def Label.parses : Label → Bool
  | .range _ _ named => !named
  | _ => true

/-- The labels of a statement that the inner loop of `caseGroups` takes off, and what it leaves. -/
def peel : Stmt → List Label × Stmt
  | .label l s => (l :: (peel s).1, (peel s).2)
  | s => ([], s)

/-- `evalInt`: a constant's value as an `int64`. -/
def evalInt (v : Int) : Int := (BitVec.ofInt 64 v).toInt

/-- `caseGroup`: one run of labels, and the statements that follow it with their positions in the body. -/
structure CaseGroup where
  values : List Int
  isDefault : Bool
  stmts : List (Nat × Stmt)

/-- The value a label puts into its group: `High` is not read. -/
def Label.value : Label → Option Int
  | .case v | .range v _ _ => some (evalInt v)
  | .default => none

/-- `caseGroups`: the statements that stand before the first label, which are dropped, and the groups. -/
def caseGroups (at_ : Nat) : List Stmt → List (Nat × Stmt) × List CaseGroup
  | [] => ([], [])
  | s :: rest =>
    let (front, groups) := caseGroups (at_ + 1) rest
    let (labels, inner) := peel s
    if labels = [] then ((at_, inner) :: front, groups)
    else ([], { values := labels.filterMap Label.value, isDefault := decide (Label.default ∈ labels), stmts := (at_, inner) :: front } :: groups)

/-- `stmt`, as to the block: whether there is one before and after, and nothing for the error "a case label
outside a switch". -/
def stmt : Stmt → Bool → Option Bool
  | .label _ _, live => if live then none else some false
  | .named _ s, _ => stmt s true
  | .attr s, live => if live then stmt s true else some false
  | .other ends revives, live => some (if live then !ends else revives)

/-- The statements of a group from where no control comes to them from the group's block. -/
def cutOff : List (Nat × Stmt) → Bool → Option Unit
  | [], _ => some ()
  | (_, s) :: rest, live => (stmt s live).bind fun live => cutOff rest live

/-- The code of a group: the statements that control comes to from its block, and whether it goes on to the
next group's. -/
structure Body where
  stmts : List Nat
  falls : Bool

/-- The loop over the statements of a group. -/
def lowerBody : List (Nat × Stmt) → Option Body
  | [] => some ⟨[], true⟩
  | (i, s) :: rest =>
    match stmt s true with
    | none => none
    | some true => (lowerBody rest).map fun b => { b with stmts := i :: b.stmts }
    | some false => (cutOff rest false).map fun _ => ⟨[i], false⟩

/-- The graph emitted for a switch: the tests in order, each with a constant and the group it branches to, the group
the last of them falls to (or the exit), and the groups. -/
structure Graph where
  tests : List (Int × Nat)
  dflt : Option Nat
  bodies : List Body

/-- The last group with `default`. -/
def defaultGroup (groups : List CaseGroup) (dflt : Option Nat) (i : Nat) : Option Nat :=
  match groups with
  | [] => dflt
  | g :: rest => defaultGroup rest (if g.isDefault then some i else dflt) (i + 1)

/-- The dispatch chain of the groups from the one with index `i` on. -/
def tests (i : Nat) : List CaseGroup → List (Int × Nat)
  | [] => []
  | g :: rest => g.values.map (fun v => (v, i)) ++ tests (i + 1) rest

/-- All labels of a statement. -/
def Stmt.labels : Stmt → List Label
  | .label l s => l :: s.labels
  | .named _ s => s.labels
  | .attr s => s.labels
  | .other _ _ => []

/-- `switchStmt`, once the condition is in its register; nothing where an error is reported. -/
def switchStmt (ty : CondType) (body : List Stmt) : Option Graph :=
  if ty.reg = .i128 then none
  else
    let groups := (caseGroups 0 body).2
    (groups.mapM fun g => lowerBody g.stmts).map fun bodies =>
      { tests := tests 0 groups, dflt := defaultGroup groups none 0, bodies := bodies }

/-- What becomes of a switch statement in the source. -/
def compile (ty : CondType) (body : List Stmt) : Option Graph :=
  if body.all fun s => s.labels.all Label.parses then switchStmt ty body else none

/-! ### Runs of the graph -/

/-- The comparison of the register that holds `c` with a label's constant. -/
def hit (ty : CondType) (c v : Int) : Bool := BitVec.ofInt ty.reg.bits c == BitVec.ofInt ty.reg.bits v

/-- Statements one after another, until one of them leaves: `next i` says whether the one at `i` completes. -/
def runThrough (next : Nat → Bool) : List Nat → List Nat
  | [] => []
  | i :: rest => i :: if next i then runThrough next rest else []

/-- The groups from one on. -/
def runBodies (next : Nat → Bool) : List Body → List Nat
  | [] => []
  | b :: rest => runThrough next b.stmts ++ if b.stmts.all next && b.falls then runBodies next rest else []

/-- The group that the dispatch enters. -/
def Graph.target (g : Graph) (ty : CondType) (c : Int) : Option Nat :=
  match g.tests.find? fun t => hit ty c t.1 with
  | some t => some t.2
  | none => g.dflt

/-- The run of the graph on a condition's value. -/
def Graph.run (g : Graph) (ty : CondType) (c : Int) (next : Nat → Bool) : List Nat :=
  match g.target ty c with
  | none => []
  | some i => runBodies next (g.bodies.drop i)

/-! ### What a switch means -/

/-- The labels that stand behind an attribute or a label that has a name. -/
def Stmt.hidden (s : Stmt) : List Label := (peel s).2.labels

/-- Control never comes out at the end of the statement. -/
def Stmt.ends : Stmt → Bool
  | .label _ s => s.ends
  | .named _ s => s.ends
  | .attr s => s.ends
  | .other ends _ => ends

/-- The value of a label in the type of the condition. -/
def CondType.convert (ty : CondType) (v : Int) : Int :=
  if ty.signed then (BitVec.ofInt ty.reg.bits v).toInt else (BitVec.ofInt ty.reg.bits v).toNat

/-- The values of the type. -/
def CondType.Has (ty : CondType) (c : Int) : Prop := ty.convert c = c

/-- The label's value is `c`, or its range contains `c`. -/
def Label.covers (ty : CondType) (c : Int) : Label → Bool
  | .case v => c == ty.convert v
  | .range low high _ => decide (ty.convert low ≤ c ∧ c ≤ ty.convert high)
  | .default => false

/-- The label's value, or the low end of its range, is `c`. -/
def Label.starts (ty : CondType) (c : Int) : Label → Bool
  | .case v | .range v _ _ => c == ty.convert v
  | .default => false

/-- The statement that a switch enters: the one with a label for the value, or `default`'s. -/
def entry (ty : CondType) (body : List Stmt) (c : Int) : Option Nat :=
  match body.findIdx? fun s => s.labels.any (Label.covers ty c) with
  | some i => some i
  | none => body.findIdx? fun s => decide (Label.default ∈ s.labels)

/-- The statements in source order from the entered one on. -/
def follow (body : List Stmt) (next : Nat → Bool) : Option Nat → List Nat
  | none => []
  | some i => runThrough next (List.range' i (body.length - i))

/-- No statement completes whose end control never comes to. -/
def Respects (body : List Stmt) (next : Nat → Bool) : Prop :=
  ∀ i s, body[i]? = some s → s.ends = true → next i = false

/-- **A switch is lowered rightly**: without an error, and for every value of the condition and whatever its
statements do, the graph runs them from the one that the value selects on. -/
def Right (ty : CondType) (body : List Stmt) : Prop :=
  ∃ g, compile ty body = some g ∧
    ∀ c next, ty.Has c → Respects body next → g.run ty c next = follow body next (entry ty body c)

/-! ### Switches -/

/-- Two labels of one switch: not both `default`, and no value (nor the low end of an empty range) twice. -/
def Label.Apart (ty : CondType) (a b : Label) : Prop :=
  ¬ (a = .default ∧ b = .default) ∧
    ∀ c, ((a.covers ty c || a.starts ty c) && (b.covers ty c || b.starts ty c)) = false

/-- A switch statement: what is asked of its labels. -/
structure Proper (ty : CondType) (body : List Stmt) : Prop where
  apart : (body.flatMap Stmt.labels).Pairwise (Label.Apart ty)
  /-- Positions of tokens are an `int32`. -/
  few : (body.flatMap Stmt.labels).length < 2 ^ 31
  /-- A range that stands behind an attribute or a named label is not empty. -/
  some_ : ∀ s ∈ body, ∀ low high named, .range low high named ∈ s.hidden → ty.convert low ≤ ty.convert high

/-- The switches that are lowered rightly: no condition of 128 bits, no label behind an attribute or a named
label, no range from a name on, and no range of other than one value, except on `default`'s statement. -/
structure Kept (ty : CondType) (body : List Stmt) : Prop where
  narrow : ty.reg ≠ .i128
  shown : ∀ s ∈ body, s.hidden = []
  single : ∀ s ∈ body, ∀ low high named, .range low high named ∈ s.labels →
    named = false ∧ (ty.convert low = ty.convert high ∨ .default ∈ s.labels)

end Vcx.Switch
