import Mathlib.Data.Set.Lattice

/-!
# Basic blocks with landing pads

A control-flow graph under construction whose calls may throw: an `invoke` has a pad, which is
entered if it answers to the exception; a plain call leaves the function. A monitor watches the
events of a run. A table of assertions on its state, one for each label, is respected by a graph
if every block keeps it (`Inv`), and then the monitor accepts every run.
-/

namespace Vcx.Lib.Landing
set_option autoImplicit false

variable {γ κ ε σ : Type}

/-- What an exception is unwound to: what the pad answers to, its calls, and the block that
chooses a handler; where there is none it goes on unwinding. -/
structure Pad (γ κ : Type) where
  clauses : κ
  ops : List γ
  exit : Option Nat
  deriving Repr, DecidableEq

/-- How a block ends. `choose` compares the selector with 1, 2, … and unwinds if it is none of them. -/
inductive Term (γ κ : Type)
  | br (l : Nat)
  | brIf (l m : Nat)
  | choose (hits : List Nat)
  | invoke (c : γ) (l : Nat) (pad : Pad γ κ)
  | ret
  | trap
  deriving Repr, DecidableEq

def Term.succs : Term γ κ → List Nat
  | .br l => [l]
  | .brIf l m => [l, m]
  | .choose hits => hits
  | .invoke _ l pad => l :: pad.exit.toList
  | .ret | .trap => []

/-- A block: its calls in order and how it ends, if it has been closed. -/
structure Block (γ κ : Type) where
  ops : List γ := []
  term : Option (Term γ κ) := none
  deriving Repr

/-! ### Runs -/

inductive Event (γ ε : Type)
  | did (c : γ)
  | threw (c : γ) (e : ε)
  | left
  deriving Repr, DecidableEq

/-- The calls that may be made, the exceptions that a call may throw, and the selector that a pad is
entered with. -/
structure Runtime (γ κ ε : Type) where
  makes : γ → Prop
  throws : γ → ε → Prop
  enters : κ → ε → Option Nat

/-- What follows the calls that are left: the end of the block or of the pad. -/
inductive Exit (γ κ : Type)
  | block (term : Option (Term γ κ))
  | pad (exit : Option Nat)

/-- Where control is: what is left there, and the selector the last pad was entered with. -/
inductive Config (γ κ : Type)
  | within (ops : List γ) (exit : Exit γ κ) (sel : Nat)
  | gone

def Config.start (code : Nat → Block γ κ) (l sel : Nat) : Config γ κ :=
  .within (code l).ops (.block (code l).term) sel

/-- The handler that a selector chooses. -/
def chosen (hits : List Nat) : Nat → Option Nat
  | 0 => none
  | i + 1 => hits[i]?

/-- One step. In a pad nothing throws. -/
inductive Step (rt : Runtime γ κ ε) (code : Nat → Block γ κ) : Config γ κ → List (Event γ ε) → Config γ κ → Prop
  | op {c : γ} (ops : List γ) (exit : Exit γ κ) (sel : Nat) (makes : rt.makes c) :
      Step rt code (.within (c :: ops) exit sel) [.did c] (.within ops exit sel)
  | opThrows {c : γ} {e : ε} (ops : List γ) (term : Option (Term γ κ)) (sel : Nat) (throws : rt.throws c e) :
      Step rt code (.within (c :: ops) (.block term) sel) [.threw c e, .left] .gone
  | goes {t : Term γ κ} {l : Nat} (sel : Nat) (goes : t = .br l ∨ ∃ m, t = .brIf l m ∨ t = .brIf m l) :
      Step rt code (.within [] (.block (some t)) sel) [] (.start code l sel)
  | chooses {hits : List Nat} {sel l : Nat} (hit : chosen hits sel = some l) :
      Step rt code (.within [] (.block (some (.choose hits))) sel) [] (.start code l sel)
  | choosesNone {hits : List Nat} {sel : Nat} (none : chosen hits sel = none) :
      Step rt code (.within [] (.block (some (.choose hits))) sel) [.left] .gone
  | invokes {c : γ} (l : Nat) (pad : Pad γ κ) (sel : Nat) (makes : rt.makes c) :
      Step rt code (.within [] (.block (some (.invoke c l pad))) sel) [.did c] (.start code l sel)
  | caught {c : γ} {e : ε} {pad : Pad γ κ} {sel' : Nat} (l sel : Nat) (throws : rt.throws c e)
      (enters : rt.enters pad.clauses e = some sel') :
      Step rt code (.within [] (.block (some (.invoke c l pad))) sel) [.threw c e] (.within pad.ops (.pad pad.exit) sel')
  | missed {c : γ} {e : ε} {pad : Pad γ κ} (l sel : Nat) (throws : rt.throws c e) (enters : rt.enters pad.clauses e = none) :
      Step rt code (.within [] (.block (some (.invoke c l pad))) sel) [.threw c e, .left] .gone
  | dispatches (d sel : Nat) : Step rt code (.within [] (.pad (some d)) sel) [] (.start code d sel)
  | resumes (sel : Nat) : Step rt code (.within [] (.pad none) sel) [.left] .gone
  | returns (sel : Nat) : Step rt code (.within [] (.block (some .ret)) sel) [.left] .gone

/-- The runs from block 0, with their events. -/
inductive Run (rt : Runtime γ κ ε) (code : Nat → Block γ κ) : List (Event γ ε) → Config γ κ → Prop
  | start : Run rt code [] (.start code 0 0)
  | step {w v : List (Event γ ε)} {c c' : Config γ κ} (run : Run rt code w c) (step : Step rt code c v c') :
      Run rt code (w ++ v) c'

/-- The runtime that makes some of the calls only, and throws some of the exceptions. -/
def Runtime.restrict (rt : Runtime γ κ ε) (made : γ → Prop) (allowed : γ → ε → Prop) : Runtime γ κ ε :=
  { rt with makes := fun k => rt.makes k ∧ made k, throws := fun k e => rt.throws k e ∧ allowed k e }

/-- A run in which only some of the calls are made and some of the exceptions thrown is one under a
runtime that makes and throws no others. -/
theorem Run.restrict {rt : Runtime γ κ ε} {code : Nat → Block γ κ} {w : List (Event γ ε)} {c : Config γ κ}
    {made : γ → Prop} {allowed : γ → ε → Prop} (run : Run rt code w c) (does : ∀ k, .did k ∈ w → made k)
    (only : ∀ k e, .threw k e ∈ w → allowed k e) : Run (rt.restrict made allowed) code w c := by
  induction run with
  | start => exact .start
  | step run step ih =>
    refine .step (ih (fun k mem => does k (List.mem_append_left _ mem)) fun k e mem => only k e (List.mem_append_left _ mem)) ?_
    have does := fun k mem => does k (List.mem_append_right _ mem)
    have here := fun k e mem => only k e (List.mem_append_right _ mem)
    cases step with
    | op ops exit sel makes => exact .op ops exit sel ⟨makes, does _ (.head _)⟩
    | opThrows ops term sel throws => exact .opThrows ops term sel ⟨throws, here _ _ (.head _)⟩
    | goes sel goes => exact .goes sel goes
    | chooses hit => exact .chooses hit
    | choosesNone none => exact .choosesNone none
    | invokes l pad sel makes => exact .invokes l pad sel ⟨makes, does _ (.head _)⟩
    | caught l sel throws enters => exact .caught l sel ⟨throws, here _ _ (.head _)⟩ enters
    | missed l sel throws enters => exact .missed l sel ⟨throws, here _ _ (.head _)⟩ enters
    | dispatches d sel => exact .dispatches d sel
    | resumes sel => exact .resumes sel
    | returns sel => exact .returns sel

/-! ### A graph under construction -/

/-- Labels below `next` are taken, and `blk` is the block being written, if there is one. -/
structure Graph (γ κ : Type) where
  next : Nat := 0
  code : Nat → Block γ κ := fun _ => {}
  blk : Option Nat := none

namespace Graph

/-- Takes the next labels. -/
def alloc (g : Graph γ κ) (count : Nat) : Graph γ κ := { g with next := g.next + count }

/-- Goes on at the start of a block. -/
def enter (g : Graph γ κ) (l : Nat) : Graph γ κ := { g with blk := some l }

/-- Writes a call to the current block; where there is none it is unreachable. -/
def emit (g : Graph γ κ) (c : γ) : Graph γ κ :=
  match g.blk with
  | none => g
  | some l => { g with code := Function.update g.code l { g.code l with ops := (g.code l).ops ++ [c] } }

/-- Ends the current block. -/
def close (g : Graph γ κ) (t : Term γ κ) : Graph γ κ :=
  match g.blk with
  | none => g
  | some l => { g with code := Function.update g.code l { g.code l with term := some t }, blk := none }

@[simp] theorem alloc_next (g : Graph γ κ) (count : Nat) : (g.alloc count).next = g.next + count := rfl
@[simp] theorem alloc_code (g : Graph γ κ) (count : Nat) : (g.alloc count).code = g.code := rfl
@[simp] theorem alloc_blk (g : Graph γ κ) (count : Nat) : (g.alloc count).blk = g.blk := rfl
@[simp] theorem enter_next (g : Graph γ κ) (l : Nat) : (g.enter l).next = g.next := rfl
@[simp] theorem enter_code (g : Graph γ κ) (l : Nat) : (g.enter l).code = g.code := rfl
@[simp] theorem enter_blk (g : Graph γ κ) (l : Nat) : (g.enter l).blk = some l := rfl

@[simp] theorem emit_next (g : Graph γ κ) (c : γ) : (g.emit c).next = g.next := by
  unfold emit
  split <;> rfl

@[simp] theorem emit_blk (g : Graph γ κ) (c : γ) : (g.emit c).blk = g.blk := by
  unfold emit
  split <;> rfl

theorem emit_code_of_ne {g : Graph γ κ} {c : γ} {l : Nat} (other : g.blk ≠ some l) : (g.emit c).code l = g.code l := by
  unfold emit
  split
  · rfl
  · rename_i cur isCur
    have ne : l ≠ cur := by
      intro same
      rw [same] at other
      exact other isCur
    exact Function.update_of_ne ne _ _

@[simp] theorem close_next (g : Graph γ κ) (t : Term γ κ) : (g.close t).next = g.next := by
  unfold close
  split <;> rfl

@[simp] theorem close_blk (g : Graph γ κ) (t : Term γ κ) : (g.close t).blk = none := by
  unfold close
  split <;> simp_all

theorem close_code_of_ne {g : Graph γ κ} {t : Term γ κ} {l : Nat} (other : g.blk ≠ some l) :
    (g.close t).code l = g.code l := by
  unfold close
  split
  · rfl
  · rename_i cur isCur
    have ne : l ≠ cur := by
      intro same
      rw [same] at other
      exact other isCur
    exact Function.update_of_ne ne _ _

/-- A label that is taken and has not been written to. -/
structure Waits (g : Graph γ κ) (l : Nat) : Prop where
  taken : l < g.next
  other : g.blk ≠ some l
  blank : (g.code l).term = none

theorem Waits.alloc {g : Graph γ κ} {l : Nat} (waits : g.Waits l) (count : Nat) : (g.alloc count).Waits l :=
  ⟨Nat.lt_of_lt_of_le waits.taken (Nat.le_add_right ..), waits.other, waits.blank⟩

theorem Waits.enter {g : Graph γ κ} {l m : Nat} (waits : g.Waits l) (ne : l ≠ m) : (g.enter m).Waits l :=
  ⟨waits.taken, fun same => ne (Option.some.inj same).symm, waits.blank⟩

theorem Waits.emit {g : Graph γ κ} {l : Nat} (waits : g.Waits l) (c : γ) : (g.emit c).Waits l where
  taken := by rw [emit_next]; exact waits.taken
  other := by rw [emit_blk]; exact waits.other
  blank := by rw [emit_code_of_ne waits.other]; exact waits.blank

theorem Waits.close {g : Graph γ κ} {l : Nat} (waits : g.Waits l) (t : Term γ κ) : (g.close t).Waits l where
  taken := by rw [close_next]; exact waits.taken
  other := by simp
  blank := by rw [close_code_of_ne waits.other]; exact waits.blank

end Graph

/-! ### Assertions -/

section assertions
variable (rt : Runtime γ κ ε) (watch : σ → Event γ ε → Option σ)

/-- The monitor accepts an event, to a state with `Q`. -/
def Lets (s : σ) (v : Event γ ε) (Q : σ → Prop) : Prop := ∃ s', watch s v = some s' ∧ Q s'

/-- The function may be left here. -/
def Leaves (s : σ) : Prop := Lets watch s .left fun _ => True

/-- What must hold before calls for `Q` to hold after them. -/
def wpOps (Q : σ → Prop) : List γ → σ → Prop
  | [], s => Q s
  | c :: ops, s => (rt.makes c → Lets watch s (.did c) (wpOps Q ops)) ∧ ∀ e, rt.throws c e → Lets watch s (.threw c e) (Leaves watch)

/-- The same in a pad. -/
def wpPad (Q : σ → Prop) : List γ → σ → Prop
  | [], s => Q s
  | c :: ops, s => Lets watch s (.did c) (wpPad Q ops)

/-- What must hold at the end of a pad. -/
def wpExit (J : Nat → σ → Nat → Prop) (exit : Option Nat) (sel : Nat) (s : σ) : Prop :=
  match exit with
  | none => Leaves watch s
  | some d => J d s sel

/-- What must hold at the end of a block. -/
def wpTerm (J : Nat → σ → Nat → Prop) (sel : Nat) : Term γ κ → σ → Prop
  | .br l, s => J l s sel
  | .brIf l m, s => J l s sel ∧ J m s sel
  | .choose hits, s =>
    match chosen hits sel with
    | none => Leaves watch s
    | some l => J l s sel
  | .invoke c l pad, s =>
    (rt.makes c → Lets watch s (.did c) fun s => J l s sel) ∧ ∀ e, rt.throws c e → Lets watch s (.threw c e) fun s =>
      match rt.enters pad.clauses e with
      | none => Leaves watch s
      | some sel' => wpPad watch (wpExit watch J pad.exit sel') pad.ops s
  | .ret, s => Leaves watch s
  | .trap, _ => True

end assertions

variable {rt : Runtime γ κ ε} {watch : σ → Event γ ε → Option σ}

theorem Lets.mono {s : σ} {v : Event γ ε} {P Q : σ → Prop} (lets : Lets watch s v P) (less : ∀ s, P s → Q s) :
    Lets watch s v Q := by
  obtain ⟨s', eq, holds⟩ := lets
  exact ⟨s', eq, less s' holds⟩

theorem wpOps_mono {P Q : σ → Prop} (less : ∀ s, P s → Q s) {ops : List γ} {s : σ} (holds : wpOps rt watch P ops s) :
    wpOps rt watch Q ops s := by
  induction ops generalizing s with
  | nil => exact less s holds
  | cons c ops ih => exact ⟨fun makes => (holds.1 makes).mono fun s => ih, holds.2⟩

theorem wpOps_append {Q : σ → Prop} {ops more : List γ} {s : σ} (holds : wpOps rt watch (wpOps rt watch Q more) ops s) :
    wpOps rt watch Q (ops ++ more) s := by
  induction ops generalizing s with
  | nil => exact holds
  | cons c ops ih => exact ⟨fun makes => (holds.1 makes).mono fun s => ih, holds.2⟩

theorem wpPad_mono {P Q : σ → Prop} (less : ∀ s, P s → Q s) {ops : List γ} {s : σ} (holds : wpPad watch P ops s) :
    wpPad watch Q ops s := by
  induction ops generalizing s with
  | nil => exact less s holds
  | cons c ops ih => exact holds.mono fun s => ih

theorem wpPad_append {Q : σ → Prop} {ops more : List γ} {s : σ} (holds : wpPad watch (wpPad watch Q more) ops s) :
    wpPad watch Q (ops ++ more) s := by
  induction ops generalizing s with
  | nil => exact holds
  | cons c ops ih => exact holds.mono fun s => ih

/-- The end of a block asks the table only for the labels it leads to. -/
theorem wpTerm_congr {J J' : Nat → σ → Nat → Prop} {t : Term γ κ} (same : ∀ m ∈ t.succs, J' m = J m) {sel : Nat} {s : σ}
    (holds : wpTerm rt watch J sel t s) : wpTerm rt watch J' sel t s := by
  cases t with
  | br l => simpa only [wpTerm, same l (.head _)] using holds
  | brIf l m => simpa only [wpTerm, same l (.head _), same m (.tail _ (.head _))] using holds
  | choose hits =>
    simp only [wpTerm] at holds ⊢
    cases hit : chosen hits sel with
    | none => simpa only [hit] using holds
    | some l =>
      have mem : l ∈ hits := by
        cases sel with
        | zero => cases hit
        | succ i => exact List.mem_of_getElem? hit
      simp only [hit] at holds ⊢
      rwa [same l mem]
  | invoke c l pad =>
    obtain ⟨returns, throws⟩ := holds
    refine ⟨by simpa only [same l (.head _)] using returns, fun e may => (throws e may).mono fun s caught => ?_⟩
    split at caught
    · exact caught
    · apply wpPad_mono _ caught
      intro s exit
      unfold wpExit at exit ⊢
      split at exit
      · exact exit
      · rename_i isExit
        rw [same _ (by simp [Term.succs, isExit])]
        exact exit
  | ret => exact holds
  | trap => trivial

/-! ### Graphs that respect a table -/

/-- The table with other entries from the label `n` on. -/
def extend (J : Nat → σ → Nat → Prop) (n : Nat) (X : Nat → σ → Nat → Prop) : Nat → σ → Nat → Prop :=
  fun l => if l < n then J l else X (l - n)

theorem extend_of_lt {J : Nat → σ → Nat → Prop} {n l : Nat} (X : Nat → σ → Nat → Prop) (below : l < n) :
    extend J n X l = J l := if_pos below

@[simp] theorem extend_add (J : Nat → σ → Nat → Prop) (n i : Nat) (X : Nat → σ → Nat → Prop) :
    extend J n X (n + i) = X i := by
  rw [extend, if_neg (by omega), Nat.add_sub_cancel_left]

@[simp] theorem extend_self (J : Nat → σ → Nat → Prop) (n : Nat) (X : Nat → σ → Nat → Prop) : extend J n X n = X 0 :=
  extend_add J n 0 X

/-- The graph respects the table `J`: closed blocks keep it, and the current block does if what
it leads to holds once `P` does. -/
structure Inv (rt : Runtime γ κ ε) (watch : σ → Event γ ε → Option σ) (J : Nat → σ → Nat → Prop) (g : Graph γ κ)
    (P : σ → Nat → Prop) : Prop where
  fresh : ∀ l, g.next ≤ l → (g.code l).term = none
  below : ∀ l t, (g.code l).term = some t → ∀ m ∈ t.succs, m < g.next
  closed : ∀ l t, (g.code l).term = some t → ∀ s sel, J l s sel →
    wpOps rt watch (wpTerm rt watch J sel t) (g.code l).ops s
  idle : ∀ l, g.blk ≠ some l → (g.code l).term = none → (g.code l).ops = []
  taken : ∀ l, g.blk = some l → l < g.next
  isOpen : ∀ l, g.blk = some l → (g.code l).term = none
  owes : ∀ l, g.blk = some l → ∀ s sel, J l s sel → wpOps rt watch (fun s => P s sel) (g.code l).ops s

namespace Inv

variable {J J' : Nat → σ → Nat → Prop} {g : Graph γ κ} {P Q : σ → Nat → Prop}

theorem unreachable (inv : Inv rt watch J g P) (none : g.blk = none) : Inv rt watch J g Q :=
  { inv with owes := fun l cur => by simp [none] at cur }

/-- A closed label is a taken one. -/
theorem closed_lt (inv : Inv rt watch J g P) {l : Nat} {t : Term γ κ} (ends : (g.code l).term = some t) : l < g.next := by
  by_contra above
  rw [inv.fresh l (Nat.le_of_not_lt above)] at ends
  cases ends

/-- The table of the labels not taken yet is free. -/
theorem agree (inv : Inv rt watch J g P) (same : ∀ l < g.next, J' l = J l) : Inv rt watch J' g P where
  fresh := inv.fresh
  below := inv.below
  closed l t ends s sel holds := by
    rw [same l (inv.closed_lt ends)] at holds
    apply wpOps_mono _ (inv.closed l t ends s sel holds)
    intro s
    exact wpTerm_congr fun m succ => same m (inv.below l t ends m succ)
  idle := inv.idle
  taken := inv.taken
  isOpen := inv.isOpen
  owes l cur s sel holds := by
    rw [same l (inv.taken l cur)] at holds
    exact inv.owes l cur s sel holds

theorem alloc (inv : Inv rt watch J g P) (count : Nat) : Inv rt watch J (g.alloc count) P where
  fresh l above := inv.fresh l (by simp only [Graph.alloc_next] at above; omega)
  below l t ends m succ := Nat.lt_of_lt_of_le (inv.below l t ends m succ) (Nat.le_add_right ..)
  closed := inv.closed
  idle := inv.idle
  taken l cur := Nat.lt_of_lt_of_le (inv.taken l cur) (Nat.le_add_right ..)
  isOpen := inv.isOpen
  owes := inv.owes

/-- Taking labels, with their assertions. -/
theorem extend (inv : Inv rt watch J g P) (count : Nat) (X : Nat → σ → Nat → Prop) :
    Inv rt watch (extend J g.next X) (g.alloc count) P :=
  (inv.agree fun _ below => extend_of_lt X below).alloc count

/-- A label taken since waits. -/
theorem waits (inv : Inv rt watch J g P) {count l : Nat} (new : g.next ≤ l) (below : l < g.next + count) :
    (g.alloc count).Waits l where
  taken := below
  other cur := by
    have taken := inv.taken l cur
    omega
  blank := inv.fresh l new

theorem enter (inv : Inv rt watch J g P) (none : g.blk = none) {l : Nat} (waits : g.Waits l) :
    Inv rt watch J (g.enter l) (J l) where
  fresh := inv.fresh
  below := inv.below
  closed := inv.closed
  idle m other ends := inv.idle m (by simp [none]) ends
  taken m cur := by
    cases cur
    exact waits.taken
  isOpen m cur := by
    cases cur
    exact waits.blank
  owes m cur s sel holds := by
    cases cur
    rw [Graph.enter_code, inv.idle l waits.other waits.blank]
    exact holds

theorem emit (inv : Inv rt watch J g P) {c : γ}
    (lets : ∀ s sel, P s sel → (rt.makes c → Lets watch s (.did c) (Q · sel)) ∧ ∀ e, rt.throws c e → Lets watch s (.threw c e) (Leaves watch)) :
    Inv rt watch J (g.emit c) Q := by
  cases cur : g.blk with
  | none =>
    have same : g.emit c = g := by simp [Graph.emit, cur]
    rw [same]
    exact inv.unreachable cur
  | some b =>
    have here : (g.emit c).code b = { ops := (g.code b).ops ++ [c], term := none } := by
      simp [Graph.emit, cur, inv.isOpen b cur]
    have there : ∀ l, l ≠ b → (g.emit c).code l = g.code l := fun l ne =>
      Graph.emit_code_of_ne (by rw [cur]; exact fun same => ne (Option.some.inj same).symm)
    refine { fresh := ?_, below := ?_, closed := ?_, idle := ?_, taken := ?_, isOpen := ?_, owes := ?_ }
    · intro l above
      rw [Graph.emit_next] at above
      have taken := inv.taken b cur
      rw [there l (by omega), inv.fresh l above]
    · intro l t ends
      rw [Graph.emit_next]
      by_cases same : l = b
      · rw [same, here] at ends
        cases ends
      · rw [there l same] at ends
        exact inv.below l t ends
    · intro l t ends
      by_cases same : l = b
      · rw [same, here] at ends
        cases ends
      · rw [there l same] at ends ⊢
        exact inv.closed l t ends
    · intro l other ends
      rw [Graph.emit_blk] at other
      have ne : l ≠ b := by
        intro same
        rw [same] at other
        exact other cur
      rw [there l ne] at ends ⊢
      exact inv.idle l other ends
    · intro l cur'
      rw [Graph.emit_next]
      exact inv.taken l (by rwa [Graph.emit_blk] at cur')
    · intro l cur'
      rw [Graph.emit_blk, cur] at cur'
      cases cur'
      rw [here]
    · intro l cur' s sel holds
      rw [Graph.emit_blk, cur] at cur'
      cases cur'
      rw [here]
      apply wpOps_append
      apply wpOps_mono _ (inv.owes b cur s sel holds)
      intro s holds
      exact lets s sel holds

theorem close (inv : Inv rt watch J g P) {t : Term γ κ} (taken : ∀ m ∈ t.succs, m < g.next)
    (future : ∀ s sel, P s sel → wpTerm rt watch J sel t s) : Inv rt watch J (g.close t) Q := by
  cases cur : g.blk with
  | none =>
    have same : g.close t = g := by simp [Graph.close, cur]
    rw [same]
    exact inv.unreachable cur
  | some b =>
    have here : (g.close t).code b = { ops := (g.code b).ops, term := some t } := by
      simp [Graph.close, cur]
    have there : ∀ l, l ≠ b → (g.close t).code l = g.code l := fun l ne =>
      Graph.close_code_of_ne (by rw [cur]; exact fun same => ne (Option.some.inj same).symm)
    refine { fresh := ?_, below := ?_, closed := ?_, idle := ?_, taken := ?_, isOpen := ?_, owes := ?_ }
    · intro l above
      rw [Graph.close_next] at above
      have taken := inv.taken b cur
      rw [there l (by omega), inv.fresh l above]
    · intro l t' ends
      rw [Graph.close_next]
      by_cases same : l = b
      · rw [same, here] at ends
        cases ends
        exact taken
      · rw [there l same] at ends
        exact inv.below l t' ends
    · intro l t' ends s sel holds
      by_cases same : l = b
      · subst same
        rw [here] at ends ⊢
        cases ends
        apply wpOps_mono _ (inv.owes l cur s sel holds)
        intro s holds
        exact future s sel holds
      · rw [there l same] at ends ⊢
        exact inv.closed l t' ends s sel holds
    · intro l _ ends
      by_cases same : l = b
      · rw [same, here] at ends
        cases ends
      · rw [there l same] at ends ⊢
        exact inv.idle l (by rw [cur]; exact fun eq => same (Option.some.inj eq).symm) ends
    all_goals
      intro l cur'
      simp at cur'

/-! ### Runs of a graph that respects its table -/

/-- What holds of the state of the monitor where control is. -/
def Holds (rt : Runtime γ κ ε) (watch : σ → Event γ ε → Option σ) (J : Nat → σ → Nat → Prop) (s : σ) : Config γ κ → Prop
  | .within ops (.block none) _ => wpOps rt watch (fun _ => True) ops s
  | .within ops (.block (some t)) sel => wpOps rt watch (wpTerm rt watch J sel t) ops s
  | .within ops (.pad exit) sel => wpPad watch (wpExit watch J exit sel) ops s
  | .gone => True

theorem holds_start (inv : Inv rt watch J g P) {l sel : Nat} {s : σ} (holds : J l s sel) :
    Holds rt watch J s (.start g.code l sel) := by
  unfold Config.start
  cases ends : (g.code l).term with
  | some t => exact inv.closed l t ends s sel holds
  | none =>
    by_cases cur : g.blk = some l
    · exact wpOps_mono (fun _ _ => trivial) (inv.owes l cur s sel holds)
    · rw [inv.idle l cur ends]
      trivial

/-- A step whose events the monitor accepts. -/
theorem holds_step (inv : Inv rt watch J g P) {c c' : Config γ κ} {v : List (Event γ ε)} {s : σ}
    (holds : Holds rt watch J s c) (step : Step rt g.code c v c') :
    ∃ s', v.foldlM watch s = some s' ∧ Holds rt watch J s' c' := by
  have two : ∀ {c : γ} {e : ε}, Lets watch s (.threw c e) (Leaves watch) →
      ∃ s', [.threw c e, .left].foldlM watch s = some s' ∧ Holds rt watch J s' (.gone : Config γ κ) := by
    rintro c e ⟨s', eq, s'', eq', -⟩
    exact ⟨s'', by simp [List.foldlM, eq, eq'], trivial⟩
  have one : Leaves watch s → ∃ s', [Event.left].foldlM watch s = some s' ∧ Holds rt watch J s' (.gone : Config γ κ) := by
    rintro ⟨s', eq, -⟩
    exact ⟨s', by simp [List.foldlM, eq], trivial⟩
  cases step with
  | @op k ops exit sel makes =>
    have lets : ∃ s', watch s (.did k) = some s' ∧ Holds rt watch J s' (.within ops exit sel) := by
      match exit with
      | .block none => exact holds.1 makes
      | .block (some t) => exact holds.1 makes
      | .pad exit => exact holds
    obtain ⟨s', eq, holds⟩ := lets
    exact ⟨s', by simp [List.foldlM, eq], holds⟩
  | opThrows ops term sel throws =>
    cases term with
    | none => exact two (holds.2 _ throws)
    | some t => exact two (holds.2 _ throws)
  | goes sel goes =>
    refine ⟨s, rfl, inv.holds_start ?_⟩
    obtain rfl | ⟨m, rfl | rfl⟩ := goes
    · exact holds
    · exact holds.1
    · exact holds.2
  | chooses hit =>
    refine ⟨s, rfl, inv.holds_start ?_⟩
    simpa only [Holds, wpOps, wpTerm, hit] using holds
  | choosesNone none =>
    apply one
    simpa only [Holds, wpOps, wpTerm, none] using holds
  | invokes l pad sel makes =>
    obtain ⟨s', eq, holds⟩ := holds.1 makes
    exact ⟨s', by simp [List.foldlM, eq], inv.holds_start holds⟩
  | caught l sel throws enters =>
    obtain ⟨s', eq, holds⟩ := holds.2 _ throws
    rw [enters] at holds
    exact ⟨s', by simp [List.foldlM, eq], holds⟩
  | missed l sel throws enters =>
    apply two
    apply (holds.2 _ throws).mono
    intro s' holds
    simpa only [enters] using holds
  | dispatches d sel => exact ⟨s, rfl, inv.holds_start holds⟩
  | resumes sel => exact one holds
  | returns sel => exact one holds

/-- **The monitor accepts every run** of a graph that respects a table in which the entry has the
monitor's first state. -/
theorem accepts (inv : Inv rt watch J g P) {s : σ} (entry : J 0 s 0) {w : List (Event γ ε)} {c : Config γ κ}
    (run : Run rt g.code w c) : ∃ s', w.foldlM watch s = some s' ∧ Holds rt watch J s' c := by
  induction run with
  | start => exact ⟨s, rfl, inv.holds_start entry⟩
  | step run step ih =>
    obtain ⟨s', eq, holds⟩ := ih
    obtain ⟨s'', eq', holds⟩ := inv.holds_step holds step
    exact ⟨s'', by rw [List.foldlM_append, eq]; exact eq', holds⟩

end Inv

end Vcx.Lib.Landing
