import Vcx.Lower.Lifetimes

/-!
# The scopes of the lowering keep the lifetimes

The construction is followed with a table of what may come after each label. A statement is
followed if, from a point where the graph owes its behaviour and a continuation, its lowering
ends where it owes the continuation alone. This fails where the lowering puts an object into a
scope around the statement it belongs to, which `Placed` excludes.
-/

namespace Vcx.Lower
set_option autoImplicit false
open Vcx.Lib Vcx.Lib.Beh

mutual

/-- No object is declared where the lowering has no scope for it: as the whole body of a loop or
of an `if`, in a `while` condition, in the init-statement or directly in the body of a `switch`. None
is an element of a braced list that is the range of a loop, which no scope has. -/
def Placed : Stmt → Prop
  | .simple _ => True
  | .compound body => PlacedAll body
  | .ifStmt _ _ arm => arm.objs = [] ∧ Placed arm
  | .ifElse _ _ arm els => (arm.objs = [] ∧ Placed arm) ∧ els.objs = [] ∧ Placed els
  | .ifConst _ taken => Placed taken
  | .whileStmt c body => c.objs = [] ∧ body.objs = [] ∧ Placed body
  | .doStmt body _ => body.objs = [] ∧ Placed body
  | .forStmt _ _ _ body => body.objs = [] ∧ Placed body
  | .rangeForStmt _ (.ofClass _) _ body => Placed body
  | .rangeForStmt _ (.ofArray elems) _ body => elems = [] ∧ Placed body
  | .switchStmt init _ body => init.objs = [] ∧ PlacedItems body
  | .breakStmt | .continueStmt | .returnStmt _ => True

def PlacedAll : Stmts → Prop
  | .nil => True
  | .cons s rest => Placed s ∧ PlacedAll rest

def PlacedItems : Items → Prop
  | .nil => True
  | .cons _ s rest => (s.objs = [] ∧ Placed s) ∧ PlacedItems rest

end

mutual

/-- `break` and `continue` stand in a statement that they leave, as the analysis demands. -/
def Jumps (breaks continues : Bool) : Stmt → Prop
  | .simple _ | .returnStmt _ => True
  | .compound body => JumpsAll breaks continues body
  | .ifStmt _ _ arm => Jumps breaks continues arm
  | .ifElse _ _ arm els => Jumps breaks continues arm ∧ Jumps breaks continues els
  | .ifConst _ taken => Jumps breaks continues taken
  | .whileStmt _ body | .doStmt body _ | .forStmt _ _ _ body | .rangeForStmt _ _ _ body => Jumps true true body
  | .switchStmt _ _ body => JumpsItems true continues body
  | .breakStmt => breaks = true
  | .continueStmt => continues = true

def JumpsAll (breaks continues : Bool) : Stmts → Prop
  | .nil => True
  | .cons s rest => Jumps breaks continues s ∧ JumpsAll breaks continues rest

def JumpsItems (breaks continues : Bool) : Items → Prop
  | .nil => True
  | .cons _ s rest => Jumps breaks continues s ∧ JumpsItems breaks continues rest

end

/-- A table of what may come after each label. -/
abbrev Table := Nat → Set (List Event)

/-- A continuation, for each way of leaving. -/
abbrev Cont := Outcome → Set (List Event)

/-! ### What the scopes do -/

open Fn

theorem unwound_push (top : List Obj) (outer : List (List Obj)) {depth : Nat} (within : depth ≤ outer.length) :
    unwound (top :: outer) depth = top ++ unwound outer depth := by
  have more : outer.length + 1 - depth = (outer.length - depth) + 1 := by omega
  rw [unwound, List.length_cons, more, List.take_succ_cons, List.flatten_cons]
  rfl

theorem unwound_all (scopes : List (List Obj)) : unwound scopes 0 = scopes.flatten := by
  rw [unwound, Nat.sub_zero, List.take_length]

theorem unwound_here (scopes : List (List Obj)) : unwound scopes scopes.length = [] := by
  rw [unwound, Nat.sub_self, List.take_zero, List.flatten_nil]

/-- The function after some events and with other scopes. -/
def Fn.opened (fl : Fn) (events : List Event) (scopes : List (List Obj)) : Fn :=
  { fl with toGraph := fl.toGraph.emitAll events, scopes := scopes }

theorem opened_next (fl : Fn) (events : List Event) (scopes : List (List Obj)) :
    (fl.opened events scopes).next = fl.next := Graph.emitAll_next ..

theorem declareLocal_foldl (objs : List Obj) {fl : Fn} {top : List Obj} {outer : List (List Obj)}
    (scopes : fl.scopes = top :: outer) :
    objs.foldl declareLocal fl = fl.opened (constructs objs) ((objs.reverse ++ top) :: outer) := by
  induction objs generalizing fl top with
  | nil =>
    rw [List.reverse_nil, List.nil_append, ← scopes]
    rfl
  | cons x objs ih =>
    have tracked : declareLocal fl x = fl.opened [.construct x] ((x :: top) :: outer) := by
      simp only [declareLocal, track, Fn.emit, scopes]
      rfl
    rw [List.foldl_cons, tracked, ih rfl, List.reverse_cons, List.append_assoc]
    rfl

theorem simple_eq (s : Simple) {fl : Fn} {top : List Obj} {outer : List (List Obj)} (scopes : fl.scopes = top :: outer) :
    simple s fl = fl.opened s.events ((s.objs.reverse ++ top) :: outer) := by
  cases s with
  | decl objs => exact declareLocal_foldl objs scopes
  | _ =>
    simp only [simple, Simple.objs, List.reverse_nil, List.nil_append, ← scopes]
    rfl

theorem simple_of_no_objs {s : Simple} (fl : Fn) (none : s.objs = []) :
    simple s fl = fl.opened s.events fl.scopes := by
  cases s with
  | decl objs =>
    cases none
    rfl
  | _ => rfl

theorem cond_eq (c : Cond) {fl : Fn} {top : List Obj} {outer : List (List Obj)} (scopes : fl.scopes = top :: outer) :
    Fn.cond c fl = fl.opened c.events ((c.objs.reverse ++ top) :: outer) := by
  cases c with
  | decl obj => exact declareLocal_foldl obj.toList scopes
  | expr e =>
    simp only [Fn.cond, Cond.objs, List.reverse_nil, List.nil_append, ← scopes]
    rfl

/-! ### Following a statement -/

/-- Where control may leave to: what the continuation has for it, after the destructions. -/
structure Ctx (J : Table) (fl : Fn) (breaks continues : Bool) (K : Cont) : Prop where
  breakDepth : fl.targets.breakDepth ≤ fl.scopes.length
  continueDepth : fl.targets.continueDepth ≤ fl.scopes.length
  ret : destroys fl.scopes.flatten ∈ K .ret
  brk : breaks = true → ∃ l < fl.next, fl.targets.breakTo = some l ∧
    led (destroys (unwound fl.scopes fl.targets.breakDepth)) (J l) ⊆ K .brk
  cont : continues = true → ∃ l < fl.next, fl.targets.continueTo = some l ∧
    led (destroys (unwound fl.scopes fl.targets.continueDepth)) (J l) ⊆ K .cont

/-- From `fl` the construction has come to `fl'`, with these scopes, and what comes then is in
`P`; the table has only got entries for new labels. -/
structure Lands (J : Table) (fl : Fn) (J' : Table) (fl' : Fn) (scopes : List (List Obj)) (P : Set (List Event)) :
    Prop where
  agree : ∀ l < fl.next, J' l = J l
  inv : Inv J' fl'.toGraph P
  frame : Frame fl.toGraph fl'.toGraph
  scopes : fl'.scopes = scopes
  targets : fl'.targets = fl.targets

/-- The lowering of a statement that declares nothing in the scope around it. -/
def Follows (lower : Fn → Fn) (B : Beh Event) (breaks continues : Bool) : Prop :=
  ∀ (J : Table) (fl : Fn) (K : Cont), Inv J fl.toGraph (Fut B K) → Ctx J fl breaks continues K →
    ∃ J', Lands J fl J' (lower fl) fl.scopes (K .normal)

/-- The lowering of statements that also leave objects in the scope around them, which are to be
destroyed at its end. -/
def Grows (lower : Fn → Fn) (B : Beh Event) (breaks continues : Bool) : Prop :=
  ∀ (J : Table) (fl : Fn) (K : Cont) (top : List Obj) (outer : List (List Obj)), fl.scopes = top :: outer →
    fl.targets.breakDepth ≤ outer.length → fl.targets.continueDepth ≤ outer.length →
    Inv J fl.toGraph (Fut B K) → Ctx J fl breaks continues K →
      ∃ J' ys, Lands J fl J' (lower fl) ((ys ++ top) :: outer) (led (destroys ys) (K .normal))

variable {J J' : Table} {fl fl' : Fn} {K K' : Cont} {breaks continues : Bool} {lower : Fn → Fn} {B : Beh Event}
  {P : Set (List Event)} {scopes : List (List Obj)}

theorem Ctx.move (ctx : Ctx J fl breaks continues K) (agree : ∀ l < fl.next, J' l = J l) (next : fl.next ≤ fl'.next)
    (scopes : fl'.scopes = fl.scopes) (targets : fl'.targets = fl.targets) (out : ∀ o, o ≠ .normal → K' o = K o) :
    Ctx J' fl' breaks continues K' where
  breakDepth := by
    rw [targets, scopes]
    exact ctx.breakDepth
  continueDepth := by
    rw [targets, scopes]
    exact ctx.continueDepth
  ret := by
    rw [out .ret (by decide), scopes]
    exact ctx.ret
  brk may := by
    obtain ⟨l, below, goes, led⟩ := ctx.brk may
    rw [out .brk (by decide), scopes, targets]
    exact ⟨l, Nat.lt_of_lt_of_le below next, goes, by rwa [agree l below]⟩
  cont may := by
    obtain ⟨l, below, goes, led⟩ := ctx.cont may
    rw [out .cont (by decide), scopes, targets]
    exact ⟨l, Nat.lt_of_lt_of_le below next, goes, by rwa [agree l below]⟩

theorem led_append (v w : List Event) (X : Set (List Event)) : led v (led w X) = led (v ++ w) X := by
  ext u
  constructor
  · rintro ⟨-, ⟨r, mem, rfl⟩, rfl⟩
    exact ⟨r, mem, (List.append_assoc ..).symm⟩
  · rintro ⟨r, mem, rfl⟩
    exact ⟨w ++ r, ⟨r, mem, rfl⟩, List.append_assoc ..⟩

theorem led_mono {v : List Event} {X Y : Set (List Event)} (less : X ⊆ Y) : led v X ⊆ led v Y :=
  fun _ ⟨r, mem, eq⟩ => ⟨r, less mem, eq⟩

theorem destroys_append (xs ys : List Obj) : destroys (xs ++ ys) = destroys xs ++ destroys ys := List.map_append

/-- More objects in the current scope are more to destroy on the way out of it. -/
theorem Ctx.grow {top : List Obj} {outer : List (List Obj)} (ctx : Ctx J fl breaks continues K)
    (old : fl.scopes = top :: outer ∨ top = [] ∧ fl.scopes = outer)
    (breakDepth : fl.targets.breakDepth ≤ outer.length) (continueDepth : fl.targets.continueDepth ≤ outer.length)
    (agree : ∀ l < fl.next, J' l = J l) (next : fl.next ≤ fl'.next) (ys : List Obj)
    (new : fl'.scopes = (ys ++ top) :: outer) (targets : fl'.targets = fl.targets) :
    Ctx J' fl' breaks continues (after (destroys ys) K) := by
  have unwinds : ∀ depth, depth ≤ outer.length → unwound fl'.scopes depth = ys ++ unwound fl.scopes depth := by
    intro depth within
    rw [new, unwound_push _ _ within]
    obtain old | ⟨rfl, old⟩ := old
    · rw [old, unwound_push _ _ within, List.append_assoc]
    · rw [old, List.append_nil]
  refine { breakDepth := ?_, continueDepth := ?_, ret := ?_, brk := ?_, cont := ?_ }
  · rw [targets, new]
    exact Nat.le_succ_of_le breakDepth
  · rw [targets, new]
    exact Nat.le_succ_of_le continueDepth
  · have all := unwinds 0 (Nat.zero_le _)
    rw [unwound_all, unwound_all] at all
    rw [all, destroys_append]
    exact ⟨_, ctx.ret, rfl⟩
  · intro may
    obtain ⟨l, below, goes, led⟩ := ctx.brk may
    rw [targets, unwinds _ breakDepth, destroys_append]
    refine ⟨l, Nat.lt_of_lt_of_le below next, goes, ?_⟩
    rw [← led_append, agree l below]
    exact led_mono led
  · intro may
    obtain ⟨l, below, goes, led⟩ := ctx.cont may
    rw [targets, unwinds _ continueDepth, destroys_append]
    refine ⟨l, Nat.lt_of_lt_of_le below next, goes, ?_⟩
    rw [← led_append, agree l below]
    exact led_mono led

/-- Where control cannot be, nothing is owed. -/
theorem Lands.unreachable (inv : Inv J fl.toGraph P) (none : fl.blk = none) {Q : Set (List Event)} :
    Lands J fl J fl fl.scopes Q :=
  ⟨fun _ _ => rfl, inv.unreachable none, .refl _, rfl, rfl⟩

theorem Lands.pop {top : List Obj} (lands : Lands J fl J' fl' (top :: scopes) P) :
    Lands J fl J' fl'.popScope scopes {w | destroys top ++ w ∈ P} := by
  refine ⟨lands.agree, ?_, lands.frame.emitAll _, ?_, lands.targets⟩
  · simp only [popScope, lands.scopes, List.headD_cons]
    exact lands.inv.emitAll _
  · simp only [popScope, lands.scopes, List.tail_cons]

theorem Follows.reachable (follows : Follows lower B breaks continues) :
    Follows (reachable lower) B breaks continues := by
  intro J fl K inv ctx
  unfold Fn.reachable
  split
  · rename_i none
    exact ⟨J, .unreachable inv none⟩
  · exact follows J fl K inv ctx

theorem Follows.grows (follows : Follows lower B breaks continues) : Grows lower B breaks continues := by
  intro J fl K top outer scopes _ _ inv ctx
  obtain ⟨J', lands⟩ := follows J fl K inv ctx
  refine ⟨J', [], { lands with inv := lands.inv.mono ?_, scopes := lands.scopes.trans scopes }⟩
  rintro w ⟨r, mem, rfl⟩
  exact mem

theorem Grows.nil : Grows id (just .normal) breaks continues := by
  intro J fl K top outer scopes _ _ inv _
  refine ⟨J, [], fun _ _ => rfl, inv.mono ?_, .refl _, scopes, rfl⟩
  rintro w ⟨r, mem, rfl⟩
  exact fut_just mem

/-- A statement and what comes after it in its block. -/
theorem Grows.sequel {s : Stmt} {rest : Beh Event} (first : s.objs = [] → Follows (stmt s) (runs s) breaks continues)
    (second : Grows lower rest breaks continues) :
    Grows (lower ∘ stmt s) (sequel s (runs s) rest) breaks continues := by
  intro J fl K top outer scopes breakDepth continueDepth inv ctx
  by_cases none : fl.blk = none
  · have same : stmt s fl = fl := by cases s <;> simp only [stmt, Fn.reachable, if_pos none]
    rw [Function.comp_apply, same]
    exact second J fl K top outer scopes breakDepth continueDepth (inv.unreachable none) ctx
  cases s with
  | simple d =>
    have begun := (inv.emitAll d.events).mono (Q := Fut rest (after (destroys d.objs.reverse) K)) fun w mem => fut_wrap mem
    rw [Function.comp_apply, stmt, Fn.reachable, if_neg none, simple_eq d scopes]
    obtain ⟨J', ys, lands⟩ := second J (fl.opened d.events ((d.objs.reverse ++ top) :: outer))
      (after (destroys d.objs.reverse) K) (d.objs.reverse ++ top) outer rfl breakDepth continueDepth begun
      (ctx.grow (.inl scopes) breakDepth continueDepth (fun _ _ => rfl) (opened_next ..).ge d.objs.reverse rfl rfl)
    refine ⟨J', ys ++ d.objs.reverse, ?_, ?_, ?_, ?_, lands.targets⟩
    · rw [← opened_next fl d.events]
      exact lands.agree
    · rw [destroys_append, ← led_append]
      exact lands.inv
    · exact ((Frame.refl fl.toGraph).emitAll d.events).trans lands.frame
    · rw [lands.scopes, List.append_assoc]
  | _ =>
    obtain ⟨J', lands⟩ := first rfl J fl (thenOn (Fut rest K) K) (inv.mono fun w mem => fut_seq mem)
      (ctx.move (fun _ _ => rfl) (Nat.le_refl _) rfl rfl fun o other => by cases o <;> first | rfl | contradiction)
    obtain ⟨J'', ys, lands'⟩ := second J' _ K top outer (lands.scopes.trans scopes) (by rwa [lands.targets])
      (by rwa [lands.targets]) lands.inv
      (ctx.move lands.agree lands.frame.next lands.scopes lands.targets fun _ _ => rfl)
    refine ⟨J'', ys, ?_, lands'.inv, lands.frame.trans lands'.frame, lands'.scopes, lands'.targets.trans lands.targets⟩
    intro l below
    rw [lands'.agree l (Nat.lt_of_lt_of_le below lands.frame.next), lands.agree l below]

/-- A scope around a statement: its objects are constructed by `events` and destroyed at its end. -/
theorem Grows.inScope (grows : Grows lower B breaks continues) (events : List Event) (objs : List Obj) :
    Follows (fun fl => (lower (fl.opened events (objs.reverse :: fl.scopes))).popScope)
      (lives events objs B) breaks continues := by
  intro J fl K inv ctx
  have begun := (inv.emitAll events).mono (Q := Fut B (after (destroys objs.reverse) K)) fun w mem => fut_wrap mem
  obtain ⟨J', ys, lands⟩ := grows J (fl.opened events (objs.reverse :: fl.scopes)) (after (destroys objs.reverse) K)
    objs.reverse fl.scopes rfl ctx.breakDepth ctx.continueDepth begun
    (ctx.grow (.inr ⟨rfl, rfl⟩) ctx.breakDepth ctx.continueDepth (fun _ _ => rfl) (opened_next ..).ge objs.reverse
      (List.append_nil _ ▸ rfl) rfl)
  have popped := lands.pop
  refine ⟨J', ?_, ?_, ?_, popped.scopes, popped.targets⟩
  · rw [← opened_next fl events]
    exact popped.agree
  · refine popped.inv.mono fun w mem => ?_
    exact ⟨_, ⟨w, mem, rfl⟩, by simp [destroys]⟩
  · exact ((Frame.refl fl.toGraph).emitAll events).trans popped.frame

/-- A loop with its test at the head: `for` and the range-based one. -/
def Fn.headed (head : List Event) (tests : Bool) (post : List Event) (stmt : Fn → Fn) (fl : Fn) : Fn :=
  let fl₁ := (((fl.alloc 4).close (.br fl.next)).enter fl.next).emitAll head
  let fl₂ := fl₁.close (if tests then .brIf (fl.next + 1) (fl.next + 3) else .br (fl.next + 1))
  let fl₃ := Fn.loop (fl.next + 1) (fl.next + 2) (fl.next + 3) stmt fl₂
  (((fl₃.enter (fl.next + 2)).emitAll post).close (.br fl.next)).enter (fl.next + 3)

theorem forLoop_eq (c post : Option Nat) : forLoop c post lower = headed (evals c) c.isSome (evals post) lower := by
  cases c <;> rfl

theorem rangeLoop_eq (var : Option Obj) : rangeLoop var lower = headed [] true [] (rangePass var lower) := rfl

/-! ### The statements -/

theorem led_nil (X : Set (List Event)) : led [] X = X := by
  ext w
  constructor
  · rintro ⟨r, mem, rfl⟩
    exact mem
  · intro mem
    exact ⟨w, mem, rfl⟩

theorem after_nil (K : Cont) : after [] K = K := funext fun o => led_nil (K o)

theorem simple_follows {s : Simple} (none : s.objs = []) :
    Follows (simple s) (runs (.simple s)) breaks continues := by
  intro J fl K inv _
  rw [simple_of_no_objs fl none]
  refine ⟨J, fun _ _ => rfl, (inv.emitAll s.events).mono fun w mem => ?_, (Frame.refl _).emitAll _, rfl, rfl⟩
  apply fut_wrap
  apply fut_just
  rw [none]
  exact ⟨w, mem, rfl⟩

theorem break_follows :
    Follows (fun fl => (fl.destroyFrom fl.targets.breakDepth).jump fl.targets.breakTo) (runs .breakStmt) true continues := by
  intro J fl K inv ctx
  obtain ⟨l, below, goes, led⟩ := ctx.brk rfl
  refine ⟨J, fun _ _ => rfl, ?_, ?_, ?_, ?_⟩
  all_goals simp only [goes, jump]
  · refine (inv.emitAll _).br (by rwa [Graph.emitAll_next]) fun w mem => ?_
    exact fut_just (led ⟨w, mem, rfl⟩)
  · exact ((Frame.refl _).emitAll _).close _
  · rfl
  · rfl

theorem continue_follows :
    Follows (fun fl => (fl.destroyFrom fl.targets.continueDepth).jump fl.targets.continueTo) (runs .continueStmt)
      breaks true := by
  intro J fl K inv ctx
  obtain ⟨l, below, goes, led⟩ := ctx.cont rfl
  refine ⟨J, fun _ _ => rfl, ?_, ?_, ?_, ?_⟩
  all_goals simp only [goes, jump]
  · refine (inv.emitAll _).br (by rwa [Graph.emitAll_next]) fun w mem => ?_
    exact fut_just (led ⟨w, mem, rfl⟩)
  · exact ((Frame.refl _).emitAll _).close _
  · rfl
  · rfl

theorem return_follows (value : Option Nat) :
    Follows (fun fl => fl.returnWith value) (runs (.returnStmt value)) breaks continues := by
  intro J fl K inv ctx
  have destroyed := (inv.emitAll (evals value)).emitAll (destroys (unwound fl.scopes 0))
  refine ⟨J, fun _ _ => rfl, destroyed.close (by simp [Term.succs]) ?_,
    (((Frame.refl _).emitAll _).emitAll _).close _, rfl, rfl⟩
  rintro w (⟨-, rfl⟩ | ⟨m, succ, -⟩)
  · apply fut_wrap
    apply fut_just
    rw [unwound_all, List.append_nil, after_nil]
    exact ctx.ret
  · cases succ

/-! ### Blocks of a statement

A statement takes labels, closes the current block and then writes its blocks one after the
other. A stage is a state between two blocks: `todo` are those still to be written. -/

structure Stage (J X : Table) (fl : Fn) (count : Nat) (todo : List Nat) (J' : Table) (fl' : Fn) (scopes : List (List Obj)) :
    Prop where
  agree : ∀ l < fl.next, J' l = J l
  entry : ∀ i < count, J' (fl.next + i) = X i
  inv : ∀ P, Inv J' fl'.toGraph P
  frame : Frame fl.toGraph fl'.toGraph
  taken : fl.next + count ≤ fl'.next
  nodup : todo.Nodup
  within : ∀ i ∈ todo, i < count
  blank : ∀ i ∈ todo, fl'.code (fl.next + i) = {}
  blk : fl'.blk = none
  scopes : fl'.scopes = scopes
  targets : fl'.targets = fl.targets

namespace Stage

variable {X : Table} {count i j k : Nat} {todo : List Nat}

theorem start (inv : Inv J fl.toGraph P) (nodup : todo.Nodup) (within : ∀ i ∈ todo, i < count) {t : Term}
    (taken : ∀ m ∈ t.succs, m < fl.next + count) (future : t.future (extend J fl.next X) ⊆ P) :
    Stage J X fl count todo (extend J fl.next X) ((fl.alloc count).close t) fl.scopes where
  agree _ below := extend_of_lt X below
  entry _ _ := extend_add ..
  inv _ := ((inv.extend X).alloc count).close taken future
  frame := ((Frame.refl _).alloc _).close _
  taken := (Graph.close_next (fl.toGraph.alloc count) t).ge
  nodup := nodup
  within := within
  blank _ _ := inv.blank _ _ (Nat.le_add_right ..)
  blk := Graph.close_blk ..
  scopes := rfl
  targets := rfl

theorem start_br (X : Table) (count : Nat) (inv : Inv J fl.toGraph P) (i : Nat) (goes : X i ⊆ P) (todo : List Nat) (nodup : todo.Nodup)
    (within : ∀ i ∈ todo, i < count) (bound : i < count) :
    Stage J X fl count todo (extend J fl.next X) ((fl.alloc count).close (.br (fl.next + i))) fl.scopes := by
  apply start inv nodup within
  · intro m succ
    rw [List.mem_singleton.1 succ]
    exact Nat.add_lt_add_left bound _
  · rintro w (⟨ends, -⟩ | ⟨m, succ, mem⟩)
    · cases ends
    · rw [List.mem_singleton.1 succ, extend_add] at mem
      exact goes mem

theorem start_brIf (X : Table) (count : Nat) (inv : Inv J fl.toGraph P) (i j : Nat) (goes : X i ⊆ P) (goes' : X j ⊆ P) (todo : List Nat)
    (nodup : todo.Nodup) (within : ∀ i ∈ todo, i < count) (bound : i < count) (bound' : j < count) :
    Stage J X fl count todo (extend J fl.next X) ((fl.alloc count).close (.brIf (fl.next + i) (fl.next + j))) fl.scopes := by
  apply start inv nodup within
  · intro m succ
    obtain rfl | succ := List.mem_cons.1 succ
    · exact Nat.add_lt_add_left bound _
    · rw [List.mem_singleton.1 succ]
      exact Nat.add_lt_add_left bound' _
  · rintro w (⟨ends, -⟩ | ⟨m, succ, mem⟩)
    · cases ends
    · obtain rfl | succ := List.mem_cons.1 succ
      · rw [extend_add] at mem
        exact goes mem
      · rw [List.mem_singleton.1 succ, extend_add] at mem
        exact goes' mem

variable {J' : Table} {fl' fl'' : Fn} {scopes : List (List Obj)}

/-- The next block is written, however that is done. -/
theorem next (stage : Stage J X fl count (i :: todo) J' fl' scopes) {J'' : Table} (agree : ∀ l < fl'.next, J'' l = J' l)
    (inv : ∀ P, Inv J'' fl''.toGraph P) (frame : Frame (fl'.enter (fl.next + i)).toGraph fl''.toGraph)
    (blk : fl''.blk = none) (same : fl''.scopes = fl'.scopes) (targets : fl''.targets = fl'.targets) :
    Stage J X fl count todo J'' fl'' scopes where
  agree l below := (agree l (by have := stage.taken; omega)).trans (stage.agree l below)
  entry m bound := (agree _ (by have := stage.taken; omega)).trans (stage.entry m bound)
  inv := inv
  frame := (stage.frame.enter (Nat.le_add_right ..)).trans frame
  taken := Nat.le_trans stage.taken frame.next
  nodup := (List.nodup_cons.1 stage.nodup).2
  within m mem := stage.within m (List.mem_cons_of_mem _ mem)
  blank m mem := by
    have bound := stage.within m (List.mem_cons_of_mem _ mem)
    have taken : fl.next + m < fl'.next := Nat.lt_of_lt_of_le (Nat.add_lt_add_left bound _) stage.taken
    rw [frame.code (fl.next + m) taken]
    · exact stage.blank m (List.mem_cons_of_mem _ mem)
    · intro cur
      have same : i = m := Nat.add_left_cancel (Option.some.inj cur)
      rw [same] at stage
      exact (List.nodup_cons.1 stage.nodup).1 mem
  blk := blk
  scopes := same.trans stage.scopes
  targets := targets.trans stage.targets

theorem taken_of (stage : Stage J X fl count todo J' fl' scopes) (bound : i < count) : fl.next + i < fl'.next :=
  Nat.lt_of_lt_of_le (Nat.add_lt_add_left bound _) stage.taken

theorem enter (stage : Stage J X fl count (i :: todo) J' fl' scopes) :
    Inv J' (fl'.enter (fl.next + i)).toGraph (X i) := by
  have bound := stage.within i List.mem_cons_self
  rw [← stage.entry i bound]
  exact (stage.inv ∅).enter (stage.taken_of bound) (stage.blank i List.mem_cons_self)

theorem block_br (stage : Stage J X fl count (i :: todo) J' fl' scopes) (events : List Event) (bound : j < count)
    (goes : X j ⊆ {w | events ++ w ∈ X i}) :
    Stage J X fl count todo J' (((fl'.enter (fl.next + i)).emitAll events).close (.br (fl.next + j))) scopes := by
  apply stage.next (fun _ _ => rfl)
  · intro P
    apply (stage.enter.emitAll events).br (by rw [Graph.emitAll_next]; exact stage.taken_of bound)
    rw [stage.entry j bound]
    exact goes
  · exact ((Frame.refl _).emitAll _).close _
  · exact Graph.close_blk ..
  · rfl
  · rfl

theorem block_brIf (stage : Stage J X fl count (i :: todo) J' fl' scopes) (events : List Event) (bound : j < count)
    (bound' : k < count) (goes : X j ⊆ {w | events ++ w ∈ X i}) (goes' : X k ⊆ {w | events ++ w ∈ X i}) :
    Stage J X fl count todo J'
      (((fl'.enter (fl.next + i)).emitAll events).close (.brIf (fl.next + j) (fl.next + k))) scopes := by
  apply stage.next (fun _ _ => rfl)
  · intro P
    apply (stage.enter.emitAll events).brIf (by rw [Graph.emitAll_next]; exact stage.taken_of bound) (by rw [Graph.emitAll_next]; exact stage.taken_of bound')
    · rw [stage.entry j bound]
      exact goes
    · rw [stage.entry k bound']
      exact goes'
  · exact ((Frame.refl _).emitAll _).close _
  · exact Graph.close_blk ..
  · rfl
  · rfl

/-- A statement in a block of its own, which goes on to another. -/
theorem arm (stage : Stage J X fl count (i :: todo) J' fl' scopes) (follows : Follows lower B breaks continues)
    (starts : Fut B K ⊆ X i) (ctx : Ctx J' fl' breaks continues K) (bound : j < count) (ends : X j ⊆ K .normal) :
    ∃ J'', Stage J X fl count todo J'' ((lower (fl'.enter (fl.next + i))).close (.br (fl.next + j))) scopes := by
  obtain ⟨J'', lands⟩ := follows J' (fl'.enter (fl.next + i)) K (stage.enter.mono starts)
    (ctx.move (fun _ _ => rfl) (Nat.le_refl _) rfl rfl fun _ _ => rfl)
  refine ⟨J'', stage.next lands.agree ?_ (lands.frame.close _) (Graph.close_blk ..) lands.scopes lands.targets⟩
  intro P
  have taken := stage.taken_of bound
  apply lands.inv.br (Nat.lt_of_lt_of_le taken lands.frame.next)
  rw [lands.agree _ taken, stage.entry j bound]
  exact ends

/-- The body of a loop, with `break` and `continue` going to two of its blocks. -/
theorem loop (stage : Stage J X fl count (i :: todo) J' fl' scopes) (follows : Follows lower B true true)
    (starts : Fut B (inLoop (X j) (X k) K) ⊆ X i) (ret : destroys fl'.scopes.flatten ∈ K .ret) (bound : j < count)
    (bound' : k < count) :
    ∃ J'' fl'', Fn.loop (fl.next + i) (fl.next + j) (fl.next + k) lower fl' = fl''.enter (fl.next + k) ∧
      Stage J X fl count todo J'' fl'' scopes := by
  let targets' : Targets := ⟨some (fl.next + k), some (fl.next + j), fl'.scopes.length, fl'.scopes.length⟩
  have here : ∀ m < count, led (destroys (unwound fl'.scopes fl'.scopes.length)) (J' (fl.next + m)) ⊆ X m := by
    intro m bound
    rw [unwound_here, stage.entry m bound]
    exact (led_nil _).le
  have ctx : Ctx J' ({ fl' with targets := targets' }.enter (fl.next + i)) true true (inLoop (X j) (X k) K) :=
    { breakDepth := Nat.le_refl _
      continueDepth := Nat.le_refl _
      ret := ret
      brk := fun _ => ⟨fl.next + k, stage.taken_of bound', rfl, here k bound'⟩
      cont := fun _ => ⟨fl.next + j, stage.taken_of bound, rfl, here j bound⟩ }
  obtain ⟨J'', lands⟩ := follows J' ({ fl' with targets := targets' }.enter (fl.next + i)) _
    (stage.enter.mono starts) ctx
  refine ⟨J'', _, rfl, stage.next lands.agree ?_ (lands.frame.close _) (Graph.close_blk ..) lands.scopes rfl⟩
  intro P
  have taken := stage.taken_of bound
  apply lands.inv.br (Nat.lt_of_lt_of_le taken lands.frame.next)
  rw [lands.agree _ taken, stage.entry j bound]
  rfl

theorem rescope (stage : Stage J X fl count todo J' fl' scopes) (scopes' : List (List Obj)) :
    Stage J X fl count todo J' { fl' with scopes := scopes' } scopes' :=
  { stage with inv := stage.inv, scopes := rfl }

/-- The last block is the one that comes after the statement. -/
theorem lands (stage : Stage J X fl count [i] J' fl' scopes) (ends : X i = K .normal) :
    Lands J fl J' (fl'.enter (fl.next + i)) scopes (K .normal) :=
  ⟨stage.agree, ends ▸ stage.enter, stage.frame.enter (Nat.le_add_right ..), stage.scopes, stage.targets⟩

end Stage

theorem branch_follows (arm : Follows lower B breaks continues) :
    Follows (branch lower) (either B (just .normal)) breaks continues := by
  intro J fl K inv ctx
  let X : Table := fun
    | 0 => Fut B K
    | _ => K .normal
  have tested := Stage.start_brIf X 2 inv 0 1 (fun w mem => fut_left mem)
    (fun w mem => fut_right (fut_just mem)) [0, 1] (by decide) (by decide) (by decide) (by decide)
  obtain ⟨J', done⟩ := tested.arm (j := 1) arm subset_rfl
    (ctx.move tested.agree tested.frame.next rfl rfl fun _ _ => rfl) (by decide) subset_rfl
  exact ⟨J', done.lands rfl⟩

theorem branchElse_follows {lower' : Fn → Fn} {B' : Beh Event} (arm : Follows lower B breaks continues)
    (els : Follows lower' B' breaks continues) : Follows (branchElse lower lower') (either B B') breaks continues := by
  intro J fl K inv ctx
  let X : Table := fun
    | 0 => Fut B K
    | 1 => K .normal
    | _ => Fut B' K
  have tested := Stage.start_brIf X 3 inv 0 2 (fun w mem => fut_left mem) (fun w mem => fut_right mem)
    [0, 2, 1] (by decide) (by decide) (by decide) (by decide)
  obtain ⟨J', first⟩ := tested.arm (j := 1) arm subset_rfl
    (ctx.move tested.agree tested.frame.next rfl rfl fun _ _ => rfl) (by decide) subset_rfl
  obtain ⟨J'', second⟩ := first.arm (j := 1) els subset_rfl
    (ctx.move first.agree first.frame.next first.scopes first.targets fun _ _ => rfl) (by decide) subset_rfl
  exact ⟨J'', second.lands rfl⟩

theorem do_follows (e : Nat) (body : Follows lower B true true) :
    Follows (doStmt lower e) (Loop ∅ True (followed [.eval e] B)) breaks continues := by
  intro J fl K inv ctx
  let next := Fut (Loop ∅ True (followed [.eval e] B)) K ∪ K .normal
  let X : Table := fun
    | 0 => Fut B (inLoop (led [.eval e] next) (K .normal) K)
    | 1 => led [.eval e] next
    | _ => K .normal
  have pass : X 0 ⊆ Fut (Loop ∅ True (followed [.eval e] B)) K := by
    intro w mem
    refine fut_loop_pass next ?_ ?_
    · intro r more
      obtain more | more := more
      · exact .inl more
      · exact .inr ⟨trivial, more⟩
    · exact fut_followed mem
  have started := Stage.start_br X 3 inv 0 pass [0, 1, 2] (by decide) (by decide) (by decide)
  obtain ⟨J', inner, eq, looped⟩ := started.loop (j := 1) (k := 2) body subset_rfl ctx.ret (by decide) (by decide)
  have done := looped.block_brIf (j := 0) (k := 2) [.eval e] (by decide) (by decide)
    (fun w mem => ⟨w, .inl (pass mem), rfl⟩) (fun w mem => ⟨w, .inr mem, rfl⟩)
  refine ⟨J', ?_⟩
  have lowered : doStmt lower e fl = (((inner.enter (fl.next + 1)).emitAll [.eval e]).close
      (.brIf (fl.next + 0) (fl.next + 2))).enter (fl.next + 2) := by
    exact (congrArg (fun fl' : Fn => (((fl'.enter (fl.next + 1)).emit (.eval e)).close
      (.brIf fl.next (fl.next + 2))).enter (fl.next + 2)) eq).trans rfl
  rw [lowered]
  exact done.lands rfl

theorem while_follows {c : Cond} (none : c.objs = []) (body : Follows lower B true true) :
    Follows (whileStmt c lower) (Loop {c.events ++ destroys c.objs.reverse} False (lives c.events c.objs B)) breaks continues := by
  intro J fl K inv ctx
  rw [none] at inv
  let again := Fut (Loop {c.events ++ []} False (wrap c.events [] B)) K
  let X : Table := fun
    | 0 => again
    | 1 => Fut B (inLoop again (K .normal) K)
    | _ => K .normal
  have pass : X 1 ⊆ {w | c.events ++ w ∈ X 0} := by
    intro w mem
    refine fut_loop_pass _ (fun r more => .inl more) ?_
    apply fut_wrap
    rw [after_nil]
    exact mem
  have out : X 2 ⊆ {w | c.events ++ w ∈ X 0} := fun w mem => fut_loop_exit (List.append_nil _).symm mem
  have started := Stage.start_br X 3 inv 0 subset_rfl [0, 1, 2] (by decide) (by decide) (by decide)
  cases c with
  | expr e =>
    have tested := started.block_brIf (j := 1) (k := 2) [.eval e] (by decide) (by decide) pass out
    obtain ⟨J', inner, eq, looped⟩ := tested.loop (j := 0) (k := 2) body subset_rfl ctx.ret (by decide) (by decide)
    have lands := looped.lands rfl
    rw [← eq] at lands
    exact ⟨J', lands⟩
  | decl obj =>
    cases obj with
    | some x => cases none
    | none =>
      have tested := (started.block_brIf (j := 1) (k := 2) [] (by decide) (by decide) pass out).rescope ([] :: fl.scopes)
      obtain ⟨J', inner, eq, looped⟩ := tested.loop (j := 0) (k := 2) body subset_rfl ctx.ret (by decide) (by decide)
      have lands := looped.lands rfl
      rw [← eq] at lands
      exact ⟨J', lands.pop⟩

theorem headed_follows (head post : List Event) (tests : Bool) (body : Follows lower B true true) :
    Follows (headed head tests post lower) (Loop {w | tests = true ∧ w = head} False (wrap head [] (followed post B)))
      breaks continues := by
  intro J fl K inv ctx
  let again := Fut (Loop {w | tests = true ∧ w = head} False (wrap head [] (followed post B))) K
  let X : Table := fun
    | 0 => again
    | 1 => Fut B (inLoop (led post again) (K .normal) K)
    | 2 => led post again
    | _ => K .normal
  have pass : X 1 ⊆ {w | head ++ w ∈ X 0} := by
    intro w mem
    refine fut_loop_pass _ (fun r more => .inl more) ?_
    apply fut_wrap
    rw [after_nil]
    exact fut_followed mem
  have started := Stage.start_br X 4 inv 0 subset_rfl [0, 1, 2, 3] (by decide) (by decide) (by decide)
  have tested : Stage J X fl 4 [1, 2, 3] (extend J fl.next X)
      ((((fl.alloc 4).close (.br fl.next)).enter fl.next |>.emitAll head).close
        (if tests then .brIf (fl.next + 1) (fl.next + 3) else .br (fl.next + 1))) fl.scopes := by
    cases tests with
    | false => exact started.block_br (j := 1) head (by decide) pass
    | true =>
      exact started.block_brIf (j := 1) (k := 3) head (by decide) (by decide) pass
        fun w mem => fut_loop_exit ⟨rfl, rfl⟩ mem
  obtain ⟨J', inner, eq, looped⟩ := tested.loop (j := 2) (k := 3) body subset_rfl ctx.ret (by decide) (by decide)
  have done := looped.block_br (j := 0) post (by decide) fun w mem => ⟨w, mem, rfl⟩
  refine ⟨J', ?_⟩
  have lowered : headed head tests post lower fl =
      (((inner.enter (fl.next + 2)).emitAll post).close (.br fl.next)).enter (fl.next + 3) :=
    (congrArg (fun fl' : Fn => (((fl'.enter (fl.next + 2)).emitAll post).close (.br fl.next)).enter (fl.next + 3)) eq).trans rfl
  rw [lowered]
  exact done.lands rfl

theorem wrap_nil : wrap [] [] B = B := by
  funext w o
  apply propext
  constructor
  · rintro ⟨t, did, rfl⟩
    rwa [List.append_nil, List.nil_append]
  · intro did
    exact ⟨w, did, by rw [List.append_nil, List.nil_append]⟩

theorem followed_nil : followed [] B = B := by
  funext w o
  apply propext
  constructor
  · rintro ⟨t, did, ⟨-, rfl⟩ | ⟨-, rfl⟩⟩
    · rwa [List.append_nil]
    · exact did
  · intro did
    refine ⟨w, did, ?_⟩
    rw [List.append_nil]
    exact (Classical.em o.goesOn).imp (⟨·, rfl⟩) (⟨·, rfl⟩)

/-! ### Switches -/

theorem fut_when {p : Prop} {w : List Event} (holds : p) (mem : w ∈ Fut B K) : w ∈ Fut (when p B) K := by
  obtain ⟨t, o, r, did, mem, eq⟩ := mem
  exact ⟨t, o, r, ⟨holds, did⟩, mem, eq⟩

/-- What declares nothing may as well stand before the rest as on its own. -/
theorem fut_sequel {s : Stmt} {rest : Beh Event} {w : List Event} (none : s.objs = [])
    (mem : w ∈ Fut (runs s) (thenOn (Fut rest K) K)) : w ∈ Fut (sequel s (runs s) rest) K := by
  cases s with
  | simple d =>
    obtain ⟨-, o, r, ⟨t, ⟨rfl, rfl⟩, rfl⟩, mem, rfl⟩ := mem
    have none : d.objs = [] := none
    simp only [none, List.reverse_nil, destroys, List.map_nil, List.append_nil]
    apply fut_wrap
    rw [none]
    rw [show destroys ([] : List Obj).reverse = [] from rfl, after_nil]
    exact mem
  | _ => exact fut_seq mem

theorem tests_within {groups : List (List Label)} {body t : Nat} (mem : t ∈ tests groups body) :
    ∃ i < groups.length, t = body + i := by
  induction groups generalizing body with
  | nil => cases mem
  | cons g groups ih =>
    obtain here | there := List.mem_append.1 mem
    · exact ⟨0, Nat.zero_lt_succ _, List.eq_of_mem_replicate here⟩
    · obtain ⟨i, bound, eq⟩ := ih there
      exact ⟨i + 1, Nat.succ_lt_succ bound, by omega⟩

theorem defaultBody_cases (groups : List (List Label)) (body exit : Nat) :
    (defaultBody groups body exit = exit ∧ ∀ g ∈ groups, .dflt ∉ g) ∨
      ∃ i < groups.length, defaultBody groups body exit = body + i := by
  induction groups generalizing body exit with
  | nil => exact .inl ⟨rfl, by simp⟩
  | cons g groups ih =>
    obtain ⟨eq, none⟩ | ⟨i, bound, eq⟩ := ih (body + 1) (if .dflt ∈ g then body else exit)
    · by_cases has : .dflt ∈ g
      · exact .inr ⟨0, Nat.zero_lt_succ _, by rw [defaultBody, eq, if_pos has]; rfl⟩
      · refine .inl ⟨by rw [defaultBody, eq, if_neg has], ?_⟩
        intro g' mem
        obtain rfl | mem := List.mem_cons.1 mem
        · exact has
        · exact none g' mem
    · exact .inr ⟨i + 1, Nat.succ_lt_succ bound, by rw [defaultBody, eq]; omega⟩

/-- From `fl` to `fl'` within a switch, whose blocks were taken after `base`. -/
structure Carries (base : Graph Event) (J : Table) (fl : Fn) (J' : Table) (fl' : Fn) (P : Set (List Event)) : Prop where
  agree : ∀ l < fl.next, J' l = J l
  inv : Inv J' fl'.toGraph P
  frame : Frame base fl'.toGraph
  next : fl.next ≤ fl'.next
  scopes : fl'.scopes = fl.scopes
  targets : fl'.targets = fl.targets

/-- The dispatch: whatever is compared, control comes to one of the bodies or goes on. -/
theorem tests_lands {D : Set (List Event)} {base : Graph Event} : ∀ (ts : List Nat) (fl : Fn), Inv J fl.toGraph D →
    Frame base fl.toGraph → (∀ t ∈ ts, t < fl.next ∧ J t ⊆ D) → (∀ l, fl.next ≤ l → J l = D) →
      Carries base J fl J (ts.foldl test fl) D
  | [], fl, inv, frame, _, _ => ⟨fun _ _ => rfl, inv, frame, Nat.le_refl _, rfl, rfl⟩
  | t :: ts, fl, inv, frame, known, rest => by
    have next : (test fl t).next = fl.next + 1 := Graph.close_next (fl.toGraph.alloc 1) _
    have compared : Inv J (test fl t).toGraph (J fl.next) := by
      apply Inv.enter (P := ∅)
      · apply (inv.alloc 1).brIf
        · exact Nat.lt_succ_of_lt (known t List.mem_cons_self).1
        · exact Nat.lt_succ_self _
        · exact (known t List.mem_cons_self).2
        · exact (rest _ (Nat.le_refl _)).le
      · exact next.ge
      · exact inv.blank _ _ (Nat.le_refl _)
    rw [rest _ (Nat.le_refl _)] at compared
    have carried := tests_lands ts (test fl t) compared (((frame.alloc 1).close _).enter frame.next)
      (fun t' mem => ⟨by have := (known t' (List.mem_cons_of_mem _ mem)).1; omega, (known t' (List.mem_cons_of_mem _ mem)).2⟩)
      (fun l above => rest l (by omega))
    exact { carried with
      agree := fun _ _ => rfl
      next := by have := carried.next; rw [List.foldl_cons]; omega }

/-- What comes at the start of each group. -/
def futures (K : Cont) : Items → List (Set (List Event))
  | .nil => []
  | .cons labels s rest =>
    if labels = [] then futures K rest else Fut (runsItems (.cons labels s rest) true) K :: futures K rest

theorem futures_length (K : Cont) : ∀ items, (futures K items).length = (caseGroups items).length
  | .nil => rfl
  | .cons labels s rest => by
    rw [futures, caseGroups]
    split
    · exact futures_length K rest
    · exact congrArg (· + 1) (futures_length K rest)

/-- The dispatch may go to each group. -/
theorem futures_entered {F : Set (List Event)} : ∀ items, F ∈ futures K items → F ⊆ Fut (runsItems items false) K
  | .cons labels s rest, mem => by
    rw [futures] at mem
    have later : F ∈ futures K rest → F ⊆ Fut (runsItems (.cons labels s rest) false) K :=
      fun mem w wmem => fut_right (fut_when rfl (futures_entered rest mem wmem))
    split at mem
    · exact later mem
    · rename_i labelled
      obtain rfl | mem := List.mem_cons.1 mem
      · intro w wmem
        obtain ⟨t, o, r, ⟨-, did⟩ | ⟨absurd, -⟩, mem, eq⟩ := wmem
        · exact ⟨t, o, r, .inl ⟨.inr labelled, did⟩, mem, eq⟩
        · cases absurd
      · exact later mem

/-- Every statement of a switch body is followed and declares nothing in it. -/
def FollowsItems (continues : Bool) : Items → Prop
  | .nil => True
  | .cons _ s rest => (s.objs = [] ∧ Follows (stmt s) (runs s) true continues) ∧ FollowsItems continues rest

/-- The bodies, from an open block. `base` is the graph before the bodies' blocks were taken. -/
theorem caseBodies_lands {base : Graph Event} : ∀ (items : Items) (J : Table) (fl : Fn) (body : Nat),
    FollowsItems continues items → Inv J fl.toGraph (Fut (runsItems items true) K) → Ctx J fl true continues K →
    Frame base fl.toGraph → base.next ≤ body → body + (futures K items).length ≤ fl.next →
    (∀ i < (futures K items).length, fl.code (body + i) = {} ∧ fl.blk ≠ some (body + i)) →
    (∀ i (bound : i < (futures K items).length), J (body + i) = (futures K items)[i]) →
      ∃ J', Carries base J fl J' (caseBodies items body fl) (K .normal)
  | .nil, J, fl, body, _, inv, _, frame, _, _, _, _ =>
    ⟨J, fun _ _ => rfl, inv.mono fun w mem => fut_when rfl (fut_just mem), frame, Nat.le_refl _, rfl, rfl⟩
  | .cons labels s rest, J, fl, body, follows, inv, ctx, frame, new, room, blank, ready => by
    -- the statement from where control is in it, before the groups from `next` on
    have step : ∀ (here : Fn) (next : Nat), here.next = fl.next → here.scopes = fl.scopes → here.targets = fl.targets →
        Inv J here.toGraph (Fut (runsItems (.cons labels s rest) true) K) → Frame base here.toGraph → base.next ≤ next →
        next + (futures K rest).length ≤ fl.next →
        (∀ i < (futures K rest).length, here.code (next + i) = {} ∧ here.blk ≠ some (next + i)) →
        (∀ i (bound : i < (futures K rest).length), J (next + i) = (futures K rest)[i]) →
          ∃ J', Carries base J fl J' (caseBodies rest next (stmt s here)) (K .normal) := by
      intro here next same scopes targets inv frame new room blank ready
      have ctx : Ctx J here true continues K := ctx.move (fun _ _ => rfl) same.ge scopes targets fun _ _ => rfl
      obtain ⟨J₁, lands⟩ := follows.1.2 J here (thenOn (Fut (runsItems rest true) K) K)
        (inv.mono fun w mem => fut_left (fut_when (.inl rfl) (fut_sequel follows.1.1 mem)))
        (ctx.move (fun _ _ => rfl) (Nat.le_refl _) rfl rfl fun o other => by cases o <;> first | rfl | contradiction)
      have more := lands.frame.next
      have fresh : ∀ i < (futures K rest).length,
          (stmt s here).code (next + i) = {} ∧ (stmt s here).blk ≠ some (next + i) := by
        intro i bound
        obtain ⟨code, blk⟩ := blank i bound
        refine ⟨(lands.frame.code _ (by omega) blk).trans code, fun cur => blk ?_⟩
        exact lands.frame.blk _ (by omega) cur
      obtain ⟨J₂, carried⟩ := caseBodies_lands rest J₁ (stmt s here) next follows.2 lands.inv
        (ctx.move lands.agree lands.frame.next lands.scopes lands.targets fun _ _ => rfl) (frame.trans lands.frame) new
        (by omega) fresh fun i bound => (lands.agree _ (by omega)).trans (ready i bound)
      refine ⟨J₂, ?_, carried.inv, carried.frame, ?_, ?_, ?_⟩
      · intro l below
        rw [carried.agree l (by omega), lands.agree l (by omega)]
      · have := carried.next
        omega
      · rw [carried.scopes, lands.scopes, scopes]
      · rw [carried.targets, lands.targets, targets]
    rw [caseBodies]
    by_cases unlabelled : labels = []
    · rw [futures, if_pos unlabelled] at room blank ready
      simp only [if_pos unlabelled]
      exact step fl body rfl rfl rfl inv frame new room blank ready
    · rw [futures, if_neg unlabelled, List.length_cons] at room blank
      simp only [futures, if_neg unlabelled] at ready
      simp only [if_neg unlabelled]
      have starts : J body = Fut (runsItems (.cons labels s rest) true) K := ready 0 (Nat.zero_lt_succ _)
      obtain ⟨code, blk⟩ := blank 0 (Nat.zero_lt_succ _)
      have closed : Inv J (fl.toGraph.close (.br body)) ∅ := inv.br (by omega) starts.le
      apply step ((fl.close (.br body)).enter body) (body + 1) (Graph.close_next ..) rfl rfl
      · rw [← starts]
        exact closed.enter (by rw [Graph.close_next]; omega) ((Graph.close_code_of_ne blk).trans code)
      · exact (frame.close _).enter new
      · omega
      · omega
      · intro i bound
        obtain ⟨code, blk⟩ := blank (i + 1) (Nat.succ_lt_succ bound)
        rw [Nat.add_assoc, Nat.add_comm 1 i]
        refine ⟨(Graph.close_code_of_ne blk).trans code, fun cur => ?_⟩
        have same : body = body + (i + 1) := Option.some.inj cur
        omega
      · intro i bound
        rw [Nat.add_assoc, Nat.add_comm 1 i]
        exact ready (i + 1) (Nat.succ_lt_succ bound)

/-- The entries for a switch's blocks: its exit, its bodies and, from there on, its tests. -/
def switchEntries (bodies : List (Set (List Event))) (exit D : Set (List Event)) : Table := fun
  | 0 => exit
  | i + 1 => bodies.getD i D

theorem switchEntries_body {bodies : List (Set (List Event))} {exit D : Set (List Event)} {n i : Nat}
    (bound : i < bodies.length) : extend J n (switchEntries bodies exit D) (n + 1 + i) = bodies[i] := by
  rw [Nat.add_assoc, Nat.add_comm 1 i, extend_add]
  simp [switchEntries, bound]

theorem switchEntries_test {bodies : List (Set (List Event))} {exit D : Set (List Event)} {n l : Nat}
    (above : n + 1 + bodies.length ≤ l) : extend J n (switchEntries bodies exit D) l = D := by
  obtain ⟨i, rfl⟩ := Nat.exists_eq_add_of_le above
  rw [show n + 1 + bodies.length + i = n + (bodies.length + i + 1) by omega, extend_add]
  simp [switchEntries]

theorem dispatch_lands {groups : List (List Label)} {bodies : List (Set (List Event))} {exit D : Set (List Event)}
    (length : bodies.length = groups.length) (inv : Inv J fl.toGraph D) (goes : ∀ F ∈ bodies, F ⊆ D)
    (skips : (∀ g ∈ groups, .dflt ∉ g) → exit ⊆ D) :
    Carries (fl.alloc (1 + groups.length)).toGraph (extend J fl.next (switchEntries bodies exit D))
      (fl.alloc (1 + groups.length)) (extend J fl.next (switchEntries bodies exit D)) (dispatch groups fl) ∅ := by
  have next : (fl.alloc (1 + groups.length)).next = fl.next + (1 + groups.length) := rfl
  have entered : ∀ i < groups.length, extend J fl.next (switchEntries bodies exit D) (fl.next + 1 + i) ⊆ D := by
    intro i bound
    rw [switchEntries_body (by omega)]
    exact goes _ (List.getElem_mem _)
  have tested := tests_lands (tests groups (fl.next + 1)) (fl.alloc (1 + groups.length))
    ((inv.extend (switchEntries bodies exit D)).alloc _) (.refl _)
    (fun t mem => by
      obtain ⟨i, bound, rfl⟩ := tests_within mem
      exact ⟨by omega, entered i bound⟩)
    (fun l above => switchEntries_test (by omega))
  have more := tested.next
  refine ⟨fun _ _ => rfl, ?_, tested.frame.close _, ?_, tested.scopes, tested.targets⟩
  · obtain ⟨default, none⟩ | ⟨i, bound, default⟩ := defaultBody_cases groups (fl.next + 1) fl.next
    · rw [dispatch, default]
      apply tested.inv.br (by omega)
      rw [extend_self]
      exact skips none
    · rw [dispatch, default]
      exact tested.inv.br (by omega) (entered i bound)
  · exact more.trans (Graph.close_next ..).ge

theorem switchBody_follows {items : Items} (follows : FollowsItems continues items) :
    Follows (switchBody (caseGroups items) (caseBodies items))
      (broken (either (runsItems items false) (when (∀ g ∈ caseGroups items, .dflt ∉ g) (just .normal)))) breaks continues := by
  intro J fl K inv ctx
  obtain ⟨D, hD⟩ : ∃ D, D = Fut (either (runsItems items false) (when (∀ g ∈ caseGroups items, .dflt ∉ g) (just .normal)))
    (inBroken K) := ⟨_, rfl⟩
  replace inv : Inv J fl.toGraph D := inv.mono fun w mem => fut_broken (hD ▸ mem)
  have skips : (∀ g ∈ caseGroups items, .dflt ∉ g) → K .normal ⊆ D := fun none w mem =>
    hD ▸ fut_right (fut_when none (fut_just mem))
  unfold switchBody
  split
  · rename_i empty
    refine ⟨J, fun _ _ => rfl, inv.mono (skips ?_), .refl _, rfl, rfl⟩
    rw [empty]
    simp
  have length := futures_length (inBroken K) items
  have start := dispatch_lands length inv
    (fun F mem => hD ▸ fun w wmem => fut_left (futures_entered items mem wmem)) skips
  have next : (fl.alloc (1 + (caseGroups items).length)).next = fl.next + (1 + (caseGroups items).length) := rfl
  have more := start.next
  have exits : extend J fl.next (switchEntries (futures (inBroken K) items) (K .normal) D) fl.next = K .normal :=
    extend_self ..
  have old : ∀ l < fl.next, extend J fl.next (switchEntries (futures (inBroken K) items) (K .normal) D) l = J l :=
    fun l below => extend_of_lt _ below
  -- seen from before the bodies' blocks, so that the exit stays blank
  have base : Frame (fl.toGraph.alloc 1) (dispatch (caseGroups items) fl).toGraph := by
    apply Frame.trans _ start.frame
    exact ⟨by simp only [alloc, Graph.alloc_next]; omega, fun _ _ _ => rfl, fun _ _ cur => cur⟩
  let inner : Fn := { dispatch (caseGroups items) fl with
    targets := { fl.targets with breakTo := some fl.next, breakDepth := fl.scopes.length } }
  have innerNext : inner.next = (dispatch (caseGroups items) fl).next := rfl
  have innerScopes : inner.scopes = fl.scopes := start.scopes
  have closed : inner.blk = none := Graph.close_blk ..
  have here : unwound inner.scopes fl.scopes.length = [] := by
    rw [innerScopes]
    exact unwound_here _
  have inside : Ctx (extend J fl.next (switchEntries (futures (inBroken K) items) (K .normal) D)) inner true continues
      (inBroken K) := by
    refine { breakDepth := innerScopes ▸ Nat.le_refl _, continueDepth := ?_, ret := ?_, brk := ?_, cont := ?_ }
    · rw [innerScopes]
      exact ctx.continueDepth
    · rw [innerScopes]
      exact ctx.ret
    · refine fun _ => ⟨fl.next, by omega, rfl, ?_⟩
      rw [here, exits]
      exact (led_nil _).le
    · intro may
      obtain ⟨l, below, goes, led⟩ := ctx.cont may
      refine ⟨l, by omega, goes, ?_⟩
      rw [innerScopes, old l below]
      exact led
  obtain ⟨J', done⟩ := caseBodies_lands (K := inBroken K) items _ inner (fl.next + 1) follows
    (start.inv.unreachable closed) inside base (Nat.le_refl _) (by omega)
    (fun i bound => by
      refine ⟨?_, by simp [closed]⟩
      have fresh : fl.code (fl.next + 1 + i) = {} := inv.fresh _ (by omega)
      rw [← fresh]
      apply start.frame.code _ (by omega)
      intro cur
      have taken := inv.taken _ cur
      omega)
    (fun i bound => switchEntries_body bound)
  have later := done.next
  have same : J' fl.next = K .normal := (done.agree fl.next (by omega)).trans exits
  have taken : fl.next < ((caseBodies items (fl.next + 1) inner).toGraph.close (.br fl.next)).next := by
    rw [Graph.close_next]
    omega
  have blank : ((caseBodies items (fl.next + 1) inner).toGraph.close (.br fl.next)).code fl.next = {} := by
    rw [← inv.fresh fl.next (Nat.le_refl _)]
    apply (done.frame.close _).code _ (Nat.lt_succ_self _)
    intro cur
    have taken := inv.taken _ cur
    omega
  refine ⟨J', ?_, ?_, ?_, ?_, rfl⟩
  · intro l below
    rw [done.agree l (by omega), old l below]
  · rw [← same]
    exact ((done.inv.br (Q := ∅) (by omega) same.le).enter taken blank)
  · have alloc : Frame fl.toGraph (fl.toGraph.alloc 1) := (Frame.refl _).alloc 1
    exact ((alloc.trans done.frame).close _).enter (Nat.le_refl _)
  · exact done.scopes.trans innerScopes

theorem Follows.preceded (follows : Follows lower B breaks continues) (events : List Event) :
    Follows (fun fl => lower (fl.opened events fl.scopes)) (wrap events [] B) breaks continues := by
  intro J fl K inv ctx
  have begun := (inv.emitAll events).mono (Q := Fut B K) fun w mem => fut_wrap (by rwa [after_nil])
  obtain ⟨J', lands⟩ := follows J (fl.opened events fl.scopes) K begun
    (ctx.move (fun _ _ => rfl) (opened_next ..).ge rfl rfl fun _ _ => rfl)
  refine ⟨J', ?_, lands.inv, ((Frame.refl fl.toGraph).emitAll events).trans lands.frame, lands.scopes, lands.targets⟩
  rw [← opened_next fl events]
  exact lands.agree

/-! ### Every statement -/

theorem opened_init (init : Simple) (fl : Fn) :
    simple init fl.pushScope = fl.opened init.events (init.objs.reverse :: fl.scopes) := by
  rw [simple_eq init (show fl.pushScope.scopes = [] :: fl.scopes from rfl), List.append_nil]
  rfl

theorem opened_cond (init : Simple) (c : Cond) (fl : Fn) :
    Fn.cond c (simple init fl.pushScope) =
      fl.opened (init.events ++ c.events) ((init.objs ++ c.objs).reverse :: fl.scopes) := by
  rw [opened_init, cond_eq c rfl]
  simp only [Fn.opened, Graph.emitAll_append, List.reverse_append]

theorem opened_range (init : Simple) (range : List Obj) (fl : Fn) :
    rangeObjects (.ofClass range) (simple init fl.pushScope) =
      fl.opened (init.events ++ constructs range) ((init.objs ++ range).reverse :: fl.scopes) := by
  rw [rangeObjects, opened_init, declareLocal_foldl range rfl]
  simp only [Fn.opened, Graph.emitAll_append, List.reverse_append]

theorem opened_switch {init : Simple} (none : init.objs = []) (e : Nat) (fl : Fn) :
    (simple init fl).emit (.eval e) = fl.opened (init.events ++ [.eval e]) fl.scopes := by
  rw [simple_of_no_objs fl none]
  simp only [Fn.opened, Graph.emitAll_append]
  rfl

theorem rangePass_follows (var : Option Obj) (body : Grows lower B breaks continues) :
    Follows (rangePass var lower) (lives (constructs var.toList) var.toList B) breaks continues := by
  have wrapped := body.inScope (constructs var.toList) var.toList
  have same : ∀ fl : Fn, var.toList.foldl declareLocal fl.pushScope =
      fl.opened (constructs var.toList) (var.toList.reverse :: fl.scopes) := by
    intro fl
    rw [declareLocal_foldl var.toList (show fl.pushScope.scopes = [] :: fl.scopes from rfl), List.append_nil]
    rfl
  simp only [← same] at wrapped
  exact wrapped

theorem rangeForStmt_follows (init : Simple) (range : List Obj) (var : Option Obj) (body : Grows lower B true true) :
    Follows (reachable (rangeForStmt init (.ofClass range) var lower))
      (lives (init.events ++ constructs range) (init.objs ++ range)
        (Loop {[]} False (lives (constructs var.toList) var.toList B))) breaks continues := by
  have loops : Follows _ _ breaks continues := headed_follows [] [] true (rangePass_follows var body)
  have wrapped := loops.grows.inScope (init.events ++ constructs range) (init.objs ++ range)
  simp only [← opened_range, ← rangeLoop_eq, followed_nil, wrap_nil, true_and] at wrapped
  exact wrapped.reachable

mutual

/-- **Every statement is followed** that has a scope for each object it declares. -/
theorem follows_stmt : ∀ {breaks continues : Bool} (s : Stmt), Placed s → Jumps breaks continues s → s.objs = [] →
    Follows (stmt s) (runs s) breaks continues
  | _, _, .simple s, _, _, bare => (simple_follows bare).reachable
  | _, _, .compound body, placed, jumps, _ => by
    have wrapped := (follows_stmts body placed jumps).inScope [] []
    rw [show lives [] [] (runsAll body) = runsAll body from wrap_nil] at wrapped
    exact wrapped.reachable
  | _, _, .ifStmt init c arm, ⟨bare, placed⟩, jumps, _ => by
    have wrapped := (branch_follows (follows_stmt arm placed jumps bare)).grows.inScope (init.events ++ c.events)
      (init.objs ++ c.objs)
    simp only [← opened_cond] at wrapped
    exact wrapped.reachable
  | _, _, .ifElse init c arm els, ⟨⟨bare, placed⟩, bare', placed'⟩, ⟨jumps, jumps'⟩, _ => by
    have wrapped := (branchElse_follows (follows_stmt arm placed jumps bare) (follows_stmt els placed' jumps' bare')).grows.inScope
      (init.events ++ c.events) (init.objs ++ c.objs)
    simp only [← opened_cond] at wrapped
    exact wrapped.reachable
  | _, _, .ifConst init taken, placed, jumps, _ => by
    have wrapped := (Grows.sequel (follows_stmt taken placed jumps) .nil).inScope init.events init.objs
    simp only [← opened_init] at wrapped
    exact wrapped.reachable
  | _, _, .whileStmt c body, ⟨bare, bare', placed⟩, jumps, _ =>
    (while_follows bare (follows_stmt body placed jumps bare')).reachable
  | _, _, .doStmt body e, ⟨bare, placed⟩, jumps, _ => (do_follows e (follows_stmt body placed jumps bare)).reachable
  | breaks, continues, .forStmt init c post body, ⟨bare, placed⟩, jumps, _ => by
    have loops : Follows _ _ breaks continues :=
      headed_follows (evals c) (evals post) c.isSome (follows_stmt body placed jumps bare)
    have wrapped := loops.grows.inScope init.events init.objs
    simp only [← opened_init, ← forLoop_eq] at wrapped
    exact wrapped.reachable
  | _, _, .rangeForStmt init (.ofClass range) var body, placed, jumps, _ =>
    rangeForStmt_follows init range var (Grows.sequel (follows_stmt body placed jumps) .nil)
  | _, _, .rangeForStmt init (.ofArray _) var body, ⟨rfl, placed⟩, jumps, _ =>
    rangeForStmt_follows init [] var (Grows.sequel (follows_stmt body placed jumps) .nil)
  | breaks, continues, .switchStmt init e body, ⟨bare, placed⟩, jumps, _ => by
    have switches : Follows _ _ breaks continues := switchBody_follows (follows_items body placed jumps)
    have preceded := switches.preceded (init.events ++ [.eval e])
    simp only [← opened_switch bare] at preceded
    apply Follows.reachable
    rw [runs, bare]
    exact preceded
  | _, _, .breakStmt, _, jumps, _ => by
    cases jumps
    exact break_follows.reachable
  | _, _, .continueStmt, _, jumps, _ => by
    cases jumps
    exact continue_follows.reachable
  | _, _, .returnStmt value, _, _, _ => (return_follows value).reachable

theorem follows_stmts : ∀ {breaks continues : Bool} (body : Stmts), PlacedAll body → JumpsAll breaks continues body →
    Grows (stmts body) (runsAll body) breaks continues
  | _, _, .nil, _, _ => .nil
  | _, _, .cons s rest, ⟨placed, more⟩, ⟨jumps, more'⟩ =>
    Grows.sequel (follows_stmt s placed jumps) (follows_stmts rest more more')

theorem follows_items : ∀ {continues : Bool} (items : Items), PlacedItems items → JumpsItems true continues items →
    FollowsItems continues items
  | _, .nil, _, _ => trivial
  | _, .cons _ s rest, ⟨⟨bare, placed⟩, more⟩, ⟨jumps, more'⟩ =>
    ⟨⟨bare, follows_stmt s placed jumps bare⟩, follows_items rest more more'⟩

end

/-- `for (T p; c; ) { T q; if (d) break; switch (e) { case 1: { T r; continue; } default: } }`. -/
def loopedObjects : Stmts :=
  .cons (.forStmt (.decl [1]) (some 0) none (.compound (.cons (.simple (.decl [2]))
    (.cons (.ifStmt .empty (.expr 1) .breakStmt)
      (.cons (.switchStmt .empty 2 (.cons [.value] (.compound (.cons (.simple (.decl [3])) (.cons .continueStmt .nil)))
        (.cons [.dflt] (.simple .empty) .nil))) .nil))))) .nil

/-- `switch (e) { case 1: T t; }`: the object is put into the scope around the switch. -/
def labelledObject : Stmts := .cons (.switchStmt .empty 0 (.cons [.value] (.simple (.decl [7])) .nil)) .nil

end Vcx.Lower
