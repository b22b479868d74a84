import Vcx.Lower.Catches
import Mathlib.Data.List.Forall2

/-!
# The handlers that are open

Where the lowering stands, the handlers that are open on every path to the current block are those
around the statement. Every statement keeps this (`Keeps`) in the runs in which no jump that is carried
out leaves a handler.
-/

namespace Vcx.Unwind
set_option autoImplicit false
open Vcx.Lib.Landing

variable {ε : Type}

/-! ### The monitor -/

theorem opens_destroy {c : Call} {x : Obj} (isDestroy : c.callee = .destroy x) (hs : List HandlerId) : opens c hs = some hs := by
  unfold opens
  rw [isDestroy]
  simp [Callee.isPoint]

theorem opens_endCatch {c : Call} (isEnd : c.callee = .endCatch) (h : HandlerId) (hs : List HandlerId) :
    opens c (h :: hs) = some hs := by
  unfold opens
  rw [isEnd]

theorem opens_beginCatch {c : Call} {h : HandlerId} (isBegin : c.callee = .beginCatch h) (hs : List HandlerId) :
    opens c hs = some (h :: hs) := by
  unfold opens
  rw [isBegin]

theorem opens_point {c : Call} (isPoint : c.callee.isPoint = true) : opens c (handlersOf c.around) = some (handlersOf c.around) := by
  unfold opens
  split
  · rename_i isBegin
    rw [isBegin] at isPoint
    cases isPoint
  · rename_i isEnd _
    rw [isEnd] at isPoint
    cases isPoint
  · rename_i isEnd _
    rw [isEnd] at isPoint
    cases isPoint
  · simp

@[simp] theorem watch_did (c : Call) (hs : List HandlerId) : watch (ε := ε) hs (.did c) = opens c hs := rfl

@[simp] theorem watch_threw (c : Call) (e : ε) (hs : List HandlerId) : watch hs (.threw c e) = opens c hs := rfl

theorem leaves_nil : Leaves (watch (ε := ε)) [] := ⟨[], rfl, trivial⟩

/-! ### What encloses a statement -/

/-- What is the same at all points of a list of statements: the handlers and try-blocks around
them, and the handlers around what `break` and `continue` lead to. -/
structure Ctx where
  handlers : List HandlerId
  tries : List (List Clause × List HandlerId)
  brk : List HandlerId
  cont : List HandlerId

/-- The point is in the context. -/
structure Stands (around : List Around) (x : Ctx) : Prop where
  handlers : handlersOf around = x.handlers
  tries : triesOf around = x.tries
  brk : breakHandlers around = x.brk
  cont : continueHandlers around = x.cont

/-- Only objects. -/
def Objects (xs : List Around) : Prop := ∀ y ∈ xs, ∃ x, y = .object x

theorem Objects.append {xs ys : List Around} (first : Objects xs) (second : Objects ys) : Objects (xs ++ ys) := by
  intro y mem
  obtain mem | mem := List.mem_append.1 mem
  · exact first y mem
  · exact second y mem

theorem objects_objectOf (x : Option Obj) : Objects (objectOf x) := by
  intro y mem
  obtain ⟨x, -, rfl⟩ := List.mem_map.1 mem
  exact ⟨x, rfl⟩

theorem Decl.objects_declares (d : Decl) : Objects d.declares := by
  unfold Decl.declares
  intro y mem
  split at mem <;> simp_all

theorem objects_declared (ds : List Decl) : Objects (declared ds) := by
  intro y mem
  rw [declared, List.mem_reverse, List.mem_flatten] at mem
  obtain ⟨l, isDecl, mem⟩ := mem
  obtain ⟨d, -, rfl⟩ := List.mem_map.1 isDecl
  exact d.objects_declares y mem

theorem Simple.objects_declares (s : Simple) : Objects s.declares := by
  cases s with
  | expr e =>
    intro y mem
    cases mem
  | decl ds => exact objects_declared ds

theorem Cond.objects_declares (c : Cond) : Objects c.declares := by
  cases c with
  | expr e =>
    intro y mem
    cases mem
  | decl d => exact d.objects_declares

theorem objects_initDeclares (init : Option Simple) : Objects (initDeclares init) := by
  cases init with
  | none =>
    intro y mem
    cases mem
  | some s => exact s.objects_declares

theorem Stmt.objects_declares (s : Stmt) : Objects s.declares := by
  induction s using Stmt.declares.induct with
  | case1 s => exact s.objects_declares
  | case2 name s ih => exact ih
  | case3 s other other' =>
    intro y mem
    unfold Stmt.declares at mem
    split at mem
    · exact absurd rfl (other _)
    · exact absurd rfl (other' _ _)
    · cases mem

theorem objects_rangeDeclares (proto : Option Protocol) : Objects (Fn.rangeDeclares proto) := by
  unfold Fn.rangeDeclares
  split
  · rename_i p
    apply Objects.append _ (objects_objectOf _)
    intro y mem
    rw [Fn.itersDeclare, List.mem_reverse, List.mem_flatten] at mem
    obtain ⟨l, isIter, mem⟩ := mem
    obtain ⟨it, -, rfl⟩ := List.mem_map.1 isIter
    exact objects_objectOf _ y mem
  · intro y mem
    cases mem

theorem Stands.declares {around xs : List Around} {x : Ctx} (stands : Stands around x) (objects : Objects xs) :
    Stands (xs ++ around) x := by
  induction xs with
  | nil => exact stands
  | cons y xs ih =>
    obtain ⟨o, rfl⟩ := objects y List.mem_cons_self
    have inner := ih fun y mem => objects y (List.mem_cons_of_mem _ mem)
    exact ⟨inner.handlers, inner.tries, inner.brk, inner.cont⟩

/-- A try-block stands in some of the handlers around a point in it. -/
theorem nil_of_mem_triesOf {around : List Around} (none : handlersOf around = []) :
    ∀ p ∈ triesOf around, p.2 = [] := by
  induction around with
  | nil =>
    intro p mem
    cases mem
  | cons a around ih =>
    cases a with
    | object x => exact ih none
    | loop => exact ih none
    | switch => exact ih none
    | handler h => cases none
    | tryBlock t clauses =>
      intro p mem
      obtain rfl | mem := List.mem_cons.1 mem
      · exact none
      · exact ih none p mem

/-- What holds an exception: the innermost try-block, in the same handlers, or a clean-up. -/
theorem Held.cases {catches : TypeInfo → ε → Bool} {e : ε} {live : Bool} {around : List Around}
    (held : Held catches e live around) :
    (∃ clauses outer, triesOf around = (clauses, handlersOf around) :: outer ∧ clauses.any (answers catches e) = true) ∨
      (triesOf around = [] ∧ live = true) := by
  induction around with
  | nil => cases held
  | cons a around ih =>
    cases a with
    | object x => exact ih held
    | loop => exact ih held
    | switch => exact ih held
    | handler h => exact .inr ⟨held.2, held.1⟩
    | tryBlock t clauses => exact .inl ⟨clauses, _, rfl, held⟩

theorem entered_catches {catches : TypeInfo → ε → Bool} {clauses : List Clause} {e : ε} {sel : Nat}
    (enters : entered catches (.catches clauses) e = some sel) : 1 ≤ sel ∧ sel ≤ clauses.length := by
  simp only [entered, Option.map_eq_some_iff] at enters
  obtain ⟨i, found, rfl⟩ := enters
  have below := (List.findIdx?_eq_some_iff_findIdx_eq.1 found).1
  omega

theorem entered_of_any {catches : TypeInfo → ε → Bool} {clauses : List Clause} {e : ε}
    (any : clauses.any (answers catches e) = true) : ∃ sel, entered catches (.catches clauses) e = some sel := by
  obtain ⟨c, mem, answers⟩ := List.any_eq_true.1 any
  cases found : clauses.findIdx? (Unwind.answers catches e) with
  | none => exact absurd answers (by simp [List.findIdx?_eq_none_iff.1 found c mem])
  | some i => exact ⟨i + 1, by simp [entered, found]⟩

/-! ### Where the lowering stands -/

variable (catches : TypeInfo → ε → Bool) (env : Nat → List HandlerId)

/-- The runtime of the runs in which no jump leaves a handler and every exception in a handler is held. -/
def heldRuntime : Runtime Call Clauses ε := (itanium catches).restrict (Stays env) (Ends catches)

abbrev Table := Nat → List HandlerId → Nat → Prop

/-- The assertion that just these handlers are open. -/
def Open (hs : List HandlerId) : List HandlerId → Nat → Prop := fun s _ => s = hs

/-- The same, where one of the first `k` handlers has been selected. -/
def Chooses (hs : List HandlerId) (k : Nat) : List HandlerId → Nat → Prop := fun s sel => s = hs ∧ 1 ≤ sel ∧ sel ≤ k

abbrev Sound (J : Table) (fl : Fn) (P : List HandlerId → Nat → Prop) : Prop :=
  Inv (heldRuntime catches env) watch J fl.toGraph P

/-- The blocks that a label has yet to write to. -/
def LabelState.tokens (l : LabelState) : List Nat := (if l.depth = none then [l.blk] else []) ++ l.pending.map (·.1)

structure TryReady (J : Table) (next : Nat) (p : List Clause × List HandlerId) (t : TryFrame) : Prop where
  clauses : t.clauses = p.1
  taken : t.dispatch < next
  table : J t.dispatch = Chooses p.2 p.1.length

structure LabelReady (J : Table) (next : Nat) (hs : List HandlerId) (l : LabelState) : Prop where
  taken : l.blk < next
  table : J l.blk = Open hs
  pending : ∀ q ∈ l.pending, J q.1 = Open hs
  nodup : l.tokens.Nodup

/-- The blocks that wait to be written: those in `U` and the labels'. -/
def Owned (U : Set Nat) (fl : Fn) (m : Nat) : Prop := m ∈ U ∨ ∃ name l, fl.labels name = some l ∧ m ∈ l.tokens

/-- The lowering stands in the context `x`: the table has for each target what is open there, and
the blocks of `U` and those of the labels wait. -/
structure Ready (x : Ctx) (U : Set Nat) (J : Table) (fl : Fn) : Prop where
  breakTo : ∀ l, fl.targets.breakTo = some l → l < fl.next ∧ J l = Open x.brk
  continueTo : ∀ l, fl.targets.continueTo = some l → l < fl.next ∧ J l = Open x.cont
  tries : List.Forall₂ (TryReady J fl.next) x.tries fl.tries
  labels : ∀ name l, fl.labels name = some l → LabelReady J fl.next (env name) l
  apart : ∀ name name' l l', fl.labels name = some l → fl.labels name' = some l' → ∀ m ∈ l.tokens, m ∈ l'.tokens → name = name'
  outside : ∀ name l, fl.labels name = some l → ∀ m ∈ l.tokens, m ∉ U
  waits : ∀ m, Owned U fl m → fl.Waits m

/-- More labels are taken, and the table of the old ones is the same. -/
structure Grows (n : Nat) (J : Table) (n' : Nat) (J' : Table) : Prop where
  next : n ≤ n'
  same : ∀ l < n, J' l = J l

variable {catches} {env} {x : Ctx} {U V : Set Nat} {J J' : Table} {fl fl' : Fn} {P : List HandlerId → Nat → Prop}

theorem Grows.refl (n : Nat) (J : Table) : Grows n J n J := ⟨Nat.le_refl _, fun _ _ => rfl⟩

theorem Grows.trans {n n' n'' : Nat} {J'' : Table} (first : Grows n J n' J') (second : Grows n' J' n'' J'') :
    Grows n J n'' J'' where
  next := Nat.le_trans first.next second.next
  same l below := by rw [second.same l (Nat.lt_of_lt_of_le below first.next), first.same l below]

theorem Grows.extend {n n' : Nat} (J : Table) (count : Nat) (X : Nat → List HandlerId → Nat → Prop) (le : n + count ≤ n') :
    Grows n J n' (extend J n X) := ⟨by omega, fun _ below => extend_of_lt X below⟩

theorem TryReady.grow {p : List Clause × List HandlerId} {t : TryFrame} (ready : TryReady J fl.next p t)
    (grows : Grows fl.next J fl'.next J') : TryReady J' fl'.next p t :=
  ⟨ready.clauses, Nat.lt_of_lt_of_le ready.taken grows.next, by rw [grows.same _ ready.taken, ready.table]⟩

namespace Ready

/-- Where the graph grows and what is owned still waits, the lowering stands as it did. -/
theorem regraph (ready : Ready env x U J fl) (targets : fl'.targets = fl.targets) (tries : fl'.tries = fl.tries)
    (labels : fl'.labels = fl.labels) (grows : Grows fl.next J fl'.next J') (less : V ⊆ U)
    (waits : ∀ m, Owned V fl m → fl.Waits m → fl'.Waits m) : Ready env x V J' fl' where
  breakTo l is := by
    rw [targets] at is
    obtain ⟨below, table⟩ := ready.breakTo l is
    exact ⟨Nat.lt_of_lt_of_le below grows.next, by rw [grows.same l below, table]⟩
  continueTo l is := by
    rw [targets] at is
    obtain ⟨below, table⟩ := ready.continueTo l is
    exact ⟨Nat.lt_of_lt_of_le below grows.next, by rw [grows.same l below, table]⟩
  tries := by
    rw [tries]
    exact ready.tries.imp fun _ _ ready => ready.grow grows
  labels name l is := by
    rw [labels] at is
    have old := ready.labels name l is
    refine ⟨Nat.lt_of_lt_of_le old.taken grows.next, by rw [grows.same _ old.taken, old.table], fun q mem => ?_, old.nodup⟩
    have token : q.1 ∈ l.tokens := List.mem_append_right _ (List.mem_map_of_mem mem)
    rw [grows.same _ (ready.waits q.1 (.inr ⟨name, l, is, token⟩)).taken]
    exact old.pending q mem
  apart := by
    rw [labels]
    exact ready.apart
  outside name l is m mem inV := by
    rw [labels] at is
    exact ready.outside name l is m mem (less inV)
  waits m owned := by
    have owned' : Owned V fl m := by
      rw [Owned, labels] at owned
      exact owned
    apply waits m owned'
    apply ready.waits
    exact owned'.imp (fun mem => less mem) id

/-- Taking labels: those among them in `V` wait. -/
theorem alloc (ready : Ready env x U J fl) (sound : Sound catches env J fl P) (count : Nat) (X : Nat → List HandlerId → Nat → Prop)
    (new : ∀ m ∈ V, m ∈ U ∨ fl.next ≤ m ∧ m < fl.next + count) :
    Ready env x V (extend J fl.next X) (fl.alloc count) where
  breakTo l is := by
    obtain ⟨below, table⟩ := ready.breakTo l is
    exact ⟨Nat.lt_of_lt_of_le below (Nat.le_add_right ..), by rw [extend_of_lt X below, table]⟩
  continueTo l is := by
    obtain ⟨below, table⟩ := ready.continueTo l is
    exact ⟨Nat.lt_of_lt_of_le below (Nat.le_add_right ..), by rw [extend_of_lt X below, table]⟩
  tries := ready.tries.imp fun _ _ ready => ready.grow (Grows.extend J count X (Nat.le_refl _))
  labels name l is := by
    have old := ready.labels name l is
    refine ⟨Nat.lt_of_lt_of_le old.taken (Nat.le_add_right ..), by rw [extend_of_lt X old.taken, old.table], fun q mem => ?_, old.nodup⟩
    have token : q.1 ∈ l.tokens := List.mem_append_right _ (List.mem_map_of_mem mem)
    rw [extend_of_lt X (ready.waits q.1 (.inr ⟨name, l, is, token⟩)).taken]
    exact old.pending q mem
  apart := ready.apart
  outside name l is m mem inV := by
    obtain inU | ⟨above, -⟩ := new m inV
    · exact ready.outside name l is m mem inU
    · have taken := (ready.waits m (.inr ⟨name, l, is, mem⟩)).taken
      omega
  waits m owned := by
    obtain inV | token := owned
    · obtain inU | ⟨above, below⟩ := new m inV
      · exact (ready.waits m (.inl inU)).alloc count
      · exact sound.waits above below
    · exact (ready.waits m (.inr token)).alloc count

theorem close (ready : Ready env x U J fl) (t : Lib.Landing.Term Call Clauses) : Ready env x U J (fl.close t) :=
  ready.regraph rfl rfl rfl ⟨Nat.le_of_eq (Graph.close_next ..).symm, fun _ _ => rfl⟩ (fun _ mem => mem)
    fun _ _ waits => waits.close t

theorem plain (ready : Ready env x U J fl) (around : List Around) (callee : Callee) : Ready env x U J (fl.plain around callee) :=
  ready.regraph rfl rfl rfl ⟨Nat.le_of_eq (Graph.emit_next ..).symm, fun _ _ => rfl⟩ (fun _ mem => mem)
    fun _ _ waits => waits.emit _

/-- Going on at a block that waited. -/
theorem enter {l : Nat} (ready : Ready env x (insert l U) J fl) (out : l ∉ U) : Ready env x U J (fl.enter l) :=
  ready.regraph rfl rfl rfl ⟨Nat.le_refl _, fun _ _ => rfl⟩ (fun _ mem => Set.mem_insert_of_mem _ mem) fun m owned waits => by
    apply waits.enter
    rintro rfl
    obtain mem | ⟨name, st, is, mem⟩ := owned
    · exact out mem
    · exact ready.outside name st is m mem (Set.mem_insert ..)

end Ready

/-! ### Calls -/

open Fn

/-- What a call throws is watched to its end, or to the block that chooses a handler. -/
def Unwinds (catches : TypeInfo → ε → Bool) (env : Nat → List HandlerId) (J : Table) (fl : Fn) (around : List Around) (callee : Callee)
    (hs : List HandlerId) : Prop :=
  ∀ e, (heldRuntime catches env).throws (fl.call around callee) e → Lets watch hs (.threw (fl.call around callee) e) fun s =>
    match fl.unwindPad around with
    | none => Leaves (watch (ε := ε)) s
    | some pad =>
      match entered catches pad.clauses e with
      | none => Leaves (watch (ε := ε)) s
      | some sel => wpPad (watch (ε := ε)) (wpExit (watch (ε := ε)) J pad.exit sel) pad.ops s

/-- The block that a pad leads to is an open try's. -/
theorem unwindPad_exit (ready : Ready env x U J fl) {around : List Around} {pad : Pad} (isPad : fl.unwindPad around = some pad)
    {d : Nat} (exit : pad.exit = some d) : d < fl.next := by
  have tries := ready.tries
  unfold unwindPad at isPad
  split at isPad
  · rename_i t outer isTries
    cases isPad
    cases exit
    rw [isTries] at tries
    obtain ⟨p, outer', try_, -, -⟩ := List.forall₂_cons_right_iff.1 tries
    exact try_.taken
  · split at isPad
    · cases isPad
      cases exit
    · cases isPad

theorem emitCall_rule {around : List Around} {callee : Callee} {hs hs' : List HandlerId} (ready : Ready env x U J fl)
    (sound : Sound catches env J fl (Open hs)) (did : opens (fl.call around callee) hs = some hs')
    (unwinds : Unwinds catches env J fl around callee hs) :
    ∃ J', Grows fl.next J (emitCall around callee fl).next J' ∧ Ready env x U J' (emitCall around callee fl) ∧
      Sound catches env J' (emitCall around callee fl) (Open hs') := by
  unfold emitCall
  split
  · rename_i none
    exact ⟨J, .refl fl.next J, ready, sound.unreachable none⟩
  split
  · rename_i noPad
    refine ⟨J, ⟨Nat.le_of_eq (Graph.emit_next ..).symm, fun _ _ => rfl⟩, ready.plain around callee, ?_⟩
    apply Inv.emit sound
    rintro s sel rfl
    refine ⟨fun _ => ⟨hs', did, rfl⟩, fun e throws => ?_⟩
    have lets := unwinds e throws
    rwa [noPad] at lets
  · rename_i pad isPad
    let X : Nat → List HandlerId → Nat → Prop := fun _ => Open hs'
    have outside : fl.next ∉ U := fun mem => Nat.lt_irrefl _ (ready.waits _ (.inl mem)).taken
    have taken : Ready env x (insert fl.next U) (extend J fl.next X) ((fl.alloc 1).close (.invoke (fl.call around callee) fl.next pad)) := by
      apply Ready.close
      apply ready.alloc sound
      rintro m (rfl | mem)
      · exact .inr ⟨Nat.le_refl _, Nat.lt_succ_self _⟩
      · exact .inl mem
    have closed : Sound catches env (extend J fl.next X) ((fl.alloc 1).close (.invoke (fl.call around callee) fl.next pad)) (Open hs') := by
      apply (Inv.extend sound 1 X).close
      · intro m succ
        obtain rfl | succ := List.mem_cons.1 succ
        · exact Nat.lt_succ_self _
        · exact Nat.lt_succ_of_lt (unwindPad_exit ready isPad (Option.mem_toList.1 succ))
      · rintro s sel rfl
        refine ⟨fun _ => ⟨hs', did, by rw [extend_self]; rfl⟩, fun e throws => (unwinds e throws).mono fun s lets => ?_⟩
        rw [isPad] at lets
        dsimp only at lets ⊢
        split at lets
        · rename_i none
          simp only [heldRuntime, itanium, Runtime.restrict, none]
          exact lets
        · rename_i sel' enters
          simp only [heldRuntime, itanium, Runtime.restrict, enters]
          apply wpPad_mono _ lets
          intro s exit
          unfold wpExit at exit ⊢
          split at exit
          · exact exit
          · rename_i isExit
            rwa [extend_of_lt X (unwindPad_exit ready isPad isExit)]
    refine ⟨extend J fl.next X, Grows.extend J 1 X ?_, taken.enter outside, ?_⟩
    · exact Nat.le_of_eq (Graph.close_next (fl.alloc 1).toGraph _).symm
    · have entered := Inv.enter closed (Graph.close_blk ..) (taken.waits fl.next (.inl (Set.mem_insert ..)))
      rwa [extend_self] at entered

/-- Destructors in a pad open and end nothing. -/
theorem wpPad_destroys {Q : List HandlerId → Prop} (fl : Fn) (around : List Around) (objs : List Obj) {hs : List HandlerId}
    (holds : Q hs) : wpPad (watch (ε := ε)) Q (fl.destroys around objs) hs := by
  induction objs with
  | nil => exact holds
  | cons x objs ih => exact ⟨hs, opens_destroy (c := fl.call around (.destroy x)) rfl hs, ih⟩

/-- A clean-up ends all open handlers. -/
theorem wpPad_ends {Q : List HandlerId → Prop} (fl : Fn) (around : List Around) (hs : List HandlerId) (holds : Q []) :
    wpPad (watch (ε := ε)) Q (hs.map fun _ => fl.call around .endCatch) hs := by
  induction hs with
  | nil => exact holds
  | cons h hs ih => exact ⟨hs, opens_endCatch (c := fl.call around .endCatch) rfl h hs, ih⟩

theorem unwindPad_of_try (ready : Ready env x U J fl) (around : List Around) {p : List Clause × List HandlerId}
    {outer : List (List Clause × List HandlerId)} (tries : x.tries = p :: outer) :
    ∃ t, TryReady J fl.next p t ∧ fl.unwindPad around = some (fl.tryPad around t) := by
  have all := ready.tries
  rw [tries] at all
  obtain ⟨t, outer', try_, -, isTries⟩ := List.forall₂_cons_left_iff.1 all
  exact ⟨t, try_, by simp only [unwindPad, isTries]⟩

theorem unwindPad_of_no_try (ready : Ready env x U J fl) (around : List Around) (tries : x.tries = []) :
    fl.unwindPad around = if fl.hasLiveObjects then some (fl.cleanupPad around) else none := by
  have all := ready.tries
  rw [tries] at all
  have isTries := List.forall₂_nil_left_iff.1 all
  simp only [unwindPad, isTries]

theorem wpPad_tryPad {around : List Around} {hs : List HandlerId} {clauses : List Clause} {t : TryFrame}
    (try_ : TryReady J fl.next (clauses, hs) t) {e : ε} {sel : Nat} (enters : entered catches (.catches clauses) e = some sel) :
    wpPad (watch (ε := ε)) (wpExit (watch (ε := ε)) J (fl.tryPad around t).exit sel) (fl.tryPad around t).ops hs := by
  apply wpPad_destroys
  have inRange := entered_catches enters
  simp only [tryPad, wpExit, try_.table]
  exact ⟨rfl, inRange⟩

theorem wpPad_cleanupPad (around : List Around) {hs : List HandlerId} (ends : fl.catchEnds = hs) (sel : Nat) :
    wpPad (watch (ε := ε)) (wpExit (watch (ε := ε)) J (fl.cleanupPad around).exit sel) (fl.cleanupPad around).ops hs := by
  simp only [cleanupPad]
  apply wpPad_append
  apply wpPad_destroys
  rw [ends]
  apply wpPad_ends
  exact leaves_nil

theorem unwinds {around : List Around} {callee : Callee} (ready : Ready env x U J fl) (stands : Stands around x)
    (ends : fl.catchEnds = x.handlers) (did : opens (fl.call around callee) x.handlers = some x.handlers) :
    Unwinds catches env J fl around callee x.handlers := by
  rintro e ⟨-, held⟩
  refine ⟨x.handlers, did, ?_⟩
  obtain none | ⟨-, -, held⟩ := held
  · -- no handler is open: the function may be left, and the try-blocks stand in none
    have none : x.handlers = [] := stands.handlers.symm.trans none
    cases tries : x.tries with
    | nil =>
      rw [unwindPad_of_no_try ready around tries]
      split
      · rename_i isPad
        split at isPad
        · cases isPad
        · rw [none]
          exact leaves_nil
      · rename_i pad isPad
        split at isPad
        · cases isPad
          exact wpPad_cleanupPad around ends 0
        · cases isPad
    | cons p outer =>
      obtain ⟨t, try_, isPad⟩ := unwindPad_of_try ready around tries
      rw [isPad]
      dsimp only [tryPad]
      rw [try_.clauses]
      split
      · rw [none]
        exact leaves_nil
      · rename_i sel enters
        obtain ⟨clauses, hs⟩ := p
        have outerNone : hs = [] := by
          have around' : handlersOf around = [] := stands.handlers.trans none
          apply nil_of_mem_triesOf around' (clauses, hs)
          rw [stands.tries, tries]
          exact List.mem_cons_self
        subst outerNone
        rw [none]
        exact wpPad_tryPad try_ enters
  · obtain ⟨clauses, outer, tries, any⟩ | ⟨tries, live⟩ := held.cases
    · simp only [Fn.call, stands.tries, stands.handlers] at tries
      obtain ⟨t, try_, isPad⟩ := unwindPad_of_try ready around tries
      obtain ⟨sel, enters⟩ := entered_of_any any
      rw [isPad]
      dsimp only [tryPad]
      rw [try_.clauses, enters]
      exact wpPad_tryPad try_ enters
    · rw [unwindPad_of_no_try ready around (stands.tries.symm.trans tries)]
      have live' : fl.hasLiveObjects = true := live
      rw [if_pos live']
      exact wpPad_cleanupPad around ends 0

/-! ### Pieces of the lowering -/

/-- The lowering stands in `x`, and just the handlers of `x` are open. -/
structure At (catches : TypeInfo → ε → Bool) (env : Nat → List HandlerId) (x : Ctx) (U : Set Nat) (J : Table) (fl : Fn) : Prop where
  ready : Ready env x U J fl
  ends : fl.catchEnds = x.handlers
  sound : Sound catches env J fl (Open x.handlers)

/-- A piece of the lowering after which it stands as before. -/
def Keeps (catches : TypeInfo → ε → Bool) (env : Nat → List HandlerId) (x : Ctx) (f : Fn → Fn) : Prop :=
  ∀ U J fl, At catches env x U J fl → ∃ J', Grows fl.next J (f fl).next J' ∧ At catches env x U J' (f fl)

theorem Keeps.id : Keeps catches env x id := fun _ J fl at_ => ⟨J, .refl fl.next J, at_⟩

theorem Keeps.comp {f g : Fn → Fn} (second : Keeps catches env x g) (first : Keeps catches env x f) :
    Keeps catches env x fun fl => g (f fl) := by
  intro U J fl at_
  obtain ⟨J', grows, at_'⟩ := first U J fl at_
  obtain ⟨J'', grows', at_''⟩ := second U J' (f fl) at_'
  exact ⟨J'', grows.trans grows', at_''⟩

theorem Keeps.reachable {f : Fn → Fn} (keeps : Keeps catches env x f) : Keeps catches env x (reachable f) := by
  intro U J fl at_
  unfold Fn.reachable
  split
  · exact ⟨J, .refl fl.next J, at_⟩
  · exact keeps U J fl at_

/-- The objects that are registered do not matter here. -/
theorem At.rescope (at_ : At catches env x U J fl) (scopes : List (List Obj)) (temps partials : List Obj) :
    At catches env x U J { fl with scopes := scopes, temps := temps, partials := partials } :=
  ⟨⟨at_.ready.breakTo, at_.ready.continueTo, at_.ready.tries, at_.ready.labels, at_.ready.apart, at_.ready.outside,
    fun m owned => at_.ready.waits m owned⟩, at_.ends, at_.sound⟩

theorem keeps_rescope (scopes : Fn → List (List Obj)) (temps partials : Fn → List Obj) :
    Keeps catches env x fun fl => { fl with scopes := scopes fl, temps := temps fl, partials := partials fl } :=
  fun _ J fl at_ => ⟨J, ⟨Nat.le_refl _, fun _ _ => rfl⟩, at_.rescope (scopes fl) (temps fl) (partials fl)⟩

theorem keeps_pushScope : Keeps catches env x pushScope := keeps_rescope (fun fl => [] :: fl.scopes) (·.temps) (·.partials)

theorem keeps_temporary (o : Obj) : Keeps catches env x (temporary o) := keeps_rescope (·.scopes) (fun fl => o :: fl.temps) (·.partials)

theorem keeps_trackPartial (o : Obj) : Keeps catches env x (trackPartial o) :=
  keeps_rescope (·.scopes) (·.temps) (fun fl => o :: fl.partials)

theorem keeps_track (o : Obj) : Keeps catches env x (track o) := by
  intro U J fl at_
  unfold track
  split
  · exact ⟨J, .refl fl.next J, at_⟩
  · rename_i top outer _
    exact ⟨J, ⟨Nat.le_refl _, fun _ _ => rfl⟩, at_.rescope ((o :: top) :: outer) fl.temps fl.partials⟩

theorem keeps_each {f : Obj → Fn → Fn} (keeps : ∀ o, Keeps catches env x (f o)) (objs : List Obj) :
    Keeps catches env x fun fl => objs.foldl (fun fl o => f o fl) fl := by
  induction objs with
  | nil => exact Keeps.id
  | cons o objs ih => exact ih.comp (keeps o)

@[simp] theorem emitCall_catchEnds (around : List Around) (callee : Callee) (fl : Fn) :
    (emitCall around callee fl).catchEnds = fl.catchEnds := by
  unfold emitCall
  split
  · rfl
  · split <;> rfl

section calls
variable {around : List Around} (stands : Stands around x)
include stands

theorem keeps_call {callee : Callee} (did : ∀ fl : Fn, opens (fl.call around callee) x.handlers = some x.handlers) :
    Keeps catches env x (emitCall around callee) := by
  intro U J fl at_
  have unwinds : Unwinds catches env J fl around callee x.handlers := unwinds at_.ready stands at_.ends (did fl)
  obtain ⟨J', grows, ready, sound⟩ := emitCall_rule at_.ready at_.sound (did fl) unwinds
  exact ⟨J', grows, ready, (emitCall_catchEnds ..).trans at_.ends, sound⟩

theorem did_point {callee : Callee} (isPoint : callee.isPoint = true) (fl : Fn) :
    opens (fl.call around callee) x.handlers = some x.handlers := by
  rw [← stands.handlers]
  exact opens_point (c := fl.call around callee) isPoint

theorem keeps_emitCall {callee : Callee} (isPoint : callee.isPoint = true) : Keeps catches env x (emitCall around callee) :=
  keeps_call stands (did_point stands isPoint)

theorem keeps_destroy (o : Obj) : Keeps catches env x (emitCall around (.destroy o)) :=
  keeps_call stands fun fl => opens_destroy (c := fl.call around (.destroy o)) rfl x.handlers

theorem keeps_destroyObjs (objs : Fn → List Obj) : Keeps catches env x fun fl => destroyObjs around (objs fl) fl := by
  intro U J fl at_
  exact keeps_each (fun o => keeps_destroy stands o) (objs fl) U J fl at_

theorem keeps_destroyFrom (depth : Fn → Nat) : Keeps catches env x fun fl => destroyFrom around (depth fl) fl :=
  keeps_destroyObjs stands fun fl => unwound fl.scopes (depth fl)

theorem keeps_popScope : Keeps catches env x (popScope around) := by
  intro U J fl at_
  exact keeps_destroyObjs stands (fun _ => fl.scopes.headD []) U J _ (at_.rescope fl.scopes.tail fl.temps fl.partials)

theorem keeps_endFullExpr : Keeps catches env x (endFullExpr around) := by
  intro U J fl at_
  exact keeps_destroyObjs stands (fun _ => fl.temps) U J _ (at_.rescope fl.scopes [] fl.partials)

theorem keeps_extendTemporary (bound : Option (Obj × Bool)) : Keeps catches env x (extendTemporary around bound) := by
  unfold extendTemporary
  split
  · rename_i o
    intro U J fl at_
    dsimp only
    split
    · exact ((keeps_endFullExpr stands).comp (keeps_track o)) U J _ (at_.rescope fl.scopes (fl.temps.filter (· ≠ o)) fl.partials)
    · exact keeps_endFullExpr stands U J fl at_
  · exact keeps_endFullExpr stands

theorem keeps_plain {callee : Callee} (isPoint : callee.isPoint = true) (quiet : callee.mayThrow = false) :
    Keeps catches env x (plain around callee) := by
  intro U J fl at_
  refine ⟨J, ⟨Nat.le_of_eq (Graph.emit_next ..).symm, fun _ _ => rfl⟩, at_.ready.plain around callee, at_.ends, ?_⟩
  apply Inv.emit at_.sound
  rintro s sel rfl
  refine ⟨fun _ => ⟨x.handlers, did_point stands isPoint fl, rfl⟩, fun e throws => ?_⟩
  have may : callee.mayThrow = true := throws.1
  rw [quiet] at may
  cases may

end calls

/-! ### Blocks -/

/-- A branch, to one block or two. -/
def IsBranch (t : Lib.Landing.Term Call Clauses) : Prop := (∃ l, t = .br l) ∨ ∃ l m, t = .brIf l m

theorem isBranch_br (l : Nat) : IsBranch (.br l) := .inl ⟨l, rfl⟩

theorem isBranch_brIf (l m : Nat) : IsBranch (.brIf l m) := .inr ⟨l, m, rfl⟩

theorem wpTerm_branch {t : Lib.Landing.Term Call Clauses} (branch : IsBranch t) {hs : List HandlerId}
    (table : ∀ m ∈ t.succs, J m = Open hs) (sel : Nat) : wpTerm (heldRuntime catches env) watch J sel t hs := by
  obtain ⟨l, rfl⟩ | ⟨l, m, rfl⟩ := branch
  · rw [wpTerm, table l (.head _)]
    rfl
  · rw [wpTerm, table l (.head _), table m (.tail _ (.head _))]
    exact ⟨rfl, rfl⟩

namespace At

theorem fresh (at_ : At catches env x U J fl) (i : Nat) : fl.next + i ∉ U := by
  intro mem
  have taken := (at_.ready.waits _ (.inl mem)).taken
  omega

theorem alloc (at_ : At catches env x U J fl) (count : Nat) (X : Nat → List HandlerId → Nat → Prop)
    (new : ∀ m ∈ V, m ∈ U ∨ fl.next ≤ m ∧ m < fl.next + count) :
    At catches env x V (extend J fl.next X) (fl.alloc count) :=
  ⟨at_.ready.alloc at_.sound count X new, at_.ends, at_.sound.extend count X⟩

theorem branch (at_ : At catches env x U J fl) {t : Lib.Landing.Term Call Clauses} (isBranch : IsBranch t)
    (taken : ∀ m ∈ t.succs, m < fl.next) (table : ∀ m ∈ t.succs, J m = Open x.handlers) : At catches env x U J (fl.close t) := by
  refine ⟨at_.ready.close t, at_.ends, at_.sound.close taken ?_⟩
  rintro s sel rfl
  exact wpTerm_branch isBranch table sel

/-- A block that ends where nothing more is owed. -/
theorem ends_with (at_ : At catches env x U J fl) {t : Lib.Landing.Term Call Clauses} (none : t.succs = [])
    (holds : ∀ sel, wpTerm (heldRuntime catches env) watch J sel t x.handlers) : At catches env x U J (fl.close t) := by
  refine ⟨at_.ready.close t, at_.ends, at_.sound.close ?_ ?_⟩
  · intro m succ
    rw [none] at succ
    cases succ
  · rintro s sel rfl
    exact holds sel

theorem enter {l : Nat} (at_ : At catches env x (insert l U) J fl) (out : l ∉ U) (none : fl.blk = none) (table : J l = Open x.handlers) :
    At catches env x U J (fl.enter l) := by
  refine ⟨at_.ready.enter out, at_.ends, ?_⟩
  rw [← table]
  exact Inv.enter at_.sound none (at_.ready.waits l (.inl (Set.mem_insert ..)))

end At

@[simp] theorem close_blk_none (fl : Fn) (t : Lib.Landing.Term Call Clauses) : (fl.close t).blk = none := Graph.close_blk ..

@[simp] theorem close_next_eq (fl : Fn) (t : Lib.Landing.Term Call Clauses) : (fl.close t).next = fl.next := Graph.close_next ..

/-- The blocks `base`, `base + 1`, … up to `count` have been taken with what is open here, and those
of them in `is` wait. -/
structure Stack (catches : TypeInfo → ε → Bool) (env : Nat → List HandlerId) (x : Ctx) (base count : Nat) (is : List Nat) (U : Set Nat) (J : Table)
    (fl : Fn) : Prop where
  at_ : At catches env x {m | (∃ i ∈ is, m = base + i) ∨ m ∈ U} J fl
  nodup : is.Nodup
  out : ∀ i, base + i ∉ U
  known : ∀ i < count, base + i < fl.next ∧ J (base + i) = Open x.handlers
  inside : ∀ i ∈ is, i < count
  blk : fl.blk = none

/-- A branch to some of the blocks. -/
def Leads (base count : Nat) (t : Lib.Landing.Term Call Clauses) : Prop := IsBranch t ∧ ∀ m ∈ t.succs, ∃ i < count, m = base + i

theorem leads_br {base count i : Nat} (inside : i < count) : Leads base count (.br (base + i)) := by
  refine ⟨isBranch_br _, fun m succ => ?_⟩
  rw [List.mem_singleton.1 succ]
  exact ⟨i, inside, rfl⟩

theorem leads_brIf {base count i j : Nat} (inside : i < count) (inside' : j < count) :
    Leads base count (.brIf (base + i) (base + j)) := by
  refine ⟨isBranch_brIf _ _, fun m succ => ?_⟩
  obtain rfl | succ := List.mem_cons.1 succ
  · exact ⟨i, inside, rfl⟩
  · rw [List.mem_singleton.1 succ]
    exact ⟨j, inside', rfl⟩

namespace Stack
variable {base count i : Nat} {is : List Nat}

/-- New blocks with what is open here, and a branch to some of them. -/
theorem fork (at_ : At catches env x U J fl) (count : Nat) (is : List Nat) {t : Lib.Landing.Term Call Clauses}
    (leads : Leads fl.next count t) (nodup : is.Nodup) (inside : ∀ i ∈ is, i < count) :
    ∃ J', Grows fl.next J ((fl.alloc count).close t).next J' ∧ Stack catches env x fl.next count is U J' ((fl.alloc count).close t) := by
  refine ⟨extend J fl.next fun _ => Open x.handlers, ?_, ?_, nodup, at_.fresh, ?_, inside, by simp⟩
  · rw [close_next_eq]
    exact Grows.extend J count _ (Nat.le_refl _)
  · apply At.branch _ leads.1
    · intro m succ
      obtain ⟨i, below, rfl⟩ := leads.2 m succ
      exact Nat.add_lt_add_left below _
    · intro m succ
      obtain ⟨i, -, rfl⟩ := leads.2 m succ
      exact extend_add ..
    · apply at_.alloc
      rintro m (⟨i, mem, rfl⟩ | mem)
      · exact .inr ⟨Nat.le_add_right .., Nat.add_lt_add_left (inside i mem) _⟩
      · exact .inl mem
  · intro i below
    rw [close_next_eq]
    exact ⟨Nat.add_lt_add_left below _, extend_add ..⟩

/-- Goes on in the first block that waits. -/
theorem enter (stack : Stack catches env x base count (i :: is) U J fl) :
    At catches env x {m | (∃ i ∈ is, m = base + i) ∨ m ∈ U} J (fl.enter (base + i)) := by
  have apart := List.nodup_cons.1 stack.nodup
  apply At.enter _ _ stack.blk (stack.known i (stack.inside i (.head _))).2
  · have same : insert (base + i) {m | (∃ i ∈ is, m = base + i) ∨ m ∈ U} = {m | (∃ j ∈ i :: is, m = base + j) ∨ m ∈ U} := by
      ext m
      simp only [Set.mem_insert_iff, Set.mem_ofPred_eq, List.mem_cons, exists_eq_or_imp, or_assoc]
    rw [same]
    exact stack.at_
  · rintro (⟨j, mem, eq⟩ | mem)
    · obtain rfl := Nat.add_left_cancel eq
      exact apart.1 mem
    · exact stack.out i mem

/-- The last block goes on where nothing of the blocks waits. -/
theorem finish (stack : Stack catches env x base count [i] U J fl) : At catches env x U J (fl.enter (base + i)) := by
  have at_ := stack.enter
  simpa using at_

/-- The blocks are known. -/
def Known (x : Ctx) (base count : Nat) (J : Table) (n : Nat) : Prop :=
  ∀ i < count, base + i < n ∧ J (base + i) = Open x.handlers

theorem Known.grow {n n' : Nat} (known : Known x base count J n) (grows : Grows n J n' J') : Known x base count J' n' := by
  intro j below
  obtain ⟨taken, table⟩ := known j below
  exact ⟨Nat.lt_of_lt_of_le taken grows.next, (grows.same _ taken).trans table⟩

/-- The block that is written ends with a branch to some of the blocks. -/
theorem close (at_ : At catches env x {m | (∃ i ∈ is, m = base + i) ∨ m ∈ U} J fl) (nodup : is.Nodup) (out : ∀ i, base + i ∉ U)
    (known : Known x base count J fl.next) (inside : ∀ i ∈ is, i < count) {t : Lib.Landing.Term Call Clauses}
    (leads : Leads base count t) : Stack catches env x base count is U J (fl.close t) := by
  refine ⟨at_.branch leads.1 ?_ ?_, nodup, out, ?_, inside, by simp⟩
  · intro m succ
    obtain ⟨j, below, rfl⟩ := leads.2 m succ
    exact (known j below).1
  · intro m succ
    obtain ⟨j, below, rfl⟩ := leads.2 m succ
    exact (known j below).2
  · intro j below
    rw [close_next_eq]
    exact known j below

/-- A piece that keeps what is open, in the first block that waits, before any branch. -/
theorem piece {f : Fn → Fn} (stack : Stack catches env x base count (i :: is) U J fl) (keeps : Keeps catches env x f) :
    ∃ J', Grows fl.next J (f (fl.enter (base + i))).next J' ∧
      At catches env x {m | (∃ i ∈ is, m = base + i) ∨ m ∈ U} J' (f (fl.enter (base + i))) ∧
      ∀ t, Leads base count t → Stack catches env x base count is U J' ((f (fl.enter (base + i))).close t) := by
  obtain ⟨J', grows, at_'⟩ := keeps _ J (fl.enter (base + i)) stack.enter
  refine ⟨J', grows, at_', fun t leads => ?_⟩
  apply close at_' (List.nodup_cons.1 stack.nodup).2 stack.out _ (fun j mem => stack.inside j (.tail _ mem)) leads
  exact Known.grow stack.known grows

theorem block {f : Fn → Fn} (stack : Stack catches env x base count (i :: is) U J fl) (keeps : Keeps catches env x f)
    {t : Lib.Landing.Term Call Clauses} (leads : Leads base count t) :
    ∃ J', Grows fl.next J ((f (fl.enter (base + i))).close t).next J' ∧
      Stack catches env x base count is U J' ((f (fl.enter (base + i))).close t) := by
  obtain ⟨J', grows, -, closed⟩ := stack.piece keeps
  exact ⟨J', by rwa [close_next_eq], closed t leads⟩

end Stack

theorem keeps_shortCircuit {rhs : Fn → Fn} (keeps : Keeps catches env x rhs) : Keeps catches env x (shortCircuit rhs) := by
  intro U J fl at_
  obtain ⟨J₁, grows₁, forked⟩ := Stack.fork at_ 3 [2, 0, 1] (leads_brIf (i := 0) (j := 2) (by omega) (by omega)) (by decide) (by decide)
  obtain ⟨J₂, grows₂, short⟩ := forked.block Keeps.id (leads_br (i := 1) (by omega))
  obtain ⟨J₃, grows₃, right⟩ := short.block keeps (leads_br (i := 1) (by omega))
  exact ⟨J₃, grows₁.trans (grows₂.trans grows₃), right.finish⟩

theorem keeps_conditional {arm els : Fn → Fn} (keepsArm : Keeps catches env x arm) (keepsElse : Keeps catches env x els) :
    Keeps catches env x (conditional arm els) := by
  intro U J fl at_
  obtain ⟨J₁, grows₁, forked⟩ := Stack.fork at_ 3 [0, 1, 2] (leads_brIf (i := 0) (j := 1) (by omega) (by omega)) (by decide) (by decide)
  obtain ⟨J₂, grows₂, body⟩ := forked.block keepsArm (leads_br (i := 2) (by omega))
  obtain ⟨J₃, grows₃, other⟩ := body.block keepsElse (leads_br (i := 2) (by omega))
  exact ⟨J₃, grows₁.trans (grows₂.trans grows₃), other.finish⟩

theorem keeps_branch {arm : Fn → Fn} (keeps : Keeps catches env x arm) : Keeps catches env x (branch arm) := by
  intro U J fl at_
  obtain ⟨J₁, grows₁, forked⟩ := Stack.fork at_ 2 [0, 1] (leads_brIf (i := 0) (j := 1) (by omega) (by omega)) (by decide) (by decide)
  obtain ⟨J₂, grows₂, body⟩ := forked.block keeps (leads_br (i := 1) (by omega))
  exact ⟨J₂, grows₁.trans grows₂, body.finish⟩

theorem keeps_branchElse {arm els : Fn → Fn} (keepsArm : Keeps catches env x arm) (keepsElse : Keeps catches env x els) :
    Keeps catches env x (branchElse arm els) := by
  intro U J fl at_
  obtain ⟨J₁, grows₁, forked⟩ := Stack.fork at_ 3 [0, 2, 1] (leads_brIf (i := 0) (j := 2) (by omega) (by omega)) (by decide) (by decide)
  obtain ⟨J₂, grows₂, body⟩ := forked.block keepsArm (leads_br (i := 1) (by omega))
  obtain ⟨J₃, grows₃, other⟩ := body.block keepsElse (leads_br (i := 1) (by omega))
  exact ⟨J₃, grows₁.trans (grows₂.trans grows₃), other.finish⟩

theorem keeps_unreachable : Keeps catches env x unreachable := by
  intro U J fl at_
  exact ⟨J, ⟨Nat.le_of_eq (close_next_eq ..).symm, fun _ _ => rfl⟩, at_.ends_with rfl fun _ => trivial⟩

/-! ### Expressions and declarations -/

section expressions
variable {around : List Around} (stands : Stands around x)
include stands

theorem keeps_expr (e : Expr) : Keeps catches env x (expr around e) := by
  induction e with
  | leaf k => exact keeps_plain stands rfl rfl
  | comma e e' ih ih' => exact ih'.comp ih
  | call k made args ih =>
    cases made with
    | temp o => exact (keeps_emitCall stands rfl).comp (ih.comp (keeps_temporary o))
    | nothing => exact (keeps_emitCall stands rfl).comp ih
    | inPlace o => exact (keeps_emitCall stands rfl).comp ih
  | copied k o arg ih => exact (keeps_temporary o).comp ((keeps_emitCall stands rfl).comp ih)
  | logic e e' ih ih' => exact (keeps_shortCircuit ih').reachable.comp ih
  | cond temp c e e' ihc ih ih' =>
    exact (keeps_conditional ih ih').reachable.comp ((keeps_each (fun o => keeps_temporary o) temp.toList).comp ihc)
  | throw_ operand ih =>
    exact keeps_unreachable.comp ((keeps_emitCall stands rfl).comp (ih.comp (keeps_emitCall stands rfl)))
  | rethrow => exact keeps_unreachable.comp (keeps_emitCall stands rfl)

theorem keeps_fullEnd (e : Expr) : Keeps catches env x fun fl => plain around .fullEnd (expr around e fl) :=
  (keeps_plain stands rfl rfl).comp (keeps_expr stands e)

theorem keeps_fullExpr (e : Expr) : Keeps catches env x (fullExpr around e) :=
  (keeps_endFullExpr stands).comp (keeps_fullEnd stands e)

theorem keeps_declareLocal (d : Decl) : Keeps catches env x (declareLocal around d) := by
  cases d with
  | value e => exact keeps_fullExpr stands e
  | constructed o e =>
    exact (keeps_endFullExpr stands).comp ((keeps_plain stands rfl rfl).comp ((keeps_track o).comp (keeps_expr stands e)))
  | tracked o e => exact (keeps_fullExpr stands e).comp (keeps_track o)
  | reference e bound => exact (keeps_extendTemporary stands bound).comp (keeps_fullEnd stands e)
  | static e =>
    intro U J fl at_
    obtain ⟨J₁, grows₁, forked⟩ := Stack.fork at_ 2 [0, 1] (leads_brIf (i := 1) (j := 0) (by omega) (by omega)) (by decide) (by decide)
    obtain ⟨J₂, grows₂, init⟩ := forked.block (keeps_fullEnd stands e) (leads_br (i := 1) (by omega))
    exact ⟨J₂, grows₁.trans grows₂, init.finish⟩

theorem keeps_cond (c : Cond) : Keeps catches env x (cond around c) := by
  cases c with
  | expr e => exact keeps_fullExpr stands e
  | decl d => exact keeps_declareLocal stands d

end expressions

theorem keeps_decls {around : List Around} (stands : Stands around x) (ds : List Decl) : Keeps catches env x (decls around ds) := by
  induction ds generalizing around with
  | nil => exact Keeps.id
  | cons d ds ih => exact (ih (stands.declares d.objects_declares)).comp (keeps_declareLocal stands d).reachable

theorem keeps_simple {around : List Around} (stands : Stands around x) (s : Simple) : Keeps catches env x (simple around s) := by
  cases s with
  | expr e => exact keeps_fullExpr stands e
  | decl ds => exact keeps_decls stands ds

theorem keeps_initStmt {around : List Around} (stands : Stands around x) (init : Option Simple) :
    Keeps catches env x (initStmt around init) := by
  cases init with
  | none => exact Keeps.id
  | some s => exact keeps_simple stands s

/-! ### Leaving the function -/

/-- On the way out every open handler is ended, the innermost first. -/
theorem ends_openCatches (around : List Around) (ready : Ready env x U J fl) (hs : List HandlerId) (sound : Sound catches env J fl (Open hs)) :
    Ready env x U J (hs.foldl (fun fl _ => plain around .endCatch fl) fl) ∧
      Sound catches env J (hs.foldl (fun fl _ => plain around .endCatch fl) fl) (Open []) ∧
      (hs.foldl (fun fl _ => plain around .endCatch fl) fl).next = fl.next ∧
      (hs.foldl (fun fl _ => plain around .endCatch fl) fl).catchEnds = fl.catchEnds := by
  induction hs generalizing fl with
  | nil => exact ⟨ready, sound, rfl, rfl⟩
  | cons h hs ih =>
    have ended : Sound catches env J (plain around .endCatch fl) (Open hs) := by
      apply Inv.emit sound
      rintro s sel rfl
      refine ⟨fun _ => ⟨hs, opens_endCatch (c := fl.call around .endCatch) rfl h hs, rfl⟩, fun e throws => ?_⟩
      cases throws.1
    obtain ⟨ready', sound', next, ends⟩ := ih (ready.plain around .endCatch) ended
    exact ⟨ready', sound', next.trans (Graph.emit_next ..), ends⟩

theorem keeps_returnStmt {around : List Around} (stands : Stands around x) (value : Return) :
    Keeps catches env x (returnStmt around value) := by
  have out : Keeps catches env x fun fl => (endOpenCatches around fl).close .ret := by
    intro U J fl at_
    obtain ⟨ready, sound, next, ends⟩ := ends_openCatches around at_.ready x.handlers at_.sound
    rw [← at_.ends] at ready sound next ends
    refine ⟨J, ⟨by rw [close_next_eq]; exact Nat.le_of_eq next.symm, fun _ _ => rfl⟩, ready.close .ret, ends.trans at_.ends, ?_⟩
    apply Inv.close sound
    · intro m succ
      cases succ
    · rintro s sel rfl
      exact leaves_nil
  have leaves : Keeps catches env x fun fl => (endOpenCatches around (destroyFrom around 0 fl)).close .ret :=
    out.comp (keeps_destroyFrom stands fun _ => 0)
  cases value with
  | nothing => exact leaves
  | value e => exact leaves.comp (keeps_fullExpr stands e)
  | reference e => exact leaves.comp (keeps_fullEnd stands e)

/-! ### Loops -/

/-- What is owned may be less. -/
theorem At.less (at_ : At catches env x U J fl) (less : V ⊆ U) : At catches env x V J fl :=
  ⟨at_.ready.regraph rfl rfl rfl (.refl fl.next J) less fun _ _ waits => waits, at_.ends, at_.sound⟩

/-- The context of a loop's body, and of a switch's. -/
def Ctx.inLoop (x : Ctx) : Ctx := { x with brk := x.handlers, cont := x.handlers }

def Ctx.inSwitch (x : Ctx) : Ctx := { x with brk := x.handlers }

theorem Stands.inLoop {around : List Around} (stands : Stands around x) : Stands (.loop :: around) x.inLoop :=
  ⟨stands.handlers, stands.tries, stands.handlers, stands.handlers⟩

theorem Stands.inSwitch {around : List Around} (stands : Stands around x) : Stands (.switch :: around) x.inSwitch :=
  ⟨stands.handlers, stands.tries, stands.handlers, stands.cont⟩

/-- Other targets, whose handlers are known. -/
theorem At.retarget (at_ : At catches env x U J fl) (x' : Ctx) (handlers : x'.handlers = x.handlers)
    (tries : x'.tries = x.tries) {targets : Targets}
    (breakTo : ∀ l, targets.breakTo = some l → l < fl.next ∧ J l = Open x'.brk)
    (continueTo : ∀ l, targets.continueTo = some l → l < fl.next ∧ J l = Open x'.cont) :
    At catches env x' U J { fl with targets := targets } := by
  exact ⟨⟨breakTo, continueTo, by rw [tries]; exact at_.ready.tries, at_.ready.labels, at_.ready.apart, at_.ready.outside,
    fun m owned => at_.ready.waits m owned⟩, at_.ends.trans handlers.symm, by rw [handlers]; exact at_.sound⟩

/-- A loop's body, before control goes on at its exit. -/
def loopBody (body next exit : Nat) (stmt : Fn → Fn) (fl : Fn) : Fn :=
  { (stmt ({ fl with targets := ⟨some exit, some next, fl.scopes.length, fl.scopes.length⟩ }.enter body)).close (.br next) with
    targets := fl.targets }

theorem Stack.loopBody {base count i next exit : Nat} {is : List Nat} {stmt : Fn → Fn}
    (stack : Stack catches env x base count (i :: is) U J fl) (keeps : Keeps catches env x.inLoop stmt) (isNext : next < count)
    (isExit : exit < count) :
    ∃ J', Grows fl.next J (Unwind.loopBody (base + i) (base + next) (base + exit) stmt fl).next J' ∧
      Stack catches env x base count is U J' (Unwind.loopBody (base + i) (base + next) (base + exit) stmt fl) := by
  let targets : Targets := ⟨some (base + exit), some (base + next), fl.scopes.length, fl.scopes.length⟩
  have inner : At catches env x.inLoop {m | (∃ i ∈ is, m = base + i) ∨ m ∈ U} J ({ fl with targets := targets }.enter (base + i)) := by
    apply stack.enter.retarget x.inLoop rfl rfl
    · intro l isBreak
      cases isBreak
      exact stack.known exit isExit
    · intro l isContinue
      cases isContinue
      exact stack.known next isNext
  obtain ⟨J', grows, at_'⟩ := keeps _ J _ inner
  have known : Stack.Known x base count J' _ := Stack.Known.grow stack.known grows
  have closed := Stack.close (x := x.inLoop) at_' (List.nodup_cons.1 stack.nodup).2 stack.out known
    (fun j mem => stack.inside j (.tail _ mem)) (leads_br isNext)
  have outer : ∀ l, fl.targets.breakTo = some l → l < fl.next ∧ J l = Open x.brk := stack.at_.ready.breakTo
  have outer' : ∀ l, fl.targets.continueTo = some l → l < fl.next ∧ J l = Open x.cont := stack.at_.ready.continueTo
  have same : (Unwind.loopBody (base + i) (base + next) (base + exit) stmt fl).next = (stmt ({ fl with targets := targets }.enter (base + i))).next :=
    close_next_eq ..
  refine ⟨J', by rw [same]; exact grows, ?_, closed.nodup, closed.out, closed.known, closed.inside, closed.blk⟩
  apply closed.at_.retarget x rfl rfl
  · intro l isBreak
    obtain ⟨below, table⟩ := outer l isBreak
    rw [close_next_eq]
    exact ⟨Nat.lt_of_lt_of_le below grows.next, (grows.same l below).trans table⟩
  · intro l isContinue
    obtain ⟨below, table⟩ := outer' l isContinue
    rw [close_next_eq]
    exact ⟨Nat.lt_of_lt_of_le below grows.next, (grows.same l below).trans table⟩

/-- The loop once its header has been entered, with what is in the header before the condition's
branch. -/
theorem keeps_whileFrom {stmt f : Fn → Fn} (keeps : Keeps catches env x.inLoop stmt) (head : Keeps catches env x f) :
    Keeps catches env x fun fl => reachable (whileLoop fl.next stmt) (f (((fl.alloc 3).close (.br fl.next)).enter fl.next)) := by
  intro U J fl at_
  obtain ⟨J₁, grows₁, forked⟩ := Stack.fork at_ 3 [0, 1, 2] (leads_br (i := 0) (by omega)) (by decide) (by decide)
  obtain ⟨J₂, grows₂, tested, closed⟩ := forked.piece head
  unfold Fn.reachable
  dsimp only
  split
  · exact ⟨J₂, grows₁.trans grows₂, tested.less fun m mem => .inr mem⟩
  · obtain ⟨J₃, grows₃, body⟩ := (closed _ (leads_brIf (i := 1) (j := 2) (by omega) (by omega))).loopBody keeps
      (show 0 < 3 by omega) (show 2 < 3 by omega)
    rw [close_next_eq] at grows₃
    exact ⟨J₃, grows₁.trans (grows₂.trans grows₃), body.finish⟩

section loops
variable {around : List Around} (stands : Stands around x) {stmt : Fn → Fn} (keeps : Keeps catches env x.inLoop stmt)
include stands keeps

theorem keeps_whileStmt (c : Cond) : Keeps catches env x (whileStmt around c stmt) := by
  cases c with
  | expr e => exact keeps_whileFrom keeps (keeps_fullExpr stands e)
  | decl d =>
    have head : Keeps catches env x fun fl => declareLocal around d fl.pushScope := (keeps_declareLocal stands d).comp keeps_pushScope
    exact (keeps_popScope stands).comp (keeps_whileFrom keeps head)

theorem keeps_doStmt (e : Expr) : Keeps catches env x (doStmt around stmt e) := by
  intro U J fl at_
  obtain ⟨J₁, grows₁, forked⟩ := Stack.fork at_ 3 [0, 1, 2] (leads_br (i := 0) (by omega)) (by decide) (by decide)
  obtain ⟨J₂, grows₂, body⟩ := forked.loopBody keeps (show 1 < 3 by omega) (show 2 < 3 by omega)
  obtain ⟨J₃, grows₃, tested⟩ := body.block (keeps_fullExpr stands e) (leads_brIf (i := 0) (j := 2) (by omega) (by omega))
  exact ⟨J₃, grows₁.trans (grows₂.trans grows₃), tested.finish⟩

theorem keeps_forLoop (c post : Option Expr) : Keeps catches env x (forLoop around c post stmt) := by
  intro U J fl at_
  obtain ⟨J₁, grows₁, forked⟩ := Stack.fork at_ 4 [0, 1, 2, 3] (leads_br (i := 0) (by omega)) (by decide) (by decide)
  let header : Fn := ((fl.alloc 4).close (.br fl.next)).enter fl.next
  let headed : Fn := c.elim (header.close (.br (fl.next + 1))) fun e =>
    (fullExpr around e header).close (.brIf (fl.next + 1) (fl.next + 3))
  have head : ∃ J', Grows header.next J₁ headed.next J' ∧ Stack catches env x fl.next 4 [1, 2, 3] U J' headed := by
    cases c with
    | some e => exact forked.block (keeps_fullExpr stands e) (leads_brIf (i := 1) (j := 3) (by omega) (by omega))
    | none => exact forked.block Keeps.id (leads_br (i := 1) (by omega))
  obtain ⟨J₂, grows₂, tested⟩ := head
  obtain ⟨J₃, grows₃, body⟩ := tested.loopBody keeps (show 2 < 4 by omega) (show 3 < 4 by omega)
  have last : Keeps catches env x fun fl => post.elim fl fun e => fullExpr around e fl := by
    cases post with
    | some e => exact keeps_fullExpr stands e
    | none => exact Keeps.id
  obtain ⟨J₄, grows₄, step⟩ := body.block last (leads_br (i := 0) (by omega))
  cases c <;> cases post <;> exact ⟨J₄, grows₁.trans (grows₂.trans (grows₃.trans grows₄)), step.finish⟩

end loops

/-! ### Range-based loops -/

theorem keeps_tracked (o : Option Obj) : Keeps catches env x fun fl => o.toList.foldl (fun fl o => track o fl) fl :=
  keeps_each (fun o => keeps_track o) o.toList

section ranges
variable {around : List Around} (stands : Stands around x)
include stands

theorem keeps_rangePass (ends : Bool) (var : Expr × Option Obj) {stmt : Fn → Fn} (keeps : Keeps catches env x stmt) :
    Keeps catches env x (rangePass around ends var stmt) := by
  have declared : Keeps catches env x fun fl => var.2.toList.foldl (fun fl o => track o fl) (expr around var.1 fl.pushScope) :=
    (keeps_tracked var.2).comp ((keeps_expr stands var.1).comp keeps_pushScope)
  cases ends with
  | true => exact (keeps_popScope stands).comp (keeps.comp ((keeps_endFullExpr stands).comp ((keeps_plain stands rfl rfl).comp declared)))
  | false => exact (keeps_popScope stands).comp (keeps.comp declared)

theorem keeps_rangeLoop (proto : Option Protocol) (var : Expr × Option Obj) {stmt : Fn → Fn} (keeps : Keeps catches env x.inLoop stmt) :
    Keeps catches env x (rangeLoop around proto var stmt) := by
  have optional : ∀ part : Protocol → Expr, Keeps catches env x fun fl => proto.elim fl fun p => fullExpr around (part p) fl := by
    intro part
    cases proto with
    | some p => exact keeps_fullExpr stands (part p)
    | none => exact Keeps.id
  intro U J fl at_
  obtain ⟨J₁, grows₁, forked⟩ := Stack.fork at_ 4 [0, 1, 2, 3] (leads_br (i := 0) (by omega)) (by decide) (by decide)
  obtain ⟨J₂, grows₂, tested⟩ := forked.block (optional (·.cond)) (leads_brIf (i := 1) (j := 3) (by omega) (by omega))
  obtain ⟨J₃, grows₃, body⟩ := tested.loopBody (keeps_rangePass stands.inLoop proto.isSome var keeps)
    (show 2 < 4 by omega) (show 3 < 4 by omega)
  obtain ⟨J₄, grows₄, step⟩ := body.block (optional (·.step)) (leads_br (i := 0) (by omega))
  cases proto <;> exact ⟨J₄, grows₁.trans (grows₂.trans (grows₃.trans grows₄)), step.finish⟩

theorem keeps_iterators (its : List (Expr × Option Obj)) : Keeps catches env x (iterators around its) := by
  induction its generalizing around with
  | nil => exact Keeps.id
  | cons it its ih =>
    exact (ih (stands.declares (objects_objectOf it.2))).comp ((keeps_tracked it.2).comp (keeps_expr stands it.1))

theorem keeps_rangeSetup (range : Expr) (proto : Option Protocol) : Keeps catches env x (rangeSetup around range proto) := by
  cases proto with
  | none => exact keeps_expr stands range
  | some p =>
    have inner : Stands (boundObject p.bound ++ around) x := stands.declares (objects_objectOf _)
    exact (keeps_endFullExpr inner).comp ((keeps_plain inner rfl rfl).comp ((keeps_iterators inner p.iters).comp
      ((keeps_extendTemporary stands p.bound).comp (keeps_fullEnd stands range))))

end ranges

/-! ### Switch -/

theorem mem_tests {groups : List (List Label)} {body l : Nat} (mem : l ∈ tests groups body) :
    ∃ i < groups.length, l = body + i := by
  induction groups generalizing body with
  | nil => cases mem
  | cons g groups ih =>
    obtain mem | mem := List.mem_append.1 mem
    · exact ⟨0, Nat.succ_pos _, (List.mem_replicate.1 mem).2⟩
    · obtain ⟨i, below, rfl⟩ := ih mem
      exact ⟨i + 1, Nat.succ_lt_succ below, by omega⟩

theorem defaultBody_cases (groups : List (List Label)) (body exit : Nat) :
    defaultBody groups body exit = exit ∨ ∃ i < groups.length, defaultBody groups body exit = body + i := by
  induction groups generalizing body exit with
  | nil => exact .inl rfl
  | cons g groups ih =>
    rw [defaultBody]
    obtain same | ⟨i, below, same⟩ := ih (body + 1) (if .dflt ∈ g then body else exit)
    · rw [same]
      split
      · exact .inr ⟨0, Nat.succ_pos _, rfl⟩
      · exact .inl rfl
    · exact .inr ⟨i + 1, Nat.succ_lt_succ below, by omega⟩

theorem test_rule (at_ : At catches env x U J fl) {body : Nat} (taken : body < fl.next) (table : J body = Open x.handlers) :
    ∃ J', Grows fl.next J (test fl body).next J' ∧ At catches env x U J' (test fl body) := by
  have more : At catches env x (insert fl.next U) (extend J fl.next fun _ => Open x.handlers) (fl.alloc 1) := by
    apply at_.alloc
    rintro m (rfl | mem)
    · exact .inr ⟨Nat.le_refl _, Nat.lt_succ_self _⟩
    · exact .inl mem
  refine ⟨extend J fl.next fun _ => Open x.handlers, Grows.extend J 1 _ (Nat.le_of_eq (close_next_eq (fl.alloc 1) _).symm), ?_⟩
  apply At.enter _ (at_.fresh 0) (close_blk_none ..) (extend_self ..)
  apply more.branch (isBranch_brIf ..)
  · intro m succ
    obtain rfl | succ := List.mem_cons.1 succ
    · exact Nat.lt_succ_of_lt taken
    · rw [List.mem_singleton.1 succ]
      exact Nat.lt_succ_self _
  · intro m succ
    obtain rfl | succ := List.mem_cons.1 succ
    · rw [extend_of_lt _ taken, table]
    · rw [List.mem_singleton.1 succ]
      exact extend_self ..

theorem tests_rule {base count : Nat} (bodies : List Nat) (inside : ∀ l ∈ bodies, ∃ i < count, l = base + i)
    (at_ : At catches env x U J fl) (known : Stack.Known x base count J fl.next) :
    ∃ J', Grows fl.next J (bodies.foldl test fl).next J' ∧ At catches env x U J' (bodies.foldl test fl) := by
  induction bodies generalizing J fl with
  | nil => exact ⟨J, .refl fl.next J, at_⟩
  | cons l bodies ih =>
    obtain ⟨i, below, rfl⟩ := inside l List.mem_cons_self
    obtain ⟨J₁, grows₁, tested⟩ := test_rule at_ (known i below).1 (known i below).2
    obtain ⟨J₂, grows₂, all⟩ := ih (fun l mem => inside l (List.mem_cons_of_mem _ mem)) tested (known.grow grows₁)
    exact ⟨J₂, grows₁.trans grows₂, all⟩

/-- The bodies' blocks wait in their order, and then the exit's. -/
def bodyOrder (first count : Nat) : List Nat := List.range' first count ++ [0]

theorem bodyOrder_nodup {first count : Nat} (pos : 0 < first) : (bodyOrder first count).Nodup := by
  rw [bodyOrder, List.nodup_append]
  refine ⟨List.nodup_range', by simp, ?_⟩
  intro i mem j mem' eq
  rw [List.mem_singleton.1 mem'] at eq
  have above := (List.mem_range'_1.1 mem).1
  omega

theorem bodyOrder_lt {first count i : Nat} (mem : i ∈ bodyOrder first count) : i < first + count ∨ i = 0 := by
  obtain mem | mem := List.mem_append.1 mem
  · exact .inl (List.mem_range'_1.1 mem).2
  · exact .inr (List.mem_singleton.1 mem)

theorem dispatch_rule (at_ : At catches env x U J fl) (groups : List (List Label)) :
    ∃ J', Grows fl.next J (dispatch groups fl).next J' ∧
      Stack catches env x fl.next (1 + groups.length) (bodyOrder 1 groups.length) U J' (dispatch groups fl) := by
  have inside : ∀ i ∈ bodyOrder 1 groups.length, i < 1 + groups.length := by
    intro i mem
    obtain below | rfl := bodyOrder_lt mem
    · exact below
    · omega
  have more : At catches env x {m | (∃ i ∈ bodyOrder 1 groups.length, m = fl.next + i) ∨ m ∈ U}
      (extend J fl.next fun _ => Open x.handlers) (fl.alloc (1 + groups.length)) := by
    apply at_.alloc
    rintro m (⟨i, mem, rfl⟩ | mem)
    · exact .inr ⟨Nat.le_add_right .., Nat.add_lt_add_left (inside i mem) _⟩
    · exact .inl mem
  have known : Stack.Known x fl.next (1 + groups.length) (extend J fl.next fun _ => Open x.handlers)
      (fl.alloc (1 + groups.length)).next := fun i below => ⟨Nat.add_lt_add_left below _, extend_add ..⟩
  obtain ⟨J₂, grows₂, tested⟩ := tests_rule (tests groups (fl.next + 1)) (by
    intro l mem
    obtain ⟨i, below, rfl⟩ := mem_tests mem
    exact ⟨1 + i, by omega, by omega⟩) more known
  refine ⟨J₂, ?_, Stack.close tested (bodyOrder_nodup Nat.one_pos) at_.fresh (known.grow grows₂) inside ?_⟩
  · exact (Grows.extend J (1 + groups.length) _ (Nat.le_refl _)).trans (by rwa [dispatch, close_next_eq])
  · obtain same | ⟨i, below, same⟩ := defaultBody_cases groups (fl.next + 1) fl.next
    · rw [same]
      exact leads_br (i := 0) (by omega)
    · rw [same, Nat.add_assoc]
      exact leads_br (by omega)

/-- What the bodies of a switch keep: those from `first` on and the exit wait before, and the exit
after. -/
def KeepsBodies (catches : TypeInfo → ε → Bool) (env : Nat → List HandlerId) (x : Ctx) (groups : List (List Label)) (bodies : Nat → Fn → Fn) : Prop :=
  ∀ (first base : Nat) (U : Set Nat) (J : Table) (fl : Fn), 0 < first → (∀ i, base + i ∉ U) → Stack.Known x base (first + groups.length) J fl.next →
    At catches env x {m | (∃ i ∈ bodyOrder first groups.length, m = base + i) ∨ m ∈ U} J fl →
    ∃ J', Grows fl.next J (bodies (base + first) fl).next J' ∧
      At catches env x {m | (∃ i ∈ [0], m = base + i) ∨ m ∈ U} J' (bodies (base + first) fl)

theorem keeps_switchBody {groups : List (List Label)} {bodies : Nat → Fn → Fn}
    (keeps : KeepsBodies catches env x.inSwitch groups bodies) : Keeps catches env x (switchBody groups bodies) := by
  intro U J fl at_
  unfold switchBody
  split
  · exact ⟨J, .refl fl.next J, at_⟩
  obtain ⟨J₁, grows₁, dispatched⟩ := dispatch_rule at_ groups
  let targets : Targets := { fl.targets with breakTo := some fl.next, breakDepth := fl.scopes.length }
  let start : Fn := { dispatch groups fl with targets := targets }
  have within : At catches env x.inSwitch {m | (∃ i ∈ bodyOrder 1 groups.length, m = fl.next + i) ∨ m ∈ U} J₁ start := by
    apply dispatched.at_.retarget x.inSwitch rfl rfl
    · intro l isBreak
      cases isBreak
      exact dispatched.known 0 (by omega)
    · intro l isContinue
      obtain ⟨below, table⟩ := at_.ready.continueTo l isContinue
      exact ⟨Nat.lt_of_lt_of_le below grows₁.next, (grows₁.same l below).trans table⟩
  obtain ⟨J₂, grows₂, last⟩ := keeps 1 fl.next U J₁ start Nat.one_pos at_.fresh dispatched.known within
  have known : Stack.Known x.inSwitch fl.next (1 + groups.length) J₂ _ := Stack.Known.grow dispatched.known grows₂
  have closed := Stack.close last (by decide) at_.fresh known (fun i mem => by rw [List.mem_singleton.1 mem]; omega)
    (leads_br (i := 0) (by omega))
  have grown : Grows fl.next J ((bodies (fl.next + 1) start).close (.br fl.next)).next J₂ := by
    rw [close_next_eq]
    exact grows₁.trans grows₂
  refine ⟨J₂, grown, closed.finish.retarget x rfl rfl ?_ ?_⟩
  · intro l isBreak
    obtain ⟨below, table⟩ := at_.ready.breakTo l isBreak
    exact ⟨Nat.lt_of_lt_of_le below grown.next, (grown.same l below).trans table⟩
  · intro l isContinue
    obtain ⟨below, table⟩ := at_.ready.continueTo l isContinue
    exact ⟨Nat.lt_of_lt_of_le below grown.next, (grown.same l below).trans table⟩

/-! ### Jumps -/

/-- After a jump has been noted: it leaves no handler. -/
theorem At.jumps (at_ : At catches env x U J fl) {around : List Around} (stands : Stands around x) (j : Jump) :
    Sound catches env J (plain around (.jump j) fl) fun s _ => s = x.handlers ∧ x.handlers = j.handlers env around := by
  apply Inv.emit at_.sound
  rintro s sel rfl
  have isPoint : (Callee.jump j).isPoint = true := rfl
  have did := did_point stands isPoint fl
  refine ⟨fun makes => ⟨x.handlers, did, rfl, ?_⟩, fun e throws => ?_⟩
  · rw [← stands.handlers]
    exact makes.2 j rfl
  · cases throws.1

theorem At.leaps (at_ : At catches env x U J fl) {around : List Around} (stands : Stands around x) (j : Jump) {l : Nat}
    (taken : l < fl.next) (table : J l = Open (j.handlers env around)) :
    At catches env x U J ((plain around (.jump j) fl).close (.br l)) := by
  have next : (plain around (.jump j) fl).next = fl.next := Graph.emit_next ..
  refine ⟨(at_.ready.plain around (.jump j)).close (.br l), at_.ends, (at_.jumps stands j).close ?_ ?_⟩
  · intro m succ
    rw [List.mem_singleton.1 succ, next]
    exact taken
  · rintro s sel ⟨rfl, stays⟩
    rw [wpTerm, table]
    exact stays

theorem keeps_jump {around : List Around} (stands : Stands around x) {j : Jump} {target : Fn → Option Nat}
    (known : ∀ U J fl, At catches env x U J fl → ∀ l, target fl = some l → l < fl.next ∧ J l = Open (j.handlers env around)) :
    Keeps catches env x fun fl => (plain around (.jump j) fl).jump (target fl) := by
  intro U J fl at_
  unfold jump
  dsimp only
  split
  · exact keeps_plain stands rfl rfl U J fl at_
  · rename_i l is
    obtain ⟨taken, table⟩ := known U J fl at_ l is
    refine ⟨J, ⟨Nat.le_of_eq ?_, fun _ _ => rfl⟩, at_.leaps stands j taken table⟩
    exact ((close_next_eq ..).trans (Graph.emit_next ..)).symm

/-! ### Jumps to labels -/

/-- What may be given to a label or be owned: what is owned, and what the label had. -/
def Pool (V : Set Nat) (fl : Fn) (name : Nat) : Set Nat := {m | m ∈ V ∨ ∃ old, fl.labels name = some old ∧ m ∈ old.tokens}

theorem At.setLabel (at_ : At catches env x V J fl) {name : Nat} {l : LabelState} (ready : LabelReady J fl.next (env name) l)
    (mine : U ⊆ Pool V fl name) (given : ∀ m ∈ l.tokens, m ∈ Pool V fl name) (apart : ∀ m ∈ l.tokens, m ∉ U) :
    At catches env x U J (fl.setLabel name l) := by
  have waits : ∀ m ∈ Pool V fl name, fl.Waits m := by
    rintro m (mem | ⟨old, is, mem⟩)
    · exact at_.ready.waits m (.inl mem)
    · exact at_.ready.waits m (.inr ⟨name, old, is, mem⟩)
  have other : ∀ name' l', name' ≠ name → fl.labels name' = some l' → ∀ m ∈ l'.tokens, m ∉ Pool V fl name := by
    rintro name' l' ne is' m mem' (mem | ⟨old, is, mem⟩)
    · exact at_.ready.outside name' l' is' m mem' mem
    · exact ne (at_.ready.apart name' name l' old is' is m mem' mem)
  have labels : ∀ name' l', (fl.setLabel name l).labels name' = some l' → name' = name ∧ l' = l ∨ name' ≠ name ∧ fl.labels name' = some l' := by
    intro name' l' is
    by_cases same : name' = name
    · subst same
      simp only [Fn.setLabel, Function.update_self, Option.some.injEq] at is
      exact .inl ⟨rfl, is.symm⟩
    · simp only [Fn.setLabel, Function.update_of_ne same] at is
      exact .inr ⟨same, is⟩
  refine ⟨⟨at_.ready.breakTo, at_.ready.continueTo, at_.ready.tries, ?_, ?_, ?_, ?_⟩, at_.ends, at_.sound⟩
  · intro name' l' is
    obtain ⟨rfl, rfl⟩ | ⟨-, is⟩ := labels name' l' is
    · exact ready
    · exact at_.ready.labels name' l' is
  · intro name₁ name₂ l₁ l₂ is₁ is₂ m mem₁ mem₂
    obtain ⟨same₁, isL₁⟩ | ⟨ne₁, old₁⟩ := labels name₁ l₁ is₁
    · obtain ⟨same₂, -⟩ | ⟨ne₂, old₂⟩ := labels name₂ l₂ is₂
      · rw [same₁, same₂]
      · rw [isL₁] at mem₁
        exact absurd (given m mem₁) (other name₂ l₂ ne₂ old₂ m mem₂)
    · obtain ⟨-, isL₂⟩ | ⟨ne₂, old₂⟩ := labels name₂ l₂ is₂
      · rw [isL₂] at mem₂
        exact absurd (given m mem₂) (other name₁ l₁ ne₁ old₁ m mem₁)
      · exact at_.ready.apart name₁ name₂ l₁ l₂ old₁ old₂ m mem₁ mem₂
  · intro name' l' is m mem inU
    obtain ⟨rfl, rfl⟩ | ⟨ne, is⟩ := labels name' l' is
    · exact apart m mem inU
    · exact other name' l' ne is m mem (mine inU)
  · rintro m (inU | ⟨name', l', is, mem⟩)
    · exact waits m (mine inU)
    · obtain ⟨rfl, rfl⟩ | ⟨-, is⟩ := labels name' l' is
      · exact waits m (given m mem)
      · exact at_.ready.waits m (.inr ⟨name', l', is, mem⟩)

@[simp] theorem setLabel_labels_self (fl : Fn) (name : Nat) (l : LabelState) : (fl.setLabel name l).labels name = some l :=
  Function.update_self ..

theorem label_rule (at_ : At catches env x U J fl) (name : Nat) :
    ∃ J' l, Grows fl.next J (label name fl).next J' ∧ At catches env x U J' (label name fl) ∧ (label name fl).labels name = some l := by
  unfold label
  split
  · rename_i l is
    exact ⟨J, l, .refl fl.next J, at_, is⟩
  · rename_i none
    refine ⟨extend J fl.next fun _ => Open (env name), _, Grows.extend J 1 _ (Nat.le_refl _), ?_, setLabel_labels_self ..⟩
    have more : At catches env x (insert fl.next U) (extend J fl.next fun _ => Open (env name)) (fl.alloc 1) := by
      apply at_.alloc
      rintro m (rfl | mem)
      · exact .inr ⟨Nat.le_refl _, Nat.lt_succ_self _⟩
      · exact .inl mem
    apply more.setLabel
    · refine ⟨Nat.lt_succ_self _, extend_self .., ?_, by simp [LabelState.tokens]⟩
      intro q mem
      cases mem
    · exact fun m mem => .inl (Set.mem_insert_of_mem _ mem)
    · intro m mem
      rw [LabelState.tokens, if_pos rfl, List.map_nil, List.append_nil, List.mem_singleton] at mem
      rw [mem]
      exact .inl (Set.mem_insert ..)
    · intro m mem
      rw [LabelState.tokens, if_pos rfl, List.map_nil, List.append_nil, List.mem_singleton] at mem
      rw [mem]
      exact at_.fresh 0

theorem keeps_gotoStmt {around : List Around} (stands : Stands around x) (name : Nat) :
    Keeps catches env x (gotoStmt around name) := by
  intro U J fl at_
  obtain ⟨J₁, l, grows₁, at₁, is⟩ := label_rule at_ name
  have ready := at₁.ready.labels name l is
  unfold gotoStmt
  simp only [is]
  split
  · rename_i depth _
    obtain ⟨J₂, grows₂, at₂⟩ := keeps_destroyFrom stands (fun _ => depth) U J₁ _ at₁
    have taken := Nat.lt_of_lt_of_le ready.taken grows₂.next
    refine ⟨J₂, ?_, at₂.leaps stands (.label name) taken ((grows₂.same _ ready.taken).trans ready.table)⟩
    rw [close_next_eq]
    exact (grows₁.trans grows₂).trans ⟨Nat.le_of_eq (Graph.emit_next ..).symm, fun _ _ => rfl⟩
  · rename_i unreached
    let J₂ := extend J₁ (label name fl).next fun _ => Open (env name)
    let jumped := (plain around (.jump (.label name)) ((label name fl).alloc 1)).close (.br (label name fl).next)
    have next : jumped.next = (label name fl).next + 1 := (close_next_eq ..).trans (Graph.emit_next ..)
    have grows₂ : Grows (label name fl).next J₁ ((label name fl).next + 1) J₂ := Grows.extend J₁ 1 _ (Nat.le_refl _)
    have more : At catches env x (insert (label name fl).next U) J₂ jumped := by
      apply At.leaps _ stands _ (Nat.lt_succ_self _) (extend_self ..)
      apply at₁.alloc
      rintro m (rfl | mem)
      · exact .inr ⟨Nat.le_refl _, Nat.lt_succ_self _⟩
      · exact .inl mem
    have tokens : ∀ scopes, LabelState.tokens { l with pending := l.pending ++ [((label name fl).next, scopes)] } =
        l.tokens ++ [(label name fl).next] := by
      intro scopes
      simp [LabelState.tokens, List.append_assoc]
    have old : ∀ m ∈ l.tokens, m < (label name fl).next := fun m mem => (at₁.ready.waits m (.inr ⟨name, l, is, mem⟩)).taken
    refine ⟨J₂, ?_, more.setLabel ?_ ?_ ?_ ?_⟩
    · refine grows₁.trans ?_
      rw [show (Fn.setLabel name _ jumped).next = (label name fl).next + 1 from next]
      exact grows₂
    · refine ⟨?_, (grows₂.same _ ready.taken).trans ready.table, ?_, ?_⟩
      · rw [next]
        exact Nat.lt_succ_of_lt ready.taken
      · intro q mem
        obtain mem | mem := List.mem_append.1 mem
        · have token : q.1 ∈ l.tokens := List.mem_append_right _ (List.mem_map_of_mem mem)
          rw [grows₂.same _ (old _ token)]
          exact ready.pending q mem
        · rw [List.mem_singleton.1 mem]
          exact extend_self ..
      · rw [tokens, List.nodup_append]
        refine ⟨ready.nodup, by simp, ?_⟩
        intro a mem b mem' eq
        rw [List.mem_singleton.1 mem'] at eq
        have below := old a mem
        omega
    · exact fun m mem => .inl (Set.mem_insert_of_mem _ mem)
    · intro m mem
      rw [tokens] at mem
      obtain mem | mem := List.mem_append.1 mem
      · exact .inr ⟨l, is, mem⟩
      · rw [List.mem_singleton.1 mem]
        exact .inl (Set.mem_insert ..)
    · intro m mem
      rw [tokens] at mem
      obtain mem | mem := List.mem_append.1 mem
      · exact at₁.ready.outside name l is m mem
      · rw [List.mem_singleton.1 mem]
        exact at₁.fresh 0

/-- The jumps that waited for a label, one after the other. -/
theorem arrive_rule {around : List Around} (stands : Stands around x) (l : LabelState) (depth : Nat)
    (pending : List (Nat × List (List Obj))) (nodup : (pending.map (·.1)).Nodup) (out : ∀ m ∈ pending.map (·.1), m ∉ U)
    (at_ : At catches env x {m | m ∈ pending.map (·.1) ∨ m ∈ U} J fl) (none : fl.blk = none)
    (known : ∀ q ∈ pending, J q.1 = Open x.handlers) (taken : l.blk < fl.next) (table : J l.blk = Open x.handlers) :
    ∃ J', Grows fl.next J (pending.foldl (arrive around l depth) fl).next J' ∧
      At catches env x U J' (pending.foldl (arrive around l depth) fl) ∧ (pending.foldl (arrive around l depth) fl).blk = .none := by
  induction pending generalizing J fl with
  | nil => exact ⟨J, .refl fl.next J, by simpa using at_, none⟩
  | cons q pending ih =>
    rw [List.map_cons, List.nodup_cons] at nodup
    have old : ∀ q' ∈ pending, q'.1 < fl.next := fun q' mem =>
      (at_.ready.waits q'.1 (.inl (.inl (.tail _ (List.mem_map_of_mem mem))))).taken
    have entered : At catches env x {m | m ∈ pending.map (·.1) ∨ m ∈ U} J (fl.enter q.1) := by
      apply At.enter _ _ none (known q List.mem_cons_self)
      · have same : insert q.1 {m | m ∈ pending.map (·.1) ∨ m ∈ U} = {m | m ∈ (q :: pending).map (·.1) ∨ m ∈ U} := by
          ext m
          simp only [Set.mem_insert_iff, Set.mem_ofPred_eq, List.map_cons, List.mem_cons, or_assoc]
        rw [same]
        exact at_
      · rintro (mem | mem)
        · exact nodup.1 mem
        · exact out q.1 (.head _) mem
    obtain ⟨J₁, grows₁, at₁⟩ := keeps_destroyObjs stands (fun _ => unwound q.2 depth) _ J _ entered
    have table₁ : J₁ l.blk = Open x.handlers := (grows₁.same _ taken).trans table
    have closed := at₁.branch (isBranch_br l.blk)
      (fun m succ => by rw [List.mem_singleton.1 succ]; exact Nat.lt_of_lt_of_le taken grows₁.next)
      (fun m succ => by rw [List.mem_singleton.1 succ, table₁])
    obtain ⟨J₂, grows₂, at₂, none₂⟩ := ih nodup.2 (fun m mem => out m (.tail _ mem)) closed (close_blk_none ..)
      (fun q' mem => (grows₁.same _ (old q' mem)).trans (known q' (.tail _ mem)))
      (by rw [close_next_eq]; exact Nat.lt_of_lt_of_le taken grows₁.next) table₁
    rw [close_next_eq] at grows₂
    exact ⟨J₂, grows₁.trans grows₂, at₂, none₂⟩

theorem keeps_labeledStmt {around : List Around} (stands : Stands around x) {name : Nat} (stays : x.handlers = env name)
    {stmt : Fn → Fn} (keeps : Keeps catches env x stmt) : Keeps catches env x (labeledStmt around name stmt) := by
  intro U J fl at_
  obtain ⟨J₁, l, grows₁, at₁, is⟩ := label_rule at_ name
  have ready := at₁.ready.labels name l is
  unfold labeledStmt
  simp only [is]
  split
  · exact ⟨J₁, grows₁, at₁⟩
  rename_i unreached
  have tokens : l.tokens = l.blk :: l.pending.map (·.1) := by
    rw [LabelState.tokens, if_pos (by simpa using unreached)]
    rfl
  have nodup := ready.nodup
  rw [tokens, List.nodup_cons] at nodup
  have out : ∀ m ∈ l.tokens, m ∉ U := at₁.ready.outside name l is
  have table : J₁ l.blk = Open x.handlers := by rw [ready.table, stays]
  have closed : At catches env x U J₁ ((label name fl).close (.br l.blk)) := at₁.branch (isBranch_br l.blk)
    (fun m succ => by rw [List.mem_singleton.1 succ]; exact ready.taken)
    (fun m succ => by rw [List.mem_singleton.1 succ, table])
  have freed : At catches env x {m | m ∈ l.pending.map (·.1) ∨ m ∈ insert l.blk U} J₁
      (Fn.setLabel name ⟨l.blk, some (label name fl).scopes.length, []⟩ ((label name fl).close (.br l.blk))) := by
    have none : LabelState.tokens ⟨l.blk, some (label name fl).scopes.length, []⟩ = [] := rfl
    apply closed.setLabel
    · refine ⟨?_, ready.table, ?_, ?_⟩
      · rw [close_next_eq]
        exact ready.taken
      · intro q mem
        cases mem
      · rw [none]
        exact List.nodup_nil
    · rintro m (mem | rfl | mem)
      · exact .inr ⟨l, is, by rw [tokens]; exact .tail _ mem⟩
      · exact .inr ⟨l, is, by rw [tokens]; exact .head _⟩
      · exact .inl mem
    · intro m mem
      rw [none] at mem
      cases mem
    · intro m mem
      rw [none] at mem
      cases mem
  have notMine : ∀ m ∈ l.pending.map (·.1), m ∉ insert l.blk U := by
    rintro m mem (rfl | inU)
    · exact nodup.1 mem
    · exact out m (by rw [tokens]; exact .tail _ mem) inU
  obtain ⟨J₂, grows₂, at₂, none₂⟩ := arrive_rule stands l (label name fl).scopes.length l.pending nodup.2 notMine freed
    (close_blk_none ..) (fun q mem => by rw [ready.pending q mem, stays])
    (by rw [show (Fn.setLabel name _ ((label name fl).close (.br l.blk))).next = (label name fl).next from close_next_eq ..]
        exact ready.taken) table
  have next : (Fn.setLabel name ⟨l.blk, some (label name fl).scopes.length, []⟩ ((label name fl).close (.br l.blk))).next =
      (label name fl).next := close_next_eq ..
  rw [next] at grows₂
  have entered := at₂.enter (out l.blk (by rw [tokens]; exact .head _)) none₂ ((grows₂.same _ ready.taken).trans table)
  obtain ⟨J₃, grows₃, at₃⟩ := keeps U J₂ _ entered
  exact ⟨J₃, grows₁.trans (grows₂.trans grows₃), at₃⟩

/-! ### Handlers -/

def Ctx.inTry (x : Ctx) (clauses : List Clause) : Ctx := { x with tries := (clauses, x.handlers) :: x.tries }

def Ctx.inHandler (x : Ctx) (h : HandlerId) : Ctx := { x with handlers := h :: x.handlers }

theorem Stands.inTry {around : List Around} (stands : Stands around x) (t : Nat) (clauses : List Clause) :
    Stands (.tryBlock t clauses :: around) (x.inTry clauses) :=
  ⟨stands.handlers, by rw [triesOf, stands.handlers, stands.tries]; rfl, stands.brk, stands.cont⟩

theorem Stands.inHandler {around : List Around} (stands : Stands around x) (h : HandlerId) :
    Stands (.handler h :: around) (x.inHandler h) :=
  ⟨by rw [handlersOf, stands.handlers]; rfl, stands.tries, stands.brk, stands.cont⟩

theorem Ready.inHandler (ready : Ready env x U J fl) (h : HandlerId) : Ready env (x.inHandler h) U J fl :=
  ⟨ready.breakTo, ready.continueTo, ready.tries, ready.labels, ready.apart, ready.outside, ready.waits⟩

/-- The end of a handler: it is open, and of what is to be ended no more. -/
structure Closing (catches : TypeInfo → ε → Bool) (env : Nat → List HandlerId) (x : Ctx) (h : HandlerId) (U : Set Nat) (J : Table) (fl : Fn) : Prop where
  ready : Ready env x U J fl
  ends : fl.catchEnds = x.handlers
  sound : Sound catches env J fl (Open (h :: x.handlers))

theorem unwinds_nothing {around : List Around} {callee : Callee} {hs : List HandlerId}
    (nothing : ∀ e, ¬ (heldRuntime catches env).throws (fl.call around callee) e) : Unwinds catches env J fl around callee hs :=
  fun e throws => absurd throws (nothing e)

theorem Closing.destroyObjs {h : HandlerId} (around : List Around) (objs : List Obj) (closing : Closing catches env x h U J fl) :
    ∃ J', Grows fl.next J (destroyObjs (.handler h :: around) objs fl).next J' ∧
      Closing catches env x h U J' (destroyObjs (.handler h :: around) objs fl) := by
  induction objs generalizing J fl with
  | nil => exact ⟨J, .refl fl.next J, closing⟩
  | cons o objs ih =>
    have nothing : ∀ e, ¬ (heldRuntime catches env).throws (fl.call (.handler h :: around) (.destroy o)) e := by
      rintro e ⟨-, none | ⟨noDestroy, -⟩⟩
      · cases none
      · exact noDestroy o rfl
    obtain ⟨J₁, grows₁, ready, sound⟩ := emitCall_rule closing.ready closing.sound
      (opens_destroy (c := fl.call (.handler h :: around) (.destroy o)) rfl _) (unwinds_nothing nothing)
    obtain ⟨J₂, grows₂, all⟩ := ih ⟨ready, (emitCall_catchEnds ..).trans closing.ends, sound⟩
    exact ⟨J₂, grows₁.trans grows₂, all⟩

section handlers
variable {around : List Around} {h : HandlerId} (stands : Stands around x)
include stands

theorem keeps_bindCaught (param : Param) : Keeps catches env x (bindCaught around param) := by
  cases param with
  | none => exact Keeps.id
  | some p => exact (keeps_track p.2).comp (keeps_emitCall stands rfl)

theorem handler_rule (param : Param) {body : Fn → Fn} (keeps : Keeps catches env (x.inHandler h) body) {done : Nat} (rethrow : Bool)
    (at_ : At catches env x U J fl) (taken : done < fl.next) (table : J done = Open x.handlers) :
    ∃ J', Grows fl.next J (handler around h param body done rethrow fl).next J' ∧
      At catches env x U J' (handler around h param body done rethrow fl) ∧ (handler around h param body done rethrow fl).blk = none := by
  let begun : Fn := { (plain around (.beginCatch h) fl).pushScope with catchEnds := h :: fl.catchEnds }
  have opened : At catches env (x.inHandler h) U J begun := by
    refine ⟨(at_.ready.plain around (.beginCatch h)).inHandler h |>.regraph rfl rfl rfl (.refl _ J) (fun _ mem => mem) fun _ _ waits => waits,
      congrArg (h :: ·) at_.ends, ?_⟩
    apply Inv.emit at_.sound
    rintro s sel rfl
    refine ⟨fun _ => ⟨h :: x.handlers, opens_beginCatch (c := fl.call around (.beginCatch h)) rfl _, rfl⟩, fun e throws => ?_⟩
    cases throws.1
  have next : begun.next = fl.next := Graph.emit_next ..
  have inner := keeps.comp (keeps_bindCaught (stands.inHandler h) param)
  obtain ⟨J₁, grows₁, at₁⟩ := inner U J begun opened
  rw [next] at grows₁
  -- the handler is still open where its parameter is destroyed
  let left : Fn := body (bindCaught (.handler h :: around) param begun)
  have closing : Closing catches env x h U J₁ { left with catchEnds := left.catchEnds.tail, scopes := left.scopes.tail } := by
    refine ⟨⟨at₁.ready.breakTo, at₁.ready.continueTo, at₁.ready.tries, at₁.ready.labels, at₁.ready.apart, at₁.ready.outside,
      fun m owned => at₁.ready.waits m owned⟩, ?_, at₁.sound⟩
    exact congrArg List.tail at₁.ends
  obtain ⟨J₂, grows₂, closed⟩ := closing.destroyObjs around (left.scopes.headD [])
  have grown := grows₁.trans grows₂
  unfold handler
  split
  · have nothing : ∀ (fl : Fn) e, ¬ (heldRuntime catches env).throws (fl.call (.handler h :: around) .rethrowEnd) e := by
      rintro fl e ⟨-, none | ⟨-, noRethrow, -⟩⟩
      · cases none
      · exact noRethrow rfl
    have did : ∀ fl : Fn, opens (fl.call (.handler h :: around) .rethrowEnd) (h :: x.handlers) = some (h :: x.handlers) :=
      fun fl => did_point (stands.inHandler h) rfl fl
    obtain ⟨J₃, grows₃, ready, sound⟩ := emitCall_rule closed.ready closed.sound (did _) (unwinds_nothing (nothing _))
    refine ⟨J₃, ?_, ⟨ready.close .trap, (emitCall_catchEnds ..).trans closed.ends, ?_⟩, close_blk_none ..⟩
    · rw [unreachable, close_next_eq]
      exact grown.trans grows₃
    · apply Inv.close sound
      · intro m succ
        cases succ
      · intro s sel _
        trivial
  · have nothing : ∀ (fl : Fn) e, ¬ (heldRuntime catches env).throws (fl.call around .endCatch) e := by
      rintro fl e ⟨may, -⟩
      cases may
    obtain ⟨J₃, grows₃, ready, sound⟩ := emitCall_rule closed.ready closed.sound (opens_endCatch rfl h x.handlers)
      (unwinds_nothing (nothing _))
    have grown₃ := grown.trans grows₃
    have ended : At catches env x U J₃ _ := ⟨ready, (emitCall_catchEnds around .endCatch _).trans closed.ends, sound⟩
    refine ⟨J₃, by rw [close_next_eq]; exact grown₃, ended.branch (isBranch_br done) ?_ ?_, close_blk_none ..⟩
    · intro m succ
      rw [List.mem_singleton.1 succ]
      exact Nat.lt_of_lt_of_le taken grown₃.next
    · intro m succ
      rw [List.mem_singleton.1 succ, grown₃.same _ taken, table]

end handlers

/-! ### Try-blocks -/

/-- What is around the handlers of a try-block, from the one at `idx` on, keeps what is open. -/
def KeepsHandlers (catches : TypeInfo → ε → Bool) (env : Nat → List HandlerId) (x : Ctx) (count : Nat) (handlers : Nat → Nat → Fn → Fn) : Prop :=
  ∀ (done base : Nat) (U : Set Nat) (J : Table) (fl : Fn), done < fl.next → J done = Open x.handlers →
    Stack catches env x base count (List.range count) U J fl →
    ∃ J', Grows fl.next J (handlers done base fl).next J' ∧ Stack catches env x base count [] U J' (handlers done base fl)

theorem beginTry_rule (at_ : At catches env x U J fl) (clauses : List Clause) :
    ∃ J', Grows fl.next J (beginTry clauses fl).next J' ∧
      At catches env (x.inTry clauses) (insert fl.next (insert (fl.next + 1) U)) J' (beginTry clauses fl) ∧
      J' fl.next = Chooses x.handlers clauses.length ∧ J' (fl.next + 1) = Open x.handlers := by
  let X : Nat → List HandlerId → Nat → Prop := fun i => if i = 0 then Chooses x.handlers clauses.length else Open x.handlers
  have more : At catches env x (insert fl.next (insert (fl.next + 1) U)) (extend J fl.next X) (fl.alloc 2) := by
    apply at_.alloc
    rintro m (rfl | rfl | mem)
    · exact .inr ⟨by omega, by omega⟩
    · exact .inr ⟨by omega, by omega⟩
    · exact .inl mem
  have table : extend J fl.next X fl.next = Chooses x.handlers clauses.length := extend_self ..
  refine ⟨extend J fl.next X, Grows.extend J 2 X (Nat.le_refl _), ?_, table, extend_add ..⟩
  refine ⟨⟨more.ready.breakTo, more.ready.continueTo, ?_, more.ready.labels, more.ready.apart, more.ready.outside,
    fun m owned => more.ready.waits m owned⟩, more.ends, more.sound⟩
  have below : fl.next < fl.next + 2 := by omega
  exact .cons ⟨rfl, below, table⟩ more.ready.tries

theorem endTry_rule {clauses : List Clause} {handlers : Nat → Nat → Fn → Fn}
    (keeps : KeepsHandlers catches env x clauses.length handlers) {d done : Nat}
    (at_ : At catches env (x.inTry clauses) (insert d (insert done U)) J fl) (ne : d ≠ done) (out : d ∉ U) (out' : done ∉ U)
    (table : J d = Chooses x.handlers clauses.length) (table' : J done = Open x.handlers) :
    ∃ J', Grows fl.next J (endTry clauses (handlers done) d done fl).next J' ∧
      At catches env x U J' (endTry clauses (handlers done) d done fl) := by
  have taken : done < fl.next := (at_.ready.waits done (.inl (.inr (.inl rfl)))).taken
  have popped : At catches env x (insert d (insert done U)) J { fl with tries := fl.tries.tail } := by
    refine ⟨⟨at_.ready.breakTo, at_.ready.continueTo, ?_, at_.ready.labels, at_.ready.apart, at_.ready.outside,
      fun m owned => at_.ready.waits m owned⟩, at_.ends, at_.sound⟩
    obtain ⟨t, outer, -, rest, isTries⟩ := List.forall₂_cons_left_iff.1 at_.ready.tries
    rw [isTries]
    exact rest
  have closed := popped.branch (isBranch_br done)
    (fun m succ => by rw [List.mem_singleton.1 succ]; exact taken)
    (fun m succ => by rw [List.mem_singleton.1 succ, table'])
  -- in the block that chooses, one of the handlers has been selected
  have ready : Ready env x (insert done U) J (({ fl with tries := fl.tries.tail }.close (.br done)).enter d) := by
    apply closed.ready.enter
    rintro (same | mem)
    · exact ne same
    · exact out mem
  have sound : Sound catches env J (({ fl with tries := fl.tries.tail }.close (.br done)).enter d) (Chooses x.handlers clauses.length) := by
    rw [← table]
    exact Inv.enter closed.sound (close_blk_none ..) (closed.ready.waits d (.inl (.inl rfl)))
  let entered : Fn := ({ fl with tries := fl.tries.tail }.close (.br done)).enter d
  have next : entered.next = fl.next := close_next_eq ..
  let X : Nat → List HandlerId → Nat → Prop := fun _ => Open x.handlers
  let hits := (List.range clauses.length).map (entered.next + ·)
  have fresh : ∀ i, entered.next + i ∉ insert done U := by
    intro i mem
    have below := (ready.waits _ (.inl mem)).taken
    have same : (({ fl with tries := fl.tries.tail }.close (.br done)).enter d).next = entered.next := rfl
    omega
  have chosen : Stack catches env x entered.next clauses.length (List.range clauses.length) (insert done U) (extend J entered.next X)
      ((entered.alloc clauses.length).close (.choose hits)) := by
    have known : ∀ i < clauses.length, entered.next + i < entered.next + clauses.length := fun i below => by omega
    refine ⟨⟨?_, ?_, ?_⟩, List.nodup_range, fresh, ?_, fun i mem => List.mem_range.1 mem, close_blk_none ..⟩
    · apply Ready.close
      apply ready.alloc sound
      rintro m (⟨i, mem, rfl⟩ | mem)
      · exact .inr ⟨Nat.le_add_right .., known i (List.mem_range.1 mem)⟩
      · exact .inl mem
    · exact closed.ends
    · apply (sound.extend clauses.length X).close
      · intro m succ
        obtain ⟨i, mem, rfl⟩ := List.mem_map.1 succ
        exact known i (List.mem_range.1 mem)
      · rintro s sel ⟨rfl, pos, le⟩
        obtain ⟨i, rfl⟩ : ∃ i, sel = i + 1 := ⟨sel - 1, by omega⟩
        have hit : Lib.Landing.chosen hits (i + 1) = some (entered.next + i) := by
          simp only [Lib.Landing.chosen, hits, List.getElem?_map, List.getElem?_range (show i < clauses.length by omega), Option.map_some]
        simp only [wpTerm, hit]
        rw [show extend J entered.next X (entered.next + i) = Open x.handlers from extend_add ..]
        rfl
    · intro i below
      rw [close_next_eq]
      exact ⟨known i below, extend_add ..⟩
  have grows₁ : Grows entered.next J ((entered.alloc clauses.length).close (.choose hits)).next (extend J entered.next X) := by
    rw [close_next_eq]
    exact Grows.extend J _ X (Nat.le_refl _)
  have taken₁ : done < ((entered.alloc clauses.length).close (.choose hits)).next := by
    have le := grows₁.next
    omega
  obtain ⟨J₂, grows₂, handled⟩ := keeps done entered.next (insert done U) _ _ taken₁
    ((grows₁.same done (by omega)).trans table') chosen
  have grown := grows₁.trans grows₂
  refine ⟨J₂, ⟨by rw [← next]; exact grown.next, fun l below => grown.same l (by rwa [next])⟩, ?_⟩
  apply At.enter _ out' handled.blk ((grown.same done (by omega)).trans table')
  exact handled.at_.less fun m mem => .inr mem

theorem keeps_tryBlock {around : List Around} (t : Nat) {clauses : List Clause} {body : List Around → Fn → Fn}
    {handlers : Nat → Nat → Fn → Fn} (plain : clauses = [] → Keeps catches env x (body around))
    (within : Keeps catches env (x.inTry clauses) (body (.tryBlock t clauses :: around)))
    (keeps : KeepsHandlers catches env x clauses.length handlers) : Keeps catches env x (tryBlock around t clauses body handlers) := by
  intro U J fl at_
  unfold tryBlock
  split
  · rename_i none
    exact plain none U J fl at_
  obtain ⟨J₁, grows₁, begun, table, table'⟩ := beginTry_rule at_ clauses
  obtain ⟨J₂, grows₂, ran⟩ := within _ J₁ _ begun
  have below : fl.next < (beginTry clauses fl).next := by
    have same : (beginTry clauses fl).next = fl.next + 2 := rfl
    omega
  have below' : fl.next + 1 < (beginTry clauses fl).next := by
    have same : (beginTry clauses fl).next = fl.next + 2 := rfl
    omega
  obtain ⟨J₃, grows₃, ended⟩ := endTry_rule keeps ran (by omega) (at_.fresh 0) (at_.fresh 1)
    ((grows₂.same _ below).trans table) ((grows₂.same _ below').trans table')
  exact ⟨J₃, grows₁.trans (grows₂.trans grows₃), ended⟩

/-! ### Statements -/

@[simp] theorem emitCall_targets (around : List Around) (callee : Callee) (fl : Fn) :
    (emitCall around callee fl).targets = fl.targets := by
  unfold emitCall
  split
  · rfl
  · split <;> rfl

@[simp] theorem destroyObjs_targets (around : List Around) (objs : List Obj) (fl : Fn) :
    (destroyObjs around objs fl).targets = fl.targets := by
  induction objs generalizing fl with
  | nil => rfl
  | cons o objs ih => exact (ih _).trans (emitCall_targets ..)

theorem keeps_breakStmt {around : List Around} (stands : Stands around x) :
    Keeps catches env x fun fl => (plain around (.jump .out) (destroyFrom around fl.targets.breakDepth fl)).jump fl.targets.breakTo := by
  have jumps : Keeps catches env x fun fl => (plain around (.jump .out) fl).jump fl.targets.breakTo := by
    apply keeps_jump stands
    intro U J fl at_ l is
    rw [Jump.handlers, stands.brk]
    exact at_.ready.breakTo l is
  have all := jumps.comp (keeps_destroyFrom stands fun fl => fl.targets.breakDepth)
  simpa only [destroyFrom, destroyObjs_targets] using all

theorem keeps_continueStmt {around : List Around} (stands : Stands around x) :
    Keeps catches env x fun fl =>
      (plain around (.jump .next) (destroyFrom around fl.targets.continueDepth fl)).jump fl.targets.continueTo := by
  have jumps : Keeps catches env x fun fl => (plain around (.jump .next) fl).jump fl.targets.continueTo := by
    apply keeps_jump stands
    intro U J fl at_ l is
    rw [Jump.handlers, stands.cont]
    exact at_.ready.continueTo l is
  have all := jumps.comp (keeps_destroyFrom stands fun fl => fl.targets.continueDepth)
  simpa only [destroyFrom, destroyObjs_targets] using all

theorem bodyOrder_succ (first count : Nat) : bodyOrder first (count + 1) = first :: bodyOrder (first + 1) count := by
  rw [bodyOrder, List.range'_succ, List.cons_append]
  rfl

/-- The handlers whose blocks wait are those from `idx` on. -/
def KeepsFrom (catches : TypeInfo → ε → Bool) (env : Nat → List HandlerId) (x : Ctx) (count idx : Nat) (handlers : Nat → Nat → Fn → Fn) : Prop :=
  ∀ (done base : Nat) (U : Set Nat) (J : Table) (fl : Fn), done < fl.next → J done = Open x.handlers →
    Stack catches env x base (idx + count) (List.range' idx count) U J fl →
    ∃ J', Grows fl.next J (handlers done (base + idx) fl).next J' ∧
      Stack catches env x base (idx + count) [] U J' (handlers done (base + idx) fl)

mutual

/-- **A statement keeps what is open.** -/
theorem keeps_stmt : ∀ (s : Stmt) {around : List Around} {x : Ctx}, s.labelled env x.handlers → Stands around x →
    Keeps catches env x (stmt around s)
  | .simple s, _, _, _, stands => (keeps_simple stands s).reachable
  | .compound body, around, x, labelled, stands => by
    have inner : Keeps catches env x fun fl => popScope around (stmts around body fl.pushScope) :=
      (keeps_popScope stands).comp ((keeps_stmts body labelled stands).comp keeps_pushScope)
    intro U J fl at_
    rw [stmt]
    dsimp only
    split
    · exact ⟨J, .refl fl.next J, at_⟩
    · exact inner U J fl at_
  | .ifStmt init c arm, _, _, labelled, stands => by
    have stands₁ := stands.declares (objects_initDeclares init)
    have arm' := keeps_stmt arm labelled (stands₁.declares c.objects_declares)
    exact ((keeps_popScope stands).comp
      (((keeps_branch arm').reachable.comp (keeps_cond stands₁ c)).reachable.comp ((keeps_initStmt stands init).comp keeps_pushScope))).reachable
  | .ifElse init c arm els, _, _, labelled, stands => by
    have stands₁ := stands.declares (objects_initDeclares init)
    have arm' := keeps_stmt arm labelled.1 (stands₁.declares c.objects_declares)
    have els' := keeps_stmt els labelled.2 (stands₁.declares c.objects_declares)
    exact ((keeps_popScope stands).comp
      (((keeps_branchElse arm' els').reachable.comp (keeps_cond stands₁ c)).reachable.comp ((keeps_initStmt stands init).comp keeps_pushScope))).reachable
  | .ifConst init taken, _, _, labelled, stands =>
    ((keeps_popScope stands).comp ((keeps_stmt taken labelled (stands.declares (objects_initDeclares init))).comp
      ((keeps_initStmt stands init).comp keeps_pushScope))).reachable
  | .whileStmt c body, _, x, labelled, stands =>
    (keeps_whileStmt stands (keeps_stmt body (x := x.inLoop) labelled (stands.declares c.objects_declares).inLoop) c).reachable
  | .doStmt body e, _, x, labelled, stands =>
    (keeps_doStmt stands (keeps_stmt body (x := x.inLoop) labelled stands.inLoop) e).reachable
  | .forStmt init c post body, _, x, labelled, stands => by
    have stands₁ := stands.declares (objects_initDeclares init)
    have body' := keeps_stmt body (x := x.inLoop) labelled stands₁.inLoop
    exact ((keeps_popScope stands).comp ((keeps_forLoop stands₁ body' c post).reachable.comp
      ((keeps_initStmt stands init).comp keeps_pushScope))).reachable
  | .rangeForStmt init range proto var body, _, x, labelled, stands => by
    have stands₁ := stands.declares (objects_initDeclares init)
    have stands₂ := stands₁.declares (objects_rangeDeclares proto)
    have body' := keeps_stmt body (x := x.inLoop) labelled (stands₂.inLoop.declares (objects_objectOf var.2))
    exact ((keeps_popScope stands).comp (((keeps_rangeLoop stands₂ proto var body').comp
      (keeps_rangeSetup stands₁ range proto)).reachable.comp ((keeps_initStmt stands init).comp keeps_pushScope))).reachable
  | .switchStmt init e body, _, x, labelled, stands => by
    have stands₁ := stands.declares (objects_initDeclares init)
    have bodies := keeps_items body (x := x.inSwitch) labelled stands₁.inSwitch
    exact (((keeps_switchBody bodies).reachable.comp (keeps_fullExpr stands₁ e)).reachable.comp (keeps_initStmt stands init)).reachable
  | .breakStmt, _, _, _, stands => (keeps_breakStmt stands).reachable
  | .continueStmt, _, _, _, stands => (keeps_continueStmt stands).reachable
  | .gotoStmt name, _, _, _, stands => (keeps_gotoStmt stands name).reachable
  | .labeledStmt _ s, _, _, labelled, stands => keeps_labeledStmt stands labelled.1 (keeps_stmt s labelled.2 stands)
  | .returnStmt value, _, _, _, stands => (keeps_returnStmt stands value).reachable
  | .tryStmt t body handlers, around, x, labelled, stands => by
    have rest := keeps_handlers handlers t false 0 labelled.2 stands
    apply Keeps.reachable
    apply keeps_tryBlock
    · intro none
      simp only [if_pos none]
      exact keeps_stmt body labelled.1 stands
    · have stands₁ := stands.inTry t handlers.clauses
      have inner : Keeps catches env (x.inTry handlers.clauses) fun fl =>
          popScope (.tryBlock t handlers.clauses :: around) (stmt (.tryBlock t handlers.clauses :: around) body fl.pushScope) :=
        (keeps_popScope stands₁).comp ((keeps_stmt body (x := x.inTry handlers.clauses) labelled.1 stands₁).comp keeps_pushScope)
      by_cases none : handlers.clauses = []
      · simp only [if_pos none]
        exact keeps_stmt body (x := x.inTry handlers.clauses) labelled.1 stands₁
      · simp only [if_neg none]
        exact inner
    · intro done base U J fl taken table stack
      rw [List.range_eq_range'] at stack
      simpa only [Nat.zero_add, Nat.add_zero] using rest done base U J fl taken table (by simpa only [Nat.zero_add] using stack)

theorem keeps_stmts : ∀ (body : Stmts) {around : List Around} {x : Ctx}, body.labelled env x.handlers → Stands around x →
    Keeps catches env x (stmts around body)
  | .nil, _, _, _, _ => Keeps.id
  | .cons s rest, _, _, labelled, stands =>
    (keeps_stmts rest labelled.2 (stands.declares s.objects_declares)).comp (keeps_stmt s labelled.1 stands)

theorem keeps_items : ∀ (items : Items) {around : List Around} {x : Ctx}, items.labelled env x.handlers → Stands around x →
    KeepsBodies catches env x (caseGroups items) (caseBodies around items)
  | .nil, _, _, _, _ => by
    intro first base U J fl pos out known at_
    exact ⟨J, .refl fl.next J, by simpa [bodyOrder, caseGroups, caseBodies] using at_⟩
  | .cons labels s rest, around, x, labelled, stands => by
    have rest' := keeps_items rest labelled.2 (stands.declares s.objects_declares)
    have s' : Keeps catches env x (stmt around s) := keeps_stmt s labelled.1 stands
    intro first base U J fl pos out known at_
    by_cases none : labels = []
    · simp only [caseGroups, if_pos none] at known at_
      simp only [caseBodies, if_pos none]
      obtain ⟨J₁, grows₁, at₁⟩ := s' _ J fl at_
      obtain ⟨J₂, grows₂, at₂⟩ := rest' first base U J₁ _ pos out (known.grow grows₁) at₁
      exact ⟨J₂, grows₁.trans grows₂, at₂⟩
    · simp only [caseGroups, if_neg none, List.length_cons] at known at_
      simp only [caseBodies, if_neg none]
      have inside : ∀ i ∈ bodyOrder first ((caseGroups rest).length + 1), i < first + ((caseGroups rest).length + 1) := by
        intro i mem
        obtain below | rfl := bodyOrder_lt mem <;> omega
      have closed := Stack.close at_ (bodyOrder_nodup pos) out known inside (leads_br (i := first) (by omega))
      rw [bodyOrder_succ] at closed
      obtain ⟨J₁, grows₁, at₁⟩ := s' _ J _ closed.enter
      have grown : Stack.Known x base (first + ((caseGroups rest).length + 1)) J₁ _ := Stack.Known.grow closed.known grows₁
      have known₁ : Stack.Known x base (first + 1 + (caseGroups rest).length) J₁
          (stmt around s ((fl.close (.br (base + first))).enter (base + first))).next := fun i below => grown i (by omega)
      obtain ⟨J₂, grows₂, at₂⟩ := rest' (first + 1) base U J₁ _ (Nat.succ_pos _) out known₁ at₁
      refine ⟨J₂, ?_, at₂⟩
      have grown := grows₁.trans grows₂
      exact ⟨Nat.le_trans (Nat.le_of_eq (close_next_eq ..).symm) grown.next, fun l below => grown.same l (by
        rw [show ((fl.close (.br (base + first))).enter (base + first)).next = fl.next from close_next_eq ..]
        exact below)⟩

theorem keeps_handlers : ∀ (handlers : Handlers) (t : Nat) (rethrow : Bool) (idx : Nat) {around : List Around} {x : Ctx},
    handlers.labelled env t x.handlers idx → Stands around x →
    KeepsFrom catches env x handlers.clauses.length idx (handlerBodies around t rethrow handlers idx)
  | .nil, _, _, _, _, _, _, _ => fun _ _ _ J fl _ _ stack => ⟨J, .refl fl.next J, stack⟩
  | .cons clause param body rest, t, rethrow, idx, around, x, labelled, stands => by
    have rest' := keeps_handlers rest t rethrow (idx + 1) labelled.2 stands
    have inner := (stands.inHandler ⟨t, idx⟩).declares (objects_objectOf (param.map (·.2)))
    have body' : Keeps catches env (x.inHandler ⟨t, idx⟩) _ := keeps_stmt body (x := x.inHandler ⟨t, idx⟩) labelled.1 inner
    intro done base U J fl taken table stack
    rw [Handlers.clauses, List.length_cons, List.range'_succ] at stack
    obtain ⟨J₁, grows₁, at₁, none⟩ := handler_rule stands param body' rethrow stack.enter taken table
    have grows₁' : Grows fl.next J _ J₁ := grows₁
    have more : idx + (rest.clauses.length + 1) = idx + 1 + rest.clauses.length := by omega
    have left : Stack catches env x base (idx + 1 + rest.clauses.length) (List.range' (idx + 1) rest.clauses.length) U J₁ _ :=
      ⟨at₁, (List.nodup_cons.1 stack.nodup).2, stack.out, by rw [← more]; exact Stack.Known.grow stack.known grows₁',
        fun i mem => by have inside := stack.inside i (.tail _ mem); omega, none⟩
    obtain ⟨J₂, grows₂, last⟩ := rest' done base U J₁ _ (Nat.lt_of_lt_of_le taken grows₁'.next)
      ((grows₁'.same done taken).trans table) left
    refine ⟨J₂, grows₁'.trans grows₂, ?_⟩
    rw [Handlers.clauses, List.length_cons, more]
    exact last

end

/-! ### Functions -/

theorem keeps_memInits {around : List Around} (stands : Stands around x) (inits : List (Expr × Option Obj)) :
    Keeps catches env x (memInits around inits) := by
  induction inits with
  | nil => exact Keeps.id
  | cons init inits ih => exact ih.comp ((keeps_each (fun o => keeps_trackPartial o) init.2.toList).comp (keeps_fullEnd stands init.1))

/-- The context of a function's body. -/
def outermost : Ctx := ⟨[], [], [], []⟩

theorem stands_params (params : List Obj) : Stands (params.map Around.object) outermost := by
  have empty : Stands [] outermost := ⟨rfl, rfl, rfl, rfl⟩
  have objects : Objects (params.map Around.object) := by
    intro y mem
    obtain ⟨o, -, rfl⟩ := List.mem_map.1 mem
    exact ⟨o, rfl⟩
  simpa using empty.declares objects

theorem at_entry (params : List Obj) :
    At catches env outermost ∅ (fun _ => Open []) { next := 1, blk := some 0, scopes := [params] } := by
  refine ⟨⟨?_, ?_, .nil, ?_, ?_, ?_, ?_⟩, rfl, ?_⟩
  · intro l is
    cases is
  · intro l is
    cases is
  · intro name l is
    cases is
  · intro name name' l l' is
    cases is
  · intro name l is
    cases is
  · rintro m (mem | ⟨name, l, is, -⟩)
    · cases mem
    · cases is
  · refine ⟨fun l _ => rfl, ?_, ?_, fun l _ _ => rfl, ?_, fun l _ => rfl, fun l _ s sel holds => holds⟩
    · intro l t ends
      cases ends
    · intro l t ends
      cases ends
    · intro l cur
      cases cur
      exact Nat.zero_lt_one

theorem keeps_function {around : List Around} {f : Function} (stands : Stands around outermost) (labels : f.Labelled env) :
    Keeps catches env outermost fun fl => match f.tryBlock with
      | none => stmt around f.body (memInits around f.inits fl)
      | some (t, handlers) =>
        tryBlock around t handlers.clauses (fun around fl => stmt around f.body (memInits around f.inits fl))
          (handlerBodies around t f.rethrows handlers 0) fl := by
  have body : ∀ {around : List Around} (x : Ctx), x.handlers = [] → Stands around x →
      Keeps catches env x fun fl => stmt around f.body (memInits around f.inits fl) := by
    rintro around ⟨handlers, tries, brk, cont⟩ rfl stands
    exact (keeps_stmt f.body labels.1 stands).comp (keeps_memInits stands f.inits)
  cases isTry : f.tryBlock with
  | none => exact body _ rfl stands
  | some p =>
    obtain ⟨t, handlers⟩ := p
    apply keeps_tryBlock
    · exact fun _ => body _ rfl stands
    · exact body _ rfl (stands.inTry t handlers.clauses)
    · intro done base U J fl taken table stack
      have kept : KeepsFrom catches env outermost _ 0 _ := keeps_handlers handlers t f.rethrows 0 (labels.2 t handlers isTry) stands
      rw [List.range_eq_range'] at stack
      simpa only [Nat.zero_add, Nat.add_zero] using kept done base U J fl taken table (by simpa only [Nat.zero_add] using stack)

/-- A function respects a table where nothing is open at its entry. -/
theorem lowered_sound (catches : TypeInfo → ε → Bool) {f : Function} (labels : f.Labelled env) :
    ∃ J : Table, J 0 = Open [] ∧ Sound catches env J (lowered f) (Open []) := by
  have stands := stands_params f.params
  have inner : Keeps catches env _ _ := keeps_function (f := f) stands labels
  have left : Keeps catches env _ _ :=
    (keeps_destroyFrom stands fun _ => 0).comp ((keeps_destroyObjs stands fun _ => f.members).comp inner)
  obtain ⟨J, grows, at_⟩ := left ∅ _ _ (at_entry f.params)
  refine ⟨J, grows.same 0 Nat.zero_lt_one, ?_⟩
  have closed : Sound catches env J _ (Open []) := (at_.ends_with (t := .ret) rfl fun _ => leaves_nil).sound
  unfold lowered
  cases isTry : f.tryBlock with
  | none => simpa only [isTry] using closed
  | some p => simpa only [isTry] using closed

/-- **In every run in which no jump leaves a handler and what is thrown in a handler is held, each
handler that is entered is ended once** before control is outside of it. -/
theorem catches_ended {f : Function} (labels : f.Labelled env) {w : List (Event Call ε)} {c : Config Call Clauses}
    (run : Run (itanium catches) (lowered f).code w c) (stays : ∀ k, .did k ∈ w → Stays env k)
    (held : ∀ k e, .threw k e ∈ w → Ends catches k e) : CatchesEnded w := by
  obtain ⟨J, entry, sound⟩ := lowered_sound catches labels
  have restricted : Run (heldRuntime catches env) (lowered f).code w c := run.restrict stays held
  have start : J 0 [] 0 := by rw [entry]; rfl
  obtain ⟨hs, accepted, -⟩ := sound.accepts start restricted
  rw [CatchesEnded, accepted]
  rfl

/-- `f(k);` -/
def called (k : Nat) : Stmt := .simple (.expr (.call k .nothing (.leaf k)))

/-- `void g(C c) { try { f(0); } catch (...) { f(1); } }` -/
def throwsTwice : Function where
  params := [7]
  body := .tryStmt 0 (called 0) (.cons none none (called 1) .nil)

/-- Both calls throw, and the clean-up holds the second exception. -/
def bothThrow : List (Event Call Unit) :=
  [.did ⟨.point 0, [.tryBlock 0 [none], .object 7], true⟩, .threw ⟨.call 0 .nothing, [.tryBlock 0 [none], .object 7], true⟩ (),
    .did ⟨.beginCatch ⟨0, 0⟩, [.object 7], true⟩, .did ⟨.point 1, [.handler ⟨0, 0⟩, .object 7], true⟩,
    .threw ⟨.call 1 .nothing, [.handler ⟨0, 0⟩, .object 7], true⟩ (), .did ⟨.destroy 7, [.handler ⟨0, 0⟩, .object 7], true⟩,
    .did ⟨.endCatch, [.handler ⟨0, 0⟩, .object 7], true⟩, .left]

theorem catches_ended_twice : CatchesEnded bothThrow := by
  have labels : throwsTwice.Labelled fun _ => [] := by
    refine ⟨⟨trivial, trivial, trivial⟩, ?_⟩
    intro t handlers isTry
    cases isTry
  have entry : Run (itanium fun _ () => false) (lowered throwsTwice).code [] _ := .start
  have thrown := (entry.step (.op _ _ 0 trivial)).step (.caught (e := ()) _ 0 rfl rfl)
  have handled := (((thrown.step (.dispatches 1 1)).step (.chooses rfl)).step (.op _ _ 1 trivial)).step (.op _ _ 1 trivial)
  have run : Run (itanium fun _ () => false) (lowered throwsTwice).code bothThrow .gone :=
    (((handled.step (.caught (e := ()) _ 1 rfl rfl)).step (.op _ _ 0 trivial)).step (.op _ _ 0 trivial)).step (.resumes 0)
  apply catches_ended labels run
  · intro k mem j isJump
    simp only [bothThrow, List.mem_cons, Event.did.injEq, reduceCtorEq, List.not_mem_nil, false_or, or_false] at mem
    obtain rfl | rfl | rfl | rfl | rfl := mem <;> cases isJump
  · intro k e mem
    obtain rfl | rfl : k = ⟨.call 0 .nothing, [.tryBlock 0 [none], .object 7], true⟩ ∨
        k = ⟨.call 1 .nothing, [.handler ⟨0, 0⟩, .object 7], true⟩ := by
      simpa [bothThrow] using mem
    · exact .inl rfl
    · refine .inr ⟨?_, ?_, rfl, rfl⟩
      · intro x isDestroy
        cases isDestroy
      · intro isRethrow
        cases isRethrow

/-- `for (;;) try { f(0); } catch (...) { break; }` -/
def leavesByBreak : Function where
  body := .forStmt none none none (.tryStmt 0 (called 0) (.cons none none .breakStmt .nil))

/-- **A `break` leaves its handler open:** the function is left after `__cxa_begin_catch` with no
`__cxa_end_catch`. -/
theorem break_leaves_open : ∃ w, Run (itanium fun _ () => false) (lowered leavesByBreak).code w .gone ∧ ¬ CatchesEnded w := by
  have entry : Run (itanium fun _ () => false) (lowered leavesByBreak).code [] _ := .start
  have begun := (entry.step (.goes 0 (.inl rfl))).step (.goes 0 (.inl rfl))
  have thrown := (begun.step (.op _ _ 0 trivial)).step (.caught (e := ()) _ 0 rfl rfl)
  have handled := (((thrown.step (.dispatches 5 1)).step (.chooses rfl)).step (.op _ _ 1 trivial)).step (.op _ _ 1 trivial)
  refine ⟨[.did ⟨.point 0, [.tryBlock 0 [none], .loop], false⟩, .threw ⟨.call 0 .nothing, [.tryBlock 0 [none], .loop], false⟩ (),
    .did ⟨.beginCatch ⟨0, 0⟩, [.loop], false⟩, .did ⟨.jump .out, [.handler ⟨0, 0⟩, .loop], false⟩, .left],
    (handled.step (.goes 1 (.inl rfl))).step (.returns 1), ?_⟩
  unfold CatchesEnded
  decide

end Vcx.Unwind
