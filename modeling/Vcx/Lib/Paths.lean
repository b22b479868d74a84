import Mathlib.Data.Set.Lattice

/-!
# Paths through basic blocks

A control-flow graph under construction: blocks are allocated, written one at a time and closed
by a branch or a return. `Path` reads the events of a run off the finished blocks. A table gives
each label the event sequences that may follow it (`Inv` says that the closed blocks respect it
and what the open one still owes); whatever table the construction respects covers every path.
-/

namespace Vcx.Lib
set_option autoImplicit false

/-- How a block ends. -/
inductive Term
  | br (l : Nat)
  | brIf (l m : Nat)
  | ret
  deriving Repr, DecidableEq

def Term.succs : Term → List Nat
  | .br l => [l]
  | .brIf l m => [l, m]
  | .ret => []

variable {ε : Type}

/-- A block: its events in order and how it ends, if it has been closed. -/
structure Block (ε : Type) where
  ops : List ε := []
  term : Option Term := none
  deriving Repr

/-- The events on a path from the start of a block to a return. -/
inductive Path (code : Nat → Block ε) : Nat → List ε → Prop
  | ret {l : Nat} (ends : (code l).term = some .ret) : Path code l (code l).ops
  | step {l m : Nat} {t : Term} {w : List ε} (ends : (code l).term = some t) (goes : m ∈ t.succs)
    (rest : Path code m w) : Path code l ((code l).ops ++ w)

/-- A graph under construction: labels below `next` are taken, and `blk` is the block being
written, if there is one. -/
structure Graph (ε : Type) where
  next : Nat := 0
  code : Nat → Block ε := fun _ => {}
  blk : Option Nat := none

namespace Graph

/-- Takes the next labels. -/
def alloc (g : Graph ε) (count : Nat) : Graph ε := { g with next := g.next + count }

/-- Goes on at the start of a block. -/
def enter (g : Graph ε) (l : Nat) : Graph ε := { g with blk := some l }

/-- Writes an event to the current block; where there is none it is unreachable. -/
def emit (g : Graph ε) (e : ε) : Graph ε :=
  match g.blk with
  | none => g
  | some l => { g with code := Function.update g.code l { g.code l with ops := (g.code l).ops ++ [e] } }

def emitAll (g : Graph ε) (es : List ε) : Graph ε := es.foldl emit g

/-- Ends the current block. -/
def close (g : Graph ε) (t : Term) : Graph ε :=
  match g.blk with
  | none => g
  | some l => { g with code := Function.update g.code l { g.code l with term := some t }, blk := none }

@[simp] theorem alloc_next (g : Graph ε) (count : Nat) : (g.alloc count).next = g.next + count := rfl
@[simp] theorem alloc_code (g : Graph ε) (count : Nat) : (g.alloc count).code = g.code := rfl
@[simp] theorem alloc_blk (g : Graph ε) (count : Nat) : (g.alloc count).blk = g.blk := rfl
@[simp] theorem enter_next (g : Graph ε) (l : Nat) : (g.enter l).next = g.next := rfl
@[simp] theorem enter_code (g : Graph ε) (l : Nat) : (g.enter l).code = g.code := rfl
@[simp] theorem enter_blk (g : Graph ε) (l : Nat) : (g.enter l).blk = some l := rfl

@[simp] theorem emit_next (g : Graph ε) (e : ε) : (g.emit e).next = g.next := by
  unfold emit
  split <;> rfl

@[simp] theorem emit_blk (g : Graph ε) (e : ε) : (g.emit e).blk = g.blk := by
  unfold emit
  split <;> rfl

theorem emit_code_of_ne {g : Graph ε} {e : ε} {l : Nat} (other : g.blk ≠ some l) : (g.emit e).code l = g.code l := by
  unfold emit
  split
  · rfl
  · rename_i cur isCur
    have ne : l ≠ cur := by
      intro same
      rw [same] at other
      exact other isCur
    exact Function.update_of_ne ne _ _

@[simp] theorem emitAll_next (g : Graph ε) (es : List ε) : (g.emitAll es).next = g.next := by
  induction es generalizing g with
  | nil => rfl
  | cons e es ih => exact (ih _).trans (emit_next g e)

theorem emitAll_append (g : Graph ε) (es fs : List ε) : g.emitAll (es ++ fs) = (g.emitAll es).emitAll fs :=
  List.foldl_append

@[simp] theorem close_next (g : Graph ε) (t : Term) : (g.close t).next = g.next := by
  unfold close
  split <;> rfl

@[simp] theorem close_blk (g : Graph ε) (t : Term) : (g.close t).blk = none := by
  unfold close
  split <;> simp_all

theorem close_code_of_ne {g : Graph ε} {t : Term} {l : Nat} (other : g.blk ≠ some l) : (g.close t).code l = g.code l := by
  unfold close
  split
  · rfl
  · rename_i cur isCur
    have ne : l ≠ cur := by
      intro same
      rw [same] at other
      exact other isCur
    exact Function.update_of_ne ne _ _

end Graph

/-! ### What a piece of the construction leaves alone -/

/-- From `g` to `g'` only the current block of `g` and new ones were written. -/
structure Frame (g g' : Graph ε) : Prop where
  next : g.next ≤ g'.next
  code : ∀ l < g.next, g.blk ≠ some l → g'.code l = g.code l
  blk : ∀ l < g.next, g'.blk = some l → g.blk = some l

theorem Frame.refl (g : Graph ε) : Frame g g := ⟨Nat.le_refl _, fun _ _ _ => rfl, fun _ _ same => same⟩

theorem Frame.trans {a b c : Graph ε} (first : Frame a b) (second : Frame b c) : Frame a c where
  next := Nat.le_trans first.next second.next
  code l below other := by
    rw [second.code l (Nat.lt_of_lt_of_le below first.next) fun cur => other (first.blk l below cur)]
    exact first.code l below other
  blk l below cur := first.blk l below (second.blk l (Nat.lt_of_lt_of_le below first.next) cur)

theorem Frame.alloc {g g' : Graph ε} (frame : Frame g g') (count : Nat) : Frame g (g'.alloc count) :=
  ⟨Nat.le_trans frame.next (Nat.le_add_right ..), frame.code, frame.blk⟩

theorem Frame.emit {g g' : Graph ε} (frame : Frame g g') (e : ε) : Frame g (g'.emit e) where
  next := by rw [Graph.emit_next]; exact frame.next
  code l below other := by
    rw [Graph.emit_code_of_ne fun cur => other (frame.blk l below cur)]
    exact frame.code l below other
  blk l below cur := frame.blk l below (by rwa [Graph.emit_blk] at cur)

theorem Frame.emitAll {g g' : Graph ε} (frame : Frame g g') (es : List ε) : Frame g (g'.emitAll es) := by
  induction es generalizing g' with
  | nil => exact frame
  | cons e es ih => exact ih (frame.emit e)

theorem Frame.close {g g' : Graph ε} (frame : Frame g g') (t : Term) : Frame g (g'.close t) where
  next := by rw [Graph.close_next]; exact frame.next
  code l below other := by
    rw [Graph.close_code_of_ne fun cur => other (frame.blk l below cur)]
    exact frame.code l below other
  blk l below cur := by simp at cur

/-- Going on at a block that was taken since. -/
theorem Frame.enter {g g' : Graph ε} (frame : Frame g g') {l : Nat} (new : g.next ≤ l) : Frame g (g'.enter l) where
  next := frame.next
  code := frame.code
  blk m below cur := by
    simp only [Graph.enter_blk, Option.some.injEq] at cur
    omega

/-! ### Tables -/

/-- What may follow the end of a block. -/
def Term.future (t : Term) (J : Nat → Set (List ε)) : Set (List ε) :=
  {w | (t = .ret ∧ w = []) ∨ ∃ m ∈ t.succs, w ∈ J m}

/-- The table with other entries from the label `n` on. -/
def extend (J : Nat → Set (List ε)) (n : Nat) (X : Nat → Set (List ε)) : Nat → Set (List ε) :=
  fun l => if l < n then J l else X (l - n)

theorem extend_of_lt {J : Nat → Set (List ε)} {n l : Nat} (X : Nat → Set (List ε)) (below : l < n) :
    extend J n X l = J l := if_pos below

@[simp] theorem extend_add (J : Nat → Set (List ε)) (n i : Nat) (X : Nat → Set (List ε)) : extend J n X (n + i) = X i := by
  rw [extend, if_neg (by omega), Nat.add_sub_cancel_left]

@[simp] theorem extend_self (J : Nat → Set (List ε)) (n : Nat) (X : Nat → Set (List ε)) : extend J n X n = X 0 :=
  extend_add J n 0 X

/-- The graph respects the table `J`: closed blocks lead from a label to what the table has for
it, and the current block does if what follows is in `P`. -/
structure Inv (J : Nat → Set (List ε)) (g : Graph ε) (P : Set (List ε)) : Prop where
  fresh : ∀ l, g.next ≤ l → g.code l = {}
  below : ∀ l t, (g.code l).term = some t → ∀ m ∈ t.succs, m < g.next
  closed : ∀ l t, (g.code l).term = some t → ∀ w ∈ t.future J, (g.code l).ops ++ w ∈ J l
  taken : ∀ l, g.blk = some l → l < g.next
  isOpen : ∀ l, g.blk = some l → (g.code l).term = none
  owes : ∀ l, g.blk = some l → ∀ w ∈ P, (g.code l).ops ++ w ∈ J l

namespace Inv

variable {J J' : Nat → Set (List ε)} {g : Graph ε} {P Q : Set (List ε)}

theorem mono (inv : Inv J g P) (less : Q ⊆ P) : Inv J g Q :=
  { inv with owes := fun l cur w mem => inv.owes l cur w (less mem) }

theorem unreachable (inv : Inv J g P) (none : g.blk = none) : Inv J g Q :=
  { inv with owes := fun l cur => by simp [none] at cur }

/-- A closed label is a taken one. -/
theorem closed_lt (inv : Inv J g P) {l : Nat} {t : Term} (ends : (g.code l).term = some t) : l < g.next := by
  by_contra above
  rw [inv.fresh l (Nat.le_of_not_lt above)] at ends
  cases ends

/-- The table of the labels not taken yet is free. -/
theorem agree (inv : Inv J g P) (same : ∀ l < g.next, J' l = J l) : Inv J' g P where
  fresh := inv.fresh
  below := inv.below
  closed l t ends w mem := by
    rw [same l (inv.closed_lt ends)]
    apply inv.closed l t ends
    obtain ends' | ⟨m, succ, mem⟩ := mem
    · exact .inl ends'
    · exact .inr ⟨m, succ, by rwa [← same m (inv.below l t ends m succ)]⟩
  taken := inv.taken
  isOpen := inv.isOpen
  owes l cur w mem := by
    rw [same l (inv.taken l cur)]
    exact inv.owes l cur w mem

theorem extend (inv : Inv J g P) (X : Nat → Set (List ε)) : Inv (extend J g.next X) g P :=
  inv.agree fun _ below => extend_of_lt X below

theorem alloc (inv : Inv J g P) (count : Nat) : Inv J (g.alloc count) P where
  fresh l above := inv.fresh l (by simp only [Graph.alloc_next] at above; omega)
  below l t ends m succ := Nat.lt_of_lt_of_le (inv.below l t ends m succ) (Nat.le_add_right ..)
  closed := inv.closed
  taken l cur := Nat.lt_of_lt_of_le (inv.taken l cur) (Nat.le_add_right ..)
  isOpen := inv.isOpen
  owes := inv.owes

theorem enter (inv : Inv J g P) {l : Nat} (taken : l < g.next) (blank : g.code l = {}) : Inv J (g.enter l) (J l) where
  fresh := inv.fresh
  below := inv.below
  closed := inv.closed
  taken m cur := by
    cases cur
    exact taken
  isOpen m cur := by
    cases cur
    simp [blank]
  owes m cur w mem := by
    cases cur
    simpa [blank] using mem

theorem emit (inv : Inv J g P) (e : ε) : Inv J (g.emit e) {w | e :: w ∈ P} := by
  cases cur : g.blk with
  | none =>
    have same : g.emit e = g := by simp [Graph.emit, cur]
    rw [same]
    exact inv.unreachable cur
  | some c =>
    have here : (g.emit e).code c = { ops := (g.code c).ops ++ [e], term := none } := by
      simp [Graph.emit, cur, inv.isOpen c cur]
    have there : ∀ l, l ≠ c → (g.emit e).code l = g.code l := fun l ne =>
      Graph.emit_code_of_ne (by rw [cur]; exact fun same => ne (Option.some.inj same).symm)
    refine { fresh := ?_, below := ?_, closed := ?_, taken := ?_, isOpen := ?_, owes := ?_ }
    · intro l above
      rw [Graph.emit_next] at above
      have taken := inv.taken c cur
      rw [there l (by omega), inv.fresh l above]
    · intro l t ends
      rw [Graph.emit_next]
      by_cases same : l = c
      · rw [same, here] at ends
        cases ends
      · rw [there l same] at ends
        exact inv.below l t ends
    · intro l t ends
      by_cases same : l = c
      · rw [same, here] at ends
        cases ends
      · rw [there l same] at ends ⊢
        exact inv.closed l t ends
    · intro l cur'
      rw [Graph.emit_next]
      exact inv.taken l (by rwa [Graph.emit_blk] at cur')
    · intro l cur'
      rw [Graph.emit_blk, cur] at cur'
      cases cur'
      rw [here]
    · intro l cur' w mem
      rw [Graph.emit_blk, cur] at cur'
      cases cur'
      rw [here, List.append_assoc]
      exact inv.owes c cur _ mem

theorem emitAll (inv : Inv J g P) (es : List ε) : Inv J (g.emitAll es) {w | es ++ w ∈ P} := by
  induction es generalizing g P with
  | nil => exact inv
  | cons e es ih => exact ih (inv.emit e)

theorem close (inv : Inv J g P) {t : Term} (taken : ∀ m ∈ t.succs, m < g.next) (future : t.future J ⊆ P) :
    Inv J (g.close t) Q := by
  cases cur : g.blk with
  | none =>
    have same : g.close t = g := by simp [Graph.close, cur]
    rw [same]
    exact inv.unreachable cur
  | some c =>
    have here : (g.close t).code c = { ops := (g.code c).ops, term := some t } := by
      simp [Graph.close, cur]
    have there : ∀ l, l ≠ c → (g.close t).code l = g.code l := fun l ne =>
      Graph.close_code_of_ne (by rw [cur]; exact fun same => ne (Option.some.inj same).symm)
    refine { fresh := ?_, below := ?_, closed := ?_, taken := ?_, isOpen := ?_, owes := ?_ }
    · intro l above
      rw [Graph.close_next] at above
      have taken := inv.taken c cur
      rw [there l (by omega), inv.fresh l above]
    · intro l t' ends
      rw [Graph.close_next]
      by_cases same : l = c
      · rw [same, here] at ends
        cases ends
        exact taken
      · rw [there l same] at ends
        exact inv.below l t' ends
    · intro l t' ends w mem
      by_cases same : l = c
      · rw [same, here] at ends ⊢
        cases ends
        exact inv.owes c cur w (future mem)
      · rw [there l same] at ends ⊢
        exact inv.closed l t' ends w mem
    all_goals
      intro l cur'
      simp at cur'

/-- A block taken since is blank until it is entered. -/
theorem blank (inv : Inv J g P) (count : Nat) (t : Term) {l : Nat} (new : g.next ≤ l) :
    ((g.alloc count).close t).code l = {} := by
  rw [Graph.close_code_of_ne, Graph.alloc_code, inv.fresh l new]
  intro cur
  have taken := inv.taken l cur
  omega

/-- Closing a block by a branch. -/
theorem br (inv : Inv J g P) {l : Nat} (taken : l < g.next) (future : J l ⊆ P) : Inv J (g.close (.br l)) Q := by
  apply inv.close
  · intro m succ
    rwa [List.mem_singleton.1 succ]
  · rintro w (⟨ends, -⟩ | ⟨m, succ, mem⟩)
    · cases ends
    · rw [List.mem_singleton.1 succ] at mem
      exact future mem

theorem brIf (inv : Inv J g P) {l m : Nat} (taken : l < g.next) (taken' : m < g.next) (future : J l ⊆ P)
    (future' : J m ⊆ P) : Inv J (g.close (.brIf l m)) Q := by
  apply inv.close
  · intro k succ
    obtain rfl | succ := List.mem_cons.1 succ
    · exact taken
    · rwa [List.mem_singleton.1 succ]
  · rintro w (⟨ends, -⟩ | ⟨k, succ, mem⟩)
    · cases ends
    · obtain rfl | succ := List.mem_cons.1 succ
      · exact future mem
      · rw [List.mem_singleton.1 succ] at mem
        exact future' mem

/-- **A table that the finished graph respects covers every path.** -/
theorem covers (inv : Inv J g P) {l : Nat} {w : List ε} (path : Path g.code l w) : w ∈ J l := by
  induction path with
  | ret ends => simpa using inv.closed _ _ ends [] (.inl ⟨rfl, rfl⟩)
  | step ends goes _ covered => exact inv.closed _ _ ends _ (.inr ⟨_, goes, covered⟩)

end Inv

end Vcx.Lib
