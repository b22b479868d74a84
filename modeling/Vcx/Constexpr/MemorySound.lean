import Vcx.Constexpr.Memory

/-!
# Reading what was written

A path into an object leads from slice to slice and from map to map, and a write stores into all of them on its way
back. In an object tree no two paths lead to the same one, so a write is seen at its own path and at no path apart.
-/

namespace Vcx.ConstEval
set_option autoImplicit false
open Vcx.Lib Vcx.Types
open Vcx.Constexpr (PathStep Error)

variable {h : Hierarchy} {H H₁ H' : Heap}

/-! ### Object trees -/

/-- What the parts of a value are held in. -/
inductive Holder where
  | array (a : Nat)
  | record (r : Nat)
  deriving DecidableEq

def holder : Option Value → Option Holder
  | some (.array a _ _) => some (.array a)
  | some (.record _ r _) => some (.record r)
  | _ => none

/-- The part that a step leads to, whichever member of a union is the active one. -/
def child (H : Heap) (cur : Option Value) : PathStep → Option Value
  | .index i =>
    match cur with
    | some (.string s _) => some (charElement s i.toNat)
    | some (.array a _ _) => if i < 0 then none else (H.elements a).getD i.toNat none
    | _ => none
  | .field name =>
    match cur with
    | some (.record _ r _) => entry (H.members r).fields name
    | _ => none
  | .base name =>
    match cur with
    | some (.record _ r _) => entry (H.members r).bases name
    | _ => none

def part (H : Heap) : Option Value → List PathStep → Option Value
  | cur, [] => cur
  | cur, s :: rest => part H (child H cur s) rest

/-- No two paths lead to the same slice or the same maps. -/
def IsTree (H : Heap) (v : Option Value) : Prop :=
  ∀ p q x, holder (part H v p) = some x → holder (part H v q) = some x → p = q

/-- What a path goes through. -/
def trail (H : Heap) : Option Value → List PathStep → List Holder
  | _, [] => []
  | cur, s :: rest => (holder cur).toList ++ trail H (child H cur s) rest

/-- Two heaps hold the same in one place. -/
def Same (H H' : Heap) : Holder → Prop
  | .array a => H'.elements a = H.elements a
  | .record r => H'.members r = H.members r

theorem Same.trans {x : Holder} (first : Same H H₁ x) (second : Same H₁ H' x) : Same H H' x := by
  cases x <;> exact Eq.trans second first

theorem mem_trail {cur : Option Value} {p : List PathStep} {x : Holder} (mem : x ∈ trail H cur p) :
    ∃ q, holder (part H cur q) = some x := by
  induction p generalizing cur with
  | nil => cases mem
  | cons s rest ih =>
    rcases List.mem_append.1 mem with here | there
    · exact ⟨[], Option.mem_toList.1 here⟩
    · obtain ⟨q, held⟩ := ih there
      exact ⟨s :: q, held⟩

theorem IsTree.child {v : Option Value} (tree : IsTree H v) (s : PathStep) : IsTree H (child H v s) := fun p q x left right =>
  (List.cons.inj (tree (s :: p) (s :: q) x left right)).2

theorem IsTree.not_below {v : Option Value} (tree : IsTree H v) {x : Holder} (held : holder v = some x) (s : PathStep)
    (p : List PathStep) : x ∉ trail H (ConstEval.child H v s) p := by
  intro mem
  obtain ⟨q, below⟩ := mem_trail mem
  cases tree [] (s :: q) x held below

/-- What is below one part is not below another. -/
theorem IsTree.apart {v : Option Value} (tree : IsTree H v) {s t : PathStep} (ne : s ≠ t) {p q : List PathStep} {x : Holder}
    (mem : x ∈ trail H (ConstEval.child H v s) p) : x ∉ trail H (ConstEval.child H v t) q := by
  intro other
  obtain ⟨p', left⟩ := mem_trail mem
  obtain ⟨q', right⟩ := mem_trail other
  exact ne (List.cons.inj (tree (s :: p') (t :: q') x left right)).1

/-! ### Reading -/

attribute [local simp] readStep child

theorem child_of_readStep {cur w : Option Value} {s : PathStep} (ok : readStep h H cur s = .ok w) : w = child H cur s := by
  unfold readStep at ok
  split at ok <;> split at ok <;> try cases ok
  · split at ok <;> cases ok
    rfl
  · split at ok
    · cases ok
    · rename_i inside
      cases ok
      exact (if_neg fun neg => inside (.inl neg)).symm
  · split at ok
    · cases ok
    · split at ok <;> cases ok
      symm
      assumption
  · split at ok <;> cases ok
    symm
    assumption

theorem readStep_congr {cur : Option Value} (same : ∀ x, holder cur = some x → Same H H' x) (s : PathStep) :
    readStep h H' cur s = readStep h H cur s := by
  match cur with
  | some (.array a _ _) =>
    have eq : H'.elements a = H.elements a := same (.array a) rfl
    cases s <;> simp only [readStep, eq]
  | some (.record _ r _) =>
    have eq : H'.members r = H.members r := same (.record r) rfl
    cases s <;> simp only [readStep, eq]
  | none | some .void | some (.int _) | some (.float ..) | some (.bool _) | some .nullptr | some (.pointer ..)
  | some (.reference ..) | some (.string ..) => cases s <;> rfl

theorem child_congr {cur : Option Value} (same : ∀ x, holder cur = some x → Same H H' x) (s : PathStep) :
    child H' cur s = child H cur s := by
  match cur with
  | some (.array a _ _) =>
    have eq : H'.elements a = H.elements a := same (.array a) rfl
    cases s <;> simp only [child, eq]
  | some (.record _ r _) =>
    have eq : H'.members r = H.members r := same (.record r) rfl
    cases s <;> simp only [child, eq]
  | none | some .void | some (.int _) | some (.float ..) | some (.bool _) | some .nullptr | some (.pointer ..)
  | some (.reference ..) | some (.string ..) => cases s <;> rfl

theorem readPath_cons {cur w : Option Value} {s : PathStep} {rest : List PathStep} :
    readPath h H cur (s :: rest) = .ok w ↔ ∃ next, readStep h H cur s = .ok next ∧ readPath h H next rest = .ok w := by
  rw [readPath]
  cases readStep h H cur s with
  | error e => exact ⟨fun eq => (by cases eq), fun ⟨_, eq, _⟩ => (by cases eq)⟩
  | ok next => exact ⟨fun below => ⟨next, rfl, below⟩, fun ⟨_, eq, below⟩ => (by cases eq; exact below)⟩

/-- A path reads what it goes through, and no more. -/
theorem readPath_congr {cur : Option Value} {p : List PathStep} (same : ∀ x ∈ trail H cur p, Same H H' x) :
    readPath h H' cur p = readPath h H cur p ∧ trail H' cur p = trail H cur p := by
  induction p generalizing cur with
  | nil => exact ⟨rfl, rfl⟩
  | cons s rest ih =>
    have own : ∀ x, holder cur = some x → Same H H' x := fun x held =>
      same x (List.mem_append_left _ (Option.mem_toList.2 held))
    have eq := child_congr own s
    obtain ⟨below, trailed⟩ := ih fun x mem => same x (List.mem_append_right _ mem)
    refine ⟨?_, by rw [trail, trail, eq, trailed]⟩
    rw [readPath, readPath, readStep_congr own s]
    cases ok : readStep h H cur s with
    | error e => rfl
    | ok w => rw [child_of_readStep ok]; exact below

theorem trail_append (cur : Option Value) (p q : List PathStep) :
    trail H cur (p ++ q) = trail H cur p ++ trail H (part H cur p) q := by
  induction p generalizing cur with
  | nil => rfl
  | cons s rest ih => rw [List.cons_append, trail, trail, part, ih, List.append_assoc]

theorem part_congr {cur : Option Value} {p : List PathStep} (same : ∀ x ∈ trail H cur p, Same H H' x) :
    part H' cur p = part H cur p := by
  induction p generalizing cur with
  | nil => rfl
  | cons s rest ih =>
    rw [part, part, child_congr (fun x held => same x (List.mem_append_left _ (Option.mem_toList.2 held))) s]
    exact ih fun x mem => same x (List.mem_append_right _ mem)

theorem part_of_readPath {cur w : Option Value} {p : List PathStep} (ok : readPath h H cur p = .ok w) : w = part H cur p := by
  induction p generalizing cur with
  | nil =>
    cases ok
    rfl
  | cons s rest ih =>
    obtain ⟨next, first, below⟩ := readPath_cons.1 ok
    rw [part, ← child_of_readStep first]
    exact ih below

/-! ### Storing -/

/-- What a step stores on the way back, and what takes the value's place; nothing where it leads nowhere. -/
def put (h : Hierarchy) (H H₁ : Heap) (cur : Option Value) (s : PathStep) (v : Option Value) :
    Option (Option Value × Heap) :=
  match s, cur with
  | .index i, some (.array a _ _) =>
    if i < 0 ∨ ((H.elements a).length : Int) ≤ i then none else some (cur, H₁.setElement a i.toNat v)
  | .field name, some (.record t r active) =>
    some (some (.record t r (if isUnion h t then name else active)), H₁.setField r name v)
  | .base name, some (.record _ r _) => some (cur, H₁.setBase r name v)
  | _, _ => none

attribute [local simp] put updateSubobject

theorem updateSubobject_cons {cur v' : Option Value} {s : PathStep} {rest : List PathStep} {offset : Int} {new : Option Value} :
    updateSubobject h H cur (s :: rest) offset new = (.ok v', H') ↔
      ∃ v H₁, updateSubobject h H (child H cur s) rest offset new = (.ok v, H₁) ∧ put h H H₁ cur s v = some (v', H') := by
  constructor
  · intro done
    cases s with
    | index i =>
      unfold updateSubobject at done
      split at done
      · rename_i a elemType typ
        split at done
        · cases done
        · rename_i inside
          have eq : child H (some (.array a elemType typ)) (.index i) = (H.elements a).getD i.toNat none :=
            if_neg fun neg => inside (.inl neg)
          split at done
          · cases done
          · rename_i v H₁ below
            cases done
            exact ⟨v, H₁, eq ▸ below, if_neg inside⟩
      · cases done
    | field name =>
      unfold updateSubobject at done
      split at done
      · split at done
        · cases done
        · rename_i v H₁ below
          cases done
          exact ⟨v, H₁, below, rfl⟩
      · cases done
    | base name =>
      unfold updateSubobject at done
      split at done
      · split at done
        · cases done
        · rename_i v H₁ below
          cases done
          exact ⟨v, H₁, below, rfl⟩
      · cases done
  · rintro ⟨v, H₁, below, stored⟩
    unfold put at stored
    split at stored
    · split at stored
      · cases stored
      · rename_i i a elemType typ inside
        cases stored
        have eq : child H (some (.array a elemType typ)) (.index i) = (H.elements a).getD i.toNat none :=
          if_neg fun neg => inside (.inl neg)
        rw [eq] at below
        simp only [updateSubobject, if_neg inside, below]
    · cases stored
      simp only [child] at below
      simp only [updateSubobject, below]
    · cases stored
      simp only [child] at below
      simp only [updateSubobject, below]
    · cases stored

/-! ### What a store leaves -/

theorem elements_setElement (a i : Nat) (v : Option Value) : (H.setElement a i v).elements a = (H.elements a).set i v :=
  Function.update_self ..

theorem members_setField (r : Nat) (name : String) (v : Option Value) :
    (H.setField r name v).members r = { H.members r with fields := setEntry (H.members r).fields name v } :=
  Function.update_self ..

theorem members_setBase (r : Nat) (name : String) (v : Option Value) :
    (H.setBase r name v).members r = { H.members r with bases := setEntry (H.members r).bases name v } :=
  Function.update_self ..

theorem same_setElement (a i : Nat) (v : Option Value) : ∀ y, y ≠ .array a → Same H (H.setElement a i v) y
  | .array _, ne => Function.update_of_ne (fun eq => ne (congrArg Holder.array eq)) ..
  | .record _, _ => rfl

theorem same_setField (r : Nat) (name : String) (v : Option Value) : ∀ y, y ≠ .record r → Same H (H.setField r name v) y
  | .array _, _ => rfl
  | .record _, ne => Function.update_of_ne (fun eq => ne (congrArg Holder.record eq)) ..

theorem same_setBase (r : Nat) (name : String) (v : Option Value) : ∀ y, y ≠ .record r → Same H (H.setBase r name v) y
  | .array _, _ => rfl
  | .record _, ne => Function.update_of_ne (fun eq => ne (congrArg Holder.record eq)) ..

theorem entry_setEntry (m : List (String × Option Value)) (name : String) (v : Option Value) :
    entry (setEntry m name v) name = v := by
  induction m with
  | nil => simp [entry, setEntry]
  | cons e rest ih =>
    obtain ⟨k, x⟩ := e
    rw [setEntry]
    split
    · rename_i eq
      simp [entry, eq]
    · rename_i ne
      simpa [entry, List.lookup_cons, beq_false_of_ne (Ne.symm ne)] using ih

theorem entry_setEntry_ne {name other : String} (ne : other ≠ name) (m : List (String × Option Value)) (v : Option Value) :
    entry (setEntry m name v) other = entry m other := by
  induction m with
  | nil => simp [entry, setEntry, List.lookup_cons, beq_false_of_ne ne]
  | cons e rest ih =>
    obtain ⟨k, x⟩ := e
    rw [setEntry]
    split
    · rename_i eq
      simp [entry, List.lookup_cons, beq_false_of_ne (eq ▸ ne)]
    · simp only [entry, List.lookup_cons] at ih ⊢
      split
      · rfl
      · exact ih

/-- Members of one union. -/
def Rivals (h : Hierarchy) (cur : Option Value) (s t : PathStep) : Prop :=
  match cur, s, t with
  | some (.record r _ _), .field _, .field _ => isUnion h r = true
  | _, _, _ => False

/-- What storing at a step does, to the heap and to what a value is read as. -/
structure Stored (h : Hierarchy) (H H' : Heap) (cur cur' : Option Value) (x : Holder) (s : PathStep) (v : Option Value) :
    Prop where
  held : holder cur' = some x
  other : ∀ y, y ≠ x → Same H H' y
  here : child H' cur' s = v
  reads : v.isSome → readStep h H' cur' s = .ok v
  beside : ∀ t, t ≠ s → child H' cur' t = child H cur t
  readsBeside : ∀ t, t ≠ s → ¬ Rivals h cur s t → readStep h H' cur' t = readStep h H cur t

theorem put_stored {cur cur' v : Option Value} {s : PathStep} {x : Holder} (held : holder cur = some x) (same : Same H H₁ x)
    (stored : put h H H₁ cur s v = some (cur', H')) : Stored h H₁ H' cur cur' x s v := by
  unfold put at stored
  split at stored
  · rename_i i a elemType typ
    cases held
    split at stored
    · cases stored
    rename_i inside
    cases stored
    have len : H₁.elements a = H.elements a := same
    have bound : i.toNat < (H₁.elements a).length := by rw [len]; omega
    have at_ : ((H₁.setElement a i.toNat v).elements a).getD i.toNat none = v := by
      rw [elements_setElement, List.getD_eq_getElem?_getD, List.getElem?_set_self bound, Option.getD_some]
    have beside : ∀ t, t ≠ .index i → child (H₁.setElement a i.toNat v) (some (.array a elemType typ)) t =
        child H₁ (some (.array a elemType typ)) t := by
      rintro (j | name | name) ne
      · simp only [child]
        split
        · rfl
        · have apart : i.toNat ≠ j.toNat := fun eq => ne (congrArg PathStep.index (by omega))
          rw [elements_setElement, List.getD_eq_getElem?_getD, List.getElem?_set_ne apart, List.getD_eq_getElem?_getD]
      · rfl
      · rfl
    refine ⟨rfl, same_setElement a _ v, ?_, fun _ => ?_, beside, ?_⟩
    · simp only [child, if_neg fun neg => inside (.inl neg), at_]
    · have out : ¬ (i < 0 ∨ (((H₁.setElement a i.toNat v).elements a).length : Int) ≤ i) := by
        rw [elements_setElement, List.length_set, len]
        exact inside
      simp only [readStep, if_neg out, at_]
    · rintro (j | name | name) ne -
      · have eq := beside (.index j) ne
        simp only [child] at eq
        simp only [readStep]
        rw [show ((H₁.setElement a i.toNat v).elements a).length = (H₁.elements a).length by
          rw [elements_setElement, List.length_set]]
        split
        · rfl
        · rename_i out
          rw [if_neg fun neg => out (.inl neg), if_neg fun neg => out (.inl neg)] at eq
          rw [eq]
      · rfl
      · rfl
  · rename_i name t r active
    cases held
    cases stored
    have at_ : entry ((H₁.setField r name v).members r).fields name = v := by
      rw [members_setField]
      exact entry_setEntry ..
    refine ⟨rfl, same_setField r name v, at_, fun some_ => ?_, ?_, ?_⟩
    · obtain ⟨w, rfl⟩ := Option.isSome_iff_exists.1 some_
      simp only [readStep, at_]
      rw [if_neg]
      rintro ⟨union, -, ne⟩
      rw [if_pos union] at ne
      exact ne rfl
    · rintro (j | other | other) ne
      · rfl
      · have apart : other ≠ name := fun eq => ne (congrArg PathStep.field eq)
        simp only [child, members_setField, entry_setEntry_ne apart]
      · simp only [child, members_setField]
    · rintro (j | other | other) ne rivals
      · rfl
      · have apart : other ≠ name := fun eq => ne (congrArg PathStep.field eq)
        have plain : isUnion h t = false := Bool.eq_false_iff.2 rivals
        simp only [readStep, members_setField, entry_setEntry_ne apart, plain, Bool.false_eq_true, false_and, if_false]
      · simp only [readStep, members_setField]
  · rename_i name t r active
    cases held
    cases stored
    have at_ : entry ((H₁.setBase r name v).members r).bases name = v := by
      rw [members_setBase]
      exact entry_setEntry ..
    refine ⟨rfl, same_setBase r name v, at_, fun some_ => ?_, ?_, ?_⟩
    · obtain ⟨w, rfl⟩ := Option.isSome_iff_exists.1 some_
      simp only [readStep, at_]
    · rintro (j | other | other) ne
      · rfl
      · simp only [child, members_setBase]
      · have apart : other ≠ name := fun eq => ne (congrArg PathStep.base eq)
        simp only [child, members_setBase, entry_setEntry_ne apart]
    · rintro (j | other | other) ne -
      · rfl
      · simp only [readStep, members_setBase]
      · have apart : other ≠ name := fun eq => ne (congrArg PathStep.base eq)
        simp only [readStep, members_setBase, entry_setEntry_ne apart]
  · cases stored

theorem put_holder {cur v : Option Value} {s : PathStep} {r : Option Value × Heap} (stored : put h H H₁ cur s v = some r) :
    ∃ x, holder cur = some x := by
  unfold put at stored
  split at stored
  · exact ⟨_, rfl⟩
  · exact ⟨_, rfl⟩
  · exact ⟨_, rfl⟩
  · cases stored

theorem put_some {cur cur' v : Option Value} {s : PathStep} (stored : put h H H₁ cur s v = some (cur', H')) :
    cur'.isSome := by
  unfold put at stored
  split at stored
  · split at stored <;> cases stored
    rfl
  · cases stored
    rfl
  · cases stored
    rfl
  · cases stored

/-! ### A write -/

/-- Paths that part at a step, other than at the members of one union. -/
def Apart (h : Hierarchy) (H : Heap) : Option Value → List PathStep → List PathStep → Prop
  | cur, s :: p, t :: q => if t = s then Apart h H (child H cur s) p q else ¬ Rivals h cur s t
  | _, _, _ => False

/-- What writing at a path does to an object tree. -/
structure Written (h : Hierarchy) (H H' : Heap) (cur cur' : Option Value) (p : List PathStep) (v : Value) : Prop where
  outside : ∀ x, x ∉ trail H cur p → Same H H' x
  isSome : cur'.isSome
  held : ∀ q s r, p = q ++ s :: r → holder (part H' cur' q) = holder (part H cur q)
  back : readPath h H' cur' p = .ok (some v) ∧ trail H' cur' p = trail H cur p
  apart : ∀ q w, Apart h H cur p q → readPath h H cur q = .ok w →
    readPath h H' cur' q = .ok w ∧ trail H' cur' q = trail H cur q

theorem Stored.readPath {cur cur' v w : Option Value} {s : PathStep} {x : Holder} (stored : Stored h H₁ H' cur cur' x s v)
    {p : List PathStep} (off : x ∉ trail H₁ w p) :
    ConstEval.readPath h H' w p = ConstEval.readPath h H₁ w p ∧ trail H' w p = trail H₁ w p :=
  readPath_congr fun y mem => stored.other y fun eq => off (eq ▸ mem)

theorem updateSubobject_written {cur cur' : Option Value} {p : List PathStep} {v : Value} (tree : IsTree H cur)
    (done : updateSubobject h H cur p 0 (some v) = (.ok cur', H')) : Written h H H' cur cur' p v := by
  induction p generalizing cur cur' H' with
  | nil =>
    cases done
    refine ⟨fun x _ => by cases x <;> rfl, rfl, fun q s r eq => ?_, ⟨rfl, rfl⟩, fun q w apart => ?_⟩
    · cases q <;> cases eq
    · cases apart
  | cons s rest ih =>
    obtain ⟨below, H₁, inner, put⟩ := updateSubobject_cons.1 done
    obtain ⟨x, held⟩ := put_holder put
    have written := ih (tree.child s) inner
    have kept : Same H H₁ x := written.outside x (tree.not_below held s rest)
    have stored := put_stored held kept put
    have trailed : ∀ q, trail H cur (s :: q) = x :: trail H (child H cur s) q := fun q => by rw [trail, held]; rfl
    have trailed' : ∀ t q, trail H' cur' (t :: q) = x :: trail H' (child H' cur' t) q := fun t q => by
      rw [trail, stored.held]; rfl
    refine ⟨fun y off => ?_, put_some put, fun q t r eq => ?_, ?_, fun q w apart read => ?_⟩
    · rw [trailed, List.mem_cons, not_or] at off
      exact (written.outside y off.2).trans (stored.other y off.1)
    · match q, eq with
      | [], _ => exact stored.held.trans held.symm
      | u :: q, eq =>
        obtain ⟨rfl, tail⟩ : s = u ∧ rest = q ++ t :: r := List.cons.inj eq
        have off : x ∉ trail H₁ below q := by
          intro mem
          have more : x ∈ trail H₁ below rest := by
            rw [tail, trail_append]
            exact List.mem_append_left _ mem
          rw [written.back.2] at more
          exact tree.not_below held s _ more
        rw [part, part, stored.here, ← written.held q t r tail]
        exact congrArg holder (part_congr fun y mem => stored.other y fun eq => off (eq ▸ mem))
    · have off : x ∉ trail H₁ below rest := by
        rw [written.back.2]
        exact tree.not_below held s rest
      obtain ⟨read, eq⟩ := stored.readPath off
      constructor
      · rw [readPath, stored.reads written.isSome]
        exact read.trans written.back.1
      · rw [trailed, trailed', stored.here, eq, written.back.2]
    · match q, apart with
      | t :: q, apart =>
        obtain ⟨next, first, rest_⟩ := readPath_cons.1 read
        obtain rfl := child_of_readStep first
        by_cases same : t = s
        · subst same
          rw [Apart, if_pos rfl] at apart
          obtain ⟨inside, eq⟩ := written.apart q w apart rest_
          have off : x ∉ trail H₁ below q := by
            rw [eq]
            exact tree.not_below held t q
          obtain ⟨read', eq'⟩ := stored.readPath off
          constructor
          · rw [readPath, stored.reads written.isSome]
            exact read'.trans inside
          · rw [trailed, trailed', stored.here, eq', eq]
        · rw [Apart, if_neg same] at apart
          have off : ∀ y ∈ trail H (child H cur t) q, Same H H' y := fun y mem =>
            (written.outside y (tree.apart same mem)).trans (stored.other y fun eq => tree.not_below held t q (eq ▸ mem))
          obtain ⟨read', eq⟩ := readPath_congr (h := h) off
          have own : ∀ y, holder cur = some y → Same H H₁ y := fun y own => by
            rw [held] at own
            cases own
            exact kept
          constructor
          · rw [readPath, stored.readsBeside t same apart, readStep_congr own, first]
            exact read'.trans rest_
          · rw [trailed', stored.beside t same, child_congr own, eq, trail, held]
            rfl

/-- A write that fails has stored nothing. -/
theorem updateSubobject_failed {cur new : Option Value} {p : List PathStep} {offset : Int} {e : Error}
    (failed : updateSubobject h H cur p offset new = (.error e, H')) : H' = H := by
  fun_induction updateSubobject h H cur p offset new generalizing e H' with
  | case6 _ _ _ _ _ _ _ _ inner ih | case9 _ _ _ _ _ _ _ inner ih | case12 _ _ _ _ _ _ _ inner ih =>
    cases failed
    exact ih inner
  | _ => cases failed <;> rfl

theorem updateSubobject_through {cur cur' new : Option Value} {p q : List PathStep} {s : PathStep} {offset : Int}
    (done : updateSubobject h H cur (p ++ s :: q) offset new = (.ok cur', H')) :
    ∃ x, holder (part H cur p) = some x := by
  induction p generalizing cur cur' H' with
  | nil =>
    obtain ⟨_, _, _, put⟩ := updateSubobject_cons.1 done
    exact put_holder put
  | cons t rest ih =>
    obtain ⟨_, _, inner, _⟩ := updateSubobject_cons.1 done
    exact ih inner

theorem updateSubobject_offset {cur cur' new : Option Value} {p : List PathStep} {offset : Int} (ne : offset ≠ 0) :
    updateSubobject h H cur p offset new = (.ok cur', H') ↔
      updateSubobject h H cur (p ++ [.index offset]) 0 new = (.ok cur', H') := by
  induction p generalizing cur cur' H' with
  | nil =>
    rw [List.nil_append, updateSubobject_cons]
    constructor
    · intro done
      simp only [updateSubobject, if_pos ne] at done
      split at done
      · split at done
        · cases done
        · rename_i inside
          cases done
          exact ⟨new, H, rfl, if_neg inside⟩
      · cases done
    · rintro ⟨v, H₁, inner, stored⟩
      cases inner
      cases cur with
      | none => cases stored
      | some value =>
        cases value with
        | array a elemType typ =>
          simp only [put] at stored
          split at stored
          · cases stored
          · rename_i inside
            cases stored
            simp only [updateSubobject, if_pos ne, if_neg inside]
        | _ => cases stored
  | cons s rest ih =>
    rw [List.cons_append, updateSubobject_cons, updateSubobject_cons]
    simp only [ih]

end Vcx.ConstEval
