import Vcx.Constexpr.MemorySound

/-!
# Places of an object

A place is a path and an offset, and an element of an array has two: the path that ends in its index, and the path to
the array with the index for an offset. Reads and writes agree about them. Pointer arithmetic advances the offset of
either, which is right for the second only.
-/

namespace Vcx.ConstEval
set_option autoImplicit false
open Vcx.Lib Vcx.Types
open Vcx.Constexpr (PathStep Error newBigInt)

variable {h : Hierarchy} {H H' : Heap} {o o' : Object}

/-! ### Places -/

/-- The path to a place: an offset other than zero is an index. -/
def pathTo (path : List PathStep) (offset : Int) : List PathStep :=
  if offset = 0 then path else path ++ [.index offset]

/-- Two places that have no part in common. -/
def Distinct (h : Hierarchy) (H : Heap) (o : Object) (path : List PathStep) (offset : Int) (path' : List PathStep)
    (offset' : Int) : Prop :=
  Apart h H o.val (pathTo path offset) (pathTo path' offset')

/-- What reading and writing an object have to do with each other. -/
structure Lens (h : Hierarchy) (H : Heap) (o : Object) : Prop where
  written : ∀ path offset v o' H', o.write h H path offset (some v) = (.ok (), o', H') →
    o'.read h H' path offset = .ok (some v)
  apart : ∀ path offset v o' H', o.write h H path offset (some v) = (.ok (), o', H') →
    ∀ path' offset' w, Distinct h H o path offset path' offset' → o.read h H path' offset' = .ok w →
      o'.read h H' path' offset' = .ok w
  failed : ∀ path offset v e o' H', o.write h H path offset v = (.error e, o', H') → o' = o ∧ H' = H

/-- A write that succeeds is an update of the object's value at the place. -/
theorem write_ok {path : List PathStep} {offset : Int} {v : Value} (done : o.write h H path offset (some v) = (.ok (), o', H')) :
    o.isAlive = true ∧ o' = { o with val := o'.val } ∧
      updateSubobject h H o.val (pathTo path offset) 0 (some v) = (.ok o'.val, H') := by
  unfold Object.write at done
  split at done
  · cases done
  rename_i alive
  refine ⟨by simpa using alive, ?_⟩
  split at done
  · cases done
  split at done
  · rename_i root
    cases done
    rw [pathTo, if_pos root.2, root.1]
    exact ⟨rfl, rfl⟩
  · split at done
    · cases done
    · rename_i updated
      cases done
      refine ⟨rfl, ?_⟩
      by_cases zero : offset = 0
      · rw [pathTo, if_pos zero, ← zero]
        exact updated
      · rw [pathTo, if_neg zero]
        exact (updateSubobject_offset zero).1 updated

theorem write_failed {path : List PathStep} {offset : Int} {v : Option Value} {e : Error}
    (failed : o.write h H path offset v = (.error e, o', H')) : o' = o ∧ H' = H := by
  unfold Object.write at failed
  split at failed
  · cases failed
    exact ⟨rfl, rfl⟩
  split at failed
  · cases failed
    exact ⟨rfl, rfl⟩
  split at failed
  · cases failed
  · split at failed
    · rename_i inner
      cases failed
      exact ⟨rfl, updateSubobject_failed inner⟩
    · cases failed

theorem read_ok {path : List PathStep} {offset : Int} {w : Option Value} :
    o.read h H path offset = .ok w ↔ o.isAlive = true ∧ o.val.isSome ∧ ∃ cur, readPath h H o.val path = .ok cur ∧
      if offset ≠ 0 then readOffset lp64 h H cur offset = .ok w else cur = w ∧ w.isSome := by
  unfold Object.read
  by_cases alive : o.isAlive = true
  · by_cases val : o.val.isSome
    · have has : o.val.isNone = false := by simpa [Option.isSome_iff_ne_none] using val
      cases read : readPath h H o.val path with
      | error e => simp [alive, has, Except.bind]
      | ok cur =>
        by_cases zero : offset = 0
        · cases cur <;> cases w <;> simp [alive, has, zero, Except.bind, val]
        · simp [alive, has, zero, Except.bind, val]
    · have has : o.val.isNone = true := by simpa using val
      simp [alive, has, val]
  · simp [alive]

attribute [local simp] readOffset

theorem readOffset_array {m : Model} {a : Nat} {elemType typ : Option Ty} {i : Int} {w : Option Value} :
    readOffset m h H (some (.array a elemType typ)) i = .ok w ↔ readStep h H (some (.array a elemType typ)) (.index i) = .ok w := by
  simp only [readOffset, readStep]
  split
  · exact ⟨fun eq => (by cases eq), fun eq => (by cases eq)⟩
  · rfl

theorem readOffset_of_held {m : Model} {cur w : Option Value} {x : Holder} {i : Int} (held : holder cur = some x)
    (step : readStep h H cur (.index i) = .ok w) : readOffset m h H cur i = .ok w := by
  match cur with
  | some (.array ..) => exact readOffset_array.2 step
  | some (.record ..) => cases step
  | none | some .void | some (.int _) | some (.float ..) | some (.bool _) | some .nullptr | some (.pointer ..)
  | some (.reference ..) | some (.string ..) => cases held

theorem readPath_append {cur w : Option Value} {p q : List PathStep} :
    readPath h H cur (p ++ q) = .ok w ↔ ∃ next, readPath h H cur p = .ok next ∧ readPath h H next q = .ok w := by
  induction p generalizing cur with
  | nil => simp [readPath]
  | cons s rest ih =>
    rw [List.cons_append, readPath_cons]
    simp only [readPath_cons, ih]
    constructor
    · rintro ⟨next, first, mid, below, last⟩
      exact ⟨mid, ⟨next, first, below⟩, last⟩
    · rintro ⟨mid, ⟨next, first, below⟩, last⟩
      exact ⟨next, first, mid, below, last⟩

theorem readPath_one {cur w : Option Value} {s : PathStep} : readPath h H cur [s] = .ok w ↔ readStep h H cur s = .ok w := by
  rw [readPath_cons]
  constructor
  · rintro ⟨next, first, last⟩
    cases last
    exact first
  · exact fun first => ⟨w, first, rfl⟩

/-! ### The laws -/

theorem read_written (tree : IsTree H o.val) {path : List PathStep} {offset : Int} {v : Value}
    (done : o.write h H path offset (some v) = (.ok (), o', H')) : o'.read h H' path offset = .ok (some v) := by
  obtain ⟨alive, eq, updated⟩ := write_ok done
  have written := updateSubobject_written tree updated
  refine read_ok.2 ⟨by rw [eq]; exact alive, written.isSome, ?_⟩
  have back := written.back.1
  by_cases zero : offset = 0
  · rw [pathTo, if_pos zero] at back
    exact ⟨some v, back, by rw [if_neg (not_not.2 zero)]; exact ⟨rfl, rfl⟩⟩
  · have at_ : pathTo path offset = path ++ [.index offset] := if_neg zero
    rw [at_] at back updated
    obtain ⟨cur, before, last⟩ := readPath_append.1 back
    refine ⟨cur, before, ?_⟩
    rw [if_pos zero]
    -- the array is there after the write as it was before it
    have held := written.held path (.index offset) [] at_
    obtain ⟨x, through⟩ := updateSubobject_through updated
    rw [← part_of_readPath before, through] at held
    exact readOffset_of_held held (readPath_one.1 last)

/-- A path that is apart from a longer one and not from a shorter one goes on where the shorter one ends. -/
theorem apart_append {cur : Option Value} {p q : List PathStep} {t : PathStep} (apart : Apart h H cur p (q ++ [t])) :
    Apart h H cur p q ∨ ∃ s r, p = q ++ s :: r := by
  induction q generalizing cur p with
  | nil =>
    match p, apart with
    | s :: r, _ => exact .inr ⟨s, r, rfl⟩
  | cons u q ih =>
    match p, apart with
    | s :: p, apart =>
      rw [List.cons_append, Apart] at apart
      by_cases same : u = s
      · rw [if_pos same] at apart
        rcases ih apart with left | ⟨s', r, eq⟩
        · exact .inl (by rw [Apart, if_pos same]; exact left)
        · exact .inr ⟨s', r, by rw [eq, same]; rfl⟩
      · rw [if_neg same] at apart
        exact .inl (by rw [Apart, if_neg same]; exact apart)

theorem apart_of_append {cur w : Option Value} {p q r : List PathStep} (read : readPath h H cur p = .ok w)
    (apart : Apart h H w q r) : Apart h H cur (p ++ q) (p ++ r) := by
  induction p generalizing cur with
  | nil =>
    cases read
    exact apart
  | cons s rest ih =>
    obtain ⟨next, first, below⟩ := readPath_cons.1 read
    rw [List.cons_append, List.cons_append, Apart, if_pos rfl, ← child_of_readStep first]
    exact ih below

theorem read_apart (tree : IsTree H o.val) {path path' : List PathStep} {offset offset' : Int} {v : Value} {w : Option Value}
    (done : o.write h H path offset (some v) = (.ok (), o', H')) (apart : Distinct h H o path offset path' offset')
    (read : o.read h H path' offset' = .ok w) : o'.read h H' path' offset' = .ok w := by
  obtain ⟨alive, eq, updated⟩ := write_ok done
  have written := updateSubobject_written tree updated
  obtain ⟨-, -, cur, before, last⟩ := read_ok.1 read
  refine read_ok.2 ⟨by rw [eq]; exact alive, written.isSome, ?_⟩
  unfold Distinct at apart
  by_cases zero : offset' = 0
  · have at_ : pathTo path' offset' = path' := if_pos zero
    rw [at_] at apart
    rw [if_neg (not_not.2 zero)] at last
    exact ⟨cur, (written.apart path' cur apart before).1, by rw [if_neg (not_not.2 zero)]; exact last⟩
  · have at_ : pathTo path' offset' = path' ++ [.index offset'] := if_neg zero
    rw [at_] at apart
    rw [if_pos zero] at last
    match cur with
    | some (.array a elemType typ) =>
      have whole := readPath_append.2 ⟨_, before, readPath_one.2 (readOffset_array.1 last)⟩
      obtain ⟨cur', before', step⟩ := readPath_append.1 (written.apart _ w apart whole).1
      refine ⟨cur', before', ?_⟩
      rw [if_pos zero]
      have held : holder cur' = some (.array a) := by
        rcases apart_append apart with left | ⟨s, r, eq⟩
        · rw [Except.ok.inj (before'.symm.trans (written.apart path' _ left before).1)]
          rfl
        · rw [part_of_readPath before', written.held path' s r eq, ← part_of_readPath before]
          rfl
      exact readOffset_of_held held (readPath_one.1 step)
    | some (.string s typ) =>
      rcases apart_append apart with left | ⟨s, r, eq⟩
      · obtain ⟨after, -⟩ := written.apart path' _ left before
        exact ⟨_, after, by rw [if_pos zero]; exact last⟩
      · rw [eq] at updated
        obtain ⟨x, through⟩ := updateSubobject_through updated
        rw [← part_of_readPath before] at through
        cases through
    | none | some .void | some (.int _) | some (.float ..) | some (.bool _) | some .nullptr | some (.pointer ..)
    | some (.reference ..) | some (.record ..) => cases last

theorem lens_of_tree (tree : IsTree H o.val) : Lens h H o where
  written _ _ _ _ _ done := read_written tree done
  apart _ _ _ _ _ done _ _ _ apart read := read_apart tree done apart read
  failed _ _ _ _ _ _ failed := write_failed failed

/-! ### Pointers -/

/-- A pointer to an element of the array at a path: made by taking the element's address, or by arithmetic on the array's. -/
def PointsTo (p : List PathStep) (i : Int) (path : List PathStep) (offset : Int) : Prop :=
  path = p ++ [.index i] ∧ offset = 0 ∨ path = p ∧ offset = i

/-- A pointer advanced to element `j` reads and writes that element. -/
structure Reaches (h : Hierarchy) (H : Heap) (o : Object) (p : List PathStep) (j : Int) (path : List PathStep)
    (offset : Int) : Prop where
  reads : ∀ v, o.read h H (p ++ [.index j]) 0 = .ok (some v) → o.read h H path offset = .ok (some v)
  writes : ∀ v o' H', o.write h H (p ++ [.index j]) 0 (some v) = (.ok (), o', H') →
    o.write h H path offset (some v) = (.ok (), o', H')

theorem write_place {path : List PathStep} {offset : Int} {v : Value} (ne : offset ≠ 0) :
    o.write h H path offset (some v) = (.ok (), o', H') ↔
      o.write h H (path ++ [.index offset]) 0 (some v) = (.ok (), o', H') := by
  have long : path ++ [.index offset] ≠ [] := List.append_ne_nil_of_right_ne_nil _ (List.cons_ne_nil _ _)
  unfold Object.write
  by_cases alive : o.isAlive = true
  · simp only [alive, Bool.not_true, Bool.false_eq_true, if_false, long, ne, false_and, and_false]
    cases left : updateSubobject h H o.val path offset (some v) with
    | mk r H₁ =>
      cases right : updateSubobject h H o.val (path ++ [.index offset]) 0 (some v) with
      | mk r' H₂ =>
        cases r with
        | ok a =>
          rw [(updateSubobject_offset ne).1 left] at right
          cases right
          rfl
        | error e =>
          cases r' with
          | ok b =>
            rw [(updateSubobject_offset ne).2 right] at left
            cases left
          | error e' => exact ⟨fun eq => (by cases eq), fun eq => (by cases eq)⟩
  · simp [alive]

theorem put_of_readStep {cur w v : Option Value} {s : PathStep} {x : Holder} {H₁ : Heap} (held : holder cur = some x)
    (read : readStep h H cur s = .ok w) : ∃ r, put h H H₁ cur s v = some r := by
  match cur, s with
  | some (.array a _ _), .index i =>
    simp only [readStep] at read
    split at read
    · cases read
    · rename_i inside
      exact ⟨_, if_neg inside⟩
  | some (.record ..), .field _ => exact ⟨_, rfl⟩
  | some (.record ..), .base _ => exact ⟨_, rfl⟩
  | some (.array ..), .field _ | some (.array ..), .base _ | some (.record ..), .index _ => cases read
  | none, _ | some .void, _ | some (.int _), _ | some (.float ..), _ | some (.bool _), _ | some .nullptr, _
  | some (.pointer ..), _ | some (.reference ..), _ | some (.string ..), _ => cases held

/-- A path to an array goes through arrays and records. -/
theorem holder_of_readPath {cur w : Option Value} {p : List PathStep} {x : Holder} (read : readPath h H cur p = .ok w)
    (held : holder w = some x) : ∃ y, holder cur = some y := by
  match p with
  | [] =>
    cases read
    exact ⟨x, held⟩
  | s :: rest =>
    obtain ⟨next, first, below⟩ := readPath_cons.1 read
    match cur with
    | some (.array a _ _) => exact ⟨.array a, rfl⟩
    | some (.record _ r _) => exact ⟨.record r, rfl⟩
    | some (.string str _) =>
      -- an element of a string has no elements
      match s with
      | .index i =>
        simp only [readStep] at first
        split at first
        · cases first
        · cases first
          match rest with
          | [] =>
            cases below
            cases held
          | t :: _ =>
            obtain ⟨_, second, _⟩ := readPath_cons.1 below
            cases t <;> cases second
      | .field _ | .base _ => cases first
    | none | some .void | some (.int _) | some (.float ..) | some (.bool _) | some .nullptr | some (.pointer ..)
    | some (.reference ..) => cases s <;> cases first

theorem updateSubobject_element {cur new : Option Value} {p : List PathStep} {a : Nat} {elemType typ : Option Ty} {j : Int}
    (read : readPath h H cur p = .ok (some (.array a elemType typ))) (inside : 0 ≤ j ∧ j < (H.elements a).length) :
    ∃ cur' H', updateSubobject h H cur (p ++ [.index j]) 0 new = (.ok cur', H') := by
  induction p generalizing cur with
  | nil =>
    cases read
    exact ⟨_, _, updateSubobject_cons.2 ⟨new, H, rfl, if_neg (by omega)⟩⟩
  | cons s rest ih =>
    obtain ⟨x, held⟩ := holder_of_readPath read rfl
    obtain ⟨next, first, below⟩ := readPath_cons.1 read
    obtain ⟨cur₁, H₁, inner⟩ := ih below
    obtain ⟨⟨cur', H'⟩, stored⟩ : ∃ r, put h H H₁ cur s cur₁ = some r := put_of_readStep held first
    exact ⟨cur', H', updateSubobject_cons.2 ⟨cur₁, H₁, child_of_readStep first ▸ inner, stored⟩⟩

theorem advance_eq {offset k : Int} (lo : -2 ^ 63 ≤ offset + k) (hi : offset + k < 2 ^ 63) : advance offset k = offset + k :=
  wrap_of_inRange (by omega) ⟨by simpa using lo, by simpa using hi⟩

theorem write_element {p : List PathStep} {a : Nat} {elemType typ : Option Ty} {j : Int} (alive : o.isAlive = true)
    (array : readPath h H o.val p = .ok (some (.array a elemType typ))) (inside : 0 ≤ j ∧ j < (H.elements a).length)
    (v : Value) : ∃ o' H', o.write h H (p ++ [.index j]) 0 (some v) = (.ok (), o', H') := by
  obtain ⟨cur', H', updated⟩ : ∃ cur' H', updateSubobject h H o.val (p ++ [.index j]) 0 (some v) = (.ok cur', H') :=
    updateSubobject_element array inside
  have long : p ++ [.index j] ≠ [] := List.append_ne_nil_of_right_ne_nil _ (List.cons_ne_nil _ _)
  exact ⟨{ o with val := cur' }, H', by simp [Object.write, alive, long, updated]⟩

theorem reaches_offset {p : List PathStep} {a : Nat} {elemType typ : Option Ty} {j : Int} (ne : j ≠ 0)
    (array : readPath h H o.val p = .ok (some (.array a elemType typ))) : Reaches h H o p j p j where
  reads v read := by
    obtain ⟨alive, val, cur, whole, last⟩ := read_ok.1 read
    obtain ⟨next, before, step⟩ := readPath_append.1 whole
    rw [array] at before
    cases before
    rw [if_neg (not_not.2 rfl)] at last
    rw [last.1] at step
    exact read_ok.2 ⟨alive, val, _, array, by rw [if_pos ne]; exact readOffset_array.2 (readPath_one.1 step)⟩
  writes _ _ _ done := (write_place ne).2 done

theorem not_reaches_array {p : List PathStep} {a : Nat} {elemType typ : Option Ty} {j : Int} (tree : IsTree H o.val)
    (alive : o.isAlive = true) (array : readPath h H o.val p = .ok (some (.array a elemType typ)))
    (inside : 0 ≤ j ∧ j < (H.elements a).length) : ¬ Reaches h H o p j p 0 := by
  intro reaches
  obtain ⟨o', H', done⟩ := write_element alive array inside .void
  -- after the element is written the array is there, and not what was written
  have updated := (write_ok done).2.2
  have held := (updateSubobject_written tree updated).held p (.index j) [] rfl
  rw [← part_of_readPath array] at held
  obtain ⟨-, -, cur, whole, last⟩ := read_ok.1 (read_written tree (reaches.writes .void o' H' done))
  rw [if_neg (not_not.2 rfl)] at last
  rw [← part_of_readPath whole, last.1] at held
  cases held

theorem not_reaches_element {p : List PathStep} {a : Nat} {elemType typ : Option Ty} {i j k : Int} (tree : IsTree H o.val)
    (alive : o.isAlive = true) (array : readPath h H o.val p = .ok (some (.array a elemType typ)))
    (inside : 0 ≤ j ∧ j < (H.elements a).length) (other : i ≠ j) (moved : k ≠ 0) :
    ¬ Reaches h H o p j (p ++ [.index i]) k := by
  intro reaches
  have step : readStep h H (some (.array a elemType typ)) (.index j) = .ok ((H.elements a).getD j.toNat none) :=
    if_neg (by omega)
  have old := readPath_append.2 ⟨_, array, readPath_one.2 step⟩
  -- a value that the element does not have
  obtain ⟨v, new⟩ : ∃ v : Value, some v ≠ (H.elements a).getD j.toNat none := by
    by_cases eq : some Value.void = (H.elements a).getD j.toNat none
    · exact ⟨.nullptr, fun same => by cases same.trans eq.symm⟩
    · exact ⟨.void, eq⟩
  obtain ⟨o', H', done⟩ := write_element alive array inside v
  have back := (updateSubobject_written tree (write_ok done).2.2).back.1
  -- the same write through the pointer is apart from the element
  have through := (write_ok (reaches.writes v o' H' done)).2.2
  have at_ : pathTo (p ++ [.index i]) k = p ++ [.index i, .index k] := by
    rw [pathTo, if_neg moved, List.append_assoc]
    rfl
  have apart : Apart h H o.val (pathTo (p ++ [.index i]) k) (p ++ [.index j]) := by
    rw [at_]
    refine apart_of_append array ?_
    rw [Apart, if_neg fun eq => other (PathStep.index.inj eq).symm]
    exact id
  have kept := ((updateSubobject_written tree through).apart _ _ apart old).1
  exact new (Except.ok.inj (back.symm.trans kept))

/-- **Places.** In an object tree a read gives what was written last at the place, a write is not seen at a place apart
from it, and one that fails leaves the object as it was. A pointer to an element of an array, advanced within the
array, reads and writes the element it is advanced to exactly when it is an offset into the array and stays one: the
address of an element does not move, and an offset that comes back to zero is the array. -/
theorem pointer_iff {p path : List PathStep} {a : Nat} {elemType typ : Option Ty} {i offset k : Int} (tree : IsTree H o.val)
    (alive : o.isAlive = true) (array : readPath h H o.val p = .ok (some (.array a elemType typ)))
    (len : (H.elements a).length < 2 ^ 63) (points : PointsTo p i path offset) (from_ : 0 ≤ i ∧ i < (H.elements a).length)
    (to_ : 0 ≤ i + k ∧ i + k < (H.elements a).length) :
    Lens h H o ∧ Reaches h H o p (i + k) path (advance offset k) ↔ (path = p ↔ offset + k ≠ 0) := by
  have long : p ++ [.index i] ≠ p := fun eq => by simpa using congrArg List.length eq
  rw [and_iff_right (lens_of_tree tree)]
  rcases points with ⟨rfl, rfl⟩ | ⟨rfl, rfl⟩
  · rw [advance_eq (by omega) (by omega), Int.zero_add, iff_false_left long, not_not]
    constructor
    · intro reaches
      by_contra moved
      exact not_reaches_element tree alive array to_ (by omega) moved reaches
    · rintro rfl
      rw [Int.add_zero]
      exact ⟨fun _ read => read, fun _ _ _ done => done⟩
  · rw [advance_eq (by omega) (by omega), iff_true_left rfl]
    constructor
    · intro reaches zero
      rw [zero] at reaches to_
      exact not_reaches_array tree alive array to_ reaches
    · exact fun moved => reaches_offset moved array

/-! ### `int arr[3] = {10, 20, 30}` -/

theorem holder_part {cur : Option Value} (scalar : holder cur = none) (p : List PathStep) : holder (part H cur p) = none := by
  induction p generalizing cur with
  | nil => exact scalar
  | cons s rest ih =>
    refine ih ?_
    match cur with
    | some (.array ..) | some (.record ..) => cases scalar
    | none | some .void | some (.int _) | some (.float ..) | some (.bool _) | some .nullptr | some (.pointer ..)
    | some (.reference ..) | some (.string ..) => cases s <;> rfl

theorem isTree_scalars {a : Nat} {elemType typ : Option Ty} (scalars : ∀ i : Nat, holder ((H.elements a).getD i none) = none) :
    IsTree H (some (.array a elemType typ)) := by
  have root : ∀ p x, holder (part H (some (.array a elemType typ)) p) = some x → p = [] := by
    intro p x held
    match p with
    | [] => rfl
    | s :: rest =>
      have below : holder (child H (some (.array a elemType typ)) s) = none := by
        cases s with
        | index i =>
          simp only [child]
          split
          · rfl
          · exact scalars _
        | _ => rfl
      cases (holder_part below rest).symm.trans held
  exact fun p q x left right => (root p x left).trans (root q x right).symm

def tens : Heap :=
  { Heap.empty with
    elements := fun _ => [10, 20, 30].map fun v => some (.int (newBigInt lp64 (.ofRecords [] (by decide)) v (some (.basic .int)))) }

def arr : Object := newObject "arr" none (some (.array 0 (some (.basic .int)) (some (.array (.basic .int) 3 false)))) false

theorem arr_tree : IsTree tens arr.val :=
  isTree_scalars fun i => by
    match i with
    | 0 | 1 | 2 => rfl
    | _ + 3 => rfl

theorem advanced_reaches : Lens (.ofRecords [] (by decide)) tens arr ∧
    Reaches (.ofRecords [] (by decide)) tens arr [] 2 [] (advance 1 1) :=
  (pointer_iff (i := 1) (k := 1) (a := 0) arr_tree rfl rfl (by decide) (.inr ⟨rfl, rfl⟩) (by decide)
    (by decide)).2 (by decide)

/-- `*(&arr[0] + 1)` is an error, and not `arr[1]`. -/
theorem element_address_unmoved : ¬ Reaches (.ofRecords [] (by decide)) tens arr [] 1 [.index 0] (advance 0 1) := by
  intro reaches
  cases reaches.reads _ rfl

end Vcx.ConstEval
