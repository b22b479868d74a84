import Vcx.Types.BaseOffset

/-!
# Pointers to related classes

A pointer that is converted to a base or back is moved by the base's offset, whatever its value: a null
pointer too, and by nothing where the base is virtual. A comparison converts its right operand to the left
one's type, and an upcast by `dynamic_cast` is the same conversion.
-/

namespace Vcx.PointerConvert
set_option autoImplicit false
open Vcx.Types

abbrev Ptr := BitVec 64

variable {m : Model} {h : Hierarchy} {d c : Nat} {base : BaseName}

/-! ### The lowering -/

/-- `baseAdjust` of pointers to two classes. -/
def baseAdjust (m : Model) (h : Hierarchy) (from_ to_ : Nat) : Int :=
  if from_ = to_ then 0
  else match baseOffsetOf m h from_ to_ with
    | some off => off
    | none =>
      match baseOffsetOf m h to_ from_ with
      | some off => -off
      | none => 0

/-- `convert` of a pointer. -/
def convert (m : Model) (h : Hierarchy) (from_ to_ : Nat) (val : Ptr) : Ptr :=
  let off := baseAdjust m h from_ to_
  if off ≠ 0 then val + .ofInt 64 off else val

/-- `compare` for equality: both operands are converted to the left one's type. -/
def equal (m : Model) (h : Hierarchy) (lt rt : Nat) (l r : Ptr) : Bool :=
  convert m h lt lt l == convert m h rt lt r

/-! ### Objects and pointers -/

/-- An object in memory: its class, its address, and where it has its virtual bases. It begins after
address 0 and does not wrap around. -/
structure Object (m : Model) (h : Hierarchy) where
  cls : Nat
  address : Ptr
  vbase : Nat → Nat
  laid : ∀ info v off, layoutInfo m h cls = some info → info.vbaseOffsets.lookup v = some off → vbase v = off
  inside : ∀ n c, BaseName.Names h cls n c →
    0 < address.toNat ∧ address.toNat + n.offset h (layoutInfo m h) vbase cls < 2 ^ 64

/-- A subobject's offset. -/
def Object.offset (o : Object m h) (n : BaseName) : Nat := n.offset h (layoutInfo m h) o.vbase o.cls

/-- A pointer to class `d`: null, or to a subobject of an object. -/
inductive Pointer (m : Model) (h : Hierarchy) (d : Nat)
  | null
  | subobject (o : Object m h) (n : BaseName) (names : n.Names h o.cls d)

def Pointer.address : Pointer m h d → Ptr
  | null => 0
  | subobject o n _ => o.address + .ofNat 64 (o.offset n)

/-- The pointer converted to the base as C++ has it. -/
def Pointer.toBase (only : Unambiguous h d c base) : Pointer m h d → Pointer m h c
  | null => null
  | subobject o n names => subobject o (base.within n) (only.names.within names)

/-! ### What is asked -/

/-- What is done with pointers of two classes, one a base of the other: a conversion of a pointer to the base,
one of a converted pointer back, or a comparison with any pointer to the base, on either side. -/
inductive Use (m : Model) (h : Hierarchy) (d c : Nat)
  | upcast (p : Pointer m h d)
  | downcast (p : Pointer m h d)
  | equal (p : Pointer m h d) (q : Pointer m h c) (baseLeft : Bool)

/-- C++ has no `static_cast` from a virtual base. -/
def Use.Allowed (base : BaseName) : Use m h d c → Prop
  | .downcast _ => base.root = none
  | _ => True

/-- The code gives the converted pointer, and true where the pointers designate one object or none. -/
def Use.Right (only : Unambiguous h d c base) : Use m h d c → Prop
  | .upcast p => convert m h d c p.address = (p.toBase only).address
  | .downcast p => convert m h c d (p.toBase only).address = p.address
  | .equal p q baseLeft =>
    (if baseLeft then PointerConvert.equal m h c d q.address p.address else PointerConvert.equal m h d c p.address q.address) =
      decide ((p.toBase only).address = q.address)

/-- The offset of the base in the class, where it is not virtual. -/
def staticOffset (m : Model) (h : Hierarchy) (d : Nat) (base : BaseName) : Ptr :=
  .ofNat 64 (walkOffset h (layoutInfo m h) d base.steps)

/-- The base that a pointer to an object has there is where the pointer points. -/
def Pointer.AtStart (base : BaseName) : Pointer m h d → Prop
  | null => True
  | subobject o n _ => o.offset (base.within n) = o.offset n

/-- The pointer is not null or the base at the class's start; the base is at the pointer's address where it is
virtual. Or it is compared with a pointer that is equal to neither of what the two conversions give. -/
def Use.Kept (base : BaseName) (only : Unambiguous h d c base) : Use m h d c → Prop
  | .upcast p | .downcast p =>
    match base.root with
    | none => p.address ≠ 0 ∨ staticOffset m h d base = 0
    | some _ => p.AtStart base
  | .equal p q _ =>
    match base.root with
    | none => p.address ≠ 0 ∨ staticOffset m h d base = 0 ∨ q.address ≠ 0 ∧ q.address ≠ staticOffset m h d base
    | some _ => p.AtStart base ∨ q.address ≠ p.address ∧ q.address ≠ (p.toBase only).address

/-! ### Addresses -/

theorem Pointer.address_eq_zero {p : Pointer m h d} : p.address = 0 ↔ p = null := by
  cases p with
  | null => exact iff_of_true rfl rfl
  | subobject o n names =>
    have inside := o.inside n d names
    refine iff_of_false (fun zero => ?_) (fun eq => by cases eq)
    have value : (subobject o n names).address.toNat = o.address.toNat + n.offset h (layoutInfo m h) o.vbase o.cls := by
      simp only [address, Object.offset, BitVec.toNat_add, BitVec.toNat_ofNat]
      rw [Nat.mod_eq_of_lt (show n.offset h (layoutInfo m h) o.vbase o.cls < 2 ^ 64 by omega), Nat.mod_eq_of_lt inside.2]
    rw [zero, show BitVec.toNat (0 : Ptr) = 0 from rfl] at value
    omega

theorem convert_self (m : Model) (h : Hierarchy) (c : Nat) (val : Ptr) : convert m h c c val = val := by
  simp [convert, baseAdjust]

theorem convert_eq (m : Model) (h : Hierarchy) (from_ to_ : Nat) (val : Ptr) :
    convert m h from_ to_ val = val + .ofInt 64 (baseAdjust m h from_ to_) := by
  by_cases zero : baseAdjust m h from_ to_ = 0
  · simp [convert, zero]
  · simp [convert, zero]

/-- What a conversion moves a pointer by. -/
def moved (m : Model) (h : Hierarchy) (d : Nat) (base : BaseName) : Ptr :=
  match base.root with
  | none => staticOffset m h d base
  | some _ => 0

theorem add_moved_virtual {v : Nat} (virtual : base.root = some v) (val : Ptr) : val + moved m h d base = val := by
  rw [moved, virtual]
  exact BitVec.add_zero val

theorem zero_add_moved (plain : base.root = none) : (0 : Ptr) + moved m h d base = staticOffset m h d base := by
  rw [moved, plain]
  exact BitVec.zero_add _

theorem baseAdjust_down (only : Unambiguous h d c base) :
    BitVec.ofInt 64 (baseAdjust m h d c) = moved m h d base ∧
      BitVec.ofInt 64 (baseAdjust m h c d) = -moved m h d base := by
  obtain ⟨root, steps⟩ := base
  unfold baseAdjust moved staticOffset
  by_cases same : d = c
  · subst same
    cases only.only ⟨none, []⟩ rfl
    simp [walkOffset]
  · have derives := only.names.derives
    have upward := baseOffsetOf_upward (m := m) derives same
    rw [if_neg same, if_neg (Ne.symm same), upward]
    cases root with
    | none =>
      rw [baseOffsetOf_unambiguous only]
      exact ⟨BitVec.ofInt_natCast _ _, by rw [BitVec.ofInt_neg, BitVec.ofInt_natCast]⟩
    | some v =>
      rw [baseOffsetOf_virtual only]
      exact ⟨rfl, by simp⟩

theorem convert_down (only : Unambiguous h d c base) (val : Ptr) : convert m h d c val = val + moved m h d base := by
  rw [convert_eq, (baseAdjust_down only).1]

theorem convert_up (only : Unambiguous h d c base) (val : Ptr) : convert m h c d val = val - moved m h d base := by
  rw [convert_eq, (baseAdjust_down only).2, BitVec.sub_eq_add_neg]

theorem toBase_address (only : Unambiguous h d c base) {p : Pointer m h d} (some : p.address ≠ 0)
    (plain : base.root = none) : (p.toBase only).address = p.address + moved m h d base := by
  obtain ⟨root, steps⟩ := base
  cases plain
  cases p with
  | null => exact absurd rfl some
  | subobject o n names =>
    have offset := BaseName.offset_within (L := layoutInfo m h) o.vbase only.names names
    simp only [Pointer.toBase, Pointer.address, Object.offset, offset, moved, staticOffset, BitVec.ofNat_add, BitVec.add_assoc]

theorem atStart_iff (only : Unambiguous h d c base) (p : Pointer m h d) :
    p.AtStart base ↔ (p.toBase only).address = p.address := by
  cases p with
  | null => exact iff_of_true trivial rfl
  | subobject o n names =>
    have insideBase := (o.inside _ c (only.names.within names)).2
    have inside := (o.inside n d names).2
    simp only [Pointer.AtStart, Pointer.toBase, Pointer.address, BitVec.add_right_inj]
    constructor
    · intro same
      rw [same]
    · intro same
      have := congrArg BitVec.toNat same
      simp only [Object.offset, BitVec.toNat_ofNat] at this ⊢
      rwa [Nat.mod_eq_of_lt (by omega), Nat.mod_eq_of_lt (by omega)] at this

/-! ### When it is right -/

/-- A number is equal to both of two, or to neither, just where they are one or it is neither. -/
theorem same_truth_iff {x y q : Ptr} : (x = q ↔ y = q) ↔ x = y ∨ q ≠ x ∧ q ≠ y := by
  constructor
  · intro same
    by_cases eq : x = q
    · exact .inl (eq.trans (same.1 eq).symm)
    · exact .inr ⟨Ne.symm eq, fun h => eq (same.2 h.symm)⟩
  · rintro (rfl | ⟨x, y⟩)
    · rfl
    · exact iff_of_false (Ne.symm x) (Ne.symm y)

theorem upcast_right_iff (only : Unambiguous h d c base) (p : Pointer m h d) :
    p.address + moved m h d base = (p.toBase only).address ↔ (Use.upcast p : Use m h d c).Kept base only := by
  unfold Use.Kept
  cases root : base.root with
  | none =>
    by_cases null : p.address = 0
    · obtain rfl := Pointer.address_eq_zero.1 null
      rw [null, zero_add_moved root]
      exact (or_iff_right (not_not.2 rfl)).symm
    · exact iff_of_true (toBase_address only null root).symm (.inl null)
  | some v =>
    rw [add_moved_virtual root, eq_comm]
    exact (atStart_iff only p).symm

/-- So is a comparison, or where neither address is the other operand's. -/
theorem equal_right_iff (only : Unambiguous h d c base) (p : Pointer m h d) (q : Pointer m h c) (baseLeft : Bool) :
    (p.address + moved m h d base = q.address ↔ (p.toBase only).address = q.address) ↔
      (Use.equal p q baseLeft).Kept base only := by
  unfold Use.Kept
  cases root : base.root with
  | none =>
    by_cases null : p.address = 0
    · obtain rfl := Pointer.address_eq_zero.1 null
      have stays : ((Pointer.null : Pointer m h d).toBase only).address = 0 := rfl
      rw [null, zero_add_moved root, stays, same_truth_iff, and_comm]
      exact (or_iff_right (not_not.2 rfl)).symm
    · exact iff_of_true (by rw [toBase_address only null root]) (.inl null)
  | some v =>
    rw [add_moved_virtual root, same_truth_iff, eq_comm (a := p.address)]
    exact or_congr_left (atStart_iff only p).symm

/-- **What is done with pointers to a class and to an unambiguous base of it is right just where `Kept` has
it**: the pointer is not null or the base at its class's start, and a virtual base is at the pointer's
address. -/
theorem pointer_right_iff (only : Unambiguous h d c base) {use : Use m h d c} (allowed : use.Allowed base) :
    use.Right only ↔ use.Kept base only := by
  cases use with
  | upcast p =>
    rw [Use.Right, convert_down only]
    exact upcast_right_iff only p
  | downcast p =>
    rw [Use.Right, convert_up only, BitVec.sub_eq_iff_eq_add, eq_comm]
    exact upcast_right_iff only p
  | equal p q baseLeft =>
    rw [← equal_right_iff only p q baseLeft, Use.Right]
    cases baseLeft with
    | true =>
      rw [if_pos rfl, equal, convert_self, convert_down only, beq_eq_decide, decide_eq_decide, eq_comm]
    | false =>
      rw [if_neg Bool.false_ne_true, equal, convert_self, convert_up only, beq_eq_decide, decide_eq_decide,
        eq_comm, BitVec.sub_eq_iff_eq_add, eq_comm]

/-- `struct A { int x; }; struct B { int y; }; struct C : A, B {};` -/
def twoBases : Hierarchy := .ofRecords
  [{ name := "A", fields := [{ name := "x", type := .basic .int }] }, { name := "B", fields := [{ name := "y", type := .basic .int }] },
    { name := "C", bases := [{ type := .record 0 }, { type := .record 1 }] }] (by decide)

/-- The subobjects of a `C`. -/
theorem twoBases_walk {steps : List Nat} {c : Nat} (path : walk twoBases 2 steps = some c) :
    steps = [] ∧ c = 2 ∨ steps = [0] ∧ c = 0 ∨ steps = [1] ∧ c = 1 := by
  have leaf {r : Nat} (bases : (twoBases.record r).bases = []) {steps : List Nat} (path : walk twoBases r steps = some c) :
      steps = [] ∧ c = r := by
    cases steps with
    | nil =>
      cases path
      exact ⟨rfl, rfl⟩
    | cons i steps =>
      obtain ⟨b, e, here, -, -⟩ := walk_cons.1 path
      rw [bases] at here
      cases here
  cases steps with
  | nil =>
    cases path
    exact .inl ⟨rfl, rfl⟩
  | cons i steps =>
    obtain ⟨b, e, here, plain, rest⟩ := walk_cons.1 path
    match i, here with
    | 0, here =>
      cases here
      cases plain
      obtain ⟨rfl, rfl⟩ := leaf rfl rest
      exact .inr (.inl ⟨rfl, rfl⟩)
    | 1, here =>
      cases here
      cases plain
      obtain ⟨rfl, rfl⟩ := leaf rfl rest
      exact .inr (.inr ⟨rfl, rfl⟩)

theorem twoBases_names {n : BaseName} {c : Nat} (names : n.Names twoBases 2 c) :
    n.root = none ∧ walk twoBases 2 n.steps = some c := by
  obtain ⟨root, steps⟩ := n
  cases root with
  | none => exact ⟨rfl, names⟩
  | some v => exact absurd names.1 (not_vbase_of_not_dynamic (by decide))

theorem twoBases_second : Unambiguous twoBases 2 1 ⟨none, [1]⟩ where
  names := (by decide : walk twoBases 2 [1] = some 1)
  only n names := by
    obtain ⟨root, steps⟩ := n
    obtain ⟨rfl, path⟩ := twoBases_names names
    obtain ⟨rfl, eq⟩ | ⟨rfl, eq⟩ | ⟨rfl, -⟩ := twoBases_walk path
    · cases eq
    · cases eq
    · rfl

/-- A `C` at address 4096. -/
def twoBasesObject : Object lp64 twoBases where
  cls := 2
  address := 4096
  vbase _ := 0
  laid info v off known entry := by
    have none : (layoutInfo lp64 twoBases 2).map (fun info => info.vbaseOffsets.entries) = some [] := by decide
    rw [known, Option.map_some, Option.some.injEq] at none
    rw [AList.lookup, none] at entry
    cases entry
  inside n c names := by
    obtain ⟨root, steps⟩ := n
    obtain ⟨rfl, path⟩ := twoBases_names names
    obtain ⟨rfl, -⟩ | ⟨rfl, -⟩ | ⟨rfl, -⟩ := twoBases_walk path <;> decide

/-- A pointer to it, converted to the second base. -/
theorem second_base_right :
    (Use.upcast (.subobject twoBasesObject ⟨none, []⟩ rfl) : Use lp64 twoBases 2 1).Right twoBases_second := by
  have allowed : (Use.upcast (.subobject twoBasesObject ⟨none, []⟩ rfl) : Use lp64 twoBases 2 1).Allowed ⟨none, [1]⟩ := trivial
  exact (pointer_right_iff twoBases_second allowed).2 (.inl (by decide))

/-- A null pointer, converted to the second base, is 4. -/
theorem null_to_second_base :
    ¬ ∀ (m : Model) (h : Hierarchy) (d c : Nat) (base : BaseName) (only : Unambiguous h d c base) (use : Use m h d c),
      m.Supported → use.Allowed base → use.Right only := by
  intro right
  have moved := right lp64 twoBases 2 1 _ twoBases_second (.upcast .null) lp64_supported trivial
  revert moved
  unfold Use.Right
  decide

end Vcx.PointerConvert
