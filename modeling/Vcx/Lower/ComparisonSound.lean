import Vcx.Lower.ComparisonReads

/-!
# Defaulted comparisons are right where whole reads are

A defaulted comparison is right exactly when reading every member whole, bit-fields by their
declared types, puts the same questions about the objects' bits as reading each member's own
bits (`comparison_right_iff`): all of them for `==`, and for `<=>` in the same order, each counted
where it is first put.
-/

namespace Vcx.Comparison
set_option autoImplicit false
open Vcx.Lib Vcx.Types
open Vcx.Lower (isSigned signedKind)

variable (m : Model) (h : Hierarchy) (declared : Nat → Nat → Bool) (op : Op)

/-- What is read of a subobject that is no array, whole. -/
def wholeLeaf (q : Ty × Nat) : List (Key × Bool) :=
  match q.1.asRecord with
  | some c => [(.call c (comparisonOf h declared c op) (.fixed q.2), false)]
  | none => (loaded m h q.1).keys q.2

variable (r : Nat) (info : RecordInfo)

/-- The reads of a class whose every member, bit-field or not, is read as its declared type at its offset,
by the sign the lowering gives the type, and whose virtual bases are passed over. -/
def wholeReads : List (Key × Bool) :=
  (h.record r).bases.zipIdx.flatMap (fun b =>
      if b.1.virtual then [] else (leaves m h b.1.type (info.baseOffsets.getD b.2 0)).flatMap (wholeLeaf m h declared op)) ++
    (h.record r).fields.zipIdx.flatMap fun f =>
      (leaves m h f.1.type (info.fieldOffsets.getD f.2 0)).flatMap (wholeLeaf m h declared op)

/-- The reads of a class's own subobjects: bases and named members, bit-fields by their own bits. -/
def ownReads (resolved : Nat → Option Nat) : List (Key × Bool) := (parts m h r info).flatMap (Part.keys m h resolved)

/-- The condition on a class. For `==` the whole reads take in the same bits and floating-point numbers as the
own reads and call the same operators; for `<=>` they do so in the same order, higher bits first and each counted
once, a sign where the other has one. -/
def Kept (resolved : Nat → Option Nat) : Prop :=
  let whole := wholeReads m h declared op r info
  let own := ownReads m h r info resolved
  match op with
  | .equality => (∀ k ∈ whole.map Prod.fst, k ∈ own.map Prod.fst) ∧ ∀ k ∈ own.map Prod.fst, k ∈ whole.map Prod.fst
  | .spaceship => firsts whole = firsts own

instance (resolved : Nat → Option Nat) : Decidable (Kept m h declared op r info resolved) := by
  unfold Kept
  cases op
  · exact inferInstanceAs (Decidable (_ ∧ _))
  · exact inferInstanceAs (Decidable (_ = _))

variable {m h declared op r info}

/-! ### The code reads everything whole -/

/-- The results of a list of steps, each of which keeps `P` and gives what `g` says. -/
theorem mapM_flatten {α β γ : Type} {f : α → Option (List β)} {k : β → List γ} {g : α → List γ} {P : β → Prop}
    {l : List α} {xss : List (List β)} (run : l.mapM f = some xss)
    (step : ∀ a ∈ l, ∀ xs, f a = some xs → (∀ x ∈ xs, P x) ∧ xs.flatMap k = g a) :
    (∀ x ∈ xss.flatten, P x) ∧ xss.flatten.flatMap k = l.flatMap g := by
  induction l generalizing xss with
  | nil =>
    simp only [List.mapM_nil, Option.pure_def, Option.some.injEq] at run
    subst run
    simp
  | cons a rest ih =>
    simp only [List.mapM_cons, Option.bind_eq_bind, Option.bind_eq_some_iff, Option.pure_def, Option.some.injEq] at run
    obtain ⟨xs, first, yss, others, rfl⟩ := run
    obtain ⟨here, reads⟩ := step a List.mem_cons_self xs first
    obtain ⟨there, reads'⟩ := ih others fun b mem => step b (List.mem_cons_of_mem _ mem)
    refine ⟨?_, ?_⟩
    · intro x mem
      rw [List.flatten_cons, List.mem_append] at mem
      exact mem.elim (here x) (there x)
    · rw [List.flatten_cons, List.flatMap_append, List.flatMap_cons, reads, reads']

theorem compareLeaf_some {t : Ty} {off : Nat} {test : Test} (emitted : compareLeaf m h declared op t off = some test) :
    test.Handled m h ∧ test.keys m h = wholeLeaf m h declared op (t, off) := by
  unfold compareLeaf at emitted
  split at emitted
  · rename_i c cls
    obtain ⟨i, found, rfl⟩ := Option.map_eq_some_iff.1 emitted
    exact ⟨trivial, by simp [Test.keys, wholeLeaf, cls, found]⟩
  · rename_i scalar
    split at emitted
    · cases emitted
    · rename_i handled
      cases emitted
      exact ⟨handled, by simp [Test.keys, wholeLeaf, scalar]⟩

theorem compareSubobject_some {t : Ty} {off : Nat} {tests : List Test}
    (emitted : compareSubobject m h declared op t off = some tests) :
    (∀ test ∈ tests, test.Handled m h) ∧
      tests.flatMap (Test.keys m h) = (leaves m h t off).flatMap (wholeLeaf m h declared op) := by
  have leaf : ∀ {t : Ty} {off : Nat} {tests : List Test},
      (compareLeaf m h declared op t off).map (fun test => [test]) = some tests →
      (∀ test ∈ tests, test.Handled m h) ∧ tests.flatMap (Test.keys m h) = wholeLeaf m h declared op (t, off) := by
    intro t off tests emitted
    obtain ⟨test, found, rfl⟩ := Option.map_eq_some_iff.1 emitted
    obtain ⟨handled, reads⟩ := compareLeaf_some found
    simp [handled, reads]
  fun_induction leaves m h t off generalizing tests with
  | case1 elem len _ off ih =>
    rw [compareSubobject] at emitted
    obtain ⟨xss, run, rfl⟩ := Option.map_eq_some_iff.1 emitted
    rw [List.flatMap_assoc]
    exact mapM_flatten run fun i _ xs step => ih i step
  | case2 _ elem len _ off ih =>
    rw [compareSubobject] at emitted
    obtain ⟨xss, run, rfl⟩ := Option.map_eq_some_iff.1 emitted
    rw [List.flatMap_assoc]
    exact mapM_flatten run fun i _ xs step => ih i step
  | case3 t off plain plain' =>
    rw [compareSubobject.eq_3 _ _ _ _ _ _ plain plain'] at emitted
    rw [List.flatMap_singleton]
    exact leaf emitted

/-- **The tests of a defaulted comparison read everything whole.** -/
theorem defaultedComparison_some {tests : List Test} (emitted : defaultedComparison m h declared op r info = some tests) :
    (∀ test ∈ tests, test.Handled m h) ∧ tests.flatMap (Test.keys m h) = wholeReads m h declared op r info := by
  obtain ⟨bases, baseRun, emitted⟩ := Option.bind_eq_some_iff.1 emitted
  obtain ⟨fields, fieldRun, rfl⟩ := Option.map_eq_some_iff.1 emitted
  obtain ⟨handled, reads⟩ := mapM_flatten (k := Test.keys m h) (P := Test.Handled m h) (g := fun b =>
      if b.1.virtual then [] else (leaves m h b.1.type (info.baseOffsets.getD b.2 0)).flatMap (wholeLeaf m h declared op))
    baseRun (by
      intro b _ xs step
      unfold baseTests at step
      split at step
      · rename_i virtual
        cases step
        simp [virtual]
      · rename_i direct
        rw [if_neg direct]
        exact compareSubobject_some step)
  obtain ⟨handled', reads'⟩ := mapM_flatten (k := Test.keys m h) (P := Test.Handled m h) (g := fun f =>
      (leaves m h f.1.type (info.fieldOffsets.getD f.2 0)).flatMap (wholeLeaf m h declared op))
    fieldRun (fun f _ xs step => by
      unfold fieldTests at step
      exact compareSubobject_some step)
  refine ⟨?_, ?_⟩
  · intro test mem
    exact (List.mem_append.1 mem).elim (handled test) (handled' test)
  · rw [List.flatMap_append, reads, reads', wholeReads]

/-! ### Where the values are -/

def Held.bits : Held → Nat
  | .int n _ => n
  | .float n => 8 * n
  | .nothing => 0

/-- The bits of the objects that a part's questions are about. -/
def Part.range (m : Model) (h : Hierarchy) : Part → Range
  | .object _ _ => ⟨0, 0⟩
  | .scalar t off => ⟨8 * off, (held m h t).bits⟩
  | .bits _ lo width => ⟨lo, width⟩

/-- One run lies in another, or is empty. -/
def Inside (a b : Range) : Prop := a.len = 0 ∨ b.lo ≤ a.lo ∧ a.lo + a.len ≤ b.lo + b.len

theorem Inside.trans {a b c : Range} (ab : Inside a b) (bc : Inside b c) : Inside a c := by
  unfold Inside at *
  omega

theorem apart_of_inside {a b a' b' : Range} (apart : a'.Apart b') (ha : Inside a a') (hb : Inside b b') : a.Apart b := by
  unfold Inside Range.Apart at *
  omega

theorem mem_bitKeys {p n : Nat} {signed : Bool} {q : Key × Bool} (mem : q ∈ bitKeys p n signed) :
    ∃ k, q.1 = .bit (p + k) ∧ k < n := by
  induction n generalizing signed with
  | zero => cases mem
  | succ n ih =>
    rcases List.mem_cons.1 mem with rfl | mem
    · exact ⟨n, rfl, by omega⟩
    · obtain ⟨k, key, lt⟩ := ih mem
      exact ⟨k, key, by omega⟩

theorem bit_mem_held {held : Held} {off p : Nat} {turned : Bool} (mem : (Key.bit p, turned) ∈ held.keys off) :
    8 * off ≤ p ∧ p < 8 * off + held.bits := by
  cases held with
  | int n signed =>
    obtain ⟨k, key, lt⟩ := mem_bitKeys mem
    simp only [Key.bit.injEq] at key
    simp only [Held.bits]
    omega
  | float n => simp [Held.keys] at mem
  | nothing => cases mem

theorem float_mem_held {held : Held} {off n o : Nat} {turned : Bool} (mem : (Key.float n o, turned) ∈ held.keys off) :
    held = .float n ∧ o = off := by
  cases held with
  | int n signed =>
    obtain ⟨k, key, -⟩ := mem_bitKeys mem
    cases key
  | float n' =>
    simp only [Held.keys, List.mem_singleton, Prod.mk.injEq, Key.float.injEq] at mem
    obtain ⟨⟨rfl, rfl⟩, -⟩ := mem
    exact ⟨rfl, rfl⟩
  | nothing => cases mem

variable {resolved : Nat → Option Nat}

theorem bit_mem_part {part : Part} {p : Nat} {turned : Bool} (mem : (Key.bit p, turned) ∈ part.keys m h resolved) :
    (part.range m h).lo ≤ p ∧ p < (part.range m h).lo + (part.range m h).len := by
  cases part with
  | object c place => simp [Part.keys] at mem
  | scalar t off => exact bit_mem_held mem
  | bits t lo width =>
    obtain ⟨k, key, lt⟩ := mem_bitKeys mem
    simp only [Key.bit.injEq] at key
    simp only [Part.range]
    omega

/-- A floating-point number that is asked about is the whole of its part. -/
theorem float_mem_part {part : Part} {n off : Nat} {turned : Bool} (mem : (Key.float n off, turned) ∈ part.keys m h resolved) :
    ∃ t, part = .scalar t off ∧ held m h t = .float n := by
  cases part with
  | object c place => simp [Part.keys] at mem
  | scalar t off' =>
    obtain ⟨kind, rfl⟩ := float_mem_held mem
    exact ⟨t, rfl, kind⟩
  | bits t lo width =>
    obtain ⟨k, key, -⟩ := mem_bitKeys mem
    cases key

/-- A fundamental type's value is in its bytes. -/
theorem heldBasic_bits_le (sizes : m.Sizes) {k : Kind} {n : Nat} (size : m.basicSize k = some n) : (heldBasic m k).bits ≤ 8 * n := by
  have := sizes.float
  have := sizes.double
  have := sizes.longDouble
  cases k with
  | float16 | float | double | longDouble =>
    simp only [Model.basicSize, Model.plainSize, reduceCtorEq, if_false, Option.some.injEq] at size
    simp only [heldBasic, Held.bits]
    omega
  | nullptr => exact Nat.zero_le _
  | _ => simp [heldBasic, Held.bits, size]

/-- A scalar's value is in its bytes. -/
theorem held_bits_le (sizes : m.Sizes) {t : Ty} {n : Nat} (scalar : t.asRecord = none) (plain : ∀ e l i, t ≠ .array e l i)
    (plain' : ∀ q e l i, t ≠ .qualified q (.array e l i)) (size : sizeof m h (layoutInfo m h) t = some n) :
    (held m h t).bits ≤ 8 * n := by
  have unqualified : ∀ t u : Ty, t.unqualify = u → (∀ q v, u ≠ .qualified q v) → u.asRecord = none →
      (∀ e l i, u ≠ .array e l i) → sizeof m h (layoutInfo m h) u = some n → (held m h t).bits ≤ 8 * n := by
    intro t u same bare scalar plain size
    unfold held
    rw [same]
    cases u with
    | basic k => exact heldBasic_bits_le sizes size
    | enum id underlying complete =>
      cases underlying with
      | none =>
        simp only [sizeof] at size
        split at size <;> cases size
        exact Nat.le_refl _
      | some k => exact heldBasic_bits_le sizes size
    | memberPointer cls elem =>
      cases size
      dsimp only
      have func : elem.isFunc = true → m.sizePtr ≤ memberPointerSize m h cls elem := by
        intro func
        simp only [memberPointerSize, func, if_true]
        repeat' split
        all_goals omega
      split
      · exact Nat.mul_le_mul_left 8 (func ‹_›)
      · exact Nat.le_refl _
    | pointer _ | blockPointer _ | lvalueReference _ | rvalueReference _ =>
      cases size
      exact Nat.le_refl _
    | array e l i => exact absurd rfl (plain e l i)
    | record r => simp [Ty.asRecord, Ty.unqualify] at scalar
    | qualified q v => exact absurd rfl (bare q v)
    | func | dependent => cases size
  cases t with
  | qualified q u =>
    cases u with
    | qualified q' u => cases size
    | array e l i => exact absurd rfl (plain' q e l i)
    | _ => exact unqualified _ _ rfl (by simp [Ty.unqualify]) scalar (by simp [Ty.unqualify]) size
  | _ => exact unqualified _ _ rfl (by simp [Ty.unqualify]) scalar plain size

/-- The bytes of an element. -/
def leafBytes (m : Model) (h : Hierarchy) (q : Ty × Nat) : Range := ⟨q.2, (sizeof m h (layoutInfo m h) q.1).getD 0⟩

/-- The elements of an array lie in it. -/
theorem element_inside {k len i off : Nat} (lt : i < len) (q : Range)
    (inside : Inside q ⟨off + i * (if k = 0 then 1 else k), k⟩) : Inside q ⟨off, k * len⟩ := by
  rcases inside with none | ⟨low, high⟩
  · exact .inl none
  · by_cases zero : k = 0
    · simp only [zero] at high low
      exact .inl (by omega)
    · rw [if_neg zero] at high low
      simp only at high low
      have step : i * k + k ≤ k * len := by
        rw [← Nat.succ_mul, Nat.mul_comm k len]
        exact Nat.mul_le_mul_right k lt
      exact .inr ⟨by simp only; omega, by simp only; omega⟩

theorem elemSize_eq {t : Ty} {k : Nat} (size : sizeof m h (layoutInfo m h) t = some k) :
    elemSize m h t = if k = 0 then 1 else k := by
  rw [elemSize, size]

theorem leaves_inside {t : Ty} {off n : Nat} (size : sizeof m h (layoutInfo m h) t = some n) :
    ∀ q ∈ leaves m h t off, Inside (leafBytes m h q) ⟨off, n⟩ := by
  have array : ∀ {elem : Ty} {len off n : Nat} {inc : Bool}, sizeof m h (layoutInfo m h) (.array elem len inc) = some n →
      (∀ (i : Nat) {n : Nat}, sizeof m h (layoutInfo m h) elem = some n →
        ∀ q ∈ leaves m h elem (off + i * elemSize m h elem), Inside (leafBytes m h q) ⟨off + i * elemSize m h elem, n⟩) →
      ∀ q ∈ (List.range len).flatMap fun i => leaves m h elem (off + i * elemSize m h elem),
        Inside (leafBytes m h q) ⟨off, n⟩ := by
    intro elem len off n inc size ih q mem
    obtain ⟨i, lt, mem⟩ := List.mem_flatMap.1 mem
    rw [sizeof] at size
    split at size
    · cases size
    · obtain ⟨k, elemSize', rfl⟩ := Option.map_eq_some_iff.1 size
      have inside := ih i elemSize' q mem
      rw [elemSize_eq elemSize'] at inside
      exact element_inside (List.mem_range.1 lt) _ inside
  fun_induction leaves m h t off generalizing n with
  | case1 elem len inc off ih => exact array size fun i _ elemSize => ih i elemSize
  | case2 _ elem len inc off ih =>
    rw [sizeof] at size
    · exact array size fun i _ elemSize => ih i elemSize
    · simp
  | case3 t off =>
    intro q mem
    obtain rfl := List.mem_singleton.1 mem
    exact .inr ⟨Nat.le_refl _, by simp [leafBytes, size]⟩

theorem leaves_apart {t : Ty} {off n : Nat} (size : sizeof m h (layoutInfo m h) t = some n) :
    (leaves m h t off).Pairwise fun q q' => (leafBytes m h q).Apart (leafBytes m h q') := by
  have array : ∀ {elem : Ty} {len off n : Nat} {inc : Bool}, sizeof m h (layoutInfo m h) (.array elem len inc) = some n →
      (∀ (i : Nat) {n : Nat}, sizeof m h (layoutInfo m h) elem = some n →
        (leaves m h elem (off + i * elemSize m h elem)).Pairwise fun q q' => (leafBytes m h q).Apart (leafBytes m h q')) →
      ((List.range len).flatMap fun i => leaves m h elem (off + i * elemSize m h elem)).Pairwise
        fun q q' => (leafBytes m h q).Apart (leafBytes m h q') := by
    intro elem len off n inc size ih
    rw [sizeof] at size
    split at size
    · cases size
    · obtain ⟨k, elemSize', rfl⟩ := Option.map_eq_some_iff.1 size
      refine List.pairwise_flatMap.2 ⟨fun i _ => ih i elemSize', ?_⟩
      refine List.Pairwise.imp ?_ List.pairwise_lt_range
      intro i j lt q mem q' mem'
      refine apart_of_inside ?_ (leaves_inside elemSize' q mem) (leaves_inside elemSize' q' mem')
      rw [elemSize_eq elemSize']
      by_cases zero : k = 0
      · exact .inl zero
      · have step : i * k + k ≤ j * k := by
          rw [← Nat.succ_mul]
          exact Nat.mul_le_mul_right k lt
        rw [if_neg zero]
        exact .inr (.inr (.inl (by simp only; omega)))
  fun_induction leaves m h t off generalizing n with
  | case1 elem len inc off ih => exact array size fun i _ elemSize => ih i elemSize
  | case2 _ elem len inc off ih =>
    rw [sizeof] at size
    · exact array size fun i _ elemSize => ih i elemSize
    · simp
  | case3 t off => exact List.pairwise_singleton _ _

theorem leaves_plain {t : Ty} {off : Nat} : ∀ q ∈ leaves m h t off,
    (∀ e l i, q.1 ≠ .array e l i) ∧ ∀ c e l i, q.1 ≠ .qualified c (.array e l i) := by
  fun_induction leaves m h t off with
  | case1 elem len inc off ih | case2 _ elem len inc off ih =>
    intro q mem
    obtain ⟨i, -, mem⟩ := List.mem_flatMap.1 mem
    exact ih i q mem
  | case3 t off plain plain' =>
    intro q mem
    obtain rfl := List.mem_singleton.1 mem
    exact ⟨fun e l i same => plain e l i same, fun c e l i same => plain' c e l i same⟩

theorem leaves_sized {t : Ty} {off n : Nat} (size : sizeof m h (layoutInfo m h) t = some n) :
    ∀ q ∈ leaves m h t off, ∃ k, sizeof m h (layoutInfo m h) q.1 = some k := by
  fun_induction leaves m h t off generalizing n with
  | case1 elem len inc off ih =>
    intro q mem
    obtain ⟨i, -, mem⟩ := List.mem_flatMap.1 mem
    rw [sizeof] at size
    split at size
    · cases size
    · obtain ⟨k, elemSize, -⟩ := Option.map_eq_some_iff.1 size
      exact ih i elemSize q mem
  | case2 c elem len inc off ih =>
    intro q mem
    obtain ⟨i, -, mem⟩ := List.mem_flatMap.1 mem
    rw [sizeof, sizeof] at size
    · split at size
      · cases size
      · obtain ⟨k, elemSize, -⟩ := Option.map_eq_some_iff.1 size
        exact ih i elemSize q mem
    · simp
  | case3 t off =>
    intro q mem
    obtain rfl := List.mem_singleton.1 mem
    exact ⟨n, size⟩

theorem leaves_of_asRecord {t : Ty} {c off : Nat} (cls : t.asRecord = some c) : leaves m h t off = [(t, off)] := by
  cases t with
  | qualified q u => cases u <;> first | rfl | simp [Ty.asRecord, Ty.unqualify] at cls
  | array => simp [Ty.asRecord, Ty.unqualify] at cls
  | _ => rfl

theorem leaves_of_isIntegral {t : Ty} {off : Nat} (integral : t.isIntegral = true) : leaves m h t off = [(t, off)] := by
  cases t with
  | qualified q u => cases u <;> first | rfl | simp [Ty.isIntegral, Ty.unqualify] at integral
  | array => simp [Ty.isIntegral, Ty.unqualify] at integral
  | _ => rfl

/-- A run of bytes as one of bits. -/
def bitsOf (a : Range) : Range := ⟨8 * a.lo, 8 * a.len⟩

theorem Inside.bits {a b : Range} (inside : Inside a b) : Inside (bitsOf a) (bitsOf b) := by
  unfold Inside bitsOf at *
  simp only
  omega

theorem leafPart_inside (sizes : m.Sizes) {t : Ty} {off n : Nat} (size : sizeof m h (layoutInfo m h) t = some n) {q : Ty × Nat}
    (mem : q ∈ leaves m h t off) : Inside ((leafPart q.1 q.2).range m h) (bitsOf (leafBytes m h q)) := by
  unfold leafPart
  split
  · exact .inl rfl
  · rename_i scalar
    obtain ⟨k, known⟩ := leaves_sized size q mem
    obtain ⟨plain, plain'⟩ := leaves_plain q mem
    have le := held_bits_le sizes scalar plain plain' known
    exact .inr ⟨Nat.le_refl _, by simp only [Part.range, bitsOf, leafBytes, known, Option.getD_some]; omega⟩

theorem fieldParts_inside (sizes : m.Sizes) {f : Field} {off n : Nat} {bitOff : Int}
    (size : sizeof m h (layoutInfo m h) f.type = some n) :
    ∀ part ∈ fieldParts m h f off bitOff, Inside (part.range m h) (valueBits m h f off bitOff) := by
  intro part mem
  unfold fieldParts at mem
  split at mem
  · rename_i bit
    split at mem
    · cases mem
    · rename_i named
      obtain rfl := List.mem_singleton.1 mem
      exact .inr ⟨by simp [valueBits, bit, Part.range], by simp [valueBits, bit, named, Part.range, Nat.mul_comm]⟩
  · rename_i plain
    obtain ⟨q, leaf, rfl⟩ := List.mem_map.1 mem
    by_cases empty : (emptyMember h f).isSome = true
    · obtain ⟨c, found⟩ := Option.isSome_iff_exists.1 empty
      have cls : f.type.asRecord = some c := by
        unfold emptyMember at found
        split at found
        · exact (Option.filter_eq_some_iff.1 found).1
        · cases found
      rw [leaves_of_asRecord cls, List.mem_singleton] at leaf
      subst leaf
      exact .inl (by simp [leafPart, cls, Part.range])
    · refine (leafPart_inside sizes size leaf).trans (((leaves_inside size q leaf).bits).trans (.inr ?_))
      simp only [bitsOf, valueBits, plain, empty, size, Option.getD_some, Bool.false_eq_true, if_false, Bool.and_false]
      omega

theorem fieldParts_apart (sizes : m.Sizes) {f : Field} {off n : Nat} {bitOff : Int}
    (size : sizeof m h (layoutInfo m h) f.type = some n) :
    (fieldParts m h f off bitOff).Pairwise fun a b => (a.range m h).Apart (b.range m h) := by
  unfold fieldParts
  split
  · split
    · exact .nil
    · exact List.pairwise_singleton _ _
  · refine List.pairwise_map.2 ((leaves_apart size).imp_of_mem fun {q q'} mem mem' apart => ?_)
    refine apart_of_inside ?_ (leafPart_inside sizes size mem) (leafPart_inside sizes size mem')
    unfold Range.Apart bitsOf at *
    simp only
    omega

theorem baseParts_range {b : BaseSpec} {off : Nat} : ∀ part ∈ baseParts b off, (part.range m h).len = 0 := by
  intro part mem
  unfold baseParts at mem
  split at mem
  · obtain rfl := List.mem_singleton.1 mem
    rfl
  · cases mem

/-- **The parts of a class do not meet.** -/
theorem parts_apart (supported : m.Supported) (complete : h.Complete m r) (struct : (h.record r).tag ≠ .union)
    (known : layoutInfo m h r = some info) : ∀ a ∈ parts m h r info, ∀ b ∈ parts m h r info,
      a = b ∨ (a.range m h).Apart (b.range m h) := by
  have sizes := supported.sizes
  have sized := member_sized struct known
  have pairwise : (parts m h r info).Pairwise fun a b => (a.range m h).Apart (b.range m h) := by
    refine List.pairwise_append.2 ⟨?_, List.pairwise_flatMap.2 ⟨?_, ?_⟩, ?_⟩
    · refine List.pairwise_flatMap.2 ⟨?_, ?_⟩
      · rintro ⟨b, i⟩ -
        exact List.Pairwise.imp_of_mem (R := fun _ _ => True) (fun mem _ _ => .inl (baseParts_range _ mem))
          (List.pairwise_of_forall fun _ _ => trivial)
      · refine List.pairwise_of_forall ?_
        rintro ⟨b, i⟩ ⟨b', i'⟩ part mem part' -
        exact .inl (baseParts_range _ mem)
    · rintro ⟨f, i⟩ mem
      obtain ⟨n, size⟩ := sized f (List.fst_mem_of_mem_zipIdx mem)
      exact fieldParts_apart sizes size
    · refine List.pairwise_iff_getElem.2 fun i j hi hj lt part mem part' mem' => ?_
      rw [List.getElem_zipIdx] at mem mem'
      rw [List.length_zipIdx] at hi hj
      obtain ⟨n, size⟩ := sized _ (List.getElem_mem hi)
      obtain ⟨n', size'⟩ := sized _ (List.getElem_mem hj)
      have apart := valueBits_apart supported complete struct known (i := 0 + i) (j := 0 + j) (by omega)
        (by rw [Nat.zero_add]; exact List.getElem?_eq_getElem hi) (by rw [Nat.zero_add]; exact List.getElem?_eq_getElem hj)
      exact apart_of_inside apart (fieldParts_inside sizes size part mem) (fieldParts_inside sizes size' part' mem')
    · intro a mem b _
      obtain ⟨⟨base, i⟩, -, mem⟩ := List.mem_flatMap.1 mem
      exact .inl (baseParts_range _ mem)
  have symm : Std.Symm fun a b : Part => a = b ∨ (a.range m h).Apart (b.range m h) :=
    ⟨fun a b either => either.elim (fun same => .inl same.symm) fun apart => .inr apart.symm⟩
  intro a ha b hb
  exact List.Pairwise.forall_of_forall (R := fun a b => a = b ∨ (a.range m h).Apart (b.range m h)) (fun _ _ => .inl rfl)
    (pairwise.imp fun apart => .inr apart) ha hb

/-- Nothing that is read touches the bits of a floating-point number that is read. -/
structure FloatsApart (l : List (Key × Bool)) : Prop where
  pos : ∀ n off, .float n off ∈ l.map Prod.fst → 0 < n
  bits : ∀ n off p, .float n off ∈ l.map Prod.fst → .bit p ∈ l.map Prod.fst → ¬ (8 * off ≤ p ∧ p < 8 * off + 8 * n)
  floats : ∀ n off n' off', .float n off ∈ l.map Prod.fst → .float n' off' ∈ l.map Prod.fst →
    8 * off ≤ 8 * off' → 8 * off' < 8 * off + 8 * n → n' = n ∧ off' = off

theorem held_float_pos {t : Ty} {n : Nat} (kind : held m h t = .float n) : 0 < n := by
  have basic : ∀ k, heldBasic m k = .float n → 0 < n := by
    intro k kind
    cases k <;> simp only [heldBasic, Held.float.injEq, reduceCtorEq] at kind <;> omega
  unfold held at kind
  split at kind
  · exact basic _ kind
  · exact basic _ kind
  · cases kind
  · split at kind <;> cases kind
  · cases kind

theorem ownReads_floatsApart (supported : m.Supported) (complete : h.Complete m r) (struct : (h.record r).tag ≠ .union)
    (known : layoutInfo m h r = some info) : FloatsApart (ownReads m h r info resolved) := by
  have apart := parts_apart supported complete struct known
  have part : ∀ {k : Key}, k ∈ (ownReads m h r info resolved).map Prod.fst →
      ∃ part ∈ parts m h r info, ∃ turned, (k, turned) ∈ part.keys m h resolved := by
    intro k mem
    obtain ⟨⟨k, turned⟩, read, rfl⟩ := List.mem_map.1 mem
    obtain ⟨part, here, read⟩ := List.mem_flatMap.1 read
    exact ⟨part, here, turned, read⟩
  refine ⟨?_, ?_, ?_⟩
  · intro n off mem
    obtain ⟨a, -, _, mem⟩ := part mem
    obtain ⟨t, rfl, kind⟩ := float_mem_part mem
    exact held_float_pos kind
  · intro n off p mem mem' inside
    obtain ⟨a, ha, _, mem⟩ := part mem
    obtain ⟨b, hb, _, mem'⟩ := part mem'
    obtain ⟨t, rfl, kind⟩ := float_mem_part mem
    have there := bit_mem_part mem'
    have pos := held_float_pos kind
    rcases apart _ ha b hb with rfl | apart
    · simp only [Part.keys, kind, Held.keys, List.mem_singleton, Prod.mk.injEq, reduceCtorEq, false_and] at mem'
    · have range : Part.range m h (.scalar t off) = ⟨8 * off, 8 * n⟩ := by simp [Part.range, kind, Held.bits]
      rw [range, Range.Apart] at apart
      simp only at apart
      omega
  · intro n off n' off' mem mem' low high
    obtain ⟨a, ha, _, mem⟩ := part mem
    obtain ⟨b, hb, _, mem'⟩ := part mem'
    obtain ⟨t, rfl, kind⟩ := float_mem_part mem
    obtain ⟨t', rfl, kind'⟩ := float_mem_part mem'
    have pos := held_float_pos kind
    have pos' := held_float_pos kind'
    rcases apart _ ha _ hb with same | apart
    · simp only [Part.scalar.injEq] at same
      obtain ⟨rfl, rfl⟩ := same
      rw [kind, Held.float.injEq] at kind'
      exact ⟨kind'.symm, rfl⟩
    · simp only [Range.Apart, Part.range, kind, kind', Held.bits] at apart
      omega

/-- The lowering and the language agree on which types are floating-point, but for `_Float16`. -/
theorem held_of_loaded {t : Ty} {n : Nat} (kind : loaded m h t = .float n) : held m h t = .float n := by
  have basic : ∀ k, (basicReg m k = .f32 → heldBasic m k = .float 4) ∧ (basicReg m k = .f64 → heldBasic m k = .float 8) := by
    intro k
    have int : ∀ reg, reg ≠ .i32 → reg ≠ .i64 → reg ≠ .i128 → intReg m k ≠ reg := by
      intro reg
      unfold intReg
      split
      · split
        · tauto
        · split <;> tauto
      · tauto
    cases k <;> simp [basicReg, heldBasic, int]
  have reg : (regType m h t = .f32 → held m h t = .float 4) ∧ (regType m h t = .f64 → held m h t = .float 8) := by
    unfold regType held
    cases t.unqualify with
    | basic k => exact basic k
    | enum id underlying complete =>
      cases underlying with
      | none => simp
      | some k => exact basic k
    | memberPointer cls elem =>
      dsimp only
      split
      · simp
      · split <;> simp
    | _ => simp
  unfold loaded at kind
  split at kind
  · cases kind
  · cases kind
  · rename_i f32
    cases kind
    exact reg.1 f32
  · rename_i f64
    cases kind
    exact reg.2 f64
  · cases kind
  · split at kind <;> cases kind
  · split at kind <;> cases kind

theorem float_mem_own (complete : h.Complete m r) {n off : Nat}
    (mem : .float n off ∈ (wholeReads m h declared op r info).map Prod.fst) :
    .float n off ∈ (ownReads m h r info resolved).map Prod.fst := by
  obtain ⟨⟨_, turned⟩, mem, rfl⟩ := List.mem_map.1 mem
  have leaf : ∀ {q : Ty × Nat}, (Key.float n off, turned) ∈ wholeLeaf m h declared op q →
      q.1.asRecord = none ∧ loaded m h q.1 = .float n ∧ off = q.2 := by
    intro q mem
    unfold wholeLeaf at mem
    split at mem
    · simp at mem
    · rename_i scalar
      exact ⟨scalar, float_mem_held mem⟩
  rcases List.mem_append.1 mem with mem | mem
  · obtain ⟨⟨b, i⟩, base, mem⟩ := List.mem_flatMap.1 mem
    split at mem
    · cases mem
    · obtain ⟨q, at_, mem⟩ := List.mem_flatMap.1 mem
      obtain ⟨c, cls⟩ := complete.at.bases b (List.fst_mem_of_mem_zipIdx base)
      rw [leaves_of_asRecord cls, List.mem_singleton] at at_
      subst at_
      obtain ⟨none, -⟩ := leaf mem
      simp only at none
      rw [BaseSpec.cls] at cls
      rw [none] at cls
      cases cls
  · obtain ⟨⟨f, i⟩, field, mem⟩ := List.mem_flatMap.1 mem
    obtain ⟨q, at_, mem⟩ := List.mem_flatMap.1 mem
    obtain ⟨scalar, kind, rfl⟩ := leaf mem
    have real := held_of_loaded kind
    have plain : f.bitField = false := by
      by_contra bit
      have integral := h.bitField_integral r f (List.fst_mem_of_mem_zipIdx field) (by simpa using bit)
      rw [leaves_of_isIntegral integral, List.mem_singleton] at at_
      subst at_
      have int : ∀ k : Kind, k.isInteger = true → heldBasic m k ≠ .float n := by
        intro k int
        cases k <;> simp [Kind.isInteger, heldBasic] at int ⊢
      simp only at real
      unfold Ty.isIntegral at integral
      unfold held at real
      split at real
      · rename_i same
        rw [same] at integral
        exact int _ integral real
      · rename_i same
        rw [same] at integral
        exact int _ integral real
      · cases real
      · split at real <;> cases real
      · cases real
    refine List.mem_map.2 ⟨(.float n q.2, false), List.mem_flatMap.2 ⟨.scalar q.1 q.2, ?_, ?_⟩, rfl⟩
    · refine List.mem_append_right _ (List.mem_flatMap.2 ⟨(f, i), field, ?_⟩)
      show _ ∈ fieldParts m h f _ _
      rw [fieldParts, if_neg (by simp [plain])]
      exact List.mem_map.2 ⟨q, at_, by simp [leafPart, scalar]⟩
    · simp [Part.keys, real, Held.keys]

/-! ### Objects for every answer -/

/-- The bits and offsets below a bound. -/
def Key.Below (N : Nat) : Key → Prop
  | .bit p => p < 8 * N
  | .float n off => off + n ≤ N
  | .call _ _ (.fixed off) => off < N
  | .call _ _ (.shared _) => True

theorem Key.Below.mono {N N' : Nat} (le : N ≤ N') {k : Key} (below : k.Below N) : k.Below N' := by
  cases k with
  | call c o place =>
    cases place with
    | fixed off => exact Nat.lt_of_lt_of_le below le
    | shared c => trivial
  | _ => simp only [Key.Below] at *; omega

theorem exists_below (l : List (Key × Bool)) : ∃ N, ∀ q ∈ l, q.1.Below N := by
  induction l with
  | nil => exact ⟨0, by simp⟩
  | cons q rest ih =>
    obtain ⟨N, below⟩ := ih
    obtain ⟨M, here⟩ : ∃ M, q.1.Below M := by
      match q.1 with
      | .bit p => exact ⟨p + 1, by simp only [Key.Below]; omega⟩
      | .float n off => exact ⟨off + n, Nat.le_refl _⟩
      | .call _ _ (.fixed off) => exact ⟨off + 1, Nat.lt_succ_self off⟩
      | .call _ _ (.shared _) => exact ⟨0, trivial⟩
    refine ⟨max N M, fun p mem => ?_⟩
    rcases List.mem_cons.1 mem with rfl | mem
    · exact here.mono (Nat.le_max_right _ _)
    · exact (below p mem).mono (Nat.le_max_left _ _)

section

variable (N : Nat) (w : Nat → Order) (v : Key → Order) (floats : Floats)

/-- An object at 0 and one at `N`, whose bits compare as `w` has it. -/
def twoObjects : Memory := .ofBits fun p => if p < 8 * N then w p = .greater else w (p - 8 * N) = .less

/-- The subobject of the object at 0 that is at an address; its virtual bases are from `N` on. -/
def placeOf (x : Nat) : Place := if x < N then .fixed x else .shared (x - N)

/-- Operators that answer as `v` has it, for the object at 0. -/
def someEnv : Env where
  floats := floats
  equal c o _ x _ := v (.call c o (placeOf N x)) = .equal
  order c o _ x _ := v (.call c o (placeOf N x))
  virtualBase _ _ c := N + c

variable {N w v floats}

theorem twoObjects_first {p : Nat} (lt : p < 8 * N) : (twoObjects N w).bit p = decide (w p = .greater) := by
  rw [twoObjects, Memory.ofBits_bit, if_pos lt]

theorem twoObjects_second {p : Nat} : (twoObjects N w).bit (8 * N + p) = decide (w p = .less) := by
  rw [twoObjects, Memory.ofBits_bit, if_neg (by omega), Nat.add_sub_cancel_left]

theorem answers_bit {p : Nat} (lt : p < 8 * N) (total : w p ≠ .unordered) :
    answers op (someEnv N v floats) (twoObjects N w) 0 N (.bit p) = w p := by
  rw [answers, Nat.mul_zero, Nat.zero_add, twoObjects_first lt, twoObjects_second]
  revert total
  cases w p <;> decide

theorem placeOf_address {place : Place} {c : Nat} {o : Option Nat} (below : (Key.call c o place).Below N) :
    placeOf N (place.address (someEnv N v floats) (twoObjects N w) 0) = place := by
  cases place with
  | fixed off =>
    have lt : 0 + off < N := by simpa [Key.Below] using below
    rw [Place.address, placeOf, if_pos lt, Nat.zero_add]
  | shared c =>
    have ge : ¬ N + c < N := by omega
    show placeOf N (N + c) = _
    rw [placeOf, if_neg ge, Nat.add_sub_cancel_left]

/-- The answers of the operators: for `==`, whether there is a difference. -/
theorem answers_call {c : Nat} {o : Option Nat} {place : Place} (below : (Key.call c o place).Below N) :
    (op = .spaceship → answers op (someEnv N v floats) (twoObjects N w) 0 N (.call c o place) = v (.call c o place)) ∧
      (answers op (someEnv N v floats) (twoObjects N w) 0 N (.call c o place) = .equal ↔ v (.call c o place) = .equal) := by
  have here : placeOf N (place.address (someEnv N v floats) (twoObjects N w) 0) = place := placeOf_address below
  cases op with
  | equality =>
    refine ⟨by simp, ?_⟩
    show (if decide (v (.call c o (placeOf N _)) = .equal) = true then Order.equal else .less) = .equal ↔ _
    rw [here]
    by_cases same : v (.call c o place) = .equal <;> simp [same]
  | spaceship =>
    have : answers .spaceship (someEnv N v floats) (twoObjects N w) 0 N (.call c o place) = v (.call c o place) := by
      show v (.call c o (placeOf N _)) = _
      rw [here]
    exact ⟨fun _ => this, by rw [this]⟩

end

/-- Floating-point numbers of which none differ. -/
def sameFloats : Floats := ⟨fun _ _ _ => .equal, fun _ _ _ => rfl⟩

/-- Floating-point numbers that compare as their bits do, unsigned. -/
def bitwiseFloats : Floats where
  order _ x y := orderInt x.toNat y.toNat
  swap _ x y := by
    rcases Nat.lt_trichotomy x.toNat y.toNat with lt | eq | gt
    · rw [orderInt_of_gt (x := y.toNat) (y := x.toNat) (by omega), orderInt_of_lt (x := x.toNat) (by omega)]
      rfl
    · rw [eq, orderInt_eq_equal.2 rfl]
      rfl
    · rw [orderInt_of_lt (x := y.toNat) (y := x.toNat) (by omega), orderInt_of_gt (x := x.toNat) (by omega)]
      rfl

/-- Every question is answered as `v` has it, up to the kind of difference for `==`. -/
def Answered (op : Op) (env : Env) (mem : Memory) (N : Nat) (v : Key → Order) (l : List (Key × Bool)) : Prop :=
  ∀ q ∈ l, (op = .spaceship → answers op env mem 0 N q.1 = v q.1) ∧
    (answers op env mem 0 N q.1 = .equal ↔ v q.1 = .equal)

/-- Where floating-point numbers do not differ, there are objects for all answers about bits. -/
theorem exists_answered_bits {v : Key → Order} (total : ∀ k, v k ≠ .unordered) (same : ∀ n off, v (.float n off) = .equal)
    (l : List (Key × Bool)) : ∃ env mem N, Answered op env mem N v l := by
  obtain ⟨N, below⟩ := exists_below l
  refine ⟨someEnv N v sameFloats, twoObjects N fun p => v (.bit p), N, fun q mem => ?_⟩
  have low := below q mem
  match q.1, low with
  | .bit p, low =>
    have : answers op (someEnv N v sameFloats) (twoObjects N fun p => v (.bit p)) 0 N (.bit p) = v (.bit p) :=
      answers_bit low (total _)
    exact ⟨fun _ => this, by rw [this]⟩
  | .float n off, _ => exact ⟨fun _ => (same n off).symm, by simp [answers, someEnv, sameFloats, same]⟩
  | .call c o place, low => exact answers_call low

/-- The questions for a floating-point number that starts at a bit. -/
def startsAt (p : Nat) (q : Key × Bool) : Bool :=
  match q.1 with
  | .float _ off => p = 8 * off
  | _ => false

/-- How the bits have to compare: a floating-point number differs in its lowest bit. -/
def bitAnswers (l : List (Key × Bool)) (v : Key → Order) (p : Nat) : Order :=
  match l.find? (startsAt p) with
  | some q => v q.1
  | none => if .bit p ∈ l.map Prod.fst then v (.bit p) else .equal

theorem bitAnswers_total {l : List (Key × Bool)} {v : Key → Order} (total : ∀ k, v k ≠ .unordered) (p : Nat) :
    bitAnswers l v p ≠ .unordered := by
  unfold bitAnswers
  split
  · exact total _
  · split
    · exact total _
    · decide

theorem startsAt_iff {p : Nat} {q : Key × Bool} : startsAt p q = true ↔ ∃ n off, q.1 = .float n off ∧ p = 8 * off := by
  unfold startsAt
  split
  · rename_i n off key
    simp [key]
  · rename_i other
    simp only [Bool.false_eq_true, false_iff]
    rintro ⟨n, off, key, -⟩
    exact other n off key

section

variable {l : List (Key × Bool)} {v : Key → Order} (apart : FloatsApart l)
include apart

theorem bitAnswers_bit {p : Nat} (mem : .bit p ∈ l.map Prod.fst) : bitAnswers l v p = v (.bit p) := by
  unfold bitAnswers
  split
  · rename_i q found
    obtain ⟨n, off, key, rfl⟩ := startsAt_iff.1 (List.find?_some found)
    have float : .float n off ∈ l.map Prod.fst := key ▸ List.mem_map_of_mem (List.mem_of_find?_eq_some found)
    have := apart.pos n off float
    exact absurd ⟨Nat.le_refl _, by omega⟩ (apart.bits n off _ float mem)
  · rw [if_pos mem]

theorem bitAnswers_start {n off : Nat} (mem : .float n off ∈ l.map Prod.fst) : bitAnswers l v (8 * off) = v (.float n off) := by
  unfold bitAnswers
  have pos := apart.pos n off mem
  split
  · rename_i q found
    obtain ⟨n', off', key, same⟩ := startsAt_iff.1 (List.find?_some found)
    have float : .float n' off' ∈ l.map Prod.fst := key ▸ List.mem_map_of_mem (List.mem_of_find?_eq_some found)
    obtain ⟨rfl, rfl⟩ := apart.floats n off n' off' mem float (by omega) (by omega)
    rw [key]
  · rename_i none
    obtain ⟨q, here, key⟩ := List.mem_map.1 mem
    exact absurd (startsAt_iff.2 ⟨n, off, key, rfl⟩) (List.find?_eq_none.1 none q here)

theorem bitAnswers_rest {n off k : Nat} (mem : .float n off ∈ l.map Prod.fst) (pos : 0 < k) (lt : k < 8 * n) :
    bitAnswers l v (8 * off + k) = .equal := by
  unfold bitAnswers
  split
  · rename_i q found
    obtain ⟨n', off', key, same⟩ := startsAt_iff.1 (List.find?_some found)
    have float : .float n' off' ∈ l.map Prod.fst := key ▸ List.mem_map_of_mem (List.mem_of_find?_eq_some found)
    obtain ⟨-, rfl⟩ := apart.floats n off n' off' mem float (by omega) (by omega)
    omega
  · rw [if_neg fun bit => apart.bits n off _ mem bit ⟨by omega, by omega⟩]

omit apart in
/-- A number of which only the lowest bit may be set. -/
theorem bitsAt_lowest {mem : Memory} {p n : Nat} (rest : ∀ k, 0 < k → k < n → mem.bit (p + k) = false) (pos : 0 < n) :
    bitsAt mem p n = (mem.bit p).toNat := by
  induction n with
  | zero => omega
  | succ n ih =>
    rw [bitsAt]
    by_cases first : n = 0
    · subst first
      simp [bitsAt]
    · rw [ih (fun k low lt => rest k low (by omega)) (by omega), rest n (by omega) (by omega)]
      simp

/-- **There are objects for all answers.** -/
theorem exists_answered (total : ∀ k, v k ≠ .unordered) : ∃ env mem N, Answered op env mem N v l := by
  obtain ⟨N, below⟩ := exists_below l
  refine ⟨someEnv N v bitwiseFloats, twoObjects N (bitAnswers l v), N, fun q here => ?_⟩
  have low := below q here
  have asked : q.1 ∈ l.map Prod.fst := List.mem_map_of_mem here
  match q.1, low, asked with
  | .bit p, low, asked =>
    have : answers op (someEnv N v bitwiseFloats) (twoObjects N (bitAnswers l v)) 0 N (.bit p) = bitAnswers l v p :=
      answers_bit low (bitAnswers_total total p)
    rw [bitAnswers_bit apart asked] at this
    exact ⟨fun _ => this, by rw [this]⟩
  | .float n off, low, asked =>
    have pos := apart.pos n off asked
    have inside : off + n ≤ N := low
    have first : bitsAt (twoObjects N (bitAnswers l v)) (8 * off) (8 * n) = (decide (v (.float n off) = .greater)).toNat := by
      rw [bitsAt_lowest ?_ (by omega), twoObjects_first (by omega), bitAnswers_start apart asked]
      intro k low lt
      rw [twoObjects_first (by omega), bitAnswers_rest apart asked low lt]
      rfl
    have second : bitsAt (twoObjects N (bitAnswers l v)) (8 * (N + off)) (8 * n) = (decide (v (.float n off) = .less)).toNat := by
      rw [Nat.mul_add, bitsAt_lowest ?_ (by omega), twoObjects_second, bitAnswers_start apart asked]
      intro k low lt
      rw [Nat.add_assoc, twoObjects_second, bitAnswers_rest apart asked low lt]
      rfl
    have : answers op (someEnv N v bitwiseFloats) (twoObjects N (bitAnswers l v)) 0 N (.float n off) = v (.float n off) := by
      show orderInt _ _ = _
      rw [load_toNat, load_toNat, Nat.zero_add, first, second]
      have := total (.float n off)
      revert this
      cases v (.float n off) <;> decide
    exact ⟨fun _ => this, by rw [this]⟩
  | .call c o place, low, _ => exact answers_call low

end

/-! ### The theorem -/

theorem Answered.decides {op : Op} {env : Env} {mem : Memory} {N : Nat} {v : Key → Order} {l : List (Key × Bool)}
    (answered : Answered op env mem N v l) :
    (op = .spaceship → lex (answers op env mem 0 N) l = lex v l) ∧ allEqual (answers op env mem 0 N) l = allEqual v l := by
  refine ⟨fun spaceship => lex_congr fun q mem => (answered q mem).1 spaceship, ?_⟩
  rw [Bool.eq_iff_iff, allEqual_iff, allEqual_iff, lex_eq_equal_iff, lex_eq_equal_iff]
  exact forall₂_congr fun q mem => (answered q mem).2

/-- The chain and the standard decide alike, by their questions. -/
theorem right_iff_alike {tests : List Test} (emitted : defaultedComparison m h declared op r info = some tests) :
    Right m h op r info resolved tests ↔ ∀ (env : Env) (mem : Memory) (this other : Nat),
      match op with
      | .equality => allEqual (answers .equality env mem this other) (wholeReads m h declared .equality r info) =
          allEqual (answers .equality env mem this other) (ownReads m h r info resolved)
      | .spaceship => lex (answers .spaceship env mem this other) (wholeReads m h declared .spaceship r info) =
          lex (answers .spaceship env mem this other) (ownReads m h r info resolved) := by
  obtain ⟨handled, reads⟩ := defaultedComparison_some emitted
  refine forall_congr' fun env => forall_congr' fun mem => forall_congr' fun this => forall_congr' fun other => ?_
  cases op with
  | equality =>
    simp only
    rw [runEquality_eq env mem this other handled, all_agrees_eq, reads, ownReads]
  | spaceship =>
    simp only
    rw [runSpaceship_eq env mem this other handled, firstDifference_eq, reads, ownReads, word_inj]

theorem kept_equality_iff : Kept m h declared .equality r info resolved ↔
    ∀ k, k ∈ (wholeReads m h declared .equality r info).map Prod.fst ↔ k ∈ (ownReads m h r info resolved).map Prod.fst :=
  ⟨fun kept k => ⟨kept.1 k, kept.2 k⟩, fun same => ⟨fun k => (same k).1, fun k => (same k).2⟩⟩

/-- **A defaulted comparison is right exactly when whole reads do no harm**: for every class that is no union
and for which the lowering synthesises the operator. -/
theorem comparison_right_iff (supported : m.Supported) (complete : h.Complete m r) (struct : (h.record r).tag ≠ .union)
    (known : layoutInfo m h r = some info) {tests : List Test}
    (emitted : defaultedComparison m h declared op r info = some tests) :
    Right m h op r info resolved tests ↔ Kept m h declared op r info resolved := by
  rw [right_iff_alike emitted]
  constructor
  · intro alike
    -- the outcomes for the answers `v`, where there are objects that have them
    have decide : ∀ v : Key → Order,
        (∃ env mem N, Answered op env mem N v (wholeReads m h declared op r info ++ ownReads m h r info resolved)) →
        (op = .spaceship → lex v (wholeReads m h declared op r info) = lex v (ownReads m h r info resolved)) ∧
          allEqual v (wholeReads m h declared op r info) = allEqual v (ownReads m h r info resolved) := by
      rintro v ⟨env, mem, N, answered⟩
      have whole := Answered.decides (fun q mem => answered q (List.mem_append_left _ mem))
      have own := Answered.decides (fun q mem => answered q (List.mem_append_right _ mem))
      have same := alike env mem 0 N
      cases op with
      | equality => exact ⟨by simp, by rw [← whole.2, ← own.2]; exact same⟩
      | spaceship =>
        have outcome : lex v (wholeReads m h declared .spaceship r info) = lex v (ownReads m h r info resolved) := by
          rw [← whole.1 rfl, ← own.1 rfl]
          exact same
        exact ⟨fun _ => outcome, by rw [Bool.eq_iff_iff, allEqual_iff, allEqual_iff, outcome]⟩
    -- a bit that is read is a member's: else objects that differ there alone are wrong
    have bits : ∀ p, .bit p ∈ (wholeReads m h declared op r info).map Prod.fst →
        .bit p ∈ (ownReads m h r info resolved).map Prod.fst := by
      intro p mem
      have same := (decide _ (exists_answered_bits (single_total (k := Key.bit p))
        (fun n off => answer_of_ne (by simp)) _)).2
      rw [← allEqual_answer] at mem ⊢
      rw [← same, mem]
    have own : FloatsApart (ownReads m h r info resolved) := ownReads_floatsApart supported complete struct known
    have asked : ∀ k, (∀ c o place, k ≠ .call c o place) →
        k ∈ (wholeReads m h declared op r info ++ ownReads m h r info resolved).map Prod.fst →
        k ∈ (ownReads m h r info resolved).map Prod.fst := by
      intro k noCall mem
      rw [List.map_append, List.mem_append] at mem
      rcases mem with mem | mem
      · cases k with
        | bit p => exact bits p mem
        | float n off => exact float_mem_own complete mem
        | call c o place => exact absurd rfl (noCall c o place)
      · exact mem
    have apart : FloatsApart (wholeReads m h declared op r info ++ ownReads m h r info resolved) :=
      ⟨fun n off mem => own.pos n off (asked _ (by simp) mem),
        fun n off p mem mem' => own.bits n off p (asked _ (by simp) mem) (asked _ (by simp) mem'),
        fun n off n' off' mem mem' => own.floats n off n' off' (asked _ (by simp) mem) (asked _ (by simp) mem')⟩
    have all := fun v total => decide v (exists_answered apart total)
    cases op with
    | equality => exact kept_equality_iff.2 (allEqual_eq_iff.1 fun v total => (all v total).2)
    | spaceship => exact lex_eq_iff.1 fun v total => (all v total).1 rfl
  · intro kept env mem this other
    cases op with
    | equality => exact allEqual_of_keys (kept_equality_iff.1 kept)
    | spaceship => exact lex_of_firsts kept

/-- `struct S { unsigned a : 4, b : 4; }; struct P { int a[2]; double b; };` -/
def comparedClasses : Hierarchy := .ofRecords
  [{ name := "S", fields := [{ name := "a", type := .basic .uInt, bitField := true, width := 4 },
      { name := "b", type := .basic .uInt, bitField := true, width := 4 }] },
    { name := "P", fields := [{ name := "a", type := .array (.basic .int) 2 false },
      { name := "b", type := .basic .double }] }] (by decide)

def layoutS : RecordInfo :=
  { size := 4, align := 4, fieldOffsets := [0, 0], bitOffsets := [0, 4], bitUnits := [4, 4], nvsize := 4, dsize := 4,
    nvalign := 4, primary := none, primaryVirtual := none, baseOffsets := [], vbptr := none, vbaseOffsets := ∅ }

def layoutP : RecordInfo :=
  { size := 16, align := 8, fieldOffsets := [0, 8], bitOffsets := [0, 0], bitUnits := [0, 0], nvsize := 16, dsize := 16,
    nvalign := 8, primary := none, primaryVirtual := none, baseOffsets := [], vbptr := none, vbaseOffsets := ∅ }

theorem comparedClasses_complete {r : Nat} (le : r ≤ 1) : comparedClasses.Complete lp64 r :=
  Hierarchy.complete_of_all fun c hc => (by decide : ∀ c ≤ 1, comparedClasses.completeAt lp64 c = true) c (by omega)

/-- `P` is ordered by its array and then its number. -/
theorem arrayThenDouble_right : ∃ tests, defaultedComparison lp64 comparedClasses (fun _ _ => true) .spaceship 1 layoutP = some tests ∧
    Right lp64 comparedClasses .spaceship 1 layoutP (fun _ => none) tests :=
  ⟨_, rfl, (comparison_right_iff lp64_supported (comparedClasses_complete (by omega)) (by decide) rfl rfl).2
    (by decide : Kept lp64 comparedClasses (fun _ _ => true) .spaceship 1 layoutP fun _ => none)⟩

/-- Of two bit-fields in one unit the second decides before the first: `{0, 1}` comes out greater than `{1, 0}`. -/
theorem sharedUnit_wrong : ¬ ∀ (m : Model) (h : Hierarchy) (declared : Nat → Nat → Bool) (op : Op) (r : Nat) (info : RecordInfo)
    (resolved : Nat → Option Nat) (tests : List Test), m.Supported → h.Complete m r → (h.record r).tag ≠ .union →
    layoutInfo m h r = some info → defaultedComparison m h declared op r info = some tests →
    Right m h op r info resolved tests := by
  intro all
  have right := all lp64 comparedClasses (fun _ _ => true) .spaceship 0 layoutS (fun _ => none) _ lp64_supported
    (comparedClasses_complete (by omega)) (by decide) rfl rfl
  have outcome := right ⟨sameFloats, fun _ _ _ _ _ => true, fun _ _ _ _ _ => .equal, fun _ _ _ => 0⟩
    (fun a => if a = 0 then 0x10 else if a = 4 then 0x01 else 0) 0 4
  exact absurd outcome (by decide)

end Vcx.Comparison
