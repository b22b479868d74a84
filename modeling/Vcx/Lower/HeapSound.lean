import Vcx.Lower.Heap

/-!
# When delete agrees with new

`delete[]` finds the count and the block behind every pointer `newArray` gives; the functions agree
where both are a class's or neither is, and the deleting destructors' where none is.
-/

namespace Vcx.Heap
set_option autoImplicit false
open Vcx.Lib Vcx.Types

/-! ### What is promised -/

/-- The deallocation functions that an allocation function's blocks may be given to. -/
def Function.counterpart : Function → Function → Bool
  | .ofClass _, .ofClass _ => true
  | .aligned a, .aligned b => a = b
  | .plain, .plain => true
  | _, _ => false

/-- The elements of an array, the first one first. -/
def elements (e : Element) (p : Ptr) (n : Nat) : List Ptr := (List.range n).map fun i => p + .ofNat 64 (i * e.size)

/-- `delete[]` of what `newArray` gave for `n` elements in a block, in any later memory that has the
cookie still: the elements are destroyed, the last one first, and the block is freed by a counterpart. -/
structure ArrayAgrees (abi : CXXABI) (e : Element) (n : Nat) (raw : Ptr) (mem mem' : Memory) : Prop where
  destroyed : (deleteArray abi e mem' (newArray abi e (.ofNat 64 n) raw mem).1).destroyed =
    if e.needsDestructor then (elements e (newArray abi e (.ofNat 64 n) raw mem).1 n).reverse else []
  freed : ∃ f, (deleteArray abi e mem' (newArray abi e (.ofNat 64 n) raw mem).1).freed = some (f, raw) ∧
    (newFunction "operator new[]" e).counterpart f = true

/-- `delete` of a complete object through the slot of its virtual destructor. -/
structure SlotAgrees (abi : CXXABI) (e : Element) (raw : Ptr) (mem : Memory) : Prop where
  destroyed : (deletingSlot abi e mem raw).destroyed = [raw]
  freed : ∃ f, (deletingSlot abi e mem raw).freed = some (f, raw) ∧ (newFunction "operator new" e).counterpart f = true

/-- A memory with the cookie before `p` as another has it. -/
def KeepsCookie (raw p : Ptr) (built mem : Memory) : Prop := ∀ a, raw.toNat ≤ a → a < p.toNat → mem a = built a

/-! ### When it is kept -/

/-- The array functions of a class are both its own or both global; under Microsoft's ABI, whose vector
deleting destructor frees, the allocation function of a class with a destructor is global. -/
def arrayMatched (abi : CXXABI) (e : Element) : Bool :=
  let allocates := (classAllocator "operator new[]" 1 e.record).isSome
  if e.needsDestructor ∧ abi.isMicrosoft then !allocates
  else allocates = (classAllocator "operator delete[]" 1 e.record).isSome

/-! ### The loop -/

theorem destroyLoop_stop {this : Ptr} {size : Nat} {idx : BitVec 64} (stop : (0 : BitVec 64).slt idx = false) :
    destroyLoop this size idx = [] := by
  rw [destroyLoop, dif_neg (Bool.eq_false_iff.1 stop)]

theorem slt_ofNat {k : Nat} (lt : k < 2 ^ 63) : (0 : BitVec 64).slt (.ofNat 64 k) = decide (0 < k) := by
  have value : (BitVec.ofNat 64 k).toInt = k := by
    rw [BitVec.toInt_eq_toNat_cond, BitVec.toNat_ofNat, Nat.mod_eq_of_lt (by omega), if_pos (by omega)]
  have zero : (0 : BitVec 64).toInt = 0 := rfl
  rw [BitVec.slt_eq_decide, value, zero]
  exact decide_eq_decide.2 (by omega)

theorem destroyLoop_elements (e : Element) (this : Ptr) {k : Nat} (lt : k < 2 ^ 63) :
    destroyLoop this e.size (.ofNat 64 k) = (elements e this k).reverse := by
  induction k with
  | zero => exact destroyLoop_stop (by decide)
  | succ k ih =>
    have pos : (0 : BitVec 64).slt (.ofNat 64 (k + 1)) = true := by
      rw [slt_ofNat lt]
      simp
    have less : BitVec.ofNat 64 (k + 1) - 1 = .ofNat 64 k := by
      rw [BitVec.ofNat_add]
      exact BitVec.add_sub_cancel _ _
    rw [destroyLoop, dif_pos pos, less, ih (by omega)]
    simp [elements, List.range_succ, BitVec.ofNat_mul]

theorem destroyLoop_large {this : Ptr} {size k : Nat} (large : 2 ^ 63 ≤ k) (lt : k < 2 ^ 64) :
    destroyLoop this size (.ofNat 64 k) = [] := by
  apply destroyLoop_stop
  have value : (BitVec.ofNat 64 k).toInt = k - 2 ^ 64 := by
    rw [BitVec.toInt_eq_toNat_cond, BitVec.toNat_ofNat, Nat.mod_eq_of_lt lt, if_neg (by omega)]
    rfl
  have zero : (0 : BitVec 64).toInt = 0 := rfl
  rw [BitVec.slt_eq_decide, value, zero, decide_eq_false (by omega)]

/-! ### The cookie -/

section

variable {abi : CXXABI} {e : Element}

theorem arrayCookie_eq_zero_iff : arrayCookie abi e = 0 ↔ e.needsDestructor = false := by
  unfold arrayCookie
  cases e.needsDestructor
  · simp
  · simp only [Bool.not_true, Bool.false_eq_true, if_false]
    split_ifs <;> simp <;> omega

theorem eight_le_arrayCookie (abi : CXXABI) (destroys : e.needsDestructor = true) : 8 ≤ arrayCookie abi e := by
  unfold arrayCookie
  rw [destroys]
  simp only [Bool.not_true, Bool.false_eq_true, if_false]
  split_ifs <;> omega

theorem sixteen_le_arrayCookie (destroys : e.needsDestructor = true) (has : arrayCookieHasElementSize abi = true) :
    16 ≤ arrayCookie abi e := by
  unfold arrayCookie
  rw [destroys, has]
  simp only [Bool.not_true, Bool.false_eq_true, if_false, if_true]
  split_ifs <;> omega

/-- The address `k` bytes into a block. -/
theorem toNat_add_ofNat {raw : Ptr} {k : Nat} (fits : raw.toNat + k < 2 ^ 64) : (raw + .ofNat 64 k).toNat = raw.toNat + k := by
  rw [BitVec.toNat_add, BitVec.toNat_ofNat, Nat.add_mod_mod, Nat.mod_eq_of_lt fits]

theorem toNat_sub_ofNat {raw : Ptr} {k c : Nat} (fits : raw.toNat + k < 2 ^ 64) (le : c ≤ k) :
    (raw + .ofNat 64 k - .ofNat 64 c).toNat = raw.toNat + k - c := by
  rw [BitVec.toNat_sub, toNat_add_ofNat fits, BitVec.toNat_ofNat, Nat.mod_eq_of_lt (show c < 2 ^ 64 by omega)]
  omega

variable {n : BitVec 64} {raw : Ptr} {mem mem' : Memory}

theorem newArray_trivial (trivial : e.needsDestructor = false) : newArray abi e n raw mem = (raw, mem) :=
  if_pos (arrayCookie_eq_zero_iff.2 trivial)

theorem newArray_ptr (abi : CXXABI) (n : BitVec 64) (raw : Ptr) (mem : Memory) (destroys : e.needsDestructor = true) :
    (newArray abi e n raw mem).1 = raw + .ofNat 64 (arrayCookie abi e) := by
  have some := eight_le_arrayCookie abi destroys
  unfold newArray
  rw [if_neg (by omega)]
  split_ifs <;> rfl

/-- The count is where `delete[]` reads it: before the elements, or first in the block under Microsoft's
ABI. -/
theorem count_kept (destroys : e.needsDestructor = true) (fits : raw.toNat + arrayCookie abi e < 2 ^ 64)
    (kept : KeepsCookie raw (newArray abi e n raw mem).1 (newArray abi e n raw mem).2 mem') :
    mem'.load 8 (if abi.isMicrosoft then raw else (newArray abi e n raw mem).1 - 8).toNat = n := by
  have some := eight_le_arrayCookie abi destroys
  have ptr := newArray_ptr abi n raw mem destroys
  have value := toNat_add_ofNat fits
  have count : (raw + .ofNat 64 (arrayCookie abi e) - 8).toNat = raw.toNat + arrayCookie abi e - 8 :=
    toNat_sub_ofNat fits some
  rw [KeepsCookie, ptr, value] at kept
  rw [ptr]
  unfold newArray at kept
  rw [if_neg (by omega)] at kept
  cases microsoft : abi.isMicrosoft
  · simp only [microsoft, Bool.false_eq_true, if_false] at kept ⊢
    rw [Memory.load_congr fun b low high => kept b (by omega) (by omega)]
    cases has : arrayCookieHasElementSize abi
    · exact mem.load_store 8 _ n
    · have larger := sixteen_le_arrayCookie destroys has
      have size : (raw + .ofNat 64 (arrayCookie abi e) - 16).toNat = raw.toNat + arrayCookie abi e - 16 :=
        toNat_sub_ofNat fits larger
      rw [if_pos rfl, Memory.load_congr fun b low high => Memory.store_apart _ _ (.inr (by omega))]
      exact mem.load_store 8 _ n
  · simp only [microsoft, if_true] at kept ⊢
    rw [Memory.load_congr fun b low high => kept b low (by omega)]
    exact mem.load_store 8 raw.toNat n

end

/-! ### Agreement -/

theorem counterpart_new (name : String) (e : Element) (f : Function) (same : f = globalFunction e) :
    (newFunction name e).counterpart f = !(classAllocator name 1 e.record).isSome := by
  subst same
  unfold newFunction
  cases classAllocator name 1 e.record with
  | some sym =>
    simp only [Option.isSome_some, Bool.not_true]
    unfold globalFunction
    split_ifs <;> rfl
  | none =>
    simp only [Option.isSome_none, Bool.not_false]
    unfold globalFunction
    split_ifs <;> simp [Function.counterpart]

/-- The functions of an array agree where both are a class's or neither is. -/
theorem counterpart_deallocate (e : Element) :
    (newFunction "operator new[]" e).counterpart (deallocateFunction true e) =
      decide ((classAllocator "operator new[]" 1 e.record).isSome = (classAllocator "operator delete[]" 1 e.record).isSome) := by
  unfold deallocateFunction
  simp only [if_true]
  cases classAllocator "operator delete[]" 1 e.record with
  | none =>
    rw [counterpart_new _ _ _ rfl]
    cases classAllocator "operator new[]" 1 e.record <;> rfl
  | some sym =>
    unfold newFunction
    cases classAllocator "operator new[]" 1 e.record with
    | some sym' => rfl
    | none =>
      simp only [Option.isSome_none, Option.isSome_some]
      unfold globalFunction
      split_ifs <;> rfl

theorem itanium_of_not_microsoft {abi : CXXABI} : abi.isItanium = !abi.isMicrosoft := by
  cases abi <;> rfl

section

variable {abi : CXXABI} {e : Element} {n : Nat} {raw : Ptr} {mem mem' : Memory}

/-- What `delete[]` does with the block of a class with a destructor. -/
theorem deleteArray_destroys (destroys : e.needsDestructor = true)
    (fits : raw.toNat + (n * e.size + arrayCookie abi e) < 2 ^ 64)
    (kept : KeepsCookie raw (newArray abi e (.ofNat 64 n) raw mem).1 (newArray abi e (.ofNat 64 n) raw mem).2 mem') :
    deleteArray abi e mem' (newArray abi e (.ofNat 64 n) raw mem).1 =
      ⟨destroyLoop (newArray abi e (.ofNat 64 n) raw mem).1 e.size (.ofNat 64 n),
        some (if abi.isMicrosoft then globalFunction e else deallocateFunction true e, raw)⟩ := by
  have count := count_kept destroys (by omega) kept
  have ptr := newArray_ptr abi (.ofNat 64 n) raw mem destroys
  rw [ptr] at count ⊢
  have back : raw + BitVec.ofNat 64 (arrayCookie abi e) - BitVec.ofNat 64 (arrayCookie abi e) = raw := BitVec.add_sub_cancel _ _
  have nonzero : raw + BitVec.ofNat 64 (arrayCookie abi e) ≠ 0 := by
    intro zero
    have value : (raw + .ofNat 64 (arrayCookie abi e)).toNat = _ := toNat_add_ofNat (by omega)
    have cookie := eight_le_arrayCookie abi destroys
    rw [zero] at value
    simp at value
    omega
  unfold deleteArray
  rw [if_neg nonzero, if_pos destroys, itanium_of_not_microsoft]
  cases microsoft : abi.isMicrosoft <;> simp only [microsoft, Bool.false_eq_true, if_false, if_true] at count
  · simp only [Bool.not_false, Bool.false_eq_true, if_false, if_true, deleteArrayItanium, count, back]
  · have frees : (3 : BitVec 32) &&& 1 ≠ 0 ∧ (3 : BitVec 32) &&& 2 ≠ 0 := by decide
    simp only [Bool.not_true, Bool.false_eq_true, if_false, deletingDtor, frees.2, ne_eq, not_false_eq_true, and_self,
      if_true, back, count, frees.1]

theorem deleteArray_trivial (abi : CXXABI) (n : Nat) (mem mem' : Memory) (trivial : e.needsDestructor = false) (some : raw ≠ 0) :
    deleteArray abi e mem' (newArray abi e (.ofNat 64 n) raw mem).1 = ⟨[], Option.some (deallocateFunction true e, raw)⟩ := by
  rw [newArray_trivial trivial]
  unfold deleteArray
  rw [if_neg some, trivial]
  rfl

theorem elements_ne_nil (p : Ptr) (pos : 0 < n) : (elements e p n).reverse ≠ [] := by
  intro empty
  have length := congrArg List.length empty
  simp [elements] at length
  omega

/-- `delete[]` agrees with `newArray` on the classes of `arrayMatched`, and with a destructor to run on
fewer than `2 ^ 63` elements. -/
theorem arrayAgrees_iff (some : raw ≠ 0) (fits : raw.toNat + (n * e.size + arrayCookie abi e) < 2 ^ 64)
    (kept : KeepsCookie raw (newArray abi e (.ofNat 64 n) raw mem).1 (newArray abi e (.ofNat 64 n) raw mem).2 mem') :
    ArrayAgrees abi e n raw mem mem' ↔
      (e.needsDestructor = true → n < 2 ^ 63) ∧ arrayMatched abi e = true := by
  cases destroys : e.needsDestructor with
  | false =>
    have does := deleteArray_trivial abi n mem mem' destroys some
    have matched : arrayMatched abi e = (newFunction "operator new[]" e).counterpart (deallocateFunction true e) := by
      rw [counterpart_deallocate, arrayMatched, destroys]
      simp
    rw [matched]
    refine ⟨fun agrees => ⟨fun impossible => absurd impossible (by decide), ?_⟩, fun cond => ⟨by rw [does, destroys]; rfl, _, by rw [does], cond.2⟩⟩
    obtain ⟨f, freed, counterpart⟩ := agrees.freed
    rw [does] at freed
    cases freed
    exact counterpart
  | true =>
    have does := deleteArray_destroys destroys fits kept
    have matched : arrayMatched abi e = (newFunction "operator new[]" e).counterpart
        (if abi.isMicrosoft then globalFunction e else deallocateFunction true e) := by
      rw [arrayMatched, destroys]
      cases abi.isMicrosoft
      · simp [counterpart_deallocate]
      · simp [counterpart_new]
    rw [matched]
    constructor
    · intro agrees
      refine ⟨fun _ => ?_, ?_⟩
      · by_contra large
        have less : n < 2 ^ 64 := by
          have := Nat.le_mul_of_pos_right n e.size_pos
          omega
        have destroyed := agrees.destroyed
        rw [does, destroyLoop_large (Nat.le_of_not_lt large) less, if_pos destroys] at destroyed
        exact elements_ne_nil _ (by omega) destroyed.symm
      · obtain ⟨f, freed, counterpart⟩ := agrees.freed
        rw [does] at freed
        cases freed
        exact counterpart
    · rintro ⟨small, counterpart⟩
      refine ⟨?_, _, by rw [does], counterpart⟩
      rw [does, if_pos destroys]
      exact destroyLoop_elements e _ (small rfl)

/-- The deleting destructors free by the global function, so a class must have no `operator new`. -/
theorem slotAgrees_iff : SlotAgrees abi e raw mem ↔ classAllocator "operator new" 1 e.record = none := by
  have does : deletingSlot abi e mem raw = ⟨[raw], Option.some (globalFunction e, raw)⟩ := by
    unfold deletingSlot
    cases abi.isItanium
    · rfl
    · rfl
  have matched := counterpart_new "operator new" e _ rfl
  constructor
  · intro agrees
    obtain ⟨f, freed, counterpart⟩ := agrees.freed
    rw [does] at freed
    cases freed
    rw [matched] at counterpart
    simpa using counterpart
  · intro none
    refine ⟨by rw [does], _, by rw [does], ?_⟩
    rw [matched, none]
    rfl

/-- **Delete agrees with new on the classes whose functions match**: in every block whose size does not
overflow, and whatever else happens to memory in between, `delete[]` destroys exactly the elements of
the array, the last one first, and gives the block to a counterpart of the function it came from, exactly
where the class's array functions are both its own or both global (with a destructor and Microsoft's ABI,
where the allocation function is global) and a destructor has fewer than `2 ^ 63` elements to run on; the
deleting destructor does exactly where the class has no `operator new`. -/
theorem delete_agrees_iff (abi : CXXABI) (e : Element) (n : Nat) (raw : Ptr) (mem mem' : Memory) (some : raw ≠ 0)
    (fits : raw.toNat + (n * e.size + arrayCookie abi e) < 2 ^ 64)
    (kept : KeepsCookie raw (newArray abi e (.ofNat 64 n) raw mem).1 (newArray abi e (.ofNat 64 n) raw mem).2 mem') :
    newArrayBytes abi e (.ofNat 64 n) = .ofNat 64 (n * e.size + arrayCookie abi e) ∧
      (ArrayAgrees abi e n raw mem mem' ↔ (e.needsDestructor = true → n < 2 ^ 63) ∧ arrayMatched abi e = true) ∧
        (SlotAgrees abi e raw mem ↔ classAllocator "operator new" 1 e.record = none) := by
  refine ⟨?_, arrayAgrees_iff some fits kept, slotAgrees_iff⟩
  unfold newArrayBytes
  split_ifs with zero
  · rw [BitVec.ofNat_add, BitVec.ofNat_mul]
  · rw [not_not] at zero
    rw [zero, Nat.add_zero, BitVec.ofNat_mul]

/-- `struct T { ~T(); int i; static void *operator new[](size_t); static void operator delete[](void *); };` -/
def arrayClass : Element where
  record := .mk [⟨"operator new[]", false, false, 1, some 0⟩, ⟨"operator delete[]", false, false, 1, some 1⟩] []
  size := 4
  align := 4
  needsDestructor := true
  size_pos := by decide

theorem arrayClass_agrees : ArrayAgrees .itaniumGeneric arrayClass 3 4096 (fun _ => 0)
    (newArray .itaniumGeneric arrayClass 3 4096 fun _ => 0).2 :=
  ((delete_agrees_iff .itaniumGeneric arrayClass 3 4096 (fun _ => 0)
    (newArray .itaniumGeneric arrayClass 3 4096 fun _ => 0).2 (by decide) (by decide) fun _ _ _ => rfl).2.1).2
    ⟨fun _ => by decide, by decide⟩

/-- `struct T { virtual ~T(); static void *operator new(size_t); static void operator delete(void *); };` -/
def pooledClass : Element where
  record := .mk [⟨"operator new", false, false, 1, some 0⟩, ⟨"operator delete", false, false, 1, some 1⟩] []
  size := 8
  align := 8
  needsDestructor := true
  size_pos := by decide

/-- What the class's own `operator new` gave goes to the global `operator delete`. -/
theorem pooledClass_wrong : ¬ ∀ (abi : CXXABI) (e : Element) (n : Nat) (raw : Ptr) (mem mem' : Memory), raw ≠ 0 →
    raw.toNat + (n * e.size + arrayCookie abi e) < 2 ^ 64 →
      KeepsCookie raw (newArray abi e (.ofNat 64 n) raw mem).1 (newArray abi e (.ofNat 64 n) raw mem).2 mem' →
        ArrayAgrees abi e n raw mem mem' ∧ SlotAgrees abi e raw mem := by
  intro all
  obtain ⟨f, freed, counterpart⟩ := (all .itaniumGeneric pooledClass 1 4096 (fun _ => 0)
    (newArray .itaniumGeneric pooledClass 1 4096 fun _ => 0).2 (by decide) (by decide) fun _ _ _ => rfl).2.freed
  cases freed
  exact absurd counterpart (by decide)

end

end Vcx.Heap
