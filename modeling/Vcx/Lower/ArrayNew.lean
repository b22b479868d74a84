import Vcx.Lower.Heap
import Vcx.Lower.IntConvertSound

/-!
# The size of an array new-expression

The code `newArray` emits: the count made a 64-bit integer, its product with the element's size and the
cookie passed to the allocation function, the listed elements built and then the loop over the others.
The count is not compared with anything before the product is taken.
-/

namespace Vcx.ArrayNew
set_option autoImplicit false
open Vcx.Lib Vcx.Types Vcx.Heap Vcx.IntExpr Vcx.IntConvert
open Vcx.Constexpr (signed bits lowest highest Operand)

variable {m : Model}

/-! ### The emitted code -/

/-- An element type: a scalar, or a class. -/
inductive ElemType
  | scalar (size align : Nat)
  | ofClass (e : Element)

namespace ElemType

def size : ElemType → Nat
  | scalar size _ => size
  | ofClass e => e.size

/-- `arrayCookie`, which is for classes only. -/
def cookie (abi : CXXABI) : ElemType → Nat
  | scalar _ _ => 0
  | ofClass e => arrayCookie abi e

/-- The allocation function of an array of them. -/
def function : ElemType → Function
  | scalar _ align => if 16 < align then .aligned align else .plain
  | ofClass e => newFunction "operator new[]" e

end ElemType

/-- A new-expression: the items of its braced list, whether what the list leaves out is zeroed, and whether
there is a constructor; of a class also whether it has virtual tables or field initializers. -/
structure NewExpr where
  elem : ElemType
  items : Nat
  zero : Bool
  ctor : Bool
  vtables : Bool
  fieldInits : Bool
  size_pos : 0 < elem.size

/-- `sizeT` -/
def sizeT (m : Model) : Kind := if m.sizeLong < m.sizePtr then .uLongLong else .uLong

/-- The argument for the size: a class's own function has it converted. -/
def passed (m : Model) (f : Function) (total : BitVec 64) : Reg :=
  match f with
  | .ofClass _ => IntExpr.convert m (.i64 total) (sizeT m) (sizeT m)
  | _ => .i64 total

/-- The number an unsigned register has. -/
def unsignedOf : Reg → Nat
  | .i32 v => v.toNat
  | .i64 v => v.toNat

theorem sub_toInt_lt {n i : BitVec 64} (less : i.slt n = true) : (n.toInt - (i + 1).toInt).toNat < (n.toInt - i.toInt).toNat := by
  have lt := BitVec.slt_iff_toInt_lt.1 less
  have high : n.toInt < 2 ^ 63 := BitVec.toInt_lt
  have low : -2 ^ 63 ≤ i.toInt := BitVec.le_toInt i
  have next : (i + 1).toInt = i.toInt + 1 := by
    rw [BitVec.toInt_add, show (1 : BitVec 64).toInt = 1 from rfl]
    exact Int.bmod_eq_of_le (by omega) (by omega)
  omega

/-- `for (i = first; i < n; ++i) construct(obj + i * size)` -/
def elementLoop (obj : Ptr) (size : Nat) (n i : BitVec 64) : List Ptr :=
  if less : i.slt n = true then (obj + i * .ofNat 64 size) :: elementLoop obj size n (i + 1) else []
termination_by (n.toInt - i.toInt).toNat
decreasing_by exact sub_toInt_lt less

/-- Whether the elements past the list are left as they are. -/
def NewExpr.leftAlone (e : NewExpr) : Bool :=
  !(e.ctor && e.items = 0) && !e.zero &&
    (match e.elem with
      | .scalar _ _ => true
      | .ofClass _ => !e.vtables && !e.fieldInits)

/-- What the code does: the size it passes, and the elements it constructs, in order. -/
structure Run where
  passed : Reg
  constructed : List Ptr
  deriving DecidableEq

/-- `total` -/
def total (m : Model) (e : NewExpr) (n : BitVec 64) : BitVec 64 :=
  let total := n * .ofNat 64 e.elem.size
  if e.elem.cookie m.abi ≠ 0 then total + .ofNat 64 (e.elem.cookie m.abi) else total

/-- `newArray` for a count in a register, where the allocation function gives `raw`. -/
def newArray (m : Model) (e : NewExpr) (count : Reg) (k : Kind) (raw : Ptr) : Option Run :=
  match IntExpr.convert m count k .longLong with
  | .i32 _ => none
  | .i64 n =>
    let obj := if e.elem.cookie m.abi ≠ 0 then raw + .ofNat 64 (e.elem.cookie m.abi) else raw
    some {
      passed := passed m e.elem.function (total m e n)
      constructed := (List.range e.items).map (fun i => obj + .ofNat 64 (i * e.elem.size)) ++
        (if e.leftAlone then [] else elementLoop obj e.elem.size n (.ofNat 64 e.items)) }

/-! ### The size -/

/-- The size of an array of `n` elements of size `s`, with a cookie of `c` bytes: what is passed is enough
unless nothing is constructed, and neither a negative product is used nor one that has wrapped around. -/
structure Sized (n : Int) (s c : Nat) (run : Run) : Prop where
  enough : c + n * s ≤ unsignedOf run.passed ∨ run.constructed = []
  product : 0 ≤ n * s
  whole : (unsignedOf run.passed : Int) = c + n * s

/-- The bits of the size that arrive at the allocation function. -/
def sizeBits (m : Model) (e : NewExpr) : Nat :=
  match e.elem.function with
  | .ofClass _ => if inI64 m (sizeT m) then 64 else 32
  | _ => 64

/-- The count is not a `wchar_t` that is read as a negative number, unless that makes no difference. -/
def countKept (m : Model) (e : NewExpr) (k : Kind) (n : Int) : Prop :=
  signKept m k ∨ n < 2 ^ 31 ∨ (2 : Int) ^ sizeBits m e ∣ 2 ^ 32 * e.elem.size

/-- The product with no wrapping around. -/
def exactSize (m : Model) (e : NewExpr) (n : Int) : Int := n * e.elem.size + e.elem.cookie m.abi

theorem total_ofInt (e : NewExpr) (n : Int) : total m e (.ofInt 64 n) = .ofInt 64 (exactSize m e n) := by
  have product : BitVec.ofInt 64 n * .ofNat 64 e.elem.size = BitVec.ofInt 64 (n * e.elem.size) := by
    rw [BitVec.ofInt_mul, BitVec.ofInt_natCast]
  unfold total exactSize
  split_ifs with cookie
  · rw [product, BitVec.ofInt_add, BitVec.ofInt_natCast]
  · rw [not_not.1 cookie, product, Nat.cast_zero, add_zero]

theorem toNat_ofInt_emod (w : Nat) (x : Int) : ((BitVec.ofInt w x).toNat : Int) = x % 2 ^ w := by
  rw [BitVec.toNat_ofInt, Int.toNat_of_nonneg (Int.emod_nonneg x (by positivity))]
  norm_cast

theorem passed_total (sizes : m.Sizes) (e : NewExpr) (n : Int) :
    (unsignedOf (passed m e.elem.function (total m e (.ofInt 64 n))) : Int) = exactSize m e n % 2 ^ sizeBits m e := by
  have notBool : sizeT m ≠ .bool := by unfold sizeT; split <;> decide
  have int : isInt (sizeT m) = true := by unfold sizeT; split <;> decide
  have unsigned : isSigned (sizeT m) = false := by unfold sizeT; split <;> decide
  rw [total_ofInt]
  unfold passed sizeBits
  cases e.elem.function with
  | plain => exact toNat_ofInt_emod 64 _
  | aligned _ => exact toNat_ofInt_emod 64 _
  | ofClass sym =>
    cases large : inI64 m (sizeT m)
    · have width : bits m (sizeT m) = 32 := by
        have := sizes.long
        unfold inI64 storeBytes at large
        unfold sizeT at large ⊢
        split at large <;> simp [bits, Model.basicSize, Model.plainSize, sizes.longLong] at large ⊢; grind
      simp only [IntExpr.convert, notBool, false_and, if_false, large, Bool.false_eq_true,
        truncate_ofInt (show 32 ≤ 64 by decide), narrowTo_ofInt sizes int large, unsigned, width, ofInt_wrap]
      exact toNat_ofInt_emod 32 _
    · simp only [IntExpr.convert, notBool, false_and, if_false, large, if_true]
      exact toNat_ofInt_emod 64 _

/-- The count as the code has it. -/
theorem convert_count (sizes : m.Sizes) {k : Kind} {n : Int} (int : isInt k = true) (op : Operand m k n) :
    IntExpr.convert m (held m k n) k .longLong = .i64 (.ofInt 64 (extended m k n)) := by
  have large : inI64 m .longLong = true := by
    simp [inI64, storeBytes, Model.basicSize, Model.plainSize, sizes.longLong]
  have resized := resize_held sizes int (b := .longLong) rfl op
  have value : held m .longLong (wrap (isSigned .longLong) 64 (extended m k n)) = .i64 (.ofInt 64 (extended m k n)) := by
    rw [held, if_pos large, ofInt_wrap]
  rw [(inI64_iff sizes rfl).1 large, value] at resized
  unfold IntExpr.convert
  rw [if_neg (fun h => Kind.noConfusion h.1)]
  exact resized

/-! ### When it is right -/

theorem sized_iff_fits (e : NewExpr) {k : Kind} {n : Int} {run : Run}
    (size : (unsignedOf run.passed : Int) = exactSize m e (extended m k n) % 2 ^ sizeBits m e) :
    Sized n e.elem.size (e.elem.cookie m.abi) run ↔
      0 ≤ n ∧ n * e.elem.size + e.elem.cookie m.abi < 2 ^ sizeBits m e ∧ countKept m e k n := by
  have pos : (0 : Int) < e.elem.size := by exact_mod_cast e.size_pos
  have power : (0 : Int) < 2 ^ sizeBits m e := two_pow_pos' _
  have shifted : ¬ (signKept m k ∨ n < 2 ^ 31) →
      exactSize m e (extended m k n) = exactSize m e n - 2 ^ 32 * e.elem.size := fun lost => by
    rw [extended, if_neg lost, exactSize, exactSize]
    ring
  constructor
  · rintro ⟨-, product, whole⟩
    rw [size] at whole
    have fits := whole ▸ Int.emod_lt_of_pos (exactSize m e (extended m k n)) power
    refine ⟨nonneg_of_mul_nonneg_left product pos, by omega, ?_⟩
    by_cases kept : signKept m k ∨ n < 2 ^ 31
    · exact kept.elim .inl (.inr ∘ .inl)
    · -- the count is less by `2 ^ 32`, and the size is the same
      rw [shifted kept, add_comm, ← exactSize] at whole
      have multiple := Int.dvd_self_sub_of_emod_eq whole
      rw [show exactSize m e n - 2 ^ 32 * e.elem.size - exactSize m e n = -(2 ^ 32 * e.elem.size : Int) by ring,
        Int.dvd_neg] at multiple
      exact .inr (.inr multiple)
  · rintro ⟨low, fits, kept⟩
    have product : 0 ≤ n * (e.elem.size : Int) := mul_nonneg low pos.le
    have whole : (unsignedOf run.passed : Int) = e.elem.cookie m.abi + n * e.elem.size := by
      have plain : exactSize m e n % 2 ^ sizeBits m e = e.elem.cookie m.abi + n * e.elem.size := by
        rw [exactSize, Int.emod_eq_of_lt (by omega) fits, add_comm]
      rw [size, ← plain]
      by_cases same : signKept m k ∨ n < 2 ^ 31
      · rw [extended, if_pos same]
      · obtain ⟨t, multiple⟩ := (kept.resolve_left (same ∘ .inl)).resolve_left (same ∘ .inr)
        rw [shifted same, multiple, Int.sub_mul_emod_self_left]
    exact ⟨.inl whole.ge, product, whole⟩

/-- **The size an array new-expression passes is the array's just where the count is not negative, the
elements and the cookie fit the size's bits, and the count is kept.** Everywhere else a negative or
wrapped product is passed. -/
theorem newArray_sized_iff (supported : m.Supported) (e : NewExpr) {k : Kind} {n : Int} (int : isInt k = true)
    (low : lowest m k ≤ n) (high : n ≤ highest m k) (raw : Ptr) :
    (∃ run, newArray m e (held m k n) k raw = some run ∧ Sized n e.elem.size (e.elem.cookie m.abi) run) ↔
      0 ≤ n ∧ n * e.elem.size + e.elem.cookie m.abi < 2 ^ sizeBits m e ∧ countKept m e k n := by
  have sizes := supported.sizes
  have count := convert_count sizes int ⟨isInteger_of_isInt int, low, high⟩
  rw [newArray, count]
  constructor
  · rintro ⟨run, eq, sized⟩
    cases eq
    exact (sized_iff_fits e (passed_total sizes e _)).1 sized
  · intro fits
    exact ⟨_, rfl, (sized_iff_fits e (passed_total sizes e _)).2 fits⟩

/-- `new int[n]{}` -/
def zeroedInts : NewExpr := ⟨.scalar 4 4, 0, true, false, false, false, by decide⟩

/-- `new int[n]{}` of three elements. -/
theorem zeroedInts_sized : ∃ run, newArray lp64 zeroedInts (held lp64 .int 3) .int 4096 = some run ∧
    Sized 3 zeroedInts.elem.size (zeroedInts.elem.cookie lp64.abi) run :=
  (newArray_sized_iff lp64_supported zeroedInts rfl (by decide) (by decide) 4096).2
    ⟨by decide, by decide, .inl (by decide)⟩

/-- Of `2 ^ 62 + 1` elements four bytes are asked for, and elements are constructed. -/
theorem zeroedInts_wrap : ∃ run, newArray lp64 zeroedInts (held lp64 .long (2 ^ 62 + 1)) .long 4096 = some run ∧
    run.passed = .i64 4 ∧ run.constructed ≠ [] ∧
      ¬ Sized (2 ^ 62 + 1) zeroedInts.elem.size (zeroedInts.elem.cookie lp64.abi) run := by
  have count : IntExpr.convert lp64 (held lp64 .long (2 ^ 62 + 1)) .long .longLong = .i64 (2 ^ 62 + 1) := by decide +kernel
  have size : total lp64 zeroedInts (2 ^ 62 + 1) = 4 := by decide +kernel
  rw [newArray, count]
  refine ⟨_, rfl, by rw [size]; rfl, ?_, fun sized => ?_⟩
  · change elementLoop 4096 4 (2 ^ 62 + 1) 0 ≠ []
    rw [elementLoop, dif_pos (by decide +kernel)]
    exact List.cons_ne_nil _ _
  · have whole := sized.whole
    rw [size] at whole
    exact absurd whole (by decide)

end Vcx.ArrayNew
