import Vcx.Lib.Memory
import Vcx.Types.Model

/-!
# Array new and delete

The code `newArray` and `deleteArray` emit for an element class, and that of the deleting destructors
of both ABIs: the functions they choose, the cookie, and the loop over the elements.
-/

namespace Vcx.Heap
set_option autoImplicit false
open Vcx.Lib Vcx.Types

abbrev Ptr := BitVec 64

/-! ### Classes -/

/-- A method: `symbol` is what `declaredFor` has for it. -/
structure Method where
  name : String
  deleted : Bool
  template : Bool
  params : Nat
  symbol : Option Nat
  deriving DecidableEq, Repr

inductive Record
  | mk (methods : List Method) (bases : List Record)

/-- A method's symbol, if it is an allocator of the name with so many parameters. -/
def Method.allocator (name : String) (params : Nat) (m : Method) : Option Nat :=
  if m.name ≠ name ∨ m.deleted ∨ m.template ∨ m.params ≠ params then none else m.symbol

mutual

/-- `classAllocator`: the class's methods, then its bases. -/
def classAllocator (name : String) (params : Nat) : Record → Option Nat
  | .mk methods bases =>
    match methods.findSome? (·.allocator name params) with
    | some sym => some sym
    | none => baseAllocator name params bases

def baseAllocator (name : String) (params : Nat) : List Record → Option Nat
  | [] => none
  | b :: bases =>
    match classAllocator name params b with
    | some sym => some sym
    | none => baseAllocator name params bases

end

/-- An element class, with what `sizeAlign` and `needsDestructor` say of it. -/
structure Element where
  record : Record
  size : Nat
  align : Nat
  needsDestructor : Bool
  size_pos : 0 < size

/-- `overAlignment` -/
def overAlignment (e : Element) : Nat := if 16 < e.align then e.align else 0

/-- `ArrayCookieHasElementSize` -/
def arrayCookieHasElementSize (abi : CXXABI) : Bool := abi == .itaniumAppleARM64

/-- `arrayCookie` -/
def arrayCookie (abi : CXXABI) (e : Element) : Nat :=
  if !e.needsDestructor then 0
  else
    let cookie := if arrayCookieHasElementSize abi then 16 else 8
    if cookie < e.align then e.align else cookie

/-! ### Functions -/

/-- An allocation or deallocation function: a class's own, or a global one. -/
inductive Function
  | ofClass (symbol : Nat)
  | aligned (align : Nat)
  | plain
  deriving DecidableEq, Repr

/-- The global function for a type. -/
def globalFunction (e : Element) : Function :=
  if overAlignment e ≠ 0 then .aligned (overAlignment e) else .plain

/-- The allocation function of a new-expression, `name` being `operator new` or `operator new[]`. -/
def newFunction (name : String) (e : Element) : Function :=
  match classAllocator name 1 e.record with
  | some sym => .ofClass sym
  | none => globalFunction e

/-- The function `deallocate` calls. A single object's may be sized. -/
def deallocateFunction (array : Bool) (e : Element) : Function :=
  let name := if array then "operator delete[]" else "operator delete"
  match (if array then none else classAllocator name 2 e.record), classAllocator name 1 e.record with
  | some sym, _ => .ofClass sym
  | none, some sym => .ofClass sym
  | none, none => globalFunction e

/-! ### New -/

/-- The bytes `newArray` asks for. -/
def newArrayBytes (abi : CXXABI) (e : Element) (n : BitVec 64) : BitVec 64 :=
  let total := n * .ofNat 64 e.size
  if arrayCookie abi e ≠ 0 then total + .ofNat 64 (arrayCookie abi e) else total

/-- `newArray` in a block that starts at `raw`: the pointer it gives, and the memory with the cookie. -/
def newArray (abi : CXXABI) (e : Element) (n : BitVec 64) (raw : Ptr) (mem : Memory) : Ptr × Memory :=
  if arrayCookie abi e = 0 then (raw, mem)
  else
    let obj := raw + .ofNat 64 (arrayCookie abi e)
    if abi.isMicrosoft then (obj, mem.store 8 raw.toNat n)
    else
      let mem := mem.store 8 (obj - 8).toNat n
      (obj, if arrayCookieHasElementSize abi then mem.store 8 (obj - 16).toNat (.ofNat 64 e.size) else mem)

/-! ### Delete -/

/-- What a delete-expression does: the objects destroyed, in order, and the block freed, by which
function. -/
structure Deleted where
  destroyed : List Ptr
  freed : Option (Function × Ptr)
  deriving DecidableEq, Repr

theorem toNat_sub_one_lt {idx : BitVec 64} (pos : (0 : BitVec 64).slt idx = true) : (idx - 1).toNat < idx.toNat := by
  have some : idx ≠ 0 := by
    rintro rfl
    exact absurd pos (by decide)
  bv_omega

/-- `i = count; while (i > 0) { --i; ~T(this + i * size); }` -/
def destroyLoop (this : Ptr) (size : Nat) (idx : BitVec 64) : List Ptr :=
  if pos : (0 : BitVec 64).slt idx = true then
    (this + (idx - 1) * .ofNat 64 size) :: destroyLoop this size (idx - 1)
  else []
termination_by idx.toNat
decreasing_by exact toNat_sub_one_lt pos

/-- `deleteArrayItanium` -/
def deleteArrayItanium (abi : CXXABI) (e : Element) (mem : Memory) (p : Ptr) : Deleted where
  destroyed := destroyLoop p e.size (mem.load 8 (p - 8).toNat)
  freed := some (deallocateFunction true e, p - .ofNat 64 (arrayCookie abi e))

/-- `defineDeletingDtor`: Microsoft's deleting destructor, the vector one or the scalar one. -/
def deletingDtor (abi : CXXABI) (e : Element) (vector : Bool) (flags : BitVec 32) (mem : Memory) (this : Ptr) : Deleted :=
  let free (p : Ptr) := if flags &&& 1 ≠ 0 then some (globalFunction e, p) else none
  if vector ∧ flags &&& 2 ≠ 0 then
    let raw := this - .ofNat 64 (arrayCookie abi e)
    ⟨destroyLoop this e.size (mem.load 8 raw.toNat), free raw⟩
  else ⟨[this], free this⟩

/-- `deletingDtorItanium` -/
def deletingDtorItanium (e : Element) (this : Ptr) : Deleted := ⟨[this], some (globalFunction e, this)⟩

/-- `deleteArray` -/
def deleteArray (abi : CXXABI) (e : Element) (mem : Memory) (p : Ptr) : Deleted :=
  if p = 0 then ⟨[], none⟩
  else if e.needsDestructor then
    if abi.isItanium then deleteArrayItanium abi e mem p else deletingDtor abi e true 3 mem p
  else ⟨[], some (deallocateFunction true e, p)⟩

/-- What the slot of a virtual destructor that `deleteExpr` calls does to the complete object. -/
def deletingSlot (abi : CXXABI) (e : Element) (mem : Memory) (this : Ptr) : Deleted :=
  if abi.isItanium then deletingDtorItanium e this else deletingDtor abi e true 1 mem this

end Vcx.Heap
