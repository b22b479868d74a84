import Mathlib.Data.BitVec

/-!
# Byte-addressed memory

A memory is a byte at every address. Loads and stores are little-endian, so bit `k` of a
value at address `a` is bit `8 * a + k` of the memory, whatever the size of the access:
`load_getLsbD` and `store_bit` are the two lemmas every other one is read off.
-/

namespace Vcx.Lib
set_option autoImplicit false

/-- A byte at every address. -/
abbrev Memory := Nat → BitVec 8

/-- The bit at a bit address. -/
def Memory.bit (mem : Memory) (p : Nat) : Bool := (mem (p / 8)).getLsbD (p % 8)

/-- The `n` bytes from `a` on, the least significant one first. -/
def Memory.load (mem : Memory) : (n a : Nat) → BitVec (8 * n)
  | 0, _ => 0#0
  | n + 1, a => Memory.load mem n (a + 1) ++ mem a

/-- `x` in the `n` bytes from `a` on. -/
def Memory.store (mem : Memory) (n a : Nat) (x : BitVec (8 * n)) : Memory := fun b =>
  if a ≤ b ∧ b < a + n then x.extractLsb' (8 * (b - a)) 8 else mem b

theorem Memory.load_getLsbD (mem : Memory) (n a k : Nat) :
    (mem.load n a).getLsbD k = (decide (k < 8 * n) && mem.bit (8 * a + k)) := by
  induction n generalizing a k with
  | zero => simp [Memory.load]
  | succ n ih =>
    rw [Memory.load, BitVec.getLsbD_append]
    split
    · rename_i low
      have byte : (8 * a + k) / 8 = a := by omega
      have place : (8 * a + k) % 8 = k := by omega
      rw [Memory.bit, byte, place, decide_eq_true (by omega), Bool.true_and]
    · rename_i high
      have next : 8 * (a + 1) + (k - 8) = 8 * a + k := by omega
      have range : decide (k - 8 < 8 * n) = decide (k < 8 * (n + 1)) := decide_eq_decide.2 (by omega)
      rw [ih, next, range]

theorem Memory.store_bit (mem : Memory) (n a p : Nat) (x : BitVec (8 * n)) : (mem.store n a x).bit p =
    if 8 * a ≤ p ∧ p < 8 * (a + n) then x.getLsbD (p - 8 * a) else mem.bit p := by
  unfold Memory.bit Memory.store
  by_cases inside : 8 * a ≤ p ∧ p < 8 * (a + n)
  · have place : 8 * (p / 8 - a) + p % 8 = p - 8 * a := by omega
    rw [if_pos (by omega), if_pos inside, BitVec.getLsbD_extractLsb', place, decide_eq_true (by omega), Bool.true_and]
  · rw [if_neg (by omega), if_neg inside]

/-- Memories with the same bits in a byte have the same byte there. -/
theorem Memory.eq_of_bit {mem mem' : Memory} {a : Nat} (same : ∀ k < 8, mem.bit (8 * a + k) = mem'.bit (8 * a + k)) :
    mem a = mem' a := by
  apply BitVec.eq_of_getLsbD_eq
  intro k lt
  have := same k lt
  rwa [Memory.bit, Memory.bit, show (8 * a + k) / 8 = a by omega, show (8 * a + k) % 8 = k by omega] at this

/-- The memory with these bits. -/
def Memory.ofBits (f : Nat → Bool) : Memory := fun a =>
  (BitVec.ofBoolListLE ((List.range 8).map fun k => f (8 * a + k))).setWidth 8

theorem Memory.ofBits_bit (f : Nat → Bool) (p : Nat) : (Memory.ofBits f).bit p = f p := by
  have lt := Nat.mod_lt p (by decide : 0 < 8)
  rw [bit, ofBits, BitVec.getLsbD_setWidth, BitVec.getLsbD_ofBoolListLE, decide_eq_true lt, Bool.true_and]
  simp [lt, Nat.div_add_mod]

/-- What was stored is loaded again. -/
theorem Memory.load_store (mem : Memory) (n a : Nat) (x : BitVec (8 * n)) : (mem.store n a x).load n a = x := by
  apply BitVec.eq_of_getLsbD_eq
  intro k lt
  rw [load_getLsbD, store_bit, if_pos (by omega), decide_eq_true lt, Bool.true_and, Nat.add_sub_cancel_left]

/-- A load depends on no byte but its own. -/
theorem Memory.load_congr {mem mem' : Memory} {n a : Nat} (same : ∀ b, a ≤ b → b < a + n → mem b = mem' b) :
    mem.load n a = mem'.load n a := by
  induction n generalizing a with
  | zero => rfl
  | succ n ih =>
    rw [load, load, same a (by omega) (by omega), ih fun b low high => same b (by omega) (by omega)]

/-- A store changes no byte outside its own. -/
theorem Memory.store_apart (mem : Memory) {n a b : Nat} (x : BitVec (8 * n)) (apart : b < a ∨ a + n ≤ b) :
    mem.store n a x b = mem b := by
  unfold store
  rw [if_neg (by omega)]

end Vcx.Lib
