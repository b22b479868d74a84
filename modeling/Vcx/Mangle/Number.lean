import Mathlib.Tactic.IntervalCases
import Vcx.Lib.Wrap

/-!
# Numbers in Microsoft's names

`number` of `mangle/msvc.go`: 0 is `A@`, 1 to 10 are the digits 0 to 9, and a larger number is its hexadecimal digits
from `A` to `P`, closed by `@`. A negative number takes a `?` first, and is negated in 64 bits.
-/

namespace Vcx.Mangle
set_option autoImplicit false
open Vcx.Lib

/-- The loop of `number` over the digits, the lowest first; `int64` division is that of a positive number here. -/
def hexDigits (n : Nat) (hex : List UInt8) : List UInt8 :=
  if n = 0 then hex else hexDigits (n / 16) (('A'.toNat + n % 16).toUInt8 :: hex)
termination_by n
decreasing_by omega

/-- `number` behind the sign. The byte of a single digit is what is left of the sum in eight bits. -/
def magnitude (n : Int) : List UInt8 :=
  if n = 0 then ['A'.toUInt8, '@'.toUInt8]
  else if n ≤ 10 then [UInt8.ofInt ('0'.toNat + n - 1)]
  else hexDigits n.toNat [] ++ ['@'.toUInt8]

/-- `number`, of an `int64`. -/
def number (n : Int) : List UInt8 :=
  if n < 0 then '?'.toUInt8 :: magnitude (wrap true 64 (-n)) else magnitude n

/-! ### Reading back -/

/-- Base-16 digits up to the `@`, behind digits that were read. -/
def readHex (value : Nat) : List UInt8 → Option (Nat × List UInt8)
  | [] => none
  | c :: rest =>
    if c = '@'.toUInt8 then some (value, rest)
    else if 'A'.toUInt8 ≤ c ∧ c ≤ 'P'.toUInt8 then readHex (16 * value + (c.toNat - 'A'.toNat)) rest
    else none

/-- A number without its sign: a decimal digit, or base-16 digits. -/
def readMagnitude (s : List UInt8) : Option (Nat × List UInt8) :=
  match s with
  | [] => none
  | c :: rest =>
    if '0'.toUInt8 ≤ c ∧ c ≤ '9'.toUInt8 then some (c.toNat - '0'.toNat + 1, rest)
    else if c = '@'.toUInt8 then none
    else readHex 0 (c :: rest)

/-- The number that a name has next. -/
def readNumber (s : List UInt8) : Option (Int × List UInt8) :=
  match s with
  | [] => none
  | c :: rest =>
    if c = '?'.toUInt8 then (readMagnitude rest).map fun x => (-x.1, x.2)
    else (readMagnitude (c :: rest)).map fun x => (x.1, x.2)

/-- What is written reads back as the number, with any text behind it, and is no other number's. -/
def Decodes (n : Int) : Prop :=
  (∀ rest, readNumber (number n ++ rest) = some (n, rest)) ∧ ∀ m, InRange true 64 m → number m = number n → m = n

/-! ### Digits -/

theorem digit_spec {d : Nat} (lt : d < 16) :
    ('A'.toNat + d).toUInt8 ≠ '@'.toUInt8 ∧ 'A'.toUInt8 ≤ ('A'.toNat + d).toUInt8 ∧
      ('A'.toNat + d).toUInt8 ≤ 'P'.toUInt8 ∧ ('A'.toNat + d).toUInt8.toNat - 'A'.toNat = d := by
  interval_cases d <;> decide

theorem readHex_digit {d : Nat} (lt : d < 16) (value : Nat) (rest : List UInt8) :
    readHex value (('A'.toNat + d).toUInt8 :: rest) = readHex (16 * value + d) rest := by
  obtain ⟨noEnd, low, high, back⟩ := digit_spec lt
  rw [readHex, if_neg noEnd, if_pos ⟨low, high⟩, back]

/-- The digits of a number, before others, read as the number. -/
theorem readHex_digits (n : Nat) (hex rest : List UInt8) : readHex 0 (hexDigits n hex ++ rest) = readHex n (hex ++ rest) := by
  induction n using Nat.strong_induction_on generalizing hex with
  | h n ih =>
    rw [hexDigits]
    split
    · subst n
      rfl
    · rw [ih (n / 16) (by omega), List.cons_append, readHex_digit (Nat.mod_lt n (by decide)), Nat.div_add_mod]

theorem hexDigits_cons {n : Nat} (pos : 0 < n) (hex : List UInt8) :
    ∃ d < 16, ∃ more, hexDigits n hex = ('A'.toNat + d).toUInt8 :: more := by
  induction n using Nat.strong_induction_on generalizing hex with
  | h n ih =>
    rw [hexDigits, if_neg pos.ne']
    by_cases last : n / 16 = 0
    · rw [last, hexDigits, if_pos rfl]
      exact ⟨n % 16, Nat.mod_lt n (by decide), hex, rfl⟩
    · exact ih (n / 16) (by omega) (by omega) _

/-- A digit of base 16 is no decimal digit. -/
theorem readMagnitude_digit {d : Nat} (lt : d < 16) (more : List UInt8) :
    readMagnitude (('A'.toNat + d).toUInt8 :: more) = readHex 0 (('A'.toNat + d).toUInt8 :: more) := by
  obtain ⟨noEnd, low, -, -⟩ := digit_spec lt
  rw [readMagnitude, if_neg fun digit => absurd (UInt8.le_trans low digit.2) (by decide), if_neg noEnd]

/-- What stands for a number that is not negative, and reads as it. -/
theorem readMagnitude_magnitude {n : Int} (nonneg : 0 ≤ n) (rest : List UInt8) :
    ∃ c more, magnitude n ++ rest = c :: more ∧ c ≠ '?'.toUInt8 ∧ readMagnitude (magnitude n ++ rest) = some (n.toNat, rest) := by
  rw [magnitude]
  by_cases zero : n = 0
  · subst n
    exact ⟨_, _, rfl, by decide, rfl⟩
  by_cases small : n ≤ 10
  · obtain ⟨k, rfl⟩ := Int.eq_ofNat_of_zero_le nonneg
    have le : k ≤ 10 := by omega
    have pos : 0 < k := by omega
    interval_cases k <;> exact ⟨_, _, rfl, by decide, rfl⟩
  · rw [if_neg zero, if_neg small, List.append_assoc, List.singleton_append]
    obtain ⟨d, lt, more, digits⟩ := hexDigits_cons (n := n.toNat) (by omega) []
    have read := readHex_digits n.toNat [] ('@'.toUInt8 :: rest)
    rw [digits, List.cons_append] at read ⊢
    refine ⟨_, _, rfl, fun eq => ?_, ?_⟩
    · exact absurd (eq ▸ (digit_spec lt).2.1) (by decide)
    · rw [readMagnitude_digit lt, read, List.nil_append, readHex, if_pos rfl]

/-- **Round trip.** -/
theorem readNumber_number {n : Int} (range : InRange true 64 n) (other : n ≠ -2 ^ 63) (rest : List UInt8) :
    readNumber (number n ++ rest) = some (n, rest) := by
  obtain ⟨low, high⟩ : -2 ^ 63 ≤ n ∧ n < 2 ^ 63 := range
  rw [number]
  split
  · have same : wrap true 64 (-n) = -n := wrap_of_inRange (by decide) (show -2 ^ 63 ≤ -n ∧ -n < 2 ^ 63 by omega)
    obtain ⟨-, -, -, -, read⟩ := readMagnitude_magnitude (n := -n) (by omega) rest
    rw [same, List.cons_append, readNumber, if_pos rfl, read, Option.map_some]
    simp only [Option.some.injEq, Prod.mk.injEq, and_true]
    omega
  · obtain ⟨c, more, eq, noSign, read⟩ := readMagnitude_magnitude (n := n) (by omega) rest
    rw [eq] at read ⊢
    rw [readNumber, if_neg noSign, read, Option.map_some]
    simp only [Option.some.injEq, Prod.mk.injEq, and_true]
    omega

theorem number_lowest : number (-2 ^ 63) = ['?'.toUInt8, '/'.toUInt8] := by decide

/-- The lowest number is negated to itself, and its one digit is none. -/
theorem lowest_undecoded : ¬ ∀ n, InRange true 64 n → Decodes n := by
  intro all
  have read := (all (-2 ^ 63) (by decide)).1 []
  rw [number_lowest] at read
  cases read

/-- **Numbers.** Every `int64` reads back as itself and has an encoding of its own, but the lowest one. -/
theorem number_decodes_iff {n : Int} (range : InRange true 64 n) : Decodes n ↔ n ≠ -2 ^ 63 := by
  constructor
  · rintro ⟨back, -⟩ rfl
    have read := back []
    rw [number_lowest] at read
    cases read
  · intro other
    refine ⟨readNumber_number range other, fun m range' same => ?_⟩
    have back := readNumber_number range other []
    rw [← same] at back
    by_cases lowest : m = -2 ^ 63
    · rw [lowest, number_lowest] at back
      cases back
    · rw [readNumber_number range' lowest] at back
      exact congrArg Prod.fst (Option.some.inj back)

theorem eleven_decodes : Decodes 11 := (number_decodes_iff (by decide)).2 (by decide)

end Vcx.Mangle
