import Vcx.Preprocessor.Constants

/-!
# When a constant is too large

`intConst` reads the digits into 64 bits, and takes the number for too large when one of them leaves less than there
was. A number that passes 64 bits need not do that: `0x1FFFFFFFFFFFFFFFF` is read as `2 ^ 64 - 1`, in silence. And
from `0i8` it takes the base first, so that the zero is gone and the suffix is read as digits.
-/

namespace Vcx.Controlling
set_option autoImplicit false
open Vcx.Lib Vcx.Preprocessor
open Vcx.Token (Kind)
open Vcx.Scanner (apostrophe isHexDigit isDigit msvcSizedSuffix)
open Vcx.IntLiteral (Accepted Shape literal standardSuffix toLower digitValue suffixes all_bytes all_mem shape_of_accepted
  sized_cases parts)

/-- The message of a constant that is too large. -/
def tooLarge : String := "integer literal is too large for intmax_t"

/-- The constant is its value, where a word has it, and is too large exactly where none does. -/
structure Decodes (t : Token) : Prop where
  value : (literal (bytes t.text)).value < 2 ^ 64 → ∀ e, (intConst t e).1.number = (literal (bytes t.text)).value
  reports : ∀ e, (intConst t e).2 = if (literal (bytes t.text)).value < 2 ^ 64 then e else e.fail t.site tooLarge

/-- Digits in a base, read after a number. -/
def readFrom (base n : Nat) (ds : List UInt8) : Nat := ds.foldl (fun n c => n * base + (digitValue c).getD 0) n

/-- One of the digits takes the number read so far, modulo `2 ^ 64`, below what it was. -/
def Falls (base n : Nat) (ds : List UInt8) : Prop :=
  ∃ read c, read ++ [c] <+: ds ∧ readFrom base n (read ++ [c]) % 2 ^ 64 < readFrom base n read % 2 ^ 64

/-- Some digit of the literal does. -/
def Wraps (text : List UInt8) : Prop := Falls (parts text).1 0 (kept (parts text).2.1)

/-- The sized suffixes without a `u`. -/
def sizes : List String := ["i8", "I8", "i16", "I16", "i32", "I32", "i64", "I64"]

/-- A zero with one of them. -/
def sizedZeros : List (List UInt8) := sizes.map fun size => bytes ("0" ++ size)

/-! ### The loop over the digits -/

theorem falls_cons {base n : Nat} {c : UInt8} {ds : List UInt8} :
    Falls base n (c :: ds) ↔
      readFrom base n [c] % 2 ^ 64 < n % 2 ^ 64 ∨ Falls base (readFrom base n [c]) ds := by
  constructor
  · rintro ⟨_ | ⟨b, read⟩, x, start, less⟩
    · obtain ⟨rfl, -⟩ := List.cons_prefix_cons.mp start
      exact .inl less
    · rw [List.cons_append, List.cons_prefix_cons] at start
      obtain ⟨rfl, start⟩ := start
      exact .inr ⟨read, x, start, less⟩
  · rintro (less | ⟨read, x, start, less⟩)
    · exact ⟨[], c, List.cons_prefix_cons.mpr ⟨rfl, List.nil_prefix⟩, less⟩
    · exact ⟨c :: read, x, List.cons_prefix_cons.mpr ⟨rfl, start⟩, less⟩

theorem not_falls_nil {base n : Nat} : ¬Falls base n [] := by
  rintro ⟨read, c, start, -⟩
  exact List.append_ne_nil_of_right_ne_nil read (List.cons_ne_nil c []) (List.prefix_nil.mp start)

/-- A digit more is never less, short of `2 ^ 64`. -/
theorem not_falls {base n : Nat} (some_ : 0 < base) {ds : List UInt8} (small : readFrom base n ds < 2 ^ 64) :
    ¬Falls base n ds := by
  rintro ⟨read, c, ⟨rest, rfl⟩, less⟩
  have last : readFrom base n (read ++ [c]) ≤ readFrom base n (read ++ [c] ++ rest) := by
    rw [readFrom, readFrom, List.foldl_append (l := read ++ [c])]
    exact le_foldl some_ rest _
  have grows : readFrom base n read ≤ readFrom base n (read ++ [c]) := by
    rw [readFrom, readFrom, List.foldl_append]
    exact le_foldl some_ [c] _
  rw [Nat.mod_eq_of_lt (by omega), Nat.mod_eq_of_lt (by omega)] at less
  omega

/-- The loop's word is the number modulo `2 ^ 64`; its flag tells whether a digit made it less. -/
theorem digits_falls {base : Nat} {ds : List UInt8}
    (all : ∀ c ∈ ds, isHexDigit c = true ∧ (digitValue c).any (· < base) = true) (n : Nat) (flag : Bool) :
    ∃ flag', digits base ds (BitVec.ofNat 64 n) flag = .ok (BitVec.ofNat 64 (readFrom base n ds), flag') ∧
      (flag' = true ↔ flag = true ∨ Falls base n ds) := by
  induction ds generalizing n flag with
  | nil => exact ⟨flag, rfl, by simp [not_falls_nil]⟩
  | cons c ds ih =>
    obtain ⟨hex, below⟩ := all c List.mem_cons_self
    obtain ⟨d, found, lt⟩ : ∃ d, digitValue c = some d ∧ d < base := by simpa using (Option.any_eq_true ..).mp below
    have one : readFrom base n [c] = n * base + d := by simp [readFrom, found]
    have word : BitVec.ofNat 64 n * BitVec.ofNat 64 base + BitVec.ofNat 64 d = BitVec.ofNat 64 (readFrom base n [c]) := by
      rw [one, BitVec.ofNat_add, BitVec.ofNat_mul]
    obtain ⟨flag', result, iff_⟩ := ih (fun x mem => all x (List.mem_cons_of_mem c mem)) (readFrom base n [c])
      (flag || decide (BitVec.ofNat 64 (readFrom base n [c]) < BitVec.ofNat 64 n))
    refine ⟨flag', ?_, ?_⟩
    · rw [digits, (hexDigit_letters c hex).2.2.2.2.2, found]
      simp only [if_neg (Nat.not_le.mpr lt), word]
      exact result
    · rw [iff_, falls_cons, Bool.or_eq_true, decide_eq_true_eq, BitVec.lt_def, BitVec.toNat_ofNat, BitVec.toNat_ofNat, or_assoc]

/-! ### Sized suffixes -/

theorem stripMSVCSuffix_size : ∀ size ∈ sizes, ∀ rest : List UInt8,
    stripMSVCSuffix ((bytes size).reverse ++ rest) = match rest with
      | [] => ((bytes size).reverse, false)
      | c :: ds => if c = byte 'u' || c = byte 'U' then (ds, true) else (c :: ds, false) := by
  intro size mem rest
  have table : (bytes "i8").reverse = [56, 105] ∧ (bytes "I8").reverse = [56, 73] ∧ (bytes "i16").reverse = [54, 49, 105] ∧
      (bytes "I16").reverse = [54, 49, 73] ∧ (bytes "i32").reverse = [50, 51, 105] ∧ (bytes "I32").reverse = [50, 51, 73] ∧
      (bytes "i64").reverse = [52, 54, 105] ∧ (bytes "I64").reverse = [52, 54, 73] := by decide
  have lengths : ∀ s, (bytes s).length = (bytes s).reverse.length := fun s => List.length_reverse.symm
  simp only [sizes, List.mem_cons, List.not_mem_nil, or_false] at mem
  cases rest with
  | nil => rcases mem with rfl | rfl | rfl | rfl | rfl | rfl | rfl | rfl <;> decide
  | cons c ds =>
    rcases mem with rfl | rfl | rfl | rfl | rfl | rfl | rfl | rfl <;>
      simp [stripMSVCSuffix, List.find?, lengths, table, List.isPrefixOf]

theorem stripMSVCSuffix_sized {suffix : List UInt8} (sized : msvcSizedSuffix suffix = true) :
    ∃ unsigned, ∀ ds : List UInt8, (∀ c ∈ ds, isHexDigit c = true) → (ds ≠ [] ∨ suffix ∉ sizes.map bytes) →
      stripMSVCSuffix (suffix.reverse ++ ds.reverse) = (ds.reverse, unsigned) := by
  obtain ⟨sign, signMem, letter, letterMem, size, sizeMem, rfl⟩ := sized_cases sized
  have table : ∀ letter ∈ ["i", "I"].map Token.bytes, ∀ size ∈ ["8", "16", "32", "64"].map Token.bytes,
      letter ++ size ∈ sizes.map bytes := by decide
  have mem := table letter letterMem size sizeMem
  obtain ⟨name, nameMem, eq⟩ := List.mem_map.mp mem
  have stripped (ds : List UInt8) := stripMSVCSuffix_size name nameMem (sign.reverse ++ ds.reverse)
  have signs : sign = [] ∨ ∃ c, sign = [c] ∧ (c = byte 'u' ∨ c = byte 'U') := by
    simp only [List.map_cons, List.map_nil, List.mem_cons, List.not_mem_nil, or_false] at signMem
    rcases signMem with rfl | rfl | rfl
    · exact .inl rfl
    · exact .inr ⟨byte 'u', by decide, .inl rfl⟩
    · exact .inr ⟨byte 'U', by decide, .inr rfl⟩
  rcases signs with rfl | ⟨c, rfl, u⟩
  · refine ⟨false, fun ds hex some_ => ?_⟩
    have left : ds ≠ [] := some_.resolve_right fun other => other mem
    obtain ⟨c, rest, last⟩ := List.exists_cons_of_ne_nil (List.reverse_ne_nil_iff.mpr left)
    have digit : c ∈ ds := List.mem_reverse.mp (last ▸ List.mem_cons_self)
    have noU : ¬(c = byte 'u' ∨ c = byte 'U') := by
      rintro (rfl | rfl)
      · exact absurd (hex _ digit) (by decide)
      · exact absurd (hex _ digit) (by decide)
    rw [List.reverse_append, List.append_assoc, ← eq, stripped, List.reverse_nil, List.nil_append, last]
    simp only [Bool.or_eq_true, decide_eq_true_eq, if_neg noU]
  · refine ⟨true, fun ds _ _ => ?_⟩
    rw [List.reverse_append, List.append_assoc, ← eq, stripped]
    simp only [List.reverse_cons, List.reverse_nil, List.nil_append, List.singleton_append, Bool.or_eq_true,
      decide_eq_true_eq, if_pos u]

/-! ### The constant -/

section
variable {text pre ds suffix : List UInt8} {base : Nat}

theorem apart_sized (sized : msvcSizedSuffix suffix = true) : Apart suffix := by
  obtain ⟨sign, signMem, letter, letterMem, size, sizeMem, rfl⟩ := sized_cases sized
  have table : ∀ sign ∈ ["", "u", "U"].map Token.bytes, ∀ letter ∈ ["i", "I"].map Token.bytes,
      ∀ size ∈ ["8", "16", "32", "64"].map Token.bytes, (sign ++ (letter ++ size)).all (fun c => decide
        (c ≠ byte 'x' ∧ c ≠ byte 'X' ∧ c ≠ byte 'b' ∧ c ≠ byte 'B' ∧ c ≠ apostrophe)) = true := by decide
  exact all_mem (table sign signMem letter letterMem size sizeMem)

/-- A leading zero changes nothing. -/
theorem falls_zero {base : Nat} {ds : List UInt8} : Falls base 0 (byte '0' :: ds) ↔ Falls base 0 ds := by
  have zero : readFrom base 0 [byte '0'] = 0 := by simp [readFrom, (by decide : digitValue (byte '0') = some 0)]
  rw [falls_cons, zero]
  simp

theorem digits_left (shape : Shape text pre base ds suffix) (apart : Apart suffix) :
    ∃ base' digits', 0 < base' ∧ splitBase (pre ++ (kept ds ++ suffix)) = (base', digits' ++ suffix) ∧
      (∀ c ∈ digits', isHexDigit c = true ∧ (digitValue c).any (· < base') = true) ∧
      readFrom base' 0 digits' = IntLiteral.value base ds ∧ (Falls base' 0 digits' ↔ Wraps text) ∧
      (digits' = [] → text = byte '0' :: suffix) := by
  obtain ⟨base', digits', some_, split, all, value_, which⟩ := splitBase_text shape apart
  refine ⟨base', digits', some_, split, all, value_, ?_, ?_⟩
  · rw [Wraps, shape.parts_eq]
    rcases which with ⟨eq, rfl | rfl⟩ | ⟨eq, rfl, -⟩
    · rw [eq]
    · rw [eq, falls_zero, falls_zero]
      exact iff_of_false not_falls_nil not_falls_nil
    · rw [eq, falls_zero]
  · rintro rfl
    rcases which with ⟨eq, -⟩ | ⟨eq, -, rfl⟩
    · exact absurd eq (kept_ne_nil shape)
    · obtain ⟨init, c, rfl, notSep⟩ := shape.last
      have last : kept init ++ [c] = [byte '0'] := by simpa [kept, notSep] using eq
      obtain ⟨none_, rfl⟩ : kept init = [] ∧ c = byte '0' := by simpa [List.append_eq_singleton_iff] using last
      have empty : init = [] := by
        rcases init with _ | ⟨b, init⟩
        · rfl
        · have sep : b = apostrophe := by
            by_contra other
            simp [kept, other] at none_
          rcases shape.pre_base with ⟨bad, -⟩ | ⟨bad, -⟩ | ⟨-, ⟨-, head⟩ | ⟨-, head⟩⟩
          · cases bad
          · cases bad
          · have sepZero : some apostrophe ≠ some '0'.toUInt8 := by decide
            exact absurd (sep ▸ head : some apostrophe = some '0'.toUInt8) sepZero
          · have sepDigit : (some apostrophe).any (fun c => isDigit c && c ≠ '0'.toUInt8) = false := by decide
            rw [sep] at head
            exact absurd (sepDigit.symm.trans head) Bool.false_ne_true
      rw [shape.text_eq, empty]
      rfl

/-- How a constant is read: the word of its value, with the report when the flag is set. -/
structure ReadAs (t : Token) (unsigned flag : Bool) : Prop where
  intConst_eq : ∀ e, intConst t e = (⟨BitVec.ofNat 64 (literal (bytes t.text)).value,
    unsigned || (BitVec.ofNat 64 (literal (bytes t.text)).value).msb⟩, if flag then e.fail t.site tooLarge else e)
  flag_iff : flag = true ↔ Wraps (bytes t.text)
  fits : (literal (bytes t.text)).value < 2 ^ 64 → flag = false

/-- What the loops leave of a spelling, put together. -/
theorem readAs_of_strip {t : Token} (shape : Shape (bytes t.text) pre base ds suffix) (apart : Apart suffix)
    {unsigned : Bool} (strip : ∀ digits', (∀ c ∈ digits', isHexDigit c = true) → (digits' = [] → bytes t.text = byte '0' :: suffix) →
      ∃ rest sign, stripMSVCSuffix (suffix.reverse ++ digits'.reverse) = (rest, sign) ∧
        stripSuffix rest sign = (digits'.reverse, unsigned)) : ∃ flag, ReadAs t unsigned flag := by
  obtain ⟨base', digits', some_, split, all, value_, wraps, empty⟩ := digits_left shape apart
  obtain ⟨rest, sign, sized, letters⟩ := strip digits' (fun c here => (all c here).1) empty
  obtain ⟨flag, read, falls⟩ := digits_falls all 0 false
  have flag_iff : flag = true ↔ Falls base' 0 digits' := falls.trans (by simp)
  have value : (literal (bytes t.text)).value = readFrom base' 0 digits' := by rw [shape.literal_eq, value_]
  refine ⟨flag, fun e => ?_, flag_iff.trans wraps, fun small => ?_⟩
  · rw [value]
    unfold intConst
    rw [filter_text shape apart, split]
    simp only [List.reverse_append]
    rw [sized]
    simp only
    rw [letters]
    simp only [List.reverse_reverse]
    rw [show (0 : BitVec 64) = BitVec.ofNat 64 0 from rfl, read]
    rfl
  · cases flag with
    | false => rfl
    | true => exact absurd (flag_iff.mp rfl) (not_falls some_ (value ▸ small))

theorem digits_stop {digits' : List UInt8} (hex : ∀ c ∈ digits', isHexDigit c = true) :
    ∀ c ∈ digits'.reverse.head?, c ∉ suffixLetters := fun c here =>
  (hexDigit_letters c (hex c (List.mem_reverse.mp (List.mem_of_mem_head? here)))).1

theorem readAs_standard {t : Token} (shape : Shape (bytes t.text) pre base ds suffix) (standard : standardSuffix (bytes t.text) = true) :
    ∃ unsigned flag, ReadAs t unsigned flag := by
  have letters := suffix_letters (shape.suffix_mem standard)
  refine ⟨decide ('u'.toUInt8 ∈ suffix.reverse.map toLower), readAs_of_strip shape (apart_letters letters) fun digits' hex _ => ?_⟩
  have noI : ∀ c ∈ suffix.reverse ++ digits'.reverse, c ≠ byte 'i' ∧ c ≠ byte 'I' := by
    intro c here
    rcases List.mem_append.mp here with inSuffix | inDigits
    · obtain ⟨i, I, -⟩ := suffixLetters_ne c (letters c (List.mem_reverse.mp inSuffix))
      exact ⟨i, I⟩
    · obtain ⟨-, i, I, -⟩ := hexDigit_letters c (hex c (List.mem_reverse.mp inDigits))
      exact ⟨i, I⟩
  have letters_off := stripSuffix_letters (digits_stop hex) false fun c here => letters c (List.mem_reverse.mp here)
  exact ⟨_, _, stripMSVCSuffix_none noI, letters_off.trans (by rw [Bool.false_or])⟩

theorem readAs_sized {t : Token} (shape : Shape (bytes t.text) pre base ds suffix) (sized : msvcSizedSuffix suffix = true)
    (zero : bytes t.text ∉ sizedZeros) : ∃ unsigned flag, ReadAs t unsigned flag := by
  -- whether it is unsigned is the same for all digits that may be left
  have sign : ∃ unsigned, ∀ digits', (∀ c ∈ digits', isHexDigit c = true) → (digits' = [] → bytes t.text = byte '0' :: suffix) →
      stripMSVCSuffix (suffix.reverse ++ digits'.reverse) = (digits'.reverse, unsigned) := by
    obtain ⟨unsigned, strips⟩ := stripMSVCSuffix_sized sized
    refine ⟨unsigned, fun digits' hex empty => strips digits' hex ?_⟩
    by_contra both
    obtain ⟨none_, named⟩ := not_or.mp both
    have table : ∀ s ∈ sizes.map bytes, byte '0' :: s ∈ sizedZeros := by decide
    rw [empty (not_not.mp none_)] at zero
    exact zero (table _ (not_not.mp named))
  obtain ⟨unsigned, strips⟩ := sign
  refine ⟨unsigned, readAs_of_strip shape (apart_sized sized) fun digits' hex empty => ⟨_, _, strips digits' hex empty, ?_⟩⟩
  have nothing : stripSuffix ([] ++ digits'.reverse) unsigned = _ :=
    stripSuffix_letters (digits_stop hex) unsigned fun c here => absurd here List.not_mem_nil
  simpa using nothing

end

theorem number_word {n : Nat} (small : n < 2 ^ 64) (unsigned : Bool) :
    Word.number ⟨BitVec.ofNat 64 n, unsigned || (BitVec.ofNat 64 n).msb⟩ = n := by
  have top : (BitVec.ofNat 64 n).msb = decide (2 ^ 63 ≤ n) := by
    rw [BitVec.msb_eq_decide, BitVec.toNat_ofNat, Nat.mod_eq_of_lt small]
  rw [Word.number_eq_wrap, top]
  simp only [BitVec.toNat_ofNat, Nat.mod_eq_of_lt small]
  refine wrap_of_inRange (by decide) ?_
  unfold InRange
  cases unsigned
  · by_cases high : 2 ^ 63 ≤ n
    · simp only [decide_eq_true high, Bool.or_true, Bool.not_true, Bool.false_eq_true, if_false]
      omega
    · simp only [decide_eq_false high, Bool.or_false, Bool.not_false, if_true]
      omega
  · simp only [Bool.true_or, Bool.not_true, Bool.false_eq_true, if_false]
    omega

theorem fail_ne (site : Site) (message : String) : (⟨[], false, []⟩ : Evaluator).fail site message ≠ ⟨[], false, []⟩ :=
  fun same => Bool.noConfusion (congrArg Evaluator.bad same : true = false)

theorem not_decodes_sizedZero {t : Token} (zero : bytes t.text ∈ sizedZeros) : ¬Decodes t := by
  have small : ∀ s ∈ sizedZeros, (literal s).value < 2 ^ 64 := by decide
  have failed : ∀ s ∈ sizedZeros,
      (digits (splitBase (s.filter (· ≠ byte '\''))).1 (stripSuffix (stripMSVCSuffix (splitBase (s.filter (· ≠ byte '\''))).2.reverse).1
        (stripMSVCSuffix (splitBase (s.filter (· ≠ byte '\''))).2.reverse).2).1.reverse 0 false).isOk = false := by decide
  intro decodes
  have same := decodes.reports ⟨[], false, []⟩
  rw [if_pos (small _ zero)] at same
  have notOk := failed _ zero
  unfold intConst at same
  simp only at same
  split at same
  · exact fail_ne _ _ same
  · next ok =>
    rw [ok] at notOk
    cases notOk

/-- **Which constants are decoded.** All but a sized zero, and of those that are too large the ones that some digit
takes below what they were. -/
theorem decodes_iff {t : Token} (spelled : Accepted (bytes t.text)) :
    Decodes t ↔ bytes t.text ∉ sizedZeros ∧ (2 ^ 64 ≤ (literal (bytes t.text)).value → Wraps (bytes t.text)) := by
  by_cases zero : bytes t.text ∈ sizedZeros
  · exact iff_of_false (not_decodes_sizedZero zero) fun both => both.1 zero
  obtain ⟨pre, base, ds, suffix, shape⟩ := shape_of_accepted spelled
  obtain ⟨unsigned, flag, read⟩ : ∃ unsigned flag, ReadAs t unsigned flag := by
    cases standard : standardSuffix (bytes t.text) with
    | true => exact readAs_standard shape standard
    | false =>
      rw [standardSuffix, shape.parts_eq, Bool.not_eq_false'] at standard
      exact readAs_sized shape standard zero
  constructor
  · intro decodes
    refine ⟨zero, fun large => read.flag_iff.mp ?_⟩
    have reported := decodes.reports ⟨[], false, []⟩
    rw [if_neg (Nat.not_lt.mpr large), read.intConst_eq] at reported
    cases flag with
    | true => rfl
    | false => exact absurd reported.symm (fail_ne _ _)
  · rintro ⟨-, wraps⟩
    refine ⟨fun small e => by rw [read.intConst_eq, number_word small], fun e => ?_⟩
    rw [read.intConst_eq]
    by_cases small : (literal (bytes t.text)).value < 2 ^ 64
    · rw [if_pos small, read.fits small]
      rfl
    · rw [if_neg small, if_pos (read.flag_iff.mpr (wraps (Nat.not_lt.mp small)))]

/-- `0x2'0000'0000'0000'0000i64` is read as `0`, below the digits before, and reported. -/
theorem wrapped_decodes : Decodes (.mint .intLit "0x2'0000'0000'0000'0000i64") := by
  refine (decodes_iff ⟨by decide, by decide⟩).mpr ⟨by decide, fun _ => ?_⟩
  exact ⟨bytes "2000000000000000", byte '0', by decide, by decide⟩

/-- `0x1FFFFFFFFFFFFFFFF` is read as `2 ^ 64 - 1`, and nothing is reported. -/
theorem unwrapped_undecoded : ¬∀ t : Token, Accepted (bytes t.text) → Decodes t := by
  intro all
  have decodes := all (.mint .intLit "0x1FFFFFFFFFFFFFFFF") ⟨by decide, by decide⟩
  have reported := congrArg Evaluator.bad (decodes.reports ⟨[], false, []⟩)
  revert reported
  decide

end Vcx.Controlling
