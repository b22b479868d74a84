import Vcx.Preprocessor.Controlling
import Vcx.Sema.IntLiteralSound

/-!
# Integer literals in controlling expressions

`intConst` takes the base, the suffix and the digits from the spelling in its own way. On what [lex.icon] calls an
integer literal of `intmax_t` or `uintmax_t` it reports nothing, and its word is the literal's value.
-/

namespace Vcx.Controlling
set_option autoImplicit false
open Vcx.Lib Vcx.Preprocessor
open Vcx.Token (Kind)
open Vcx.Scanner (apostrophe isHexDigit isDigit)
open Vcx.IntLiteral (Accepted Shape literal standardSuffix toLower digitValue suffixes all_bytes all_mem shape_of_accepted)

/-! ### Words and values -/

theorem value_eq (w : Word) : value w = reduce w.unsigned w.u.toNat := by
  ext
  · rfl
  · exact w.number_eq_wrap

theorem value_inj {v w : Word} : value v = value w ↔ v = w := by
  refine ⟨fun same => ?_, fun same => same ▸ rfl⟩
  have type : v.unsigned = w.unsigned := congrArg Value.unsigned same
  have number : v.number = w.number := congrArg Value.val same
  have bits : (v.u.toNat : Int) = w.u.toNat := by rw [← v.number_emod, ← w.number_emod, number]
  obtain ⟨u, unsigned⟩ := v
  obtain ⟨u', unsigned'⟩ := w
  obtain rfl : unsigned = unsigned' := type
  obtain rfl : u = u' := BitVec.eq_of_toNat_eq (by exact_mod_cast bits)
  rfl

/-! ### Suffixes -/

/-- The letters of the suffixes that `stripSuffix` takes off. -/
def suffixLetters : List UInt8 := [byte 'u', byte 'U', byte 'l', byte 'L', byte 'z', byte 'Z']

theorem hexDigit_letters : ∀ c : UInt8, isHexDigit c = true →
    c ∉ suffixLetters ∧ c ≠ byte 'i' ∧ c ≠ byte 'I' ∧ c ≠ byte 'x' ∧ c ≠ byte 'X' ∧ digit c = digitValue c :=
  all_bytes (by decide)

theorem digit_letters : ∀ c : UInt8, isDigit c = true → c ≠ byte 'b' ∧ c ≠ byte 'B' := all_bytes (by decide)

theorem mem_suffixLetters : ∀ c : UInt8, toLower c ∈ [byte 'u', byte 'l', byte 'z'] → c ∈ suffixLetters :=
  all_bytes (by decide)

theorem suffixLetters_ne : ∀ c ∈ suffixLetters, c ≠ byte 'i' ∧ c ≠ byte 'I' ∧ c ≠ byte 'x' ∧ c ≠ byte 'X' ∧
    c ≠ byte 'b' ∧ c ≠ byte 'B' ∧ c ≠ apostrophe := all_mem (by decide)

theorem suffix_letters {suffix : List UInt8} (mem : suffix.map toLower ∈ suffixes) : ∀ c ∈ suffix, c ∈ suffixLetters := by
  have table : ∀ s ∈ suffixes, s.all (fun c => decide (c ∈ [byte 'u', byte 'l', byte 'z'])) = true := by decide
  exact fun c here => mem_suffixLetters c (all_mem (table _ mem) _ (List.mem_map_of_mem here))

theorem isU_iff : ∀ c : UInt8, (c = byte 'u' ∨ c = byte 'U') ↔ toLower c = 'u'.toUInt8 := all_bytes (by decide)

/-- The loop takes the letters off, and sees the `u` among them. -/
theorem stripSuffix_letters {rest : List UInt8} (stop : ∀ c ∈ rest.head?, c ∉ suffixLetters) :
    ∀ {letters : List UInt8} (unsigned : Bool), (∀ c ∈ letters, c ∈ suffixLetters) →
      stripSuffix (letters ++ rest) unsigned = (rest, unsigned || decide ('u'.toUInt8 ∈ letters.map toLower))
  | [], unsigned, _ => by
    cases rest with
    | nil => simp [stripSuffix]
    | cons c rest =>
      have other := stop c rfl
      simp only [suffixLetters, List.mem_cons, List.not_mem_nil, or_false, not_or] at other
      simp [stripSuffix, other]
  | c :: letters, unsigned, all => by
    have more (unsigned : Bool) := stripSuffix_letters stop unsigned fun x mem => all x (List.mem_cons_of_mem c mem)
    have letter := all c List.mem_cons_self
    rw [List.cons_append, stripSuffix]
    by_cases u : c = byte 'u' ∨ c = byte 'U'
    · rw [if_pos (by simpa using u), more]
      simp [(isU_iff c).mp u]
    · have lower := mt (isU_iff c).mpr u
      have size : (c = byte 'l' || c = byte 'L' || c = byte 'z' || c = byte 'Z') = true := by
        simp only [suffixLetters, List.mem_cons, List.not_mem_nil, or_false] at letter
        simp only [Bool.or_eq_true, decide_eq_true_eq]
        tauto
      rw [if_neg (by simpa using u), if_pos size, more]
      simp [Ne.symm lower]

/-- There is no sized suffix without an `i`. -/
theorem stripMSVCSuffix_none {s : List UInt8} (none : ∀ c ∈ s, c ≠ byte 'i' ∧ c ≠ byte 'I') :
    stripMSVCSuffix s = (s, false) := by
  have letter : ∀ suf ∈ ["i64", "I64", "i32", "I32", "i16", "I16", "i8", "I8"],
      byte 'i' ∈ (bytes suf).reverse ∨ byte 'I' ∈ (bytes suf).reverse := by decide
  have nothing : ["i64", "I64", "i32", "I32", "i16", "I16", "i8", "I8"].find? (fun suf =>
      decide ((bytes suf).length < s.length) && ((bytes suf).reverse).isPrefixOf s) = Option.none := by
    rw [List.find?_eq_none]
    intro suf mem found
    have start := List.isPrefixOf_iff_prefix.mp (Bool.and_eq_true_iff.mp found).2
    rcases letter suf mem with i | i
    · exact (none _ (start.subset i)).1 rfl
    · exact (none _ (start.subset i)).2 rfl
  rw [stripMSVCSuffix, nothing]

/-! ### Digits -/

theorem le_foldl {base : Nat} (some_ : 0 < base) (ds : List UInt8) (n : Nat) :
    n ≤ ds.foldl (fun n c => n * base + (digitValue c).getD 0) n := by
  induction ds generalizing n with
  | nil => exact Nat.le_refl n
  | cons c ds ih => exact (Nat.le_trans (Nat.le_mul_of_pos_right n some_) (Nat.le_add_right _ _)).trans (ih _)

/-- The digits of a number that a word holds, one after the other. -/
theorem digits_value {base : Nat} (some_ : 0 < base) {ds : List UInt8}
    (all : ∀ c ∈ ds, isHexDigit c = true ∧ (digitValue c).any (· < base) = true) (n : Nat)
    (small : ds.foldl (fun n c => n * base + (digitValue c).getD 0) n < 2 ^ 64) :
    digits base ds (BitVec.ofNat 64 n) false =
      .ok (BitVec.ofNat 64 (ds.foldl (fun n c => n * base + (digitValue c).getD 0) n), false) := by
  induction ds generalizing n with
  | nil => rfl
  | cons c ds ih =>
    obtain ⟨hex, below⟩ := all c List.mem_cons_self
    obtain ⟨d, found, lt⟩ : ∃ d, digitValue c = some d ∧ d < base := by simpa using (Option.any_eq_true ..).mp below
    have next : n * base + d < 2 ^ 64 := by
      refine Nat.lt_of_le_of_lt (le_foldl some_ ds _) ?_
      simpa [found] using small
    have grows : n ≤ n * base + d := Nat.le_trans (Nat.le_mul_of_pos_right n some_) (Nat.le_add_right _ _)
    have word : BitVec.ofNat 64 n * BitVec.ofNat 64 base + BitVec.ofNat 64 d = BitVec.ofNat 64 (n * base + d) := by
      rw [BitVec.ofNat_add, BitVec.ofNat_mul]
    have noWrap : ¬ BitVec.ofNat 64 (n * base + d) < BitVec.ofNat 64 n := by
      rw [BitVec.lt_def, BitVec.toNat_ofNat, BitVec.toNat_ofNat, Nat.mod_eq_of_lt next,
        Nat.mod_eq_of_lt (Nat.lt_of_le_of_lt grows next)]
      omega
    rw [digits, (hexDigit_letters c hex).2.2.2.2.2, found]
    simp only [if_neg (Nat.not_le.mpr lt), word, decide_eq_false noWrap, Bool.or_false]
    rw [ih (fun x mem => all x (List.mem_cons_of_mem c mem)) _ (by simpa [found] using small)]
    simp [found]

/-! ### Spellings -/

section
variable {text pre ds suffix : List UInt8} {base : Nat}

/-- The digits without their separators. -/
def kept (ds : List UInt8) : List UInt8 := ds.filter (· ≠ apostrophe)

theorem kept_digit (shape : Shape text pre base ds suffix) :
    ∀ c ∈ kept ds, isHexDigit c = true ∧ (digitValue c).any (· < base) = true ∧ (base ≤ 10 → isDigit c = true) := by
  intro c mem
  obtain ⟨here, sep⟩ := List.mem_filter.mp mem
  exact (shape.digit c here).resolve_left (by simpa using sep)

theorem kept_ne_nil (shape : Shape text pre base ds suffix) : kept ds ≠ [] := by
  obtain ⟨init, c, rfl, notSep⟩ := shape.last
  simp [kept, notSep]

/-- The suffix is none of the separators, nor a letter that names a base. -/
def Apart (suffix : List UInt8) : Prop :=
  ∀ c ∈ suffix, c ≠ byte 'x' ∧ c ≠ byte 'X' ∧ c ≠ byte 'b' ∧ c ≠ byte 'B' ∧ c ≠ apostrophe

theorem apart_letters (letters : ∀ c ∈ suffix, c ∈ suffixLetters) : Apart suffix :=
  fun c mem => (suffixLetters_ne c (letters c mem)).2.2

/-- The spelling without its separators. -/
theorem filter_text (shape : Shape text pre base ds suffix) (apart : Apart suffix) :
    text.filter (· ≠ byte '\'') = pre ++ (kept ds ++ suffix) := by
  have noSep : ∀ c ∈ pre, c ≠ apostrophe := by
    have table : ∀ text ∈ [Token.bytes "0x", Token.bytes "0b"], text.all (fun c => decide (c ≠ apostrophe)) = true := by decide
    intro c mem same
    have lower := List.mem_map_of_mem (f := toLower) mem
    rw [(IntLiteral.toLower_apostrophe c).mpr same] at lower
    rcases shape.pre_base with ⟨eq, -⟩ | ⟨eq, -⟩ | ⟨eq, -⟩
    · exact all_mem (table _ (by simp)) _ (eq ▸ lower) rfl
    · exact all_mem (table _ (by simp)) _ (eq ▸ lower) rfl
    · rw [eq] at mem
      exact List.not_mem_nil mem
  have preKept : pre.filter (· ≠ apostrophe) = pre := List.filter_eq_self.mpr fun c mem => by simpa using noSep c mem
  have suffixKept : suffix.filter (· ≠ apostrophe) = suffix :=
    List.filter_eq_self.mpr fun c mem => by simpa using (apart c mem).2.2.2.2
  rw [shape.text_eq]
  change (pre ++ (ds ++ suffix)).filter (· ≠ apostrophe) = _
  rw [List.filter_append, List.filter_append, preKept, suffixKept, kept]

theorem splitBase_based {pre s : List UInt8} (some_ : s ≠ []) :
    (pre.map toLower = Token.bytes "0x" → splitBase (pre ++ s) = (16, s)) ∧
      (pre.map toLower = Token.bytes "0b" → splitBase (pre ++ s) = (2, s)) := by
  have zero : ∀ c : UInt8, toLower c = byte '0' → c = byte '0' := all_bytes (by decide)
  have x : ∀ c : UInt8, toLower c = byte 'x' → c = byte 'x' ∨ c = byte 'X' := all_bytes (by decide)
  have b : ∀ c : UInt8, toLower c = byte 'b' → (c = byte 'b' ∨ c = byte 'B') ∧ c ≠ byte 'x' ∧ c ≠ byte 'X' :=
    all_bytes (by decide)
  obtain ⟨d, ds, rfl⟩ := List.exists_cons_of_ne_nil some_
  have two {l : Char} (eq : pre.map toLower = [byte '0', byte l]) :
      ∃ c, pre = [byte '0', c] ∧ toLower c = byte l := by
    obtain ⟨z, c, rfl⟩ := List.length_eq_two.mp (by simpa using congrArg List.length eq)
    simp only [List.map_cons, List.map_nil, List.cons.injEq, and_true] at eq
    exact ⟨c, by rw [zero z eq.1], eq.2⟩
  constructor
  · intro eq
    obtain ⟨c, rfl, lower⟩ := two (l := 'x') eq
    simp [splitBase, x c lower]
  · intro eq
    obtain ⟨c, rfl, lower⟩ := two (l := 'b') eq
    simp [splitBase, b c lower]

/-- None: the base of a leading `0`, which is no digit then, or ten. -/
theorem splitBase_plain {z : UInt8} {s : List UInt8} (second : ∀ c ∈ s.head?, c ≠ byte 'x' ∧ c ≠ byte 'X' ∧ c ≠ byte 'b' ∧ c ≠ byte 'B') :
    splitBase (z :: s) = if z = byte '0' ∧ s ≠ [] then (8, s) else (10, z :: s) := by
  rcases s with _ | ⟨c, _ | ⟨d, s⟩⟩
  · simp [splitBase]
  · simp [splitBase]
  · have other := second c rfl
    simp [splitBase, other]

theorem splitBase_text (shape : Shape text pre base ds suffix) (apart : Apart suffix) :
    ∃ base' digits', 0 < base' ∧ splitBase (pre ++ (kept ds ++ suffix)) = (base', digits' ++ suffix) ∧
      (∀ c ∈ digits', isHexDigit c = true ∧ (digitValue c).any (· < base') = true) ∧
      digits'.foldl (fun n c => n * base' + (digitValue c).getD 0) 0 = IntLiteral.value base ds ∧
      (kept ds = digits' ∧ (base' = base ∨ digits' = [byte '0']) ∨ kept ds = byte '0' :: digits' ∧ base' = base ∧ pre = []) := by
  have digit := kept_digit shape
  have some_ : kept ds ++ suffix ≠ [] := List.append_ne_nil_of_left_ne_nil (kept_ne_nil shape) _
  rcases shape.pre_base with ⟨eq, rfl⟩ | ⟨eq, rfl⟩ | ⟨rfl, plain⟩
  · exact ⟨16, kept ds, by decide, (splitBase_based some_).1 eq, fun c mem => ⟨(digit c mem).1, (digit c mem).2.1⟩, rfl,
      .inl ⟨rfl, .inl rfl⟩⟩
  · exact ⟨2, kept ds, by decide, (splitBase_based some_).2 eq, fun c mem => ⟨(digit c mem).1, (digit c mem).2.1⟩, rfl,
      .inl ⟨rfl, .inl rfl⟩⟩
  obtain ⟨z, s, isKept⟩ := List.exists_cons_of_ne_nil (kept_ne_nil shape)
  have le : base ≤ 10 := by omega
  have second : ∀ c ∈ (s ++ suffix).head?, c ≠ byte 'x' ∧ c ≠ byte 'X' ∧ c ≠ byte 'b' ∧ c ≠ byte 'B' := by
    intro c mem
    rcases List.mem_append.mp (List.mem_of_mem_head? mem) with inDigits | inSuffix
    · obtain ⟨hex, -, decimal⟩ := digit c (isKept ▸ List.mem_cons_of_mem z inDigits)
      obtain ⟨-, -, -, x, X, -⟩ := hexDigit_letters c hex
      exact ⟨x, X, digit_letters c (decimal le)⟩
    · obtain ⟨x, X, b, B, -⟩ := apart c inSuffix
      exact ⟨x, X, b, B⟩
  have split := splitBase_plain (z := z) second
  have value_ : IntLiteral.value base ds = (z :: s).foldl (fun n c => n * base + (digitValue c).getD 0) 0 := by
    rw [← isKept]
    rfl
  rw [isKept] at digit
  rw [isKept, List.nil_append, List.cons_append, split, value_]
  have first : ds.head? = some z ∨ ds.head? = some apostrophe := by
    rcases ds with _ | ⟨c, ds⟩
    · cases isKept
    · by_cases sep : c = apostrophe
      · exact .inr (by rw [sep]; rfl)
      · simp only [kept, ne_eq, sep, not_false_eq_true, decide_true, List.filter_cons_of_pos, List.cons.injEq] at isKept
        exact .inl (by rw [isKept.1]; rfl)
  have noZero : some apostrophe ≠ some '0'.toUInt8 := by decide
  rcases plain with ⟨rfl, isZero⟩ | ⟨rfl, notZero⟩
  · have zero : z = '0'.toUInt8 := by
      rcases first with eq | eq
      · exact Option.some.inj (eq.symm.trans isZero)
      · exact absurd (eq.symm.trans isZero) noZero
    subst zero
    by_cases more : s ++ suffix = []
    · obtain ⟨rfl, rfl⟩ := List.append_eq_nil_iff.mp more
      exact ⟨10, ['0'.toUInt8], by decide, by simp, all_mem (by decide), by decide, .inl ⟨rfl, .inr rfl⟩⟩
    · rw [if_pos ⟨rfl, more⟩]
      exact ⟨8, s, by decide, rfl, fun c mem => ⟨(digit c (List.mem_cons_of_mem _ mem)).1,
        (digit c (List.mem_cons_of_mem _ mem)).2.1⟩, rfl, .inr ⟨rfl, rfl, rfl⟩⟩
  · have nonzero : z ≠ byte '0' := by
      rintro rfl
      rcases first with eq | eq
      · rw [eq] at notZero
        revert notZero
        decide
      · rw [eq] at notZero
        revert notZero
        decide
    rw [if_neg fun both => nonzero both.1]
    exact ⟨10, z :: s, by decide, rfl, fun c mem => ⟨(digit c mem).1, (digit c mem).2.1⟩, rfl, .inl ⟨rfl, .inl rfl⟩⟩

end

/-- **The word of an integer literal** is its value, and nothing is reported. -/
theorem intConst_literal {t : Token} (spelled : Accepted (bytes t.text)) (standard : standardSuffix (bytes t.text) = true)
    {v : Value} (has : literalValue (literal (bytes t.text)) = some v) (e : Evaluator) :
    (intConst t e).2 = e ∧ value (intConst t e).1 = v := by
  obtain ⟨pre, base, ds, suffix, shape⟩ := shape_of_accepted spelled
  have mem := shape.suffix_mem standard
  have letters := suffix_letters mem
  obtain ⟨base', digits', some_, split, all, value_, -⟩ := splitBase_text shape (apart_letters letters)
  rw [shape.literal_eq] at has
  have noI : ∀ c ∈ (digits' ++ suffix).reverse, c ≠ byte 'i' ∧ c ≠ byte 'I' := by
    intro c here
    rcases List.mem_append.mp (List.mem_reverse.mp here) with inDigits | inSuffix
    · obtain ⟨-, i, I, -⟩ := hexDigit_letters c (all c inDigits).1
      exact ⟨i, I⟩
    · obtain ⟨i, I, -⟩ := suffixLetters_ne c (letters c inSuffix)
      exact ⟨i, I⟩
  have stop : ∀ c ∈ digits'.reverse.head?, c ∉ suffixLetters := fun c here =>
    (hexDigit_letters c (all c (List.mem_reverse.mp (List.mem_of_mem_head? here))).1).1
  have stripped : stripSuffix (suffix.reverse ++ digits'.reverse) false = _ :=
    stripSuffix_letters stop false fun c here => letters c (List.mem_reverse.mp here)
  have small : IntLiteral.value base ds < 2 ^ 64 := by
    unfold literalValue at has
    dsimp only at has
    split_ifs at has with low high
    · omega
    · exact high.1
  have read := digits_value some_ all 0 (by rwa [value_])
  rw [value_] at read
  have word : intConst t e = (⟨BitVec.ofNat 64 (IntLiteral.value base ds),
      decide ('u'.toUInt8 ∈ suffix.map toLower) || (BitVec.ofNat 64 (IntLiteral.value base ds)).msb⟩, e) := by
    unfold intConst
    rw [filter_text shape (apart_letters letters), split]
    simp only
    rw [stripMSVCSuffix_none noI]
    simp only [List.reverse_append]
    rw [stripped]
    simp only [List.reverse_reverse, Bool.false_or, List.map_reverse, List.mem_reverse]
    rw [show (0 : BitVec 64) = BitVec.ofNat 64 0 from rfl, read]
    simp
  rw [word]
  refine ⟨rfl, ?_⟩
  rw [value_eq]
  simp only [BitVec.toNat_ofNat, Nat.mod_eq_of_lt small]
  have top : (BitVec.ofNat 64 (IntLiteral.value base ds)).msb = decide (2 ^ 63 ≤ IntLiteral.value base ds) := by
    rw [BitVec.msb_eq_decide, BitVec.toNat_ofNat, Nat.mod_eq_of_lt small]
  unfold literalValue at has
  dsimp only at has
  rw [top]
  split_ifs at has with low high
  · rw [decide_eq_false (Nat.not_le.mpr low), Bool.or_false]
    exact Option.some.inj has
  · rw [decide_eq_true (Nat.not_lt.mp low), Bool.or_true]
    exact Option.some.inj has

end Vcx.Controlling
