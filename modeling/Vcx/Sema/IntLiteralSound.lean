import Vcx.Sema.IntLiteral
import Vcx.Scanner.Spans

/-!
# The type of an integer literal

A spelling is a prefix, digits and a suffix. The evaluator and the analyzer both find them, and so both see the
literal that [lex.icon] has; but the evaluator gives a literal the type its suffix names, and reduces the value
to that, before the analyzer looks at it.
-/

namespace Vcx.IntLiteral
set_option autoImplicit false
open Vcx.Lib Vcx.Types Vcx.Scanner
open Vcx.Constexpr (bits isSignedKind highest)
open Vcx.IntExpr (Literal Length)
open Vcx.Token (bytes)

/-! ### Bytes -/

/-- What holds of each of the 256 bytes. -/
theorem all_bytes {p : UInt8 → Prop} (each : ∀ high low : Fin 16, p (UInt8.ofNat (16 * high.val + low.val))) (c : UInt8) :
    p c := by
  have byte := each ⟨c.toNat / 16, by have := c.toNat_lt; omega⟩ ⟨c.toNat % 16, by omega⟩
  simpa [Nat.div_add_mod] using byte

/-- A fact about the bytes of a list, each of them looked at. -/
theorem all_mem {p : UInt8 → Prop} [DecidablePred p] {s : List UInt8} (each : s.all (fun c => decide (p c)) = true) :
    ∀ c ∈ s, p c := fun c mem => of_decide_eq_true (List.all_eq_true.mp each c mem)

theorem toLower_digit : ∀ c : UInt8, isHexDigit c = true → toLower c ≠ 'u'.toUInt8 ∧ toLower c ≠ 'l'.toUInt8 ∧
    toLower c ≠ 'z'.toUInt8 ∧ isOneOf "0123456789abcdef'" (toLower c) = true ∧ c ≠ apostrophe :=
  all_bytes (by decide +kernel)

theorem isHexDigit_of_isDigit : ∀ c : UInt8, isDigit c = true → isHexDigit c = true ∧ toLower c = c ∧
    isOneOf "0123456789'" c = true := all_bytes (by decide +kernel)

theorem toLower_apostrophe : ∀ c : UInt8, toLower c = apostrophe ↔ c = apostrophe := all_bytes (by decide +kernel)

theorem digitValue_toLower : ∀ c : UInt8, digitValue (toLower c) = digitValue c := all_bytes (by decide +kernel)

/-! ### Digits and suffixes -/

attribute [local simp] digits intSuffixParts

theorem digits_spec (isD : UInt8 → Bool) (n : Nat) (s : List UInt8) :
    ∃ body, s = body ++ (digits isD n s).2 ∧ (∀ c ∈ body, isD c = true ∨ c = apostrophe) ∧ n ≤ (digits isD n s).1 ∧
      ((digits isD n s).1 = n → body = []) ∧
      (n < (digits isD n s).1 → ∃ init last, body = init ++ [last] ∧ isD last = true) := by
  induction n, s using digits.induct isD with
  | case1 n => exact ⟨[], by simp [digits]⟩
  | case2 n c digit => exact ⟨[c], by simp [digits, digit], by simp [digit], by simp [digits, digit], by simp [digits, digit],
      fun _ => ⟨[], c, rfl, digit⟩⟩
  | case3 n c no => exact ⟨[], by simp [digits, no]⟩
  | case4 n c d rest digit ih =>
    obtain ⟨body, eq, all, le, none, some⟩ := ih
    rw [digits, if_pos digit]
    refine ⟨c :: body, by rw [List.cons_append, ← eq], ?_, by omega, by omega, fun _ => ?_⟩
    · rintro x (_ | ⟨_, mem⟩)
      · exact .inl digit
      · exact all x mem
    · rcases Nat.lt_or_ge (n + 1) (digits isD (n + 1) (d :: rest)).1 with more | end_
      · obtain ⟨init, last, rfl, digit'⟩ := some more
        exact ⟨c :: init, last, rfl, digit'⟩
      · rw [none (Nat.le_antisymm end_ le)]
        exact ⟨[], c, rfl, digit⟩
  | case5 n c d rest no sep ih =>
    obtain ⟨body, eq, all, le, none, some⟩ := ih
    rw [digits, if_neg no, if_pos sep]
    refine ⟨c :: d :: body, by rw [List.cons_append, List.cons_append, ← eq], ?_, by omega, by omega, fun _ => ?_⟩
    · rintro x (_ | ⟨_, _ | ⟨_, mem⟩⟩)
      · exact .inr sep.1
      · exact .inl sep.2.2
      · exact all x mem
    · rcases Nat.lt_or_ge (n + 1) (digits isD (n + 1) rest).1 with more | end_
      · obtain ⟨init, last, rfl, digit'⟩ := some more
        exact ⟨c :: d :: init, last, rfl, digit'⟩
      · rw [none (Nat.le_antisymm end_ le)]
        exact ⟨[c], d, rfl, sep.2.2⟩
  | case6 n c d rest no noSep => exact ⟨[], by simp [digits, no, noSep]⟩

/-- The suffixes of C++, in lower case. -/
def suffixes : List (List UInt8) := ["", "u", "l", "ll", "z", "ul", "lu", "ull", "llu", "uz", "zu"].map bytes

theorem toLower_letter : ∀ c : UInt8, (isOneOf "uU" c = true → toLower c = 'u'.toUInt8) ∧
    (isOneOf "lL" c = true → toLower c = 'l'.toUInt8) ∧ (isOneOf "zZ" c = true → toLower c = 'z'.toUInt8) ∧
    (isOneOf "lLzZ" c = true → isOneOf "lL" c = true ∨ isOneOf "zZ" c = true) := all_bytes (by decide +kernel)

/-- Once the sign and the size are seen there is nothing more. -/
theorem intSuffix_done {s : List UInt8} (suffix : intSuffixParts true true s = true) : s = [] := by
  rcases s with _ | ⟨c, _ | ⟨d, s⟩⟩
  · rfl
  · simp [intSuffixParts] at suffix
  · simp [intSuffixParts] at suffix

/-- The sign alone is left. -/
theorem intSuffix_sign {s : List UInt8} (suffix : intSuffixParts false true s = true) :
    s.map toLower ∈ ["", "u"].map bytes := by
  rcases s with _ | ⟨c, _ | ⟨d, s⟩⟩
  · decide
  · simp only [intSuffixParts, Bool.not_true, Bool.not_false, Bool.and_true, Bool.and_false, Bool.or_false] at suffix
    rw [List.map_singleton, (toLower_letter c).1 suffix]
    decide
  · simp only [intSuffixParts, Bool.not_true, Bool.not_false, Bool.and_true, Bool.and_false, Bool.false_eq_true,
      if_false] at suffix
    split at suffix
    · cases intSuffix_done suffix
    · cases suffix

/-- The size alone is left. -/
theorem intSuffix_size {s : List UInt8} (suffix : intSuffixParts true false s = true) :
    s.map toLower ∈ ["", "l", "ll", "z"].map bytes := by
  rcases s with _ | ⟨c, _ | ⟨d, s⟩⟩
  · decide
  · simp only [intSuffixParts, Bool.not_true, Bool.not_false, Bool.and_true, Bool.and_false, Bool.false_or] at suffix
    rcases (toLower_letter c).2.2.2 suffix with l | z
    · rw [List.map_singleton, (toLower_letter c).2.1 l]
      decide
    · rw [List.map_singleton, (toLower_letter c).2.2.1 z]
      decide
  · simp only [intSuffixParts, Bool.not_true, Bool.not_false, Bool.and_true, Bool.and_false, Bool.false_eq_true,
      if_false] at suffix
    split at suffix
    · next l =>
      split at suffix
      · next same =>
        obtain rfl := intSuffix_done suffix
        subst same
        simp only [List.map_cons, List.map_nil, (toLower_letter d).2.1 l]
        decide
      · cases intSuffix_done suffix
    · split at suffix
      · cases intSuffix_done suffix
      · cases suffix

/-- A letter and a suffix that the rest is one of. -/
theorem cons_mem_suffixes {c : UInt8} {s : List UInt8} {heads tails : List (List UInt8)} (head : [toLower c] ∈ heads)
    (tail : s.map toLower ∈ tails) (table : ∀ h ∈ heads, ∀ t ∈ tails, h ++ t ∈ suffixes) :
    (c :: s).map toLower ∈ suffixes := by
  have both := table _ head _ tail
  rwa [List.singleton_append] at both

theorem intSuffix_mem {s : List UInt8} (suffix : intSuffixParts false false s = true) : s.map toLower ∈ suffixes := by
  rcases s with _ | ⟨c, _ | ⟨d, s⟩⟩
  · decide
  · simp only [intSuffixParts, Bool.not_false, Bool.and_true, Bool.or_eq_true] at suffix
    rcases suffix with u | size
    · rw [List.map_singleton, (toLower_letter c).1 u]
      decide
    · rcases (toLower_letter c).2.2.2 size with l | z
      · rw [List.map_singleton, (toLower_letter c).2.1 l]
        decide
      · rw [List.map_singleton, (toLower_letter c).2.2.1 z]
        decide
  · simp only [intSuffixParts, Bool.not_false, Bool.and_true] at suffix
    split at suffix
    · next u =>
      exact cons_mem_suffixes (by rw [(toLower_letter c).1 u]; exact List.mem_singleton_self _) (intSuffix_size suffix)
        (by decide)
    · split at suffix
      · next l =>
        have lower := (toLower_letter c).2.1 l
        split at suffix
        · next same =>
          subst same
          have signed := intSuffix_sign suffix
          have table : ∀ t ∈ ["", "u"].map bytes, bytes "ll" ++ t ∈ suffixes := by decide
          have both := table _ signed
          simp only [List.map_cons, lower]
          exact both
        · exact cons_mem_suffixes (by rw [lower]; exact List.mem_singleton_self _) (intSuffix_sign suffix) (by decide)
      · split at suffix
        · next z =>
          exact cons_mem_suffixes (by rw [(toLower_letter c).2.2.1 z]; exact List.mem_singleton_self _)
            (intSuffix_sign suffix) (by decide)
        · cases suffix

/-! ### Spellings -/

/-- A spelling taken apart: the prefix of its base, its digits with the last of them, and its suffix. -/
structure Shape (text pre : List UInt8) (base : Nat) (ds suffix : List UInt8) : Prop where
  text_eq : text = pre ++ (ds ++ suffix)
  parts_eq : parts text = (base, ds, suffix)
  pre_base : pre.map toLower = bytes "0x" ∧ base = 16 ∨ pre.map toLower = bytes "0b" ∧ base = 2 ∨
    pre = [] ∧ (base = 8 ∧ ds.head? = some '0'.toUInt8 ∨ base = 10 ∧ ds.head?.any (fun c => isDigit c && c ≠ '0'.toUInt8) = true)
  digit : ∀ c ∈ ds, c = apostrophe ∨ isHexDigit c = true ∧ (digitValue c).any (· < base) = true ∧ (base ≤ 10 → isDigit c = true)
  last : ∃ init c, ds = init ++ [c] ∧ c ≠ apostrophe
  suffix_ok : isIntSuffix suffix = true

theorem classify_int {text : List UInt8} (classified : classify text = (.intLit, false, none)) :
    ∃ suffix, beforeSuffix text = .ok (false, suffix) ∧ isIntSuffix suffix = true := by
  unfold classify at classified
  split at classified
  · simp at classified
  · cases before : beforeSuffix text with
    | error e => simp [before] at classified
    | ok found =>
      obtain ⟨isFloat, suffix⟩ := found
      cases isFloat with
      | true =>
        simp only [before, if_true] at classified
        split_ifs at classified <;> simp at classified
      | false =>
        simp only [before, Bool.false_eq_true, if_false] at classified
        refine ⟨suffix, rfl, ?_⟩
        by_cases empty : suffix = []
        · subst empty
          decide
        · rw [if_neg empty] at classified
          split_ifs at classified <;> simp_all

/-- A prefix is `0` and a letter. -/
theorem prefix_eq {text : List UInt8} {b : UInt8} (zero : text.head? = some '0'.toUInt8) (second : text.tail.head? = some b) :
    text = ['0'.toUInt8, b] ++ text.drop 2 := by
  rcases text with _ | ⟨c, _ | ⟨d, rest⟩⟩
  · cases zero
  · cases second
  · obtain rfl := Option.some.inj zero
    obtain rfl := Option.some.inj second
    rfl

theorem binDigit_value : ∀ c : UInt8, isBinDigit c = true → isHexDigit c = true ∧
    (digitValue c).any (· < 2) = true ∧ isDigit c = true := all_bytes (by decide +kernel)

theorem digit_value : ∀ c : UInt8, isDigit c = true → isHexDigit c = true ∧ (digitValue c).any (· < 10) = true :=
  all_bytes (by decide +kernel)

theorem octal_value : ∀ c : UInt8, isDigit c = true → ¬ '7'.toUInt8 < c → (digitValue c).any (· < 8) = true :=
  all_bytes (by decide +kernel)

theorem hexDigit_value : ∀ c : UInt8, isHexDigit c = true → (digitValue c).any (· < 16) = true :=
  all_bytes (by decide +kernel)

theorem hexDigit_ne : ∀ c : UInt8, isHexDigit c = true → c ≠ apostrophe := fun c hex => (toLower_digit c hex).2.2.2.2

/-- The tests of a spelling for the prefixes of the scanner and of `parts`. -/
def startsWith (text : List UInt8) (b b' : UInt8) : Prop :=
  text.head? = some '0'.toUInt8 ∧ (text.tail.head? = some b ∨ text.tail.head? = some b')

/-- A literal with a prefix, once its digits are read. -/
theorem shape_prefix {text : List UInt8} {b b' : UInt8} {isD : UInt8 → Bool} (base : Nat)
    (starts : startsWith text b b') (some_ : (digits isD 0 (text.drop 2)).1 ≠ 0)
    (parts_eq : parts text = (base, upTo (text.drop 2) (digits isD 0 (text.drop 2)).2, (digits isD 0 (text.drop 2)).2))
    (pre_base : ['0'.toUInt8, b].map toLower = bytes "0x" ∧ base = 16 ∨ ['0'.toUInt8, b].map toLower = bytes "0b" ∧ base = 2)
    (same : toLower b' = toLower b)
    (digit : ∀ c, isD c = true → isHexDigit c = true ∧ (digitValue c).any (· < base) = true ∧ (base ≤ 10 → isDigit c = true))
    (suffixOk : isIntSuffix (digits isD 0 (text.drop 2)).2 = true) : ∃ pre base ds suffix, Shape text pre base ds suffix := by
  obtain ⟨body, eq, all, -, -, last⟩ := digits_spec isD 0 (text.drop 2)
  obtain ⟨init, c, rfl, isLast⟩ := last (Nat.pos_of_ne_zero some_)
  obtain ⟨x, second, lower⟩ : ∃ x, text.tail.head? = some x ∧ toLower x = toLower b := by
    rcases starts.2 with second | second
    · exact ⟨b, second, rfl⟩
    · exact ⟨b', second, same⟩
  refine ⟨['0'.toUInt8, x], base, init ++ [c], _, (prefix_eq starts.1 second).trans (by rw [← eq]), ?_, ?_, ?_,
    ⟨init, c, rfl, hexDigit_ne c (digit c isLast).1⟩, suffixOk⟩
  · rw [parts_eq, Scanner.upTo_of_append eq]
  · rw [List.map_cons, List.map_singleton, lower]
    exact pre_base.imp_right .inl
  · exact fun x mem => (all x mem).symm.imp id (digit x)

theorem digits_pos {text : List UInt8} (start : text.head?.any isDigit = true) : 0 < (digits isDigit 0 text).1 := by
  rcases text with _ | ⟨c, _ | ⟨d, rest⟩⟩
  · cases start
  · have digit : isDigit c = true := start
    simp [digits, digit]
  · have digit : isDigit c = true := start
    rw [digits, if_pos digit]
    obtain ⟨-, -, -, le, -⟩ := digits_spec isDigit 1 (d :: rest)
    exact le

/-- One without. -/
theorem shape_plain {text : List UInt8} (start : text.head?.any isDigit = true)
    (parts_eq : parts text = (if text.head? = some '0'.toUInt8 then 8 else 10, upTo text (digits isDigit 0 text).2,
      (digits isDigit 0 text).2))
    (octalOk : ¬(text.head? = some '0'.toUInt8 ∧
      (upTo text (digits isDigit 0 text).2).tail.any (fun c => c ≠ apostrophe && '7'.toUInt8 < c) = true))
    (suffixOk : isIntSuffix (digits isDigit 0 text).2 = true) : ∃ pre base ds suffix, Shape text pre base ds suffix := by
  obtain ⟨body, eq, all, -, -, last⟩ := digits_spec isDigit 0 text
  obtain ⟨init, c, rfl, isLast⟩ := last (digits_pos start)
  have upTo_ := Scanner.upTo_of_append eq
  have head : (init ++ [c]).head? = text.head? := by
    rw [eq, List.head?_append, List.head?_append]
    cases init <;> rfl
  rw [upTo_] at octalOk
  refine ⟨[], if text.head? = some '0'.toUInt8 then 8 else 10, init ++ [c], _, eq, ?_, .inr (.inr ⟨rfl, ?_⟩), ?_,
    ⟨init, c, rfl, hexDigit_ne c (digit_value c isLast).1⟩, suffixOk⟩
  · rw [parts_eq, upTo_]
  · rw [head]
    split
    · next zero => exact .inl ⟨rfl, zero⟩
    · next notZero =>
      refine .inr ⟨rfl, ?_⟩
      obtain ⟨c, first, digit⟩ := (Option.any_eq_true ..).mp start
      rw [first] at notZero ⊢
      simpa [digit] using notZero
  · intro x mem
    refine (all x mem).symm.imp id fun digit => ⟨(digit_value x digit).1, ?_, fun _ => digit⟩
    split
    · next zero =>
      rw [zero] at head
      obtain ⟨rest, shape⟩ : ∃ rest, init ++ [c] = '0'.toUInt8 :: rest := List.head?_eq_some_iff.mp head
      rw [shape] at mem octalOk
      rcases List.mem_cons.mp mem with rfl | mem
      · decide
      · refine octal_value x digit fun large => octalOk ⟨zero, List.any_eq_true.mpr ⟨x, mem, ?_⟩⟩
        simp [hexDigit_ne x (digit_value x digit).1, large]
    · exact (digit_value x digit).2

/-- The scanner's parts of what it accepts. -/
theorem shape_of_accepted {text : List UInt8} (accepted : Accepted text) :
    ∃ pre base ds suffix, Shape text pre base ds suffix := by
  obtain ⟨suffix, before, suffixOk⟩ := classify_int accepted.classified
  unfold beforeSuffix at before
  dsimp only at before
  split at before
  · next bin =>
    split at before
    · cases before
    · next some_ =>
      obtain ⟨-, rfl⟩ := Prod.mk.inj (Except.ok.inj before)
      refine shape_prefix 2 bin some_ (by simp only [parts, if_pos bin]) (.inr ⟨by decide, rfl⟩) (by decide)
        (fun c bit => ?_) suffixOk
      obtain ⟨hex, value, digit⟩ := binDigit_value c bit
      exact ⟨hex, value, fun _ => digit⟩
  · next notBin =>
    split at before
    · next hex =>
      by_cases dot : (digits isHexDigit 0 (text.drop 2)).2.head? = some '.'.toUInt8
      · simp only [dot, if_true] at before
        split_ifs at before
        all_goals simp at before
      simp only [dot, if_false, Nat.add_zero] at before
      by_cases none : (digits isHexDigit 0 (text.drop 2)).1 = 0
      · simp [none] at before
      by_cases power : (digits isHexDigit 0 (text.drop 2)).2.head?.any (isOneOf "pP") = true
      · simp only [none, power, if_true, if_false] at before
        split_ifs at before
        all_goals simp at before
      rw [if_neg none, if_neg power] at before
      obtain ⟨-, rfl⟩ := Prod.mk.inj (Except.ok.inj before)
      exact shape_prefix 16 hex none (by simp only [parts, if_neg notBin, if_pos hex]) (.inl ⟨by decide, rfl⟩) (by decide)
        (fun c digit => ⟨digit, hexDigit_value c digit, fun le => absurd le (by decide)⟩) suffixOk
    · next notHex =>
      by_cases dot : (digits isDigit 0 text).2.head? = some '.'.toUInt8
      · simp only [dot, if_true] at before
        split_ifs at before
        all_goals simp at before
      simp only [dot, if_false, decide_false, Bool.not_false, Bool.true_and] at before
      by_cases power : (digits isDigit 0 text).2.head?.any (isOneOf "eE") = true
      · simp only [power, if_true] at before
        split_ifs at before
        all_goals simp at before
      rw [if_neg power] at before
      split at before
      · cases before
      · next octalOk =>
        obtain ⟨-, rfl⟩ := Prod.mk.inj (Except.ok.inj before)
        exact shape_plain accepted.start (by simp only [parts, if_neg notBin, if_neg notHex]) (by simpa using octalOk) suffixOk

/-! ### The evaluator reads the spelling -/

/-- A spelling as the evaluator takes it: without separators, in lower case. -/
def lowerClean (s : List UInt8) : List UInt8 := (s.filter (· ≠ apostrophe)).map toLower

theorem lowerClean_append (a b : List UInt8) : lowerClean (a ++ b) = lowerClean a ++ lowerClean b := by
  simp [lowerClean]

/-- What has no separators in lower case has none. -/
theorem lowerClean_eq {s : List UInt8} (none : apostrophe ∉ s.map toLower) : lowerClean s = s.map toLower := by
  rw [lowerClean, List.filter_eq_self.mpr]
  intro c mem
  have other : c ≠ apostrophe := fun same => none (List.mem_map.mpr ⟨c, mem, (toLower_apostrophe c).mpr same⟩)
  simpa using other

/-- A byte that is not a letter of a suffix. -/
def ends (c : UInt8) : Prop := c ≠ 'u'.toUInt8 ∧ c ≠ 'l'.toUInt8 ∧ c ≠ 'z'.toUInt8

instance (c : UInt8) : Decidable (ends c) := inferInstanceAs (Decidable (_ ∧ _))

attribute [local simp] stripSuffix

theorem stripSuffix_stop {c : UInt8} (stop : ends c) (rest : List UInt8) (unsigned : Bool) (long : Nat) :
    stripSuffix (c :: rest) unsigned long = (c :: rest, unsigned, long) := by
  obtain ⟨u, l, z⟩ := stop
  cases rest <;> simp [stripSuffix, u, l, z]

/-- The count of `long` that the loop comes to. -/
def longCount (suffix : List UInt8) : Nat := if 'z'.toUInt8 ∈ suffix then 1 else suffix.count 'l'.toUInt8

theorem stripSuffix_suffix {suffix : List UInt8} (mem : suffix ∈ suffixes) {c : UInt8} (stop : ends c) (rest : List UInt8) :
    stripSuffix (suffix.reverse ++ c :: rest) false 0 =
      (c :: rest, decide ('u'.toUInt8 ∈ suffix ∨ 'z'.toUInt8 ∈ suffix), longCount suffix) := by
  have last (unsigned : Bool) (long : Nat) := stripSuffix_stop stop rest unsigned long
  have notL := stop.2.1
  have distinct : 'l'.toUInt8 ≠ 'u'.toUInt8 ∧ 'u'.toUInt8 ≠ 'l'.toUInt8 ∧ 'z'.toUInt8 ≠ 'u'.toUInt8 ∧
    'u'.toUInt8 ≠ 'z'.toUInt8 ∧ 'z'.toUInt8 ≠ 'l'.toUInt8 ∧ 'l'.toUInt8 ≠ 'z'.toUInt8 := by decide
  simp only [suffixes, List.map_cons, List.map_nil, List.mem_cons, List.not_mem_nil, or_false] at mem
  rcases mem with rfl | rfl | rfl | rfl | rfl | rfl | rfl | rfl | rfl | rfl | rfl <;>
    simp [bytes, stripSuffix, last, notL, longCount, distinct]

theorem suffixType_eq {suffix : List UInt8} (mem : suffix ∈ suffixes) (decimal : Bool) (v : Nat) :
    suffixType (decide ('u'.toUInt8 ∈ suffix ∨ 'z'.toUInt8 ∈ suffix)) (longCount suffix) =
      (⟨decimal, 'u'.toUInt8 ∈ suffix, suffixLength suffix, v⟩ : Literal).evaluated := by
  have table : ∀ suffix ∈ suffixes, suffixType (decide ('u'.toUInt8 ∈ suffix ∨ 'z'.toUInt8 ∈ suffix)) (longCount suffix) =
      (⟨false, 'u'.toUInt8 ∈ suffix, suffixLength suffix, 0⟩ : Literal).evaluated := by decide
  exact table suffix mem

theorem addDigit_digit {base : Nat} {c : UInt8} (digit : (digitValue c).any (· < base) = true) (n : Nat) :
    addDigit base n (toLower c) = some (n * base + (digitValue c).getD 0) := by
  unfold addDigit
  rw [digitValue_toLower]
  cases found : digitValue c with
  | none => simp [found] at digit
  | some d =>
    simp only [found, Option.any_some, decide_eq_true_eq] at digit
    simp [digit]

/-- Digits of the base are read one after the other. -/
theorem foldlM_digits {base : Nat} : ∀ {ds : List UInt8}, (∀ c ∈ ds, c = apostrophe ∨ (digitValue c).any (· < base) = true) →
    ∀ n, (lowerClean ds).foldlM (addDigit base) n =
      some ((ds.filter (· ≠ apostrophe)).foldl (fun n c => n * base + (digitValue c).getD 0) n)
  | [], _, n => rfl
  | c :: ds, digit, n => by
    have rest := @foldlM_digits base ds fun x mem => digit x (List.mem_cons_of_mem c mem)
    by_cases sep : c = apostrophe
    · simpa [lowerClean, sep] using rest n
    · have isDigit := (digit c List.mem_cons_self).resolve_left sep
      have more := rest (n * base + (digitValue c).getD 0)
      simpa [lowerClean, sep, addDigit_digit isDigit] using more

theorem lowerClean_digits {base : Nat} {ds : List UInt8}
    (digit : ∀ c ∈ ds, c = apostrophe ∨ isHexDigit c = true ∧ (digitValue c).any (· < base) = true ∧ (base ≤ 10 → isDigit c = true)) :
    ∀ c ∈ lowerClean ds, ends c ∧ (base ≤ 10 → isDigit c = true) := by
  intro c mem
  obtain ⟨d, kept, rfl⟩ := List.mem_map.mp mem
  obtain ⟨here, sep⟩ := List.mem_filter.mp kept
  obtain ⟨hex, -, decimal⟩ := (digit d here).resolve_left (by simpa using sep)
  obtain ⟨u, l, z, -⟩ := toLower_digit d hex
  refine ⟨⟨u, l, z⟩, fun le => ?_⟩
  rw [(isHexDigit_of_isDigit d (decimal le)).2.1]
  exact decimal le

/-- Decimal digits alone begin with no prefix. -/
theorem no_prefix {s : List UInt8} (digit : ∀ c ∈ s, isDigit c = true) : hasPrefix "0x" s = false ∧ hasPrefix "0b" s = false := by
  have letter (text : String) (c : UInt8) (mem : c ∈ bytes text) (no : isDigit c = false) : hasPrefix text s = false := by
    rw [Bool.eq_false_iff]
    intro starts
    have yes := digit c ((List.isPrefixOf_iff_prefix.mp starts).subset mem)
    rw [no] at yes
    cases yes
  exact ⟨letter "0x" 'x'.toUInt8 (by decide) (by decide), letter "0b" 'b'.toUInt8 (by decide) (by decide)⟩

theorem pre_ends {pre : List UInt8} {base : Nat} {ds : List UInt8}
    (pre_base : pre.map toLower = bytes "0x" ∧ base = 16 ∨ pre.map toLower = bytes "0b" ∧ base = 2 ∨
      pre = [] ∧ (base = 8 ∧ ds.head? = some '0'.toUInt8 ∨
        base = 10 ∧ ds.head?.any (fun c => isDigit c && c ≠ '0'.toUInt8) = true)) :
    lowerClean pre = pre.map toLower := by
  refine lowerClean_eq ?_
  rcases pre_base with ⟨eq, -⟩ | ⟨eq, -⟩ | ⟨rfl, -⟩
  · rw [eq]
    decide
  · rw [eq]
    decide
  · exact List.not_mem_nil

section
variable {text pre ds suffix : List UInt8} {base : Nat}

/-- The digits do not end in a letter of a suffix. -/
theorem Shape.digits_last (shape : Shape text pre base ds suffix) :
    ∃ c rest, (lowerClean ds).reverse = c :: rest ∧ ends c := by
  obtain ⟨init, last, rfl, notSep⟩ := shape.last
  have stop := (lowerClean_digits shape.digit (toLower last) (by simp [lowerClean, notSep])).1
  exact ⟨toLower last, (lowerClean init).reverse, by simp [lowerClean, notSep], stop⟩

/-- The base and the digits, as the evaluator finds them. -/
theorem Shape.setString_baseOf (shape : Shape text pre base ds suffix) :
    setString (baseOf (lowerClean pre ++ lowerClean ds)).2 (baseOf (lowerClean pre ++ lowerClean ds)).1 =
      some (value base ds) := by
  obtain ⟨c, rest, last, -⟩ := shape.digits_last
  have some_ : lowerClean ds ≠ [] := fun none => by simp [none] at last
  have read := foldlM_digits fun c mem => (shape.digit c mem).imp_right fun digit => digit.2.1
  have value_ (n : Nat) (s : List UInt8) (ne : s ≠ []) : setString s n = s.foldlM (addDigit n) 0 := if_neg ne
  rw [pre_ends shape.pre_base]
  have digits := lowerClean_digits shape.digit
  rcases shape.pre_base with ⟨eq, rfl⟩ | ⟨eq, rfl⟩ | ⟨rfl, plain⟩
  · rw [eq]
    exact (value_ 16 _ some_).trans (read 0)
  · rw [eq]
    exact (value_ 2 _ some_).trans (read 0)
  · rw [List.map_nil, List.nil_append]
    have le : base ≤ 10 := by omega
    have noPrefix := no_prefix fun c mem => (digits c mem).2 le
    rw [baseOf, noPrefix.1, noPrefix.2]
    simp only [Bool.false_eq_true, if_false]
    rcases plain with ⟨rfl, zero⟩ | ⟨rfl, notZero⟩
    · obtain ⟨more, rfl⟩ : ∃ more, ds = '0'.toUInt8 :: more := List.head?_eq_some_iff.mp zero
      have zeroFirst : lowerClean ('0'.toUInt8 :: more) = '0'.toUInt8 :: lowerClean more := rfl
      have valueMore : value 8 ('0'.toUInt8 :: more) = value 8 more := rfl
      rw [zeroFirst, valueMore]
      cases empty : lowerClean more with
      | nil =>
        have none : more.filter (· ≠ apostrophe) = [] := List.map_eq_nil_iff.mp empty
        rw [value, none]
        decide
      | cons d tail =>
        have readMore := foldlM_digits (fun c mem => (shape.digit c (List.mem_cons_of_mem _ mem)).imp_right fun digit => digit.2.1) 0
        rw [empty] at readMore
        exact (value_ 8 _ (List.cons_ne_nil d tail)).trans readMore
    · obtain ⟨first, more, rfl⟩ := List.exists_cons_of_ne_nil (show ds ≠ [] from fun none => some_ (by rw [none]; rfl))
      simp only [List.head?_cons, Option.any_some, Bool.and_eq_true, decide_eq_true_eq] at notZero
      have lower := (isHexDigit_of_isDigit first notZero.1).2.1
      have sep := hexDigit_ne first (digit_value first notZero.1).1
      have firstLower : lowerClean (first :: more) = first :: lowerClean more := by simp [lowerClean, sep, lower]
      have noZero : hasPrefix "0" (lowerClean (first :: more)) = false := by
        rw [firstLower, Bool.eq_false_iff]
        intro starts
        obtain ⟨rest, eq⟩ := List.isPrefixOf_iff_prefix.mp starts
        exact notZero.2 (List.head_eq_of_cons_eq eq).symm
      rw [noZero]
      exact (value_ 10 _ some_).trans (read 0)

/-- The suffix in lower case, if it is not a sized one. -/
theorem Shape.suffix_mem (shape : Shape text pre base ds suffix) (standard : standardSuffix text = true) :
    suffix.map toLower ∈ suffixes := by
  have ok := shape.suffix_ok
  rw [standardSuffix, shape.parts_eq] at standard
  simp only [isIntSuffix, Bool.or_eq_true, Bool.not_eq_true'] at ok standard
  exact intSuffix_mem (ok.resolve_left (by rw [standard]; decide))

theorem suffix_clean {suffix : List UInt8} (mem : suffix.map toLower ∈ suffixes) : lowerClean suffix = suffix.map toLower := by
  have none : ∀ s ∈ suffixes, apostrophe ∉ s := by decide
  exact lowerClean_eq (none _ mem)

theorem Shape.literal_eq (shape : Shape text pre base ds suffix) :
    literal text = ⟨base = 10, 'u'.toUInt8 ∈ suffix.map toLower, suffixLength (suffix.map toLower), value base ds⟩ := by
  rw [literal, shape.parts_eq]

/-- The evaluator gives a literal the type that its suffix names, and the value reduced to it. -/
theorem Shape.parse_standard (shape : Shape text pre base ds suffix) (m : Model) (standard : standardSuffix text = true) :
    parseIntegerLiteral m text = some ((literal text).evaluated,
      wrap (isSignedKind (literal text).evaluated) (bits m (literal text).evaluated) (literal text).value) := by
  have mem := shape.suffix_mem standard
  obtain ⟨c, rest, last, stop⟩ := shape.digits_last
  have clean : lowerClean text = lowerClean pre ++ (lowerClean ds ++ suffix.map toLower) := by
    rw [shape.text_eq, lowerClean_append, lowerClean_append, suffix_clean mem]
  have reversed : (lowerClean text).reverse = (suffix.map toLower).reverse ++ c :: (rest ++ (lowerClean pre).reverse) := by
    rw [clean, List.reverse_append, List.reverse_append, last]
    simp
  have stripped := stripSuffix_suffix mem stop (rest ++ (lowerClean pre).reverse)
  have back : (c :: (rest ++ (lowerClean pre).reverse)).reverse = lowerClean pre ++ lowerClean ds := by
    rw [← List.cons_append, ← last, List.reverse_append, List.reverse_reverse, List.reverse_reverse]
  have typ := suffixType_eq mem (decide (base = 10)) (value base ds)
  rw [← shape.literal_eq] at typ
  have value_ : (literal text).value = value base ds := by rw [shape.literal_eq]
  change parseStripped m (stripSuffix (lowerClean text).reverse false 0) = _
  rw [reversed, stripped, parseStripped]
  simp only
  rw [back, shape.setString_baseOf, Option.map_some, typ, value_]

/-- The letter that a sized suffix has is no digit in any base. -/
theorem setString_letter {s : List UInt8} {base : Nat} (mem : 'i'.toUInt8 ∈ s) (le : base ≤ 16) : setString s base = none := by
  have refused (n : Nat) : addDigit base n 'i'.toUInt8 = none := by
    have value : digitValue 'i'.toUInt8 = some 18 := by decide
    simp only [addDigit, value]
    exact if_neg (by omega)
  have stops : ∀ {s : List UInt8}, 'i'.toUInt8 ∈ s → ∀ n, s.foldlM (addDigit base) n = none := by
    intro s mem
    induction s with
    | nil => cases mem
    | cons c s ih =>
      intro n
      rw [List.foldlM_cons]
      rcases List.mem_cons.mp mem with rfl | mem
      · rw [refused]
        rfl
      · cases addDigit base n c with
        | none => rfl
        | some n => exact ih mem n
  rw [setString, if_neg (List.ne_nil_of_mem mem), stops mem]

theorem baseOf_letter {s : List UInt8} (mem : 'i'.toUInt8 ∈ s) : 'i'.toUInt8 ∈ (baseOf s).2 ∧ (baseOf s).1 ≤ 16 := by
  have behind {text : String} (starts : hasPrefix text s = true) (no : 'i'.toUInt8 ∉ bytes text) :
      'i'.toUInt8 ∈ s.drop (bytes text).length := by
    obtain ⟨rest, rfl⟩ := List.isPrefixOf_iff_prefix.mp starts
    rw [List.drop_left]
    exact (List.mem_append.mp mem).resolve_left no
  unfold baseOf
  split
  · next hex => exact ⟨behind hex (by decide), Nat.le_refl 16⟩
  · split
    · next bin => exact ⟨behind bin (by decide), show 2 ≤ 16 by decide⟩
    · split
      · next zero =>
        simp only [Bool.and_eq_true] at zero
        exact ⟨behind zero.1 (by decide), show 8 ≤ 16 by decide⟩
      · exact ⟨mem, show 10 ≤ 16 by decide⟩

/-- A sized suffix is an `i` and a number, perhaps behind a `u`. -/
theorem sized_cases {suffix : List UInt8} (sized : msvcSizedSuffix suffix = true) :
    ∃ sign ∈ ["", "u", "U"].map bytes, ∃ letter ∈ ["i", "I"].map bytes, ∃ size ∈ ["8", "16", "32", "64"].map bytes,
      suffix = sign ++ (letter ++ size) := by
  have unsigned {t : List UInt8} (head : (t.head? = some 'i'.toUInt8 ∨ t.head? = some 'I'.toUInt8) ∧
      ["8", "16", "32", "64"].any (bytes · = t.tail) = true) :
      ∃ letter ∈ ["i", "I"].map bytes, ∃ size ∈ ["8", "16", "32", "64"].map bytes, t = letter ++ size := by
    obtain ⟨letter, size⟩ := head
    obtain ⟨n, mem, tail⟩ := List.any_eq_true.mp size
    have tail : bytes n = t.tail := of_decide_eq_true tail
    have sizeMem : t.tail ∈ ["8", "16", "32", "64"].map bytes := List.mem_map.mpr ⟨n, mem, tail⟩
    rcases letter with i | i
    · exact ⟨bytes "i", by decide, t.tail, sizeMem, (List.cons_head?_tail i).symm⟩
    · exact ⟨bytes "I", by decide, t.tail, sizeMem, (List.cons_head?_tail i).symm⟩
  unfold msvcSizedSuffix at sized
  simp only [Bool.and_eq_true, decide_eq_true_eq] at sized
  split at sized
  · next sign =>
    obtain ⟨letter, letterMem, size, sizeMem, eq⟩ := unsigned sized
    rcases sign with u | u
    · exact ⟨bytes "u", by decide, letter, letterMem, size, sizeMem, by rw [← eq]; exact (List.cons_head?_tail u).symm⟩
    · exact ⟨bytes "U", by decide, letter, letterMem, size, sizeMem, by rw [← eq]; exact (List.cons_head?_tail u).symm⟩
  · exact ⟨bytes "", by decide, unsigned sized⟩

theorem sized_ends {suffix : List UInt8} (sized : msvcSizedSuffix suffix = true) :
    'i'.toUInt8 ∈ lowerClean suffix ∧ ∃ c rest, (lowerClean suffix).reverse = c :: rest ∧ ends c := by
  obtain ⟨sign, signMem, letter, letterMem, size, sizeMem, rfl⟩ := sized_cases sized
  have table : ∀ sign ∈ ["", "u", "U"].map bytes, ∀ letter ∈ ["i", "I"].map bytes,
      ∀ size ∈ ["8", "16", "32", "64"].map bytes, 'i'.toUInt8 ∈ lowerClean (sign ++ (letter ++ size)) ∧
        (lowerClean (sign ++ (letter ++ size))).reverse.head?.any (fun c => ends c) = true := by decide
  obtain ⟨mem, last⟩ := table sign signMem letter letterMem size sizeMem
  obtain ⟨c, head, stop⟩ := (Option.any_eq_true ..).mp last
  obtain ⟨rest, eq⟩ := List.head?_eq_some_iff.mp head
  exact ⟨mem, c, rest, eq, of_decide_eq_true stop⟩

theorem Shape.parse_sized (shape : Shape text pre base ds suffix) (m : Model) (sized : standardSuffix text = false) :
    parseIntegerLiteral m text = none := by
  rw [standardSuffix, shape.parts_eq, Bool.not_eq_false'] at sized
  obtain ⟨letter, c, rest, last, stop⟩ := sized_ends sized
  have clean : lowerClean text = lowerClean pre ++ (lowerClean ds ++ lowerClean suffix) := by
    rw [shape.text_eq, lowerClean_append, lowerClean_append]
  have stripped := stripSuffix_stop stop (rest ++ (lowerClean pre ++ lowerClean ds).reverse) false 0
  have reversed : (lowerClean text).reverse = c :: (rest ++ (lowerClean pre ++ lowerClean ds).reverse) := by
    rw [clean, ← List.append_assoc, List.reverse_append, last, List.cons_append]
  have mem : 'i'.toUInt8 ∈ lowerClean text := by
    rw [clean]
    simp [letter]
  change parseStripped m (stripSuffix (lowerClean text).reverse false 0) = _
  rw [reversed, stripped, parseStripped]
  simp only
  rw [← reversed, List.reverse_reverse, setString_letter (baseOf_letter mem).1 (baseOf_letter mem).2, Option.map_none]

/-! ### The analyzer reads the spelling -/

/-- What stands behind the last byte of a set. -/
theorem takeWhile_last {p : UInt8 → Bool} {suffix : List UInt8} (none : ∀ c ∈ suffix, p c = false) {last : UInt8}
    (stop : p last = true) (init : List UInt8) :
    ((init ++ [last] ++ suffix).reverse.takeWhile fun c => !p c).reverse = suffix := by
  have all : ∀ c ∈ suffix.reverse, (!p c) = true := fun c mem => by simp [none c (List.mem_reverse.mp mem)]
  rw [List.reverse_append, List.takeWhile_append_of_pos all]
  simp [stop]

theorem suffixOf_digits {chars : String} {suffix : List UInt8} (none : ∀ c ∈ suffix, isOneOf chars c = false) {last : UInt8}
    (stop : isOneOf chars last = true) (init : List UInt8) :
    (if (init ++ [last] ++ suffix).any (isOneOf chars) then
      ((init ++ [last] ++ suffix).reverse.takeWhile fun c => !isOneOf chars c).reverse else []) = suffix := by
  rw [if_pos (by simp [stop]), takeWhile_last none stop]

/-- No letter of a prefix is among digits and a suffix. -/
theorem Shape.plain_prefix (shape : Shape text pre base ds suffix) (mem : suffix.map toLower ∈ suffixes) (le : base = 8 ∨ base = 10) :
    hasPrefix "0x" (ds.map toLower ++ suffix.map toLower) = false ∧
      hasPrefix "0b" (ds.map toLower ++ suffix.map toLower) = false := by
  have letter (text : String) (x : UInt8) (inText : x ∈ bytes text) (no : isDigit x = false) (sep : x ≠ toLower apostrophe)
      (table : ∀ s ∈ suffixes, x ∉ s) : hasPrefix text (ds.map toLower ++ suffix.map toLower) = false := by
    rw [Bool.eq_false_iff]
    intro starts
    rcases List.mem_append.mp ((List.isPrefixOf_iff_prefix.mp starts).subset inText) with inDigits | inSuffix
    · obtain ⟨c, here, rfl⟩ := List.mem_map.mp inDigits
      rcases shape.digit c here with rfl | ⟨-, -, decimal⟩
      · exact sep rfl
      · rw [(isHexDigit_of_isDigit c (decimal (by omega))).2.1, decimal (by omega)] at no
        cases no
    · exact table _ mem inSuffix
  exact ⟨letter "0x" 'x'.toUInt8 (by decide) (by decide) (by decide) (by decide),
    letter "0b" 'b'.toUInt8 (by decide) (by decide) (by decide) (by decide)⟩

/-- The suffix is what stands behind the digits. -/
theorem Shape.suffixOf_eq (shape : Shape text pre base ds suffix) (standard : standardSuffix text = true) :
    suffixOf (text.map toLower) = suffix.map toLower := by
  have mem := shape.suffix_mem standard
  obtain ⟨init, last, rfl, notSep⟩ := shape.last
  obtain ⟨hex, value, decimal⟩ := (shape.digit last (by simp)).resolve_left notSep
  have lower : text.map toLower = pre.map toLower ++ (init.map toLower ++ [toLower last] ++ suffix.map toLower) := by
    rw [shape.text_eq]
    simp
  have each : ∀ s ∈ suffixes, s.all (fun c => decide (isOneOf "0123456789abcdef'" c = false ∧ isOneOf "01'" c = false ∧
      isOneOf "0123456789'" c = false)) = true := by decide
  have none : ∀ s ∈ suffixes, ∀ c ∈ s, isOneOf "0123456789abcdef'" c = false ∧ isOneOf "01'" c = false ∧
      isOneOf "0123456789'" c = false := fun s mem => all_mem (each s mem)
  have inHex := (toLower_digit last hex).2.2.2.1
  unfold suffixOf
  rw [lower]
  rcases shape.pre_base with ⟨eq, rfl⟩ | ⟨eq, rfl⟩ | ⟨rfl, plain⟩
  · rw [eq]
    exact suffixOf_digits (fun c here => (none _ mem c here).1) inHex _
  · rw [eq]
    have bit : ∀ c : UInt8, isDigit c = true → (digitValue c).any (· < 2) = true → isOneOf "01'" (toLower c) = true :=
      all_bytes (by decide +kernel)
    exact suffixOf_digits (fun c here => (none _ mem c here).2.1) (bit last (decimal (by decide)) value) _
  · have base_ : base = 8 ∨ base = 10 := plain.imp And.left And.left
    have noPrefix := shape.plain_prefix mem base_
    have isDigit_ := isHexDigit_of_isDigit last (decimal (by omega))
    rw [List.map_append, List.map_singleton] at noPrefix
    rw [List.map_nil, List.nil_append, noPrefix.1, noPrefix.2]
    exact suffixOf_digits (fun c here => (none _ mem c here).2.2) (by rw [isDigit_.2.1]; exact isDigit_.2.2) _

theorem suffix_flags {suffix : List UInt8} (mem : suffix ∈ suffixes) :
    contains "ll" suffix = decide (suffixLength suffix = .ll) ∧
      (!contains "ll" suffix && 'l'.toUInt8 ∈ suffix) = decide (suffixLength suffix = .l) := by
  have table : ∀ suffix ∈ suffixes, contains "ll" suffix = decide (suffixLength suffix = .ll) ∧
      (!contains "ll" suffix && 'l'.toUInt8 ∈ suffix) = decide (suffixLength suffix = .l) := by decide
  exact table suffix mem

theorem integerLiteralType_suffix {text suffix : List UInt8} (mem : suffix ∈ suffixes)
    (found : suffixOf (text.map toLower) = suffix) (val : Int) (v : Nat) :
    integerLiteralType text val = IntExpr.integerLiteralType
      ⟨!hasPrefix "0x" (text.map toLower) && !hasPrefix "0b" (text.map toLower) &&
        !(1 < (text.map toLower).length && (text.map toLower).head? = some '0'.toUInt8),
        'u'.toUInt8 ∈ suffix, suffixLength suffix, v⟩ val := by
  obtain ⟨longLong, long⟩ := suffix_flags mem
  unfold integerLiteralType IntExpr.integerLiteralType
  simp only [found]
  rw [long, longLong]
  by_cases unsigned : 'u'.toUInt8 ∈ suffix <;> cases suffixLength suffix <;> simp [unsigned]

/-- The analyzer takes a spelling for decimal where it is, or is a single zero. -/
theorem Shape.decimal_eq (shape : Shape text pre base ds suffix) (standard : standardSuffix text = true) :
    (!hasPrefix "0x" (text.map toLower) && !hasPrefix "0b" (text.map toLower) &&
      !(1 < (text.map toLower).length && (text.map toLower).head? = some '0'.toUInt8)) = decide (base = 10) ∨
    value base ds = 0 := by
  have mem := shape.suffix_mem standard
  have lower : text.map toLower = pre.map toLower ++ (ds.map toLower ++ suffix.map toLower) := by
    rw [shape.text_eq]
    simp
  rcases shape.pre_base with ⟨eq, rfl⟩ | ⟨eq, rfl⟩ | ⟨rfl, plain⟩
  · rw [lower, eq]
    exact .inl rfl
  · rw [lower, eq]
    exact .inl rfl
  · have noPrefix := shape.plain_prefix mem (plain.imp And.left And.left)
    rw [lower, List.map_nil, List.nil_append, noPrefix.1, noPrefix.2]
    rcases plain with ⟨rfl, zero⟩ | ⟨rfl, notZero⟩
    · obtain ⟨more, rfl⟩ : ∃ more, ds = '0'.toUInt8 :: more := List.head?_eq_some_iff.mp zero
      cases more with
      | nil => exact .inr (by decide)
      | cons d more =>
        have zeroLower : toLower '0'.toUInt8 = '0'.toUInt8 := by decide
        exact .inl (by simp [zeroLower])
    · obtain ⟨first, head, digit⟩ := (Option.any_eq_true ..).mp notZero
      obtain ⟨more, rfl⟩ := List.head?_eq_some_iff.mp head
      simp only [Bool.and_eq_true, decide_eq_true_eq] at digit
      have firstLower := (isHexDigit_of_isDigit first digit.1).2.1
      exact .inl (by simp [firstLower, digit.2])

theorem wrap_zero (signed : Bool) (w : Nat) : wrap signed w 0 = 0 := by
  have pos : ¬((2 : Int) ^ (w - 1) ≤ 0) := not_le.mpr (two_pow_pos' _)
  simp [wrap, pos]

/-- Sign and base do not count for small values. -/
theorem integerLiteralType_zero (d d' u : Bool) (len : Length) (v : Nat) :
    IntExpr.integerLiteralType ⟨d, u, len, v⟩ 0 = IntExpr.integerLiteralType ⟨d', u, len, v⟩ 0 := by
  cases u <;> cases len <;> simp [IntExpr.integerLiteralType]

/-- The analyzer records what it makes of the literal that the spelling is. -/
theorem Shape.checkBasicLit_eq (shape : Shape text pre base ds suffix) (m : Model) (standard : standardSuffix text = true) :
    checkBasicLit m text =
      (IntExpr.integerLiteralType (literal text) ((literal text).constVal m), (literal text).constVal m) := by
  have val : ((parseIntegerLiteral m text).map fun v => wrap true 64 v.2).getD 0 = (literal text).constVal m := by
    rw [shape.parse_standard m standard]
    rfl
  have found := integerLiteralType_suffix (shape.suffix_mem standard) (shape.suffixOf_eq standard)
    ((literal text).constVal m) (value base ds)
  unfold checkBasicLit
  rw [val]
  dsimp only
  rw [found]
  congr 1
  rcases shape.decimal_eq standard with decimal | zero
  · rw [decimal, shape.literal_eq]
  · have noValue : (literal text).constVal m = 0 := by
      rw [IntExpr.Literal.constVal, shape.literal_eq]
      simp only [zero, Nat.cast_zero, wrap_zero]
    rw [noValue, shape.literal_eq]
    exact integerLiteralType_zero ..

end

/-! ### Where the type is right -/

/-- The type and the constant recorded are those of the evaluator and of [lex.icon]: one type for both, the first
that has the value, and the constant is the value in it. -/
structure Recorded (m : Model) (text : List UInt8) : Prop where
  evaluated : (parseIntegerLiteral m text).map (·.1) = some (checkBasicLit m text).1
  standard : standardSuffix text = true ∧ (literal text).cxxType m = some (checkBasicLit m text).1
  constant : Constexpr.convert m (checkBasicLit m text).1 (checkBasicLit m text).2 = (literal text).value

/-- A literal whose value its suffix names the type of. -/
def named (l : Literal) : Bool :=
  match l.unsigned, l.length with
  | false, .plain | false, .l => l.value < 2 ^ 31
  | true, .plain | true, .l => l.value < 2 ^ 32
  | false, .ll => l.value < 2 ^ 63
  | true, .ll => l.value < 2 ^ 64
  | _, .z => false

variable {m : Model}

theorem evaluated_first (l : Literal) (length : l.length ≠ .z) : ∃ rest, l.candidates m = l.evaluated :: rest := by
  obtain ⟨d, u, len, v⟩ := l
  cases u <;> cases len <;> cases d <;> first | exact ⟨_, rfl⟩ | exact absurd rfl length

theorem signed_evaluated (l : Literal) : Constexpr.signed m l.evaluated = isSignedKind l.evaluated := by
  obtain ⟨d, u, len, v⟩ := l
  cases u <;> cases len <;> rfl

theorem named_length {l : Literal} (isNamed : named l = true) : l.length ≠ .z := by
  intro z
  obtain ⟨d, u, len, v⟩ := l
  obtain rfl : len = .z := z
  cases u <;> cases isNamed

theorem named_typed {l : Literal} (length : l.length ≠ .z) : named l = l.typed m := by
  obtain ⟨d, u, len, v⟩ := l
  cases u <;> cases len <;> first | rfl | exact absurd rfl length

theorem evaluated_width (sizes : m.Sizes) (l : Literal) : 0 < bits m l.evaluated ∧ bits m l.evaluated ≤ 64 := by
  have long := sizes.long
  rw [IntExpr.bits_evaluated sizes]
  cases l.length <;> simp <;> omega

/-- The suffix names a type that has the value. -/
theorem named_le (sizes : m.Sizes) {l : Literal} (isNamed : named l = true) : (l.value : Int) ≤ highest m l.evaluated := by
  obtain ⟨d, u, len, v⟩ := l
  cases u <;> cases len <;> simp only [named, decide_eq_true_eq, Bool.false_eq_true] at isNamed
  case false.plain =>
    exact (IntExpr.highest_int sizes).symm ▸ (show (v : Int) ≤ 2147483647 by omega)
  case true.plain =>
    exact (IntExpr.highest_uInt sizes).symm ▸ (show (v : Int) ≤ 4294967295 by omega)
  case false.ll =>
    exact (IntExpr.highest_longLong sizes).symm ▸ (show (v : Int) ≤ 9223372036854775807 by omega)
  case true.ll =>
    exact (IntExpr.highest_uLongLong sizes).symm ▸ (show (v : Int) ≤ 18446744073709551615 by omega)
  case false.l =>
    show (v : Int) ≤ highest m .long
    rw [IntExpr.highest_long]
    rcases sizes.long with long | long
    · rw [long]
      omega
    · rw [long]
      omega
  case true.l =>
    show (v : Int) ≤ highest m .uLong
    rw [IntExpr.highest_uLong]
    rcases sizes.long with long | long
    · rw [long]
      omega
    · rw [long]
      omega

/-- The range of the suffix's type, of a value. -/
theorem evaluated_inRange (l : Literal) :
    InRange (isSignedKind l.evaluated) (bits m l.evaluated) l.value ↔ (l.value : Int) ≤ highest m l.evaluated := by
  have notBool : l.evaluated ≠ .bool := by
    obtain ⟨d, u, len, v⟩ := l
    cases u <;> cases len <;> exact Kind.noConfusion
  have power := two_pow_pos' (bits m l.evaluated - 1)
  rw [highest, if_neg notBool, signed_evaluated]
  unfold InRange
  cases isSignedKind l.evaluated
  · simp only [Bool.false_eq_true, if_false]
    omega
  · simp only [if_true]
    omega

/-- The constant in the type of the suffix is the value that the type has. -/
theorem constVal_value (sizes : m.Sizes) {l : Literal} (le : (l.value : Int) ≤ highest m l.evaluated) :
    Constexpr.convert m l.evaluated (l.constVal m) = l.value := by
  obtain ⟨pos, width⟩ := evaluated_width sizes l
  have inRange := (evaluated_inRange l).mpr le
  have low : wrap true 64 l.value % 2 ^ bits m l.evaluated = (l.value : Int) % 2 ^ bits m l.evaluated := by
    have divides : (2 : Int) ^ bits m l.evaluated ∣ 2 ^ 64 := pow_dvd_pow 2 width
    rw [← Int.emod_emod_of_dvd _ divides, wrap_emod, Int.emod_emod_of_dvd _ divides]
  unfold Constexpr.convert Literal.constVal
  rw [signed_evaluated, wrap_of_inRange pos inRange, wrap_congr low, wrap_of_inRange pos inRange]

/-- The type recorded is that of the suffix and of [lex.icon], and the constant the value, where the suffix names
the type of the value. -/
theorem named_iff (sizes : m.Sizes) (l : Literal) :
    (IntExpr.integerLiteralType l (l.constVal m) = l.evaluated ∧ l.cxxType m = some (IntExpr.integerLiteralType l (l.constVal m)) ∧
      Constexpr.convert m (IntExpr.integerLiteralType l (l.constVal m)) (l.constVal m) = l.value) ↔ named l = true := by
  constructor
  · rintro ⟨evaluated, type, -⟩
    have some_ : (l.cxxType m).isSome = true := by rw [type]; rfl
    have typed := (IntExpr.literalType_eq_iff sizes some_).mp (by rw [type, Option.getD_some])
    by_cases z : l.length = .z
    · -- the recorded type never is an `unsigned long`
      exfalso
      obtain ⟨d, u, len, v⟩ := l
      obtain rfl : len = .z := z
      have unsignedLong : Literal.evaluated ⟨d, u, .z, v⟩ = .uLong := by cases u <;> rfl
      rw [unsignedLong] at evaluated
      revert evaluated
      simp only [IntExpr.integerLiteralType]
      split_ifs <;> simp
    · rw [named_typed z]
      exact typed
  · intro isNamed
    have length := named_length isNamed
    have le := named_le sizes isNamed
    obtain ⟨rest, first⟩ := evaluated_first (m := m) l length
    have type : l.cxxType m = some l.evaluated := by simp [Literal.cxxType, first, le]
    have recorded := (IntExpr.literalType_eq_iff sizes (by rw [type]; rfl)).mpr (named_typed length ▸ isNamed)
    rw [type, Option.getD_some] at recorded
    rw [recorded]
    exact ⟨rfl, type, constVal_value sizes le⟩

/-- **The analyzer records the type that the evaluator and C++ give a literal, and its value, if and only if** the
suffix is not a sized one, has no `z`, and names a type of the value, where `long` counts as `int`. -/
theorem recorded_iff (sizes : m.Sizes) {text : List UInt8} (accepted : Accepted text) :
    Recorded m text ↔ standardSuffix text = true ∧ named (literal text) = true := by
  obtain ⟨pre, base, ds, suffix, shape⟩ := shape_of_accepted accepted
  cases standard : standardSuffix text with
  | false =>
    refine ⟨fun recorded => ?_, fun ⟨no, _⟩ => by cases no⟩
    have malformed := shape.parse_sized m standard
    have evaluated := recorded.evaluated
    rw [malformed] at evaluated
    cases evaluated
  | true =>
    have checked := shape.checkBasicLit_eq m standard
    have parsed := shape.parse_standard m standard
    rw [← named_iff sizes]
    constructor
    · rintro ⟨evaluated, ⟨-, type⟩, constant⟩
      rw [checked] at evaluated type constant
      rw [parsed, Option.map_some] at evaluated
      exact ⟨rfl, (Option.some.inj evaluated).symm, type, constant⟩
    · rintro ⟨-, evaluated, type, constant⟩
      refine ⟨?_, ⟨standard, ?_⟩, ?_⟩
      · rw [checked, parsed, Option.map_some, evaluated]
      · rw [checked, type]
      · rw [checked]
        exact constant

/-- `3000000000` is recorded as an `int` of another value. -/
theorem decimal_unrecorded : ¬Recorded lp64 (bytes "3000000000") := by
  intro recorded
  have type := recorded.standard.2
  revert type
  decide

/-- `0b1'01uLL` -/
theorem binary_recorded : Recorded lp64 (bytes "0b1'01uLL") :=
  (recorded_iff (by constructor <;> decide) ⟨by decide, by decide⟩).mpr ⟨by decide, by decide⟩

end Vcx.IntLiteral
