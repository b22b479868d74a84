import Vcx.Preprocessor.ConstantsSound

/-!
# Integer literals in constant expressions

`parseIntegerLiteral` gives a literal the type that its suffix names, whatever its value and its base. It is the type
of [lex.icon] where that comes first in the list and has the value.
-/

namespace Vcx.IntLiteral
set_option autoImplicit false
open Vcx.Lib Vcx.Types
open Vcx.Constexpr (bits isSignedKind highest)
open Vcx.IntExpr (Literal Length sizeKind ssizeKind)
open Vcx.Preprocessor (Token bytes intConst Word)
open Vcx.Controlling (readAs_standard number_word)

variable {m : Model}

/-- A literal is its value in the first type of its list that has it, and `#if` reads the same number. -/
structure Evaluates (m : Model) (t : Token) : Prop where
  value : ∃ k, parseIntegerLiteral m (bytes t.text) = some (k, ((literal (bytes t.text)).value : Int)) ∧
    (literal (bytes t.text)).cxxType m = some k
  step : ∀ e, (intConst t e).1.number = (literal (bytes t.text)).value

/-- The type that the suffix names is the first that has the value: without a `z` it is the first of the list; with
one it is `unsigned long`, which may be the second. -/
def suits (m : Model) (l : Literal) : Bool :=
  match l.length with
  | .z => sizeKind m = .uLong && (l.value : Int) ≤ highest m .uLong &&
      (l.unsigned || !l.decimal && highest m .long < l.value)
  | _ => (l.value : Int) ≤ highest m l.evaluated

/-- A value reduced to the suffix's type is itself, where the type has it. -/
theorem wrap_eq_iff (l : Literal) (width : 0 < bits m l.evaluated) :
    wrap (isSignedKind l.evaluated) (bits m l.evaluated) l.value = l.value ↔ (l.value : Int) ≤ highest m l.evaluated :=
  ⟨fun same => (evaluated_inRange l).mp (same ▸ wrap_inRange _ width _), fun le => wrap_of_inRange width ((evaluated_inRange l).mpr le)⟩

/-- `size_t` and its signed type are `unsigned long` and `long`, or neither is `unsigned long`. -/
theorem size_kinds (m : Model) :
    sizeKind m = .uLong ∧ ssizeKind m = .long ∨ sizeKind m ≠ .uLong ∧ ssizeKind m ≠ .uLong := by
  unfold sizeKind ssizeKind
  split_ifs <;> simp

theorem cxxType_z (d u : Bool) (v : Nat) :
    Literal.cxxType m ⟨d, u, .z, v⟩ = some .uLong ↔
      sizeKind m = .uLong ∧ (v : Int) ≤ highest m .uLong ∧ (u = true ∨ d = false ∧ highest m .long < v) := by
  rw [Literal.cxxType]
  rcases size_kinds m with ⟨size, ssize⟩ | ⟨size, ssize⟩
  · by_cases signed : (v : Int) ≤ highest m .long
    · by_cases unsigned : (v : Int) ≤ highest m .uLong <;> cases u <;> cases d <;>
        simp [Literal.candidates, List.find?, size, ssize, signed, unsigned, not_lt.mpr signed]
    · by_cases unsigned : (v : Int) ≤ highest m .uLong <;> cases u <;> cases d <;>
        simp [Literal.candidates, List.find?, size, ssize, signed, unsigned, not_le.mp signed]
  · refine iff_of_false (fun found => ?_) fun both => size both.1
    have mem := List.mem_of_find?_eq_some found
    cases u <;> cases d <;>
      simp only [Literal.candidates, List.mem_cons, List.not_mem_nil, or_false] at mem
    · exact mem.elim (fun eq => ssize eq.symm) fun eq => size eq.symm
    · exact ssize mem.symm
    · exact size mem.symm
    · exact size mem.symm

theorem cxxType_le {l : Literal} {k : Kind} (type : l.cxxType m = some k) : (l.value : Int) ≤ highest m k :=
  of_decide_eq_true (List.find?_some (p := fun k => decide ((l.value : Int) ≤ highest m k)) type)

/-- The type that the suffix names comes first among those that have the value. -/
theorem cxxType_evaluated (l : Literal) : l.cxxType m = some l.evaluated ↔ suits m l = true := by
  by_cases z : l.length = .z
  · obtain ⟨d, u, len, v⟩ := l
    obtain rfl : len = .z := z
    have evaluated : Literal.evaluated ⟨d, u, .z, v⟩ = .uLong := by cases u <;> rfl
    rw [evaluated, cxxType_z]
    simp [suits, and_assoc]
  · obtain ⟨rest, first⟩ := evaluated_first (m := m) l z
    have suits_iff : suits m l = true ↔ (l.value : Int) ≤ highest m l.evaluated := by
      obtain ⟨d, u, len, v⟩ := l
      cases len <;> first | exact absurd rfl z | exact decide_eq_true_iff
    rw [suits_iff]
    constructor
    · exact cxxType_le
    · intro le
      simp [Literal.cxxType, first, le]

/-- **Which literals are evaluated as they are.** Those without a sized suffix whose suffix names the first type that
has the value. -/
theorem evaluates_iff (sizes : m.Sizes) {t : Token} (spelled : Accepted (bytes t.text))
    (small : (literal (bytes t.text)).value < 2 ^ 64) :
    Evaluates m t ↔ standardSuffix (bytes t.text) = true ∧ suits m (literal (bytes t.text)) = true := by
  obtain ⟨pre, base, ds, suffix, shape⟩ := shape_of_accepted spelled
  cases standard : standardSuffix (bytes t.text) with
  | false =>
    refine iff_of_false (fun evaluates => ?_) fun both => Bool.false_ne_true both.1
    obtain ⟨k, parsed, -⟩ := evaluates.value
    rw [shape.parse_sized m standard] at parsed
    cases parsed
  | true =>
    have parsed := shape.parse_standard m standard
    have width := (evaluated_width sizes (literal (bytes t.text))).1
    rw [← cxxType_evaluated]
    constructor
    · rintro ⟨⟨k, has, type⟩, -⟩
      rw [parsed] at has
      obtain ⟨rfl, -⟩ := Prod.mk.inj (Option.some.inj has)
      exact ⟨rfl, type⟩
    · rintro ⟨-, type⟩
      have le := cxxType_le type
      obtain ⟨unsigned, flag, read⟩ := readAs_standard shape standard
      exact ⟨⟨_, by rw [parsed, (wrap_eq_iff _ width).mpr le], type⟩, fun e => by rw [read.intConst_eq, number_word small]⟩

/-- `0xFFFF'FFFF'FFFF'FFFFz` is a `size_t`. -/
theorem hexSize_evaluates : Evaluates lp64 (.mint .intLit "0xFFFF'FFFF'FFFF'FFFFz") :=
  (evaluates_iff (by constructor <;> decide) ⟨by decide, by decide⟩ (by decide)).mpr ⟨by decide, by decide⟩

/-- `3000000000` is an `int` of another value. -/
theorem decimal_unevaluated : ¬∀ (m : Model) (t : Token), m.Sizes → Accepted (bytes t.text) →
    (literal (bytes t.text)).value < 2 ^ 64 → Evaluates m t := by
  intro all
  obtain ⟨k, parsed, -⟩ := (all lp64 (.mint .intLit "3000000000") (by constructor <;> decide) ⟨by decide, by decide⟩
    (by decide)).value
  have value : (parseIntegerLiteral lp64 (bytes "3000000000")).map Prod.snd ≠ some ((literal (bytes "3000000000")).value : Int) := by
    decide
  exact value (congrArg (Option.map Prod.snd) parsed)

end Vcx.IntLiteral
