import Vcx.Preprocessor.Stringize
import Vcx.Scanner.Spans
import Mathlib.Data.List.TakeWhile

/-!
# What `#` spells is one string literal

Exactly when the scanner reads the result of `Stringize` as one string literal and `destringize` gives the
argument's spelling back.
-/

namespace Vcx.Stringize
set_option autoImplicit false
open Vcx.Lib
open Vcx.Token (Kind File Std Diagnostic bytes)
open Vcx.Scanner

/-! ### What a token takes of the text -/

/-- `rest` is left of a text after bytes that are plain. -/
def Passes (s rest : List UInt8) : Prop := ∃ front, s = front ++ rest ∧ Plain front

theorem Passes.refl (s : List UInt8) : Passes s s := ⟨[], rfl, .nil⟩

theorem Passes.trans {s t u : List UInt8} (first : Passes s t) (second : Passes t u) : Passes s u := by
  obtain ⟨a, rfl, plain⟩ := first
  obtain ⟨b, rfl, plain'⟩ := second
  exact ⟨a ++ b, (List.append_assoc ..).symm, plain.append plain'⟩

theorem Passes.one {c : UInt8} (inert : Inert c) (s : List UInt8) : Passes (c :: s) s := ⟨[c], rfl, .byte inert .nil⟩

theorem inert_of {p : UInt8 → Bool} {c : UInt8} (here : p c = true) (quote : p Scanner.quote = false)
    (backslash : p Scanner.backslash = false) (lf : p '\n'.toUInt8 = false) (cr : p '\r'.toUInt8 = false) : Inert c := by
  have other {d : UInt8} (not : p d = false) : c ≠ d := by
    rintro rfl
    rw [here] at not
    cases not
  refine ⟨other quote, other backslash, ?_⟩
  simp [isNewline, other lf, other cr]

theorem inert_identPart {c : UInt8} (here : isIdentPart c = true) : Inert c := inert_of here rfl rfl rfl rfl

theorem inert_hex {c : UInt8} (here : isHexDigit c = true) : Inert c := inert_of here rfl rfl rfl rfl

theorem inert_high {c : UInt8} (here : 0x80 ≤ c) : Inert c :=
  inert_of (p := fun c => decide (0x80 ≤ c)) (decide_eq_true here) rfl rfl rfl rfl

/-- The bytes of a universal character name. -/
theorem scanUCN_passes {s : List UInt8} (here : atUCN s = true) : Passes s (scanUCN s).1 := by
  obtain ⟨c, rest, rfl, is⟩ : ∃ c rest, s = Scanner.backslash :: c :: rest ∧ (c = 'u'.toUInt8 ∨ c = 'U'.toUInt8) := by
    simp only [atUCN, Bool.and_eq_true, Bool.or_eq_true, decide_eq_true_eq] at here
    match s, here with
    | [], here => cases here.1
    | [_], here => simp at here
    | b :: c :: rest, here =>
      simp only [List.head?_cons, Option.some.injEq, List.tail_cons] at here
      exact ⟨c, rest, by rw [here.1], here.2⟩
  simp only [scanUCN, List.drop_succ_cons, List.drop_zero]
  generalize (if (Scanner.backslash :: c :: rest).tail.head? = some 'U'.toUInt8 then 8 else 4) = need
  have front : rest = (rest.take need).takeWhile isHexDigit ++ rest.drop ((rest.take need).takeWhile isHexDigit).length := by
    have prefixed : (rest.take need).takeWhile isHexDigit <+: rest :=
      (List.takeWhile_prefix isHexDigit).trans (List.take_prefix need rest)
    exact (List.prefix_iff_eq_append.1 prefixed).symm
  have drop : (Scanner.backslash :: c :: rest).drop (2 + ((rest.take need).takeWhile isHexDigit).length) =
      rest.drop ((rest.take need).takeWhile isHexDigit).length := by
    rw [Nat.add_comm]
    rfl
  rw [drop]
  refine ⟨Scanner.backslash :: c :: (rest.take need).takeWhile isHexDigit, ?_, ?_⟩
  · rw [List.cons_append, List.cons_append, ← front]
  · exact .ucn is (.of_inert fun d mem => inert_hex (List.mem_takeWhile_imp mem))

theorem continues_high {d : UInt8} (ok : continues d = true) : 0x80 ≤ d := by
  simp only [continues, inBytes, Bool.and_eq_true, decide_eq_true_eq] at ok
  exact ok.1

theorem inBytes_high {lo hi d : UInt8} (ok : inBytes lo hi d = true) (low : 0x80 ≤ lo) : 0x80 ≤ d := by
  simp only [inBytes, Bool.and_eq_true, decide_eq_true_eq] at ok
  exact UInt8.le_trans low ok.1

theorem second3_high {b d : UInt8} (ok : second3 b d = true) : 0x80 ≤ d := by
  unfold second3 at ok
  split at ok
  · exact inBytes_high ok (by decide)
  · split at ok
    · exact inBytes_high ok (by decide)
    · exact continues_high ok

theorem second4_high {b d : UInt8} (ok : second4 b d = true) : 0x80 ≤ d := by
  unfold second4 at ok
  split at ok
  · exact inBytes_high ok (by decide)
  · split at ok
    · exact inBytes_high ok (by decide)
    · exact continues_high ok

/-- The bytes of a character beyond ASCII are. -/
theorem decodeRune_high {c : UInt8} {s : List UInt8} (high : 0x80 ≤ c) :
    ∀ d ∈ (c :: s).take (decodeRune (c :: s)).2, 0x80 ≤ d := by
  have notLow : ¬c < 0x80 := UInt8.not_lt.2 high
  rcases s with _ | ⟨b1, _ | ⟨b2, _ | ⟨b3, bs⟩⟩⟩
  all_goals
    simp only [decodeRune, if_neg notLow, Bool.and_eq_true]
    repeat' split
    all_goals
      simp only [List.take_succ_cons, List.take_zero, List.mem_cons, List.not_mem_nil, or_false, forall_eq_or_imp, forall_eq,
        List.take_nil]
    all_goals grind [continues_high, second3_high, second4_high]

theorem identPart_passes {s rest : List UInt8} {ps : List Problem} (part : identPart s = some (rest, ps)) : Passes s rest := by
  cases s with
  | nil => cases part
  | cons c tail =>
    simp only [identPart] at part
    split at part
    · rename_i ident
      cases part
      exact .one (inert_identPart ident) _
    split at part
    · rename_i ucn
      cases part
      exact scanUCN_passes ucn
    split at part
    · rename_i high
      split at part
      · cases part
        exact .one (inert_high high) _
      · cases part
        refine ⟨(c :: tail).take (decodeRune (c :: tail)).2, (List.take_append_drop ..).symm, .of_inert fun d mem => ?_⟩
        exact inert_high (decodeRune_high high d mem)
    · cases part

theorem identParts_passes (s : List UInt8) : Passes s (identParts s).1 := by
  fun_induction identParts s with
  | case1 s none => exact .refl s
  | case2 s rest ps part more ih => exact (identPart_passes part).trans ih

theorem numberPart_passes {s rest : List UInt8} {ps : List Problem} (part : numberPart s = some (rest, ps)) : Passes s rest := by
  cases s with
  | nil => cases part
  | cons c tail =>
    simp only [numberPart] at part
    split at part
    · rename_i here
      cases part
      exact .one (inert_of (p := fun c => isDigit c || c = '.'.toUInt8) here rfl rfl rfl rfl) _
    split at part
    · rename_i here
      cases part
      refine .trans (.one (inert_of (p := isOneOf "eEpP") here rfl rfl rfl rfl) tail) ?_
      rw [afterSign]
      split
      · rename_i sign
        cases tail with
        | nil => exact .refl _
        | cons d tail =>
          refine .one (inert_of (p := fun c => c = '+'.toUInt8 || c = '-'.toUInt8) ?_ rfl rfl rfl rfl) _
          simpa using sign
      · exact .refl _
    split at part
    · rename_i here
      cases part
      rw [here.1]
      exact .one ⟨by decide, by decide, rfl⟩ _
    · exact identPart_passes part

theorem numberParts_passes (s : List UInt8) : Passes s (numberParts s).1 := by
  fun_induction numberParts s with
  | case1 s none => exact .refl s
  | case2 s rest ps part more ih => exact (numberPart_passes part).trans ih

theorem punctuators_inert : ∀ p ∈ Scanner.punctuators, ∀ c ∈ bytes p.1,
    (c ≠ Scanner.quote ∧ c ≠ Scanner.backslash ∧ isNewline c = false) := by
  have each : ∀ p ∈ Scanner.punctuators, (bytes p.1).all (fun c =>
      decide (c ≠ Scanner.quote ∧ c ≠ Scanner.backslash ∧ isNewline c = false)) = true := by decide
  exact fun p mem c here => of_decide_eq_true (List.all_eq_true.1 (each p mem) c here)

theorem punct_passes {std : Std} {mode : Mode} {s : List UInt8} {k : Kind} {size : Nat} {digraph : Bool}
    (found : Scanner.punct std mode s = some (k, size, digraph)) : Passes s (s.drop size) := by
  have inert {p : String × Kind × Bool} (mem : p ∈ Scanner.punctuators) (starts : (bytes p.1).isPrefixOf s = true) :
      Passes s (s.drop (bytes p.1).length) := by
    obtain ⟨rest, rfl⟩ := List.isPrefixOf_iff_prefix.1 starts
    rw [List.drop_left]
    refine ⟨bytes p.1, rfl, .of_inert fun c mem' => ?_⟩
    obtain ⟨quote, backslash, newline⟩ := punctuators_inert p mem c mem'
    exact ⟨quote, backslash, newline⟩
  unfold Scanner.punct at found
  split at found
  · rename_i splits
    cases found
    simp only [Scanner.splitsDigraph, Bool.and_eq_true] at splits
    obtain ⟨rest, rfl⟩ := List.isPrefixOf_iff_prefix.1 splits.1.1
    exact .one (c := '<'.toUInt8) ⟨by decide, by decide, rfl⟩ _
  · obtain ⟨p, here, eq⟩ := Option.map_eq_some_iff.1 found
    have both := List.find?_some here
    cases eq
    exact inert (List.mem_of_find?_eq_some here) (Bool.and_eq_true_iff.1 both).2

/-- **A token that is no literal and no stray backslash is plain.** -/
theorem lexeme_passes {s : Scanner} (ends : s.trivium = none) (some : s.rest ≠ []) (other : isLiteral s.lexeme.kind = false) :
    s.lexeme.raw = false ∧ (s.rest = Scanner.backslash :: s.lexeme.rest ∨ Passes s.rest s.lexeme.rest) := by
  obtain ⟨c, rest, eq⟩ := List.exists_cons_of_ne_nil some
  have ident {std : Std} : (scanIdent std (c :: rest)).raw = false ∧ (c :: rest = Scanner.backslash :: (scanIdent std (c :: rest)).rest ∨
      Passes (c :: rest) (scanIdent std (c :: rest)).rest) := by
    unfold scanIdent
    split
    · rename_i stray
      simp only [List.head?_cons, Bool.and_eq_true, decide_eq_true_eq, Option.some.injEq] at stray
      exact ⟨rfl, .inl (by rw [stray.1]; rfl)⟩
    · exact ⟨rfl, .inr (identParts_passes _)⟩
  simp only [Scanner.lexeme, eq, List.headD_cons, List.tail_cons] at other ⊢
  split at other
  · unfold scanIdentOrLiteralPrefix at other ⊢
    rw [if_pos (by assumption)]
    split at other
    · exact ident
    · split at other
      · rw [scanRawString] at other
        simp only at other
        split at other
        · cases other
        split at other
        · cases other
        split at other
        all_goals cases other
      · split at other
        all_goals cases other
  rw [if_neg (by assumption)]
  split at other
  · rw [if_pos (by assumption)]
    exact ident
  rw [if_neg (by assumption)]
  split at other
  · rw [if_pos (by assumption)]
    exact ⟨rfl, .inr (numberParts_passes _)⟩
  rw [if_neg (by assumption)]
  split at other
  · cases other
  rw [if_neg (by assumption)]
  split at other
  · cases other
  rw [if_neg (by assumption)]
  rename_i notLetter notIdent notDigit notApostrophe notQuote
  unfold Scanner.scanPunct at other ⊢
  split at other
  · rename_i found
    exact ⟨rfl, .inr (punct_passes found)⟩
  · refine ⟨rfl, .inr (.one ⟨notQuote, ?_, Scanner.not_newline_of_trivium ends eq⟩ _)⟩
    intro is
    exact notIdent (by rw [is]; rfl)

/-! ### String literals -/

theorem delimited_front (start : Nat) (what : String) {s : List UInt8} (braced : s.head? = some '\x7b'.toUInt8) :
    ∃ front, s = front ++ (delimited start what isHexDigit s).1 ∧ (∀ d ∈ front, Inert d) ∧
      ∀ p ∈ (delimited start what isHexDigit s).2, p.ofValue = true := by
  have whole : s = '\x7b'.toUInt8 :: s.tail := (List.cons_head?_tail braced).symm
  have brace : Inert '\x7b'.toUInt8 := ⟨by decide, by decide, rfl⟩
  have digits : ∀ d ∈ s.tail.takeWhile isHexDigit, Inert d := fun d mem => inert_hex (List.mem_takeWhile_imp mem)
  unfold delimited
  rw [if_neg (not_not_intro braced)]
  simp only
  split
  · refine ⟨'\x7b'.toUInt8 :: s.tail.takeWhile isHexDigit, ?_, List.forall_mem_cons.2 ⟨brace, digits⟩, by simp⟩
    rw [List.cons_append, List.takeWhile_append_dropWhile]
    exact whole
  · rename_i closed
    have after := List.cons_head?_tail (of_not_not closed)
    refine ⟨'\x7b'.toUInt8 :: (s.tail.takeWhile isHexDigit ++ ['\x7d'.toUInt8]), ?_, ?_, ?_⟩
    · rw [List.cons_append, List.append_assoc, List.singleton_append, after, List.takeWhile_append_dropWhile]
      exact whole
    · refine List.forall_mem_cons.2 ⟨brace, fun d mem => ?_⟩
      rcases List.mem_append.1 mem with mem | mem
      · exact digits d mem
      · rw [List.mem_singleton.1 mem]
        exact ⟨by decide, by decide, rfl⟩
    · intro p mem
      split at mem
      · rw [List.mem_singleton.1 mem]
      · cases mem

/-- What an escape at a universal character name takes, and what it may report. -/
theorem scanEscape_ucn {c : UInt8} (is : c = 'u'.toUInt8 ∨ c = 'U'.toUInt8) (s : List UInt8) :
    ∃ front, s = front ++ (scanEscape (Scanner.backslash :: c :: s)).1 ∧ (∀ d ∈ front, Inert d) ∧
      ∀ p ∈ (scanEscape (Scanner.backslash :: c :: s)).2, p.ofValue = true ∨ ∃ need got, p.message = .malformedUcn need got := by
  have plain : scanEscape (Scanner.backslash :: c :: s) =
      if c = 'u'.toUInt8 ∧ s.head? = some '\x7b'.toUInt8 then delimited (Scanner.backslash :: c :: s).length "u" isHexDigit s
      else scanUCN (Scanner.backslash :: c :: s) := by
    simp only [scanEscape, List.tail_cons]
    rcases is with rfl | rfl
    all_goals
      rw [if_neg (by decide), if_neg (by decide), if_neg (by decide), if_neg (by decide), if_neg (by decide)]
      split
      · rfl
      · rfl
  rw [plain]
  split
  · rename_i braced
    obtain ⟨front, eq, inert, reported⟩ := delimited_front (Scanner.backslash :: c :: s).length "u" braced.2
    exact ⟨front, eq, inert, fun p mem => .inl (reported p mem)⟩
  · simp only [scanUCN, List.drop_succ_cons, List.drop_zero]
    generalize (if (Scanner.backslash :: c :: s).tail.head? = some 'U'.toUInt8 then 8 else 4) = need
    have drop : (Scanner.backslash :: c :: s).drop (2 + ((s.take need).takeWhile isHexDigit).length) =
        s.drop ((s.take need).takeWhile isHexDigit).length := by
      rw [Nat.add_comm]
      rfl
    rw [drop]
    refine ⟨(s.take need).takeWhile isHexDigit, ?_, fun d mem => inert_hex (List.mem_takeWhile_imp mem), ?_⟩
    · exact (List.prefix_iff_eq_append.1 ((List.takeWhile_prefix isHexDigit).trans (List.take_prefix need s))).symm
    · intro p mem
      split at mem
      · rw [List.mem_singleton.1 mem]
        exact .inr ⟨_, _, rfl⟩
      · cases mem

/-- **Text in a literal does not end it.** -/
theorem scanQuoted_safe {s : List UInt8} (safe : Safe s) (rest : List UInt8) :
    ∃ n ps, scanQuoted Scanner.quote (s ++ Scanner.quote :: rest) = ⟨true, n, rest, ps⟩ ∧
      ∀ p ∈ ps, p.ofValue = true ∨ ∃ need got, p.message = .malformedUcn need got := by
  -- on the length: an escape may take bytes of what follows it
  induction size : s.length using Nat.strongRecOn generalizing s with
  | ind size ih =>
    subst size
    cases safe with
    | nil => exact ⟨0, [], by simp [scanQuoted], by simp⟩
    | @byte c s inert safe =>
      obtain ⟨n, ps, scanned, problems⟩ := ih s.length (Nat.lt_succ_self _) safe rfl
      refine ⟨n + 1, ps, ?_, problems⟩
      rw [List.cons_append, scanQuoted, if_neg inert.quote, if_neg (by simp [inert.newline]), if_neg inert.backslash, scanned]
    | @ucn c s is safe =>
      obtain ⟨front, eq, inert, reported⟩ := scanEscape_ucn is (s ++ Scanner.quote :: rest)
      -- the quote is not among what the escape takes
      obtain ⟨more, rfl, after⟩ : ∃ more, s = front ++ more ∧
          (scanEscape (Scanner.backslash :: c :: (s ++ Scanner.quote :: rest))).1 = more ++ Scanner.quote :: rest := by
        rcases List.append_eq_append_iff.1 eq with ⟨more, front', rest'⟩ | ⟨more, s', rest'⟩
        · cases more with
          | nil => exact ⟨[], by rw [front', List.append_nil, List.append_nil], rest'.symm⟩
          | cons d more =>
            have quoted : d = Scanner.quote := (List.cons.inj rest').1.symm
            exact absurd quoted (inert d (by rw [front']; simp)).quote
        · exact ⟨more, s', rest'⟩
      obtain ⟨n, ps, scanned, problems⟩ := ih more.length (by simp; omega)
        (safe.drop fun d mem => (inert d mem).backslash) rfl
      refine ⟨n + 1, _ ++ ps, ?_, fun p mem => (List.mem_append.1 mem).elim (reported p) (problems p)⟩
      rw [List.cons_append, List.cons_append, scanQuoted, if_neg (by decide), if_neg (by decide), if_pos rfl]
      simp only [after, scanned]
    | @pair c s is safe =>
      obtain ⟨n, ps, scanned, problems⟩ := ih s.length (by simp only [List.length_cons]; omega) safe rfl
      have escaped : scanEscape (Scanner.backslash :: c :: (s ++ Scanner.quote :: rest)) = (s ++ Scanner.quote :: rest, []) := by
        rcases is with rfl | rfl <;> rfl
      refine ⟨n + 1, ps, ?_, problems⟩
      rw [List.cons_append, List.cons_append, scanQuoted, if_neg (by decide), if_neg (by decide), if_pos rfl]
      simp only [escaped, scanned, List.nil_append]

/-! ### A string literal stays on its line -/

/-- `rest` is left of a text after bytes none of which ends a line. -/
def OneLine (s rest : List UInt8) : Prop := ∃ front, s = front ++ rest ∧ ∀ c ∈ front, isNewline c = false

theorem OneLine.refl (s : List UInt8) : OneLine s s := ⟨[], rfl, by simp⟩

theorem OneLine.trans {s t u : List UInt8} (first : OneLine s t) (second : OneLine t u) : OneLine s u := by
  obtain ⟨a, rfl, one⟩ := first
  obtain ⟨b, rfl, one'⟩ := second
  exact ⟨a ++ b, (List.append_assoc ..).symm, List.forall_mem_append.2 ⟨one, one'⟩⟩

theorem OneLine.cons {c : UInt8} {s rest : List UInt8} (here : isNewline c = false) (more : OneLine s rest) :
    OneLine (c :: s) rest := by
  obtain ⟨front, rfl, one⟩ := more
  exact ⟨c :: front, rfl, List.forall_mem_cons.2 ⟨here, one⟩⟩

theorem Passes.oneLine {s rest : List UInt8} (passes : Passes s rest) : OneLine s rest := by
  obtain ⟨front, eq, plain⟩ := passes
  exact ⟨front, eq, plain.safe.newline⟩

theorem oneLine_dropWhile {p : UInt8 → Bool} (one : ∀ c, p c = true → isNewline c = false) (s : List UInt8) :
    OneLine s (s.dropWhile p) :=
  ⟨s.takeWhile p, List.takeWhile_append_dropWhile.symm, fun c mem => one c (List.mem_takeWhile_imp mem)⟩

theorem oneLine_tail {c : UInt8} {s : List UInt8} (head : s.head? = some c) (here : isNewline c = false) : OneLine s s.tail := by
  have whole := List.cons_head?_tail head
  exact ⟨[c], whole.symm, List.forall_mem_singleton.2 here⟩

theorem newline_of_hex {c : UInt8} (hex : isHexDigit c = true) : isNewline c = false := (inert_hex hex).newline

theorem newline_of_oct {c : UInt8} (oct : isOctDigit c = true) : isNewline c = false :=
  (inert_of (p := isOctDigit) oct rfl rfl rfl rfl).newline

theorem delimited_oneLine (start : Nat) (what : String) {digit : UInt8 → Bool}
    (one : ∀ c, digit c = true → isNewline c = false) (s : List UInt8) : OneLine s (delimited start what digit s).1 := by
  unfold delimited
  split
  · exact .refl s
  · rename_i braced
    have digits := (oneLine_tail (of_not_not braced) rfl).trans (oneLine_dropWhile one s.tail)
    simp only
    split
    · exact digits
    · rename_i closed
      exact digits.trans (oneLine_tail (of_not_not closed) rfl)

theorem named_oneLine (start : Nat) (s : List UInt8) : OneLine s (named start s).1 := by
  unfold named
  split
  · exact .refl s
  · rename_i braced
    have name := (oneLine_tail (of_not_not braced) rfl).trans
      (oneLine_dropWhile (p := fun c => !(isOneOf "\x7d\"'" c || isNewline c)) (fun c other => by simp_all) s.tail)
    simp only
    split
    · exact name
    · rename_i closed
      exact name.trans (oneLine_tail (of_not_not closed) rfl)

theorem scanUCN_oneLine {c : UInt8} (is : c = 'u'.toUInt8 ∨ c = 'U'.toUInt8) (s : List UInt8) :
    OneLine (Scanner.backslash :: c :: s) (scanUCN (Scanner.backslash :: c :: s)).1 :=
  (scanUCN_passes (by rcases is with rfl | rfl <;> rfl)).oneLine

theorem scanEscape_oneLine (s : List UInt8) : OneLine (Scanner.backslash :: s) (scanEscape (Scanner.backslash :: s)).1 := by
  cases s with
  | nil => exact .cons rfl (.refl [])
  | cons c rest =>
    have past (within : isNewline c = false) {s : List UInt8} (more : OneLine rest s) :
        OneLine (Scanner.backslash :: c :: rest) s := .cons rfl (.cons within more)
    have left : EscapeRest (Scanner.backslash :: c :: rest) c rest (scanEscape (Scanner.backslash :: c :: rest)).1 :=
      scanEscape_rest rfl
    generalize (scanEscape (Scanner.backslash :: c :: rest)).1 = r at left ⊢
    cases left with
    | newline => exact .cons rfl (.refl _)
    | simple within => exact past within (.refl _)
    | octal within =>
      refine past within ⟨(rest.take 2).takeWhile isOctDigit, ?_, fun d mem => newline_of_oct (List.mem_takeWhile_imp mem)⟩
      exact (List.prefix_iff_eq_append.1 ((List.takeWhile_prefix isOctDigit).trans (List.take_prefix 2 rest))).symm
    | delimited within what digits =>
      rcases digits with rfl | rfl
      · exact past within (delimited_oneLine _ _ (fun _ => newline_of_oct) _)
      · exact past within (delimited_oneLine _ _ (fun _ => newline_of_hex) _)
    | hex within => exact past within (oneLine_dropWhile (fun _ => newline_of_hex) _)
    | ucn within letter => exact scanUCN_oneLine letter _
    | named within => exact past within (named_oneLine _ _)

theorem scanQuoted_oneLine (s : List UInt8) : OneLine s (scanQuoted Scanner.quote s).rest := by
  fun_induction scanQuoted Scanner.quote s with
  | case1 => exact .refl []
  | case2 rest => exact .cons rfl (.refl rest)
  | case3 c rest notQuote newline => exact .refl _
  | case4 rest notQuote notNewline escape more ih => exact (scanEscape_oneLine rest).trans ih
  | case5 c rest notQuote within notBackslash more ih => exact .cons (Bool.eq_false_iff.2 within) ih

theorem scanUDSuffix_passes (s : List UInt8) : Passes s (scanUDSuffix s).2.1 := by
  unfold scanUDSuffix
  split
  · exact identParts_passes s
  · exact .refl s

/-- **A string literal that is not raw stays on its line.** -/
theorem scanString_oneLine (start : Nat) (s : List UInt8) : OneLine (Scanner.quote :: s) (scanString start (Scanner.quote :: s)).rest := by
  have suffix (q : Quoted) : OneLine q.rest (if q.terminated then scanUDSuffix q.rest else (false, q.rest, [])).2.1 := by
    split
    · exact (scanUDSuffix_passes _).oneLine
    · exact .refl _
  exact .cons rfl ((scanQuoted_oneLine s).trans (suffix _))

/-! ### The tokens of a file -/

/-- What holds of a token's text: a comment has a slash, and what is neither a comment, a literal nor a stray
backslash is plain. -/
structure Lexed (kind : Kind) (text : List UInt8) : Prop where
  comment : kind = .comment → slash ∈ text
  plain : kind ≠ .comment → isLiteral kind = false → text = [Scanner.backslash] ∨ Plain text

/-- The tokens of a scanner so far have such texts. -/
def Written (f : File) (s : Scanner) : Prop := ∀ t ∈ s.toks, Lexed t.kind (tokenText f t)

section
variable {f : File} {mode : Mode} {s : Scanner}

theorem tokenText_eq (run : Scanner.Run f mode s) (small : f.text.length < 2147483647) {t : Token} {rest : List UInt8}
    (notRaw : t.raw = false) (pos : t.pos = File.pos (s.offAt s.rest.length)) (stop : t.stop = File.pos (s.offAt rest.length))
    (suffix : rest <:+ s.rest) : tokenText f t = upTo s.rest rest := by
  have inside := run.suffix.length_le
  rw [tokenText, if_neg (by simp [notRaw]), File.slice, pos, stop]
  simp only [Scanner.offAt, run.file]
  rw [File.offset_pos (by omega), File.offset_pos (by omega)]
  exact Scanner.part_eq_upTo run.suffix suffix

theorem Written.push (written : Written f s) {s' : Scanner} {t : Token} (toks : s'.toks = s.toks ++ [t])
    (lexed : Lexed t.kind (tokenText f t)) : Written f s' := by
  intro u mem
  rw [toks, List.mem_append, List.mem_singleton] at mem
  rcases mem with mem | rfl
  · exact written u mem
  · exact lexed

theorem comment_toks (s : Scanner) (rest : List UInt8) :
    (s.comment rest).toks = s.toks ∨ ∃ t, (s.comment rest).toks = s.toks ++ [t] ∧ t.kind = .comment ∧ t.raw = false ∧
      t.pos = File.pos (s.offAt s.rest.length) ∧ t.stop = File.pos (s.offAt rest.length) := by
  unfold Scanner.comment
  simp only
  repeat' split
  all_goals first
    | exact .inl rfl
    | exact .inr ⟨Scanner.token _ s.rest.length { kind := .comment, rest := rest }, rfl, rfl, rfl,
        by simp only [Scanner.token, Scanner.offAt], by simp only [Scanner.token, Scanner.offAt]⟩

theorem Written.comment (written : Written f s) (run : Scanner.Run f mode s) (small : f.text.length < 2147483647)
    {rest : List UInt8} (suffix : rest <:+ s.rest.tail) (head : s.rest.head? = some slash) : Written f (s.comment rest) := by
  rcases comment_toks s rest with same | ⟨t, pushed, kind, notRaw, pos, stop⟩
  · intro t mem
    exact written t (same ▸ mem)
  · refine written.push pushed ⟨fun _ => ?_, fun other => absurd kind other⟩
    rw [tokenText_eq run small notRaw pos stop (suffix.trans (List.tail_suffix _))]
    obtain ⟨front, eq⟩ := suffix
    have whole := List.cons_head?_tail head
    rw [Scanner.upTo_of_append (a := slash :: front) (by rw [List.cons_append, eq]; exact whole.symm)]
    exact List.mem_cons_self

theorem Written.noted (written : Written f s) {s' : Scanner} (noted : Scanner.Noted s s') : Written f s' := by
  obtain ⟨_, _, _, _, rfl⟩ := noted
  exact written

theorem Written.trivium (written : Written f s) (run : Scanner.Run f mode s) (small : f.text.length < 2147483647) {s' : Scanner}
    (round : s.trivium = some s') : Written f s' := by
  unfold Scanner.trivium at round
  split at round
  · cases round
  rename_i c rest here
  split at round
  · cases round
    exact written
  split at round
  · cases round
    exact written
  split at round
  · rename_i slashes
    cases round
    refine written.comment run small ?_ (by rw [here, slashes.1]; rfl)
    rw [here, List.tail_cons, Scanner.lineEnd, slashes.1, List.dropWhile_cons_of_pos rfl]
    exact List.dropWhile_suffix _
  split at round
  · rename_i star
    have head : s.rest.head? = some slash := by rw [here, star.1]; rfl
    split at round
    · rename_i after ends
      cases round
      refine written.comment run small ?_ head
      rw [here]
      exact (Scanner.blockEnd_suffix ends).trans (List.tail_suffix _)
    · cases round
      have noted := Scanner.noted_report s .error (s.offAt s.rest.length) s.f.text.length .unterminatedComment
      refine (written.noted noted).comment (run.noted noted) small List.nil_suffix ?_
      obtain ⟨_, _, _, _, eq⟩ := noted
      rw [eq]
      exact head
  · cases round

theorem Written.skipTrivia (written : Written f s) (run : Scanner.Run f mode s) (small : f.text.length < 2147483647) :
    Written f s.skipTrivia := by
  fun_induction Scanner.skipTrivia s with
  | case1 s ends => exact written
  | case2 s s' round ih => exact ih (written.trivium run small round) (run.trivium small round)

theorem Written.scanToken (written : Written f s) (run : Scanner.Run f mode s) {ks : List Nat} (cuts : f.Cuts ks)
    (small : f.text.length < 2147483647) (ends : s.trivium = none) (some : s.rest ≠ []) : Written f s.scanToken := by
  unfold Scanner.scanToken
  split
  · unfold Scanner.directiveLine
    simp only
    split
    · obtain ⟨_, _, _, _, eq⟩ := Scanner.noted_report { s with hashReported := true } .warn (s.offAt s.rest.length)
        (s.offAt (Scanner.lineEnd s.rest).length) .directiveInInput
      rw [eq]
      exact written
    · exact written
  · have takes : s.lexeme.rest <:+ s.rest := by
      have file := run.file
      have suffix := run.suffix
      subst file
      exact (lexeme_takes cuts suffix some).1
    have emitted : ∀ s', Scanner.Noted { s with lineOpen := false } s' → Written f (s'.emit s'.rest.length s.lexeme) := by
      rintro _ ⟨_, _, _, _, rfl⟩
      refine Written.push (t := s.token s.rest.length s.lexeme) written rfl ⟨fun is => absurd is (lexeme_kind s), fun _ other => ?_⟩
      obtain ⟨notRaw, plain⟩ := lexeme_passes ends some other
      have text := tokenText_eq run small (t := s.token s.rest.length s.lexeme) notRaw
        (by simp only [Scanner.token]) (by simp only [Scanner.token]) takes
      rw [text]
      rcases plain with stray | ⟨front, eq, plain⟩
      · exact .inl (Scanner.upTo_of_append (a := [Scanner.backslash]) stray)
      · exact .inr (by rw [Scanner.upTo_of_append eq]; exact plain)
    have first := Scanner.noted_reportFirst { s with lineOpen := false } s.lexeme.problems
    simp only
    split
    · exact emitted _ first
    · exact emitted _ (first.trans (Scanner.noted_bracket ..))

theorem Written.rounds (written : Written f s) (run : Scanner.Run f mode s) {ks : List Nat} (cuts : f.Cuts ks)
    (small : f.text.length < 2147483647) {fuel : Nat} {s' : Scanner} (ran : s.rounds fuel = some s') : Written f s' := by
  induction fuel generalizing s with
  | zero => cases ran
  | succ fuel ih =>
    obtain ⟨run', -, ends⟩ := run.skipTrivia small
    have written' := written.skipTrivia run small
    simp only [Scanner.rounds] at ran
    split at ran
    · cases ran
      exact written'
    · rename_i some
      exact ih (written'.scanToken run' cuts small ends some) (run'.scanToken cuts small ends some).1 ran

end

/-- **The tokens of a file** are as they should be. -/
theorem scan_lexed {src : List UInt8} {std : Std} {mode : Mode} {fuel : Nat} {toks : List Token}
    {diags : List (Diagnostic Message)} (small : src.length < 2147483647)
    (ran : scan fuel (File.new src) std mode = some (toks, diags)) :
    ∀ t ∈ toks, Lexed t.kind (tokenText (File.new src) t) := by
  obtain ⟨ks, cuts⟩ := File.cuts_new src small
  have small' : (File.new src).text.length < 2147483647 := by
    have le := cuts.length_le
    rw [File.new_src] at le
    omega
  obtain ⟨s, rounds, eq⟩ := Option.map_eq_some_iff.1 ran
  have written : Written (File.new src) s :=
    Written.rounds (fun _ mem => absurd mem List.not_mem_nil) (Scanner.run_start (File.new src) std mode) cuts small' rounds
  have last : Lexed .eof (tokenText (File.new src) (s.token s.rest.length { kind := .eof, rest := s.rest })) := by
    have text : tokenText (File.new src) (s.token s.rest.length { kind := .eof, rest := s.rest }) = [] := by
      rw [tokenText, if_neg (by simp [Scanner.token]), File.slice, Scanner.token, part_self]
    rw [text]
    exact { comment := fun is => (by cases is), plain := fun _ _ => .inr .nil }
  have ended : Written (File.new src) (s.emit s.rest.length { kind := .eof, rest := s.rest }) := written.push rfl last
  cases eq
  split
  · exact ended
  · exact ended.noted (noted_atEOF _)

/-! ### The text that is scanned again -/

/-- A source without line splices. -/
def Unspliced (src : List UInt8) : Prop := ∀ s, s <:+ src → Token.afterSplice s = none

theorem Unspliced.tail {c : UInt8} {src : List UInt8} (unspliced : Unspliced (c :: src)) : Unspliced src :=
  fun s suffix => unspliced s (suffix.trans (List.suffix_cons c src))

theorem cells_unspliced {src : List UInt8} (unspliced : Unspliced src) (i : Nat) :
    Token.cells i src = (src.zipIdx i).map Prod.swap := by
  induction src generalizing i with
  | nil => rw [Token.cells]; rfl
  | cons c src ih =>
    have none := unspliced _ (List.suffix_refl _)
    rw [Token.cells, none]
    simp only [ih unspliced.tail, List.zipIdx_cons, List.map_cons, Prod.swap_prod_mk]

theorem translateFrom_unspliced {src : List UInt8} (unspliced : Unspliced src) (i : Nat) (t : Token.Translation)
    (fresh : t.spliceAtEOF = false) :
    (Token.translateFrom i t src).pad = t.pad ∧ (Token.translateFrom i t src).spliceAtEOF = false := by
  induction src generalizing i t with
  | nil =>
    rw [Token.translateFrom]
    exact ⟨rfl, fresh⟩
  | cons c src ih =>
    have none := unspliced _ (List.suffix_refl _)
    rw [Token.translateFrom, none]
    exact ih unspliced.tail _ _ rfl

theorem checkSplicedUCN_unspliced {f : File} {t : Token.Table} (joined : ∀ i, i + 1 < f.text.length → t.hi[i]? = t.lo[i + 1]?) :
    f.checkSplicedUCN t = f := by
  unfold File.checkSplicedUCN
  have within : ∀ i ∈ List.range (f.text.length - 1), i + 1 < f.text.length := by
    intro i mem
    have below := List.mem_range.1 mem
    omega
  revert within
  induction List.range (f.text.length - 1) with
  | nil => exact fun _ => rfl
  | cons i rest ih =>
    intro within
    have here := joined i (within i List.mem_cons_self)
    rw [List.foldl_cons, if_neg fun all => all.2.2 here]
    exact ih fun j mem => within j (List.mem_cons_of_mem i mem)

/-- Every byte starts where the one before it ends. -/
theorem zipIdx_joined (src : List UInt8) {i : Nat} (within : i + 1 < src.length) :
    ([] ++ ((src.zipIdx 0).map Prod.swap).map fun cell => Token.int32 (cell.1 + 1))[i]? =
      ([] ++ ((src.zipIdx 0).map Prod.swap).map fun cell => Token.int32 cell.1)[i + 1]? := by
  rw [List.nil_append, List.nil_append, List.getElem?_map, List.getElem?_map, List.getElem?_map, List.getElem?_map,
    List.getElem?_zipIdx, List.getElem?_zipIdx, List.getElem?_eq_getElem within,
    List.getElem?_eq_getElem (Nat.lt_of_succ_lt within)]
  simp only [Option.map_some, Prod.swap_prod_mk, Nat.zero_add]

/-- Where nothing is spliced, the text is the source and nothing is reported. -/
theorem new_unspliced {src : List UInt8} (unspliced : Unspliced src) (noBom : Token.bom.isPrefixOf src = false) :
    (File.new src).text = src ∧ (File.new src).diags = [] := by
  have none : File.bomLength src = 0 := if_neg (by simp [noBom])
  have cells : File.cellsOf src = (src.zipIdx 0).map Prod.swap := by
    rw [File.cellsOf, none, List.drop_zero, cells_unspliced unspliced]
  have text : (File.new src).text = src := by
    rw [File.new_text, cells, List.map_map]
    exact List.zipIdx_map_fst 0 src
  refine ⟨text, ?_⟩
  rw [File.new_eq]
  split
  · rfl
  · obtain ⟨pad, splice⟩ := translateFrom_unspliced unspliced 0 {} rfl
    obtain ⟨text', table⟩ := Token.translateFrom_eq 0 {} src
    rw [cells_unspliced unspliced, List.map_map, List.nil_append] at text'
    rw [cells_unspliced unspliced] at table
    simp only [File.translated, File.ofTranslation, none, List.drop_zero, pad, splice, List.foldl_nil, Bool.false_eq_true, if_false]
    rw [checkSplicedUCN_unspliced]
    intro i within
    rw [table]
    rw [text'] at within
    simp only [List.length_map, List.length_zipIdx] at within
    exact zipIdx_joined src within

theorem unspliced_line {s : List UInt8} (one : ∀ c ∈ s, isNewline c = false) : Unspliced (s ++ [Scanner.quote, newline]) := by
  have past (s : List UInt8) (one : ∀ c ∈ s, isNewline c = false) :
      Token.afterNewline ((s ++ [Scanner.quote, newline]).dropWhile Token.isHorizontalSpace) = none := by
    induction s with
    | nil => rfl
    | cons c s ih =>
      have here := one c List.mem_cons_self
      rw [List.cons_append, List.dropWhile_cons]
      split
      · exact ih fun d mem => one d (List.mem_cons_of_mem c mem)
      · simp only [isNewline, Bool.or_eq_false_iff, decide_eq_false_iff_not] at here
        exact (if_neg here.2).trans (if_neg here.1)
  induction s with
  | nil =>
    intro t suffix
    rcases List.suffix_cons_iff.1 suffix with rfl | suffix
    · rfl
    · rcases List.suffix_cons_iff.1 suffix with rfl | suffix
      · rfl
      · rw [List.suffix_nil.1 suffix]
        rfl
  | cons c s ih =>
    have one' : ∀ d ∈ s, isNewline d = false := fun d mem => one d (List.mem_cons_of_mem c mem)
    intro t suffix
    rw [List.cons_append] at suffix
    rcases List.suffix_cons_iff.1 suffix with rfl | suffix
    · rw [Token.afterSplice]
      split
      · exact past s one'
      · rfl
    · exact ih one' t suffix

/-! ### The first token -/

section
variable {s s' : Scanner}

theorem skipTrivia_of_none (ends : s.trivium = none) : s.skipTrivia = s := by
  rw [Scanner.skipTrivia]
  split
  · rfl
  · rename_i round
    rw [ends] at round
    cases round

theorem trivium_quote {rest : List UInt8} (here : s.rest = Scanner.quote :: rest) : s.trivium = none := by
  rw [Scanner.trivium, here]
  rfl

theorem lexeme_quote {rest : List UInt8} (here : s.rest = Scanner.quote :: rest) :
    s.lexeme = scanString (Scanner.quote :: rest).length (Scanner.quote :: rest) := by
  rw [Scanner.lexeme, here]
  rfl

/-- In preprocessor mode a token is reported and emitted. -/
theorem scanToken_pp (pp : s.mode.scanPP = true) :
    s.scanToken = ({ s with lineOpen := false }.reportFirst s.lexeme.problems).emit s.rest.length s.lexeme := by
  obtain ⟨diags, brackets, quiet, hash, eq⟩ := Scanner.noted_reportFirst { s with lineOpen := false } s.lexeme.problems
  rw [Scanner.scanToken, if_neg (by simp [pp])]
  simp only [eq, pp, if_true]

theorem reportFirst_diags (problems : List Problem) : ∀ d ∈ (s.reportFirst problems).diags,
    d ∈ s.diags ∨ ∃ p ∈ problems, (s.mode.scanPP = true → p.ofValue = false) ∧ d.message = p.message := by
  intro d mem
  unfold Scanner.reportFirst at mem
  split at mem
  · exact .inl mem
  · rename_i p found
    unfold Scanner.report at mem
    simp only at mem
    split at mem
    · exact .inl mem
    · rcases List.mem_append.1 mem with mem | mem
      · exact .inl mem
      · have reported := List.find?_some found
        rw [List.mem_singleton.1 mem]
        refine .inr ⟨p, List.mem_of_find?_eq_some found, fun pp => ?_, rfl⟩
        simpa [pp] using reported

/-! ### Tokens stay -/

theorem trivium_toks (round : s.trivium = some s') : s.toks <+: s'.toks := by
  have comment (s : Scanner) (rest : List UInt8) : s.toks <+: (s.comment rest).toks := by
    rcases comment_toks s rest with same | ⟨t, pushed, -⟩
    · rw [same]
    · exact ⟨[t], pushed.symm⟩
  unfold Scanner.trivium at round
  split at round
  · cases round
  split at round
  · cases round
    exact List.prefix_refl _
  split at round
  · cases round
    exact List.prefix_refl _
  split at round
  · cases round
    exact comment s _
  split at round
  · split at round
    · cases round
      exact comment s _
    · cases round
      obtain ⟨_, _, _, _, eq⟩ := Scanner.noted_report s .error (s.offAt s.rest.length) s.f.text.length .unterminatedComment
      have same : (s.report .error (s.offAt s.rest.length) s.f.text.length .unterminatedComment).toks = s.toks := by rw [eq]
      exact same ▸ comment _ _
  · cases round

theorem skipTrivia_toks (s : Scanner) : s.toks <+: s.skipTrivia.toks := by
  fun_induction Scanner.skipTrivia s with
  | case1 s ends => exact List.prefix_refl _
  | case2 s s' round ih => exact (trivium_toks round).trans ih

theorem skipTrivia_mode (s : Scanner) : s.skipTrivia.mode = s.mode := by
  have comment (s : Scanner) (rest : List UInt8) : (s.comment rest).mode = s.mode := by
    unfold Scanner.comment
    repeat' split
    all_goals rfl
  fun_induction Scanner.skipTrivia s with
  | case1 s ends => rfl
  | case2 s s' round ih =>
    rw [ih]
    unfold Scanner.trivium at round
    split at round
    · cases round
    split at round
    · cases round
      rfl
    split at round
    · cases round
      rfl
    split at round
    · cases round
      exact comment s _
    split at round
    · split at round
      · cases round
        exact comment s _
      · cases round
        obtain ⟨_, _, _, _, eq⟩ := Scanner.noted_report s .error (s.offAt s.rest.length) s.f.text.length .unterminatedComment
        rw [comment, eq]
    · cases round

theorem rounds_toks {n : Nat} (pp : s.mode.scanPP = true) (ran : s.rounds n = some s') : s.toks <+: s'.toks := by
  induction n generalizing s with
  | zero => cases ran
  | succ n ih =>
    have skipped := skipTrivia_toks s
    have pp' : s.skipTrivia.mode.scanPP = true := by rw [skipTrivia_mode, pp]
    simp only [Scanner.rounds] at ran
    split at ran
    · cases ran
      exact skipped
    · rw [scanToken_pp pp'] at ran
      obtain ⟨_, _, _, _, eq⟩ := Scanner.noted_reportFirst { s.skipTrivia with lineOpen := false } s.skipTrivia.lexeme.problems
      rw [eq] at ran
      exact skipped.trans ((List.prefix_append ..).trans (ih (by exact pp') ran))

end

/-! ### One string literal -/

theorem offset_pos_le (k : Nat) : File.offset (File.pos k) ≤ k ∧ File.offset (File.pos k) ≤ 2147483646 := by
  have wrapped := Int.bmod_le (x := ((k + 1 : Nat) : Int)) (m := 4294967296) (by omega)
  have below : File.offset (File.pos k) ≤ 2147483646 := by
    unfold File.offset File.pos Token.int32
    omega
  refine ⟨?_, below⟩
  by_cases small : k < 2147483647
  · rw [File.offset_pos small]
  · omega

theorem new_quote (rest : List UInt8) : ∃ more, (File.new (Scanner.quote :: rest)).text = Scanner.quote :: more := by
  have none : Token.afterSplice (Scanner.quote :: rest) = none := rfl
  have bare : File.bomLength (Scanner.quote :: rest) = 0 := if_neg Bool.false_ne_true
  rw [File.new_text, File.cellsOf, bare, List.drop_zero, Token.cells, none]
  exact ⟨_, rfl⟩

/-- **What is one string literal stays on its line** and has a length that positions can tell. -/
theorem OneString.line {std : Std} {objC : Bool} {rest : List UInt8} (string : OneString std objC (Scanner.quote :: rest)) :
    (∀ c ∈ Scanner.quote :: rest, isNewline c = false) ∧ (Scanner.quote :: rest).length < 2147483647 := by
  obtain ⟨t, e, diags, ran, -, -, -, -, spelled, -⟩ := string
  obtain ⟨more, text⟩ := new_quote (rest ++ [newline])
  rw [rescanned] at ran
  rw [List.cons_append] at ran spelled
  generalize File.new (Scanner.quote :: (rest ++ [newline])) = f at ran spelled text
  -- the first token is the string
  obtain ⟨s, rounds, eq⟩ := Option.map_eq_some_iff.1 ran
  generalize start : Scanner.start f std { scanPP := true, scanObjC := objC } = s₀ at rounds
  have here : s₀.rest = Scanner.quote :: more := by rw [← start, Scanner.start, text]
  have pp : s₀.mode.scanPP = true := by rw [← start]; rfl
  have file : s₀.f = f := by rw [← start]; rfl
  have none : s₀.toks = [] := by rw [← start]; rfl
  have first : t = s₀.token s₀.rest.length s₀.lexeme := by
    rw [Scanner.rounds, skipTrivia_of_none (trivium_quote here), if_neg (by rw [here]; exact List.cons_ne_nil _ _)] at rounds
    rw [scanToken_pp pp] at rounds
    obtain ⟨_, _, _, _, noted⟩ := Scanner.noted_reportFirst { s₀ with lineOpen := false } s₀.lexeme.problems
    rw [noted] at rounds
    obtain ⟨after, toks⟩ := rounds_toks (by exact pp) rounds
    have same := congrArg (·.1) eq
    simp only [if_true, Scanner.emit, ← toks, none, List.nil_append, List.singleton_append] at same
    exact ((List.cons.inj same).1).symm
  have lexeme := lexeme_quote here
  obtain ⟨front, whole, one⟩ := scanString_oneLine (Scanner.quote :: more).length more
  rw [← lexeme] at whole
  -- its text is within what the scanner took
  obtain ⟨le, below⟩ := offset_pos_le front.length
  have start0 : File.offset (File.pos 0) = 0 := File.offset_pos (by decide)
  have stop : s₀.offAt s₀.lexeme.rest.length = front.length := by
    rw [Scanner.offAt, file, text, whole, List.length_append, Nat.add_sub_cancel]
  have inside : Scanner.quote :: rest = front.take (File.offset (File.pos front.length)) := by
    rw [← spelled, first, File.slice]
    simp only [Scanner.token, stop]
    rw [Scanner.offAt, file, text, here, Nat.sub_self, start0, part_zero, whole, List.take_append_of_le_length le]
  rw [inside]
  refine ⟨fun c mem => one c (List.mem_of_mem_take mem), ?_⟩
  rw [List.length_take]
  omega

/-- **Safe text between quotes is one string literal.** -/
theorem oneString_safe {s : List UInt8} (std : Std) (objC : Bool) (safe : Safe s)
    (small : (Scanner.quote :: s ++ [Scanner.quote]).length < 2147483647) :
    OneString std objC (Scanner.quote :: s ++ [Scanner.quote]) := by
  have unspliced : Unspliced (Scanner.quote :: s ++ [Scanner.quote] ++ [newline]) := by
    rw [List.append_assoc]
    exact unspliced_line (List.forall_mem_cons.2 ⟨rfl, safe.newline⟩)
  obtain ⟨text, diags⟩ := new_unspliced unspliced rfl
  unfold OneString rescanned
  generalize File.new (Scanner.quote :: s ++ [Scanner.quote] ++ [newline]) = f at text diags
  have here : f.text = Scanner.quote :: (s ++ Scanner.quote :: [newline]) := by rw [text]; simp
  obtain ⟨n, ps, quoted, problems⟩ := scanQuoted_safe safe [newline]
  have lexeme : scanString (Scanner.quote :: (s ++ Scanner.quote :: [newline])).length (Scanner.quote :: (s ++ Scanner.quote :: [newline])) =
      { kind := .stringLit, rest := [newline], problems := ps } := by
    have suffix : scanUDSuffix [newline] = (false, [newline], []) := rfl
    simp [scanString, quoted, suffix]
  generalize start : Scanner.start f std { scanPP := true, scanObjC := objC } = s₀
  have rest : s₀.rest = Scanner.quote :: (s ++ Scanner.quote :: [newline]) := by rw [← start, Scanner.start, here]
  have pp : s₀.mode.scanPP = true := by rw [← start]; rfl
  have file : s₀.f = f := by rw [← start]; rfl
  have none : s₀.toks = [] := by rw [← start]; rfl
  have clean : s₀.diags = [] := by rw [← start, Scanner.start, diags]; rfl
  have scanned : s₀.scanToken = _ := scanToken_pp pp
  rw [lexeme_quote rest, lexeme] at scanned
  obtain ⟨ds, brackets, quiet, hash, noted⟩ := Scanner.noted_reportFirst { s₀ with lineOpen := false } ps
  have reported := reportFirst_diags (s := { s₀ with lineOpen := false }) ps
  rw [noted] at scanned reported
  -- then the line ends
  have after : s₀.scanToken.skipTrivia = { s₀.scanToken with rest := [], adjacent := false, nlBefore := true, lineOpen := true } := by
    rw [scanned, Scanner.skipTrivia]
    split
    · rename_i round
      cases round
    · rename_i s' round
      cases round
      exact skipTrivia_of_none rfl
  have two : f.text.length + 1 = (f.text.length - 1) + 2 := by
    rw [here]
    simp
  have rounds : s₀.rounds (f.text.length + 1) = some s₀.scanToken.skipTrivia := by
    rw [two, Scanner.rounds, skipTrivia_of_none (trivium_quote rest), if_neg (by rw [rest]; exact List.cons_ne_nil _ _),
      Scanner.rounds, if_pos (by rw [after])]
  have ran : scan (f.text.length + 1) f std { scanPP := true, scanObjC := objC } = some
      (s₀.scanToken.skipTrivia.toks ++ [s₀.scanToken.skipTrivia.token s₀.scanToken.skipTrivia.rest.length
        { kind := .eof, rest := s₀.scanToken.skipTrivia.rest }], s₀.scanToken.skipTrivia.diags) := by
    simp only [scan, start, rounds, Option.map_some]
    rfl
  have toks : s₀.scanToken.skipTrivia.toks =
      [s₀.token s₀.rest.length { kind := .stringLit, rest := [newline], problems := ps }] := by
    rw [after, scanned]
    simp only [Scanner.emit, none, List.nil_append]
    rfl
  have diags' : s₀.scanToken.skipTrivia.diags = ds := by
    rw [after, scanned]
    rfl
  rw [toks, diags'] at ran
  refine ⟨_, _, ds, ran, rfl, rfl, rfl, rfl, ?_, ?_⟩
  · have stop : s₀.offAt [newline].length = (Scanner.quote :: s ++ [Scanner.quote]).length := by
      rw [Scanner.offAt, file, text, List.length_append, Nat.add_sub_cancel]
    simp only [File.slice, Scanner.token, stop]
    rw [Scanner.offAt, file, here, rest, Nat.sub_self, File.offset_pos (by decide), File.offset_pos small, part_zero, ← here, text,
      List.take_left]
  · intro d mem
    rcases reported d mem with old | ⟨p, mem', error, message⟩
    · simp only [clean] at old
      cases old
    · rcases problems p mem' with value | ⟨need, got, malformed⟩
      · rw [error pp] at value
        cases value
      · exact ⟨need, got, message.trans malformed⟩

/-! ### `#` -/

theorem Made.lexed {t : Spelling} (made : Made t) :
    (t.kind = .comment → slash ∈ t.text) ∧ (t.kind ≠ .comment → isLiteral t.kind = false → Plain t.text) := by
  cases made with
  | scanned spaced small ran mem stray =>
    have lexed := scan_lexed small ran _ mem
    exact ⟨lexed.comment, fun other plain => (lexed.plain other plain).resolve_left stray⟩
  | @literal kind is spaced text =>
    refine ⟨?_, fun _ other => ?_⟩
    · rintro rfl
      cases is
    · rw [is] at other
      cases other
  | number spaced digits =>
    refine ⟨fun is => (by cases is), fun _ _ => .of_inert fun c mem => ?_⟩
    rcases digits c mem with digit | rfl
    · exact inert_of digit rfl rfl rfl rfl
    · exact ⟨by decide, by decide, rfl⟩

/-- What is written for a token of an argument that fits, and what undoing the escapes makes of it. -/
theorem written_safe {t : Spelling} (made : Made t)
    (fits : t.kind ≠ .comment ∧ (isLiteral t.kind = true → ∀ c ∈ t.text, isNewline c = false)) :
    Safe t.written ∧ ∀ rest, unescape (t.written ++ rest) = t.text ++ unescape rest := by
  rw [Spelling.written]
  split
  · rename_i literal
    exact ⟨safe_escape (fits.2 literal), unescape_escape t.text⟩
  · rename_i other
    have plain := made.lexed.2 fits.1 (Bool.eq_false_iff.2 other)
    exact ⟨plain.safe, unescape_plain plain⟩

theorem joined_safe {arg : List Spelling} (made : ∀ t ∈ arg, Made t) (fits : Fits arg) :
    Safe (joined Spelling.written arg) ∧ unescape (joined Spelling.written arg) = joined Spelling.text arg := by
  cases arg with
  | nil => exact ⟨.nil, rfl⟩
  | cons t ts =>
    obtain ⟨safe, undone⟩ := written_safe (made t List.mem_cons_self) (fits t List.mem_cons_self)
    have rest : Safe (ts.flatMap fun t => (if t.spaced then [space] else []) ++ t.written) ∧
        unescape (ts.flatMap fun t => (if t.spaced then [space] else []) ++ t.written) =
          ts.flatMap fun t => (if t.spaced then [space] else []) ++ t.text := by
      have each : ∀ u ∈ ts, Safe u.written ∧ ∀ rest, unescape (u.written ++ rest) = u.text ++ unescape rest := fun u mem =>
        written_safe (made u (List.mem_cons_of_mem t mem)) (fits u (List.mem_cons_of_mem t mem))
      clear made fits safe undone
      induction ts with
      | nil => exact ⟨.nil, rfl⟩
      | cons u ts ih =>
        obtain ⟨safe, undone⟩ := each u List.mem_cons_self
        obtain ⟨safe', undone'⟩ := ih fun v mem => each v (List.mem_cons_of_mem u mem)
        rw [List.flatMap_cons, List.flatMap_cons]
        split
        · refine ⟨(Safe.append (.byte inert_space .nil) safe).append safe', ?_⟩
          rw [List.append_assoc, List.singleton_append, unescape_cons inert_space.backslash, undone, undone']
          simp
        · exact ⟨safe.append safe', by rw [List.nil_append, undone, undone', List.nil_append]⟩
    exact ⟨safe.append rest.1, by rw [joined, undone, rest.2, joined]⟩

/-- **`#` spells one string literal that `_Pragma` reads as the argument** exactly if the argument fits, and the
result has a length that positions can tell. -/
theorem stringize_right_iff (std : Std) (objC : Bool) (arg : List Spelling) (made : ∀ t ∈ arg, Made t) :
    (OneString std objC (stringize arg) ∧ destringize (stringize arg) = meant arg) ↔
      (stringize arg).length < 2147483647 ∧ Fits arg := by
  have undone : destringize (stringize arg) = unescape (joined Spelling.written arg) := destringize_quoted _
  constructor
  · rintro ⟨string, same⟩
    obtain ⟨one, small⟩ := OneString.line string
    refine ⟨small, fun t mem => ⟨fun comment => ?_, fun literal c mem' => ?_⟩⟩
    · -- the slash of a comment is written
      rw [undone, meant] at same
      have counted := congrArg (List.count slash) same
      rw [count_unescape, count_joined, count_joined] at counted
      simp only [count_written] at counted
      have none := weightless_of_sum_filter counted.symm t mem (by simp [comment])
      exact absurd (made t mem).lexed.1 fun has => List.count_eq_zero.1 none (has comment)
    · have written : c ∈ t.written := by
        rw [Spelling.written, if_pos literal]
        refine List.mem_flatMap.2 ⟨c, mem', ?_⟩
        rw [escape]
        split <;> simp
      have inside : c ∈ joined Spelling.written arg := by
        cases arg with
        | nil => cases mem
        | cons u us =>
          rcases List.mem_cons.1 mem with rfl | mem
          · exact List.mem_append_left _ written
          · exact List.mem_append_right _ (List.mem_flatMap.2 ⟨t, mem, List.mem_append_right _ written⟩)
      exact one c (List.mem_cons_of_mem _ (List.mem_append_left _ inside))
  · rintro ⟨small, fits⟩
    obtain ⟨safe, same⟩ := joined_safe made fits
    refine ⟨oneString_safe std objC safe small, ?_⟩
    rw [undone, same, meant]
    congr 1
    exact (List.filter_eq_self.2 fun t mem => decide_eq_true (fits t mem).1).symm

/-- The tokens of a source may be an argument, without a stray backslash. -/
theorem made_argumentOf {std : Std} {mode : Mode} {src : List UInt8} (small : src.length < 2147483647)
    (stray : ∀ t ∈ argumentOf std mode src, t.text ≠ [Scanner.backslash]) : ∀ t ∈ argumentOf std mode src, Made t := by
  intro t mem
  have other := stray t mem
  unfold argumentOf at mem
  split at mem
  · rename_i toks diags ran
    obtain ⟨u, mem', rfl⟩ := List.mem_map.1 mem
    exact .scanned _ small ran (List.mem_of_mem_dropLast mem') other
  · cases mem

/-- `a + "b"` -/
def sumArgument : List Spelling := argumentOf .cxx23 { scanPP := true } (bytes "a + \"b\"")

theorem sumArgument_eq : sumArgument = [⟨.ident, true, bytes "a"⟩, ⟨.add, true, bytes "+"⟩, ⟨.stringLit, true, bytes "\"b\""⟩] := by
  decide +kernel

theorem sumArgument_right : OneString .cxx23 false (stringize sumArgument) ∧ destringize (stringize sumArgument) = meant sumArgument := by
  have made : ∀ t ∈ sumArgument, Made t := made_argumentOf (by decide) (by
    rw [show argumentOf .cxx23 { scanPP := true } (bytes "a + \"b\"") = _ from sumArgument_eq]
    decide)
  exact (stringize_right_iff .cxx23 false sumArgument made).2 (by rw [sumArgument_eq]; decide)

/-- `R"(a`, the line's end and `b)"`. -/
def rawOverLines : List Spelling := argumentOf .cxx23 { scanPP := true } (bytes "R\"(a" ++ newline :: bytes "b)\"")

theorem rawOverLines_eq : rawOverLines = [⟨.stringLit, true, bytes "R\"(a" ++ newline :: bytes "b)\""⟩] := by decide +kernel

/-- The line's end stays in the result. -/
theorem rawOverLines_broken : (∀ t ∈ rawOverLines, Made t) ∧ rawOverLines.length = 1 ∧ ¬OneString .cxx23 false (stringize rawOverLines) := by
  have stray : ∀ t ∈ argumentOf .cxx23 { scanPP := true } (bytes "R\"(a" ++ newline :: bytes "b)\""), t.text ≠ [Scanner.backslash] := by
    rw [show argumentOf .cxx23 { scanPP := true } (bytes "R\"(a" ++ newline :: bytes "b)\"") = _ from rawOverLines_eq]
    decide
  refine ⟨made_argumentOf (by decide) stray, by rw [rawOverLines_eq]; rfl, fun string => ?_⟩
  have inside : newline ∈ stringize rawOverLines := by
    rw [rawOverLines_eq]
    decide
  exact absurd ((OneString.line string).1 newline inside) (by decide)

end Vcx.Stringize
