import Mathlib.Algebra.Ring.Nat
import Vcx.Preprocessor.Token
import Vcx.Scanner.Scan

/-!
# Stringizing, in bytes

`Stringize`, `destringize` and what it means that the scanner reads the one's result as a string
literal. Escaped text is text no byte of which ends the literal, and undoing the escapes gives the
text back.
-/

namespace Vcx.Stringize
set_option autoImplicit false
open Vcx.Token (Kind File Std Diagnostic bytes)
open Vcx.Scanner (Message quote backslash isNewline isDigit scan)

def space : UInt8 := ' '.toUInt8
def slash : UInt8 := '/'.toUInt8
def newline : UInt8 := '\n'.toUInt8

/-- A token as `Stringize` reads it. -/
structure Spelling where
  kind : Kind
  spaced : Bool
  text : List UInt8
  deriving Repr, DecidableEq

/-- A token of the preprocessor, with its text in bytes. -/
def Spelling.of (t : Preprocessor.Token) : Spelling := ⟨t.kind, t.spaced, t.text.toUTF8.data.toList⟩

def isLiteral (k : Kind) : Bool := k = .stringLit || k = .charLit

/-! ### `#` -/

/-- A byte of a literal, with a backslash where it needs one. -/
def escape (c : UInt8) : List UInt8 := if c = backslash || c = quote then [backslash, c] else [c]

/-- What is written for a token. -/
def Spelling.written (t : Spelling) : List UInt8 := if isLiteral t.kind then t.text.flatMap escape else t.text

/-- The loop of `Stringize`: a space where the tokens had any, but not before the first. -/
def joined (text : Spelling → List UInt8) : List Spelling → List UInt8
  | [] => []
  | t :: ts => text t ++ ts.flatMap fun t => (if t.spaced then [space] else []) ++ text t

/-- `Stringize` -/
def stringize (arg : List Spelling) : List UInt8 := quote :: joined Spelling.written arg ++ [quote]

/-! ### `_Pragma` -/

/-- The loop of `destringize`. -/
def unescape : List UInt8 → List UInt8
  | [] => []
  | [c] => [c]
  | c :: d :: rest => if c = backslash && (d = quote || d = backslash) then d :: unescape rest else c :: unescape (d :: rest)

/-- `strings.TrimPrefix` -/
def trimPrefix (start s : List UInt8) : List UInt8 := if start.isPrefixOf s then s.drop start.length else s

/-- `strings.TrimSuffix` -/
def trimSuffix (stop s : List UInt8) : List UInt8 := if stop.isSuffixOf s then s.take (s.length - stop.length) else s

/-- `destringize` -/
def destringize (lit : List UInt8) : List UInt8 :=
  let lit := match [bytes "u8", bytes "L", bytes "u", bytes "U"].find? (·.isPrefixOf lit) with
    | some encoding => lit.drop encoding.length
    | none => lit
  unescape (trimSuffix [quote] (trimPrefix [quote] lit))

/-! ### Scanning again -/

/-- The scan of `rescan`: of a spelling on a line of its own. -/
def rescanned (std : Std) (objC : Bool) (spelling : List UInt8) : Option (List Scanner.Token × List (Diagnostic Message)) :=
  let f := File.new (spelling ++ [newline])
  scan (f.text.length + 1) f std { scanPP := true, scanObjC := objC }

/-- The scanner reads a spelling as one ordinary string literal that is spelled so, and reports nothing, but
what it has reported of an identifier in it already. -/
def OneString (std : Std) (objC : Bool) (spelling : List UInt8) : Prop :=
  ∃ t e diags, rescanned std objC spelling = some ([t, e], diags) ∧ e.kind = .eof ∧
    t.kind = .stringLit ∧ t.raw = false ∧ t.userDefined = false ∧
    (File.new (spelling ++ [newline])).slice t.pos t.stop = spelling ∧
    ∀ d ∈ diags, ∃ need got, d.message = .malformedUcn need got

/-! ### Tokens -/

/-- `Text`, of a scanned token. -/
def tokenText (f : File) (t : Scanner.Token) : List UInt8 := if t.raw then f.raw t.pos t.stop else f.slice t.pos t.stop

/-- A token that an argument may have: one of a file, no stray backslash, a literal that was made, or the number
that `__LINE__` or `__COUNTER__` is. -/
inductive Made : Spelling → Prop
  | scanned {src : List UInt8} {std : Std} {mode : Scanner.Mode} {fuel : Nat} {toks : List Scanner.Token}
      {diags : List (Diagnostic Message)} {t : Scanner.Token} (spaced : Bool) (small : src.length < 2147483647)
      (ran : scan fuel (File.new src) std mode = some (toks, diags)) (mem : t ∈ toks)
      (stray : tokenText (File.new src) t ≠ [backslash]) : Made ⟨t.kind, spaced, tokenText (File.new src) t⟩
  | literal {kind : Kind} (is : isLiteral kind = true) (spaced : Bool) (text : List UInt8) : Made ⟨kind, spaced, text⟩
  | number (spaced : Bool) {text : List UInt8} (digits : ∀ c ∈ text, isDigit c = true ∨ c = '-'.toUInt8) :
      Made ⟨.intLit, spaced, text⟩

/-- **The condition** on an argument: no comment is kept in it, and no literal runs over a line's end. -/
def Fits (arg : List Spelling) : Prop :=
  ∀ t ∈ arg, t.kind ≠ .comment ∧ (isLiteral t.kind = true → ∀ c ∈ t.text, isNewline c = false)

instance (arg : List Spelling) : Decidable (Fits arg) :=
  letI (t : Spelling) : Decidable (∀ c ∈ t.text, isNewline c = false) := List.decidableBAll _ _
  inferInstanceAs (Decidable (∀ t ∈ arg, t.kind ≠ .comment ∧ (isLiteral t.kind = true → ∀ c ∈ t.text, isNewline c = false)))

/-- The tokens of a source, as an argument. -/
def argumentOf (std : Std) (mode : Scanner.Mode) (src : List UInt8) : List Spelling :=
  match scan (src.length + 1) (File.new src) std mode with
  | some (toks, _) => toks.dropLast.map fun t => ⟨t.kind, !t.adjacent, tokenText (File.new src) t⟩
  | none => []

/-- What `#` is to spell: the tokens, without comments. -/
def meant (arg : List Spelling) : List UInt8 := joined Spelling.text (arg.filter fun t => t.kind ≠ .comment)

/-! ### Escaped text -/

/-- A byte that neither ends a string literal nor starts an escape. -/
structure Inert (c : UInt8) : Prop where
  quote : c ≠ Scanner.quote
  backslash : c ≠ Scanner.backslash
  newline : isNewline c = false

/-- Text of a token that is no literal: a backslash in it starts a universal character name. -/
inductive Plain : List UInt8 → Prop
  | nil : Plain []
  | byte {c : UInt8} {s : List UInt8} (inert : Inert c) (rest : Plain s) : Plain (c :: s)
  | ucn {c : UInt8} {s : List UInt8} (is : c = 'u'.toUInt8 ∨ c = 'U'.toUInt8) (rest : Plain s) : Plain (backslash :: c :: s)

/-- Text in a string literal. -/
inductive Safe : List UInt8 → Prop
  | nil : Safe []
  | byte {c : UInt8} {s : List UInt8} (inert : Inert c) (rest : Safe s) : Safe (c :: s)
  | ucn {c : UInt8} {s : List UInt8} (is : c = 'u'.toUInt8 ∨ c = 'U'.toUInt8) (rest : Safe s) : Safe (backslash :: c :: s)
  | pair {c : UInt8} {s : List UInt8} (is : c = backslash ∨ c = quote) (rest : Safe s) : Safe (backslash :: c :: s)

theorem Plain.safe {s : List UInt8} (plain : Plain s) : Safe s := by
  induction plain with
  | nil => exact .nil
  | byte inert rest ih => exact .byte inert ih
  | ucn is rest ih => exact .ucn is ih

theorem Plain.append {s t : List UInt8} (left : Plain s) (right : Plain t) : Plain (s ++ t) := by
  induction left with
  | nil => exact right
  | byte inert rest ih => exact .byte inert ih
  | ucn is rest ih => exact .ucn is ih

theorem Plain.of_inert {s : List UInt8} (inert : ∀ c ∈ s, Inert c) : Plain s := by
  induction s with
  | nil => exact .nil
  | cons c s ih => exact .byte (inert c List.mem_cons_self) (ih fun d mem => inert d (List.mem_cons_of_mem c mem))

theorem Safe.append {s t : List UInt8} (left : Safe s) (right : Safe t) : Safe (s ++ t) := by
  induction left with
  | nil => exact right
  | byte inert rest ih => exact .byte inert ih
  | ucn is rest ih => exact .ucn is ih
  | pair is rest ih => exact .pair is ih

theorem Safe.drop {s t : List UInt8} (safe : Safe (s ++ t)) (inert : ∀ c ∈ s, c ≠ backslash) : Safe t := by
  induction s with
  | nil => exact safe
  | cons c s ih =>
    have other := inert c List.mem_cons_self
    have ih := fun rest => ih rest fun d mem => inert d (List.mem_cons_of_mem c mem)
    rw [List.cons_append] at safe
    generalize s ++ t = whole at safe ih
    cases safe with
    | byte _ rest => exact ih rest
    | ucn is rest => exact absurd rfl other
    | pair is rest => exact absurd rfl other

theorem newline_of_letter {c : UInt8} (is : c = 'u'.toUInt8 ∨ c = 'U'.toUInt8) : isNewline c = false := by
  rcases is with rfl | rfl <;> rfl

theorem Safe.newline {s : List UInt8} (safe : Safe s) : ∀ c ∈ s, isNewline c = false := by
  induction safe with
  | nil => simp
  | byte inert rest ih => exact List.forall_mem_cons.2 ⟨inert.newline, ih⟩
  | ucn is rest ih => exact List.forall_mem_cons.2 ⟨rfl, List.forall_mem_cons.2 ⟨newline_of_letter is, ih⟩⟩
  | pair is rest ih =>
    refine List.forall_mem_cons.2 ⟨rfl, List.forall_mem_cons.2 ⟨?_, ih⟩⟩
    rcases is with rfl | rfl <;> rfl

theorem inert_space : Inert space := ⟨by decide, by decide, rfl⟩

theorem safe_escape {s : List UInt8} (one : ∀ c ∈ s, isNewline c = false) : Safe (s.flatMap escape) := by
  induction s with
  | nil => exact .nil
  | cons c s ih =>
    have rest := ih fun d mem => one d (List.mem_cons_of_mem c mem)
    rw [List.flatMap_cons, escape]
    split
    · rename_i special
      simp only [Bool.or_eq_true, decide_eq_true_eq] at special
      exact .pair special rest
    · rename_i other
      simp only [Bool.or_eq_true, decide_eq_true_eq, not_or] at other
      exact .byte ⟨other.2, other.1, one c List.mem_cons_self⟩ rest

/-! ### Undoing the escapes -/

attribute [local simp] unescape

theorem unescape_cons {c : UInt8} (other : c ≠ backslash) (s : List UInt8) : unescape (c :: s) = c :: unescape s := by
  cases s with
  | nil => rfl
  | cons d rest => simp [unescape, other]

theorem unescape_pair {c : UInt8} (is : c = backslash ∨ c = quote) (s : List UInt8) :
    unescape (backslash :: c :: s) = c :: unescape s := by
  rcases is with rfl | rfl <;> simp [unescape]

theorem unescape_ucn {c : UInt8} (is : c = 'u'.toUInt8 ∨ c = 'U'.toUInt8) (s : List UInt8) :
    unescape (backslash :: c :: s) = backslash :: c :: unescape s := by
  have other : c ≠ backslash ∧ c ≠ quote := by rcases is with rfl | rfl <;> decide
  rw [unescape, if_neg (by simp [other]), unescape_cons other.1]

theorem unescape_plain {s : List UInt8} (plain : Plain s) (t : List UInt8) : unescape (s ++ t) = s ++ unescape t := by
  induction plain with
  | nil => rfl
  | byte inert rest ih => rw [List.cons_append, unescape_cons inert.backslash, ih, List.cons_append]
  | ucn is rest ih => rw [List.cons_append, List.cons_append, unescape_ucn is, ih, List.cons_append, List.cons_append]

theorem unescape_escape (s t : List UInt8) : unescape (s.flatMap escape ++ t) = s ++ unescape t := by
  induction s with
  | nil => rfl
  | cons c s ih =>
    rw [List.flatMap_cons, List.append_assoc, escape]
    split
    · rename_i special
      simp only [Bool.or_eq_true, decide_eq_true_eq] at special
      rw [List.cons_append, List.cons_append, List.nil_append, unescape_pair special, ih, List.cons_append]
    · rename_i other
      simp only [Bool.or_eq_true, decide_eq_true_eq, not_or] at other
      rw [List.cons_append, List.nil_append, unescape_cons other.1, ih, List.cons_append]

theorem destringize_quoted (s : List UInt8) : destringize (quote :: s ++ [quote]) = unescape s := by
  have encoding : [bytes "u8", bytes "L", bytes "u", bytes "U"].find? (·.isPrefixOf (quote :: s ++ [quote])) = none := by
    rw [List.find?_eq_none]
    intro e mem
    simp only [List.mem_cons, List.not_mem_nil, or_false] at mem
    rcases mem with rfl | rfl | rfl | rfl <;> exact fun starts => absurd (List.isPrefixOf_iff_prefix.1 starts) (by
      rw [show bytes _ = _ :: _ from rfl, List.cons_append, List.cons_prefix_cons]
      exact fun both => absurd both.1 (by decide))
  have opened : trimPrefix [quote] (quote :: s ++ [quote]) = s ++ [quote] := by simp [trimPrefix]
  have closed : trimSuffix [quote] (s ++ [quote]) = s := by simp [trimSuffix]
  simp only [destringize, encoding, opened, closed]

/-! ### Slashes -/

theorem count_unescape (s : List UInt8) : (unescape s).count slash = s.count slash := by
  fun_induction unescape s with
  | case1 => rfl
  | case2 c => rfl
  | case3 c d rest special ih =>
    simp only [Bool.and_eq_true, decide_eq_true_eq] at special
    rw [List.count_cons, ih, special.1, List.count_cons_of_ne (by decide), List.count_cons]
  | case4 c d rest other ih => rw [List.count_cons, ih, ← List.count_cons]

theorem count_escape (s : List UInt8) : (s.flatMap escape).count slash = s.count slash := by
  induction s with
  | nil => rfl
  | cons c s ih =>
    rw [List.flatMap_cons, List.count_append, ih, List.count_cons, Nat.add_comm]
    congr 1
    rw [escape]
    split
    · rename_i special
      simp only [Bool.or_eq_true, decide_eq_true_eq] at special
      rcases special with rfl | rfl <;> rfl
    · exact List.count_singleton ..

theorem count_written (t : Spelling) : t.written.count slash = t.text.count slash := by
  rw [Spelling.written]
  split
  · exact count_escape t.text
  · rfl

theorem count_joined (text : Spelling → List UInt8) (ts : List Spelling) :
    (joined text ts).count slash = (ts.map fun t => (text t).count slash).sum := by
  cases ts with
  | nil => rfl
  | cons t ts =>
    rw [joined, List.count_append, List.map_cons, List.sum_cons]
    congr 1
    induction ts with
    | nil => rfl
    | cons u ts ih =>
      rw [List.flatMap_cons, List.count_append, ih, List.count_append, List.map_cons, List.sum_cons]
      have none : (if u.spaced = true then [space] else []).count slash = 0 := by
        split <;> rfl
      rw [none, Nat.zero_add]

theorem sum_filter_le (weight : Spelling → Nat) (keep : Spelling → Bool) (ts : List Spelling) :
    ((ts.filter keep).map weight).sum ≤ (ts.map weight).sum := by
  induction ts with
  | nil => exact Nat.le_refl _
  | cons t ts ih =>
    rw [List.filter_cons]
    split
    · rw [List.map_cons, List.map_cons, List.sum_cons, List.sum_cons]
      omega
    · rw [List.map_cons, List.sum_cons]
      omega

/-- What is dropped weighs nothing where the rest weighs as much as all. -/
theorem weightless_of_sum_filter {weight : Spelling → Nat} {keep : Spelling → Bool} {ts : List Spelling}
    (same : ((ts.filter keep).map weight).sum = (ts.map weight).sum) : ∀ t ∈ ts, keep t = false → weight t = 0 := by
  induction ts with
  | nil => simp
  | cons u ts ih =>
    have le := sum_filter_le weight keep ts
    intro t mem dropped
    cases kept : keep u with
    | true =>
      rw [List.filter_cons_of_pos kept, List.map_cons, List.map_cons, List.sum_cons, List.sum_cons] at same
      rcases List.mem_cons.1 mem with rfl | mem
      · rw [kept] at dropped
        cases dropped
      · exact ih (by omega) t mem dropped
    | false =>
      rw [List.filter_cons_of_neg (by simp [kept]), List.map_cons, List.sum_cons] at same
      rcases List.mem_cons.1 mem with rfl | mem
      · omega
      · exact ih (by omega) t mem dropped

end Vcx.Stringize
