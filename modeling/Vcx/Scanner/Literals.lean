import Vcx.Token.Keywords
import Vcx.Token.File
import Vcx.Lib.Utf8

/-!
# Scanning identifiers, numbers and literals

`scanner/literals.go`. The text that is left is the cursor: a routine takes it and gives what is
left after it, and the problems it met, in order. A position is told by the number of bytes that
are left there.
-/

namespace Vcx.Scanner
set_option autoImplicit false
open Vcx.Lib
open Vcx.Token (Kind File Std Translated bytes lookup isAltToken)

/-! ### Characters -/

def quote : UInt8 := '"'.toUInt8
def apostrophe : UInt8 := '\''.toUInt8
def backslash : UInt8 := '\\'.toUInt8

def isDigit (c : UInt8) : Bool := inBytes '0'.toUInt8 '9'.toUInt8 c
def isLetter (c : UInt8) : Bool := inBytes 'a'.toUInt8 'z'.toUInt8 c || inBytes 'A'.toUInt8 'Z'.toUInt8 c
def isBinDigit (c : UInt8) : Bool := c = '0'.toUInt8 || c = '1'.toUInt8
def isOctDigit (c : UInt8) : Bool := inBytes '0'.toUInt8 '7'.toUInt8 c
def isHexDigit (c : UInt8) : Bool :=
  isDigit c || inBytes 'a'.toUInt8 'f'.toUInt8 c || inBytes 'A'.toUInt8 'F'.toUInt8 c
def isIdentStart (c : UInt8) : Bool := c = '_'.toUInt8 || isLetter c
def isIdentPart (c : UInt8) : Bool := isIdentStart c || isDigit c

/-- A line terminator. -/
def isNewline (c : UInt8) : Bool := c = '\n'.toUInt8 || c = '\r'.toUInt8

/-- One of the characters of a text. -/
def isOneOf (chars : String) (c : UInt8) : Bool := chars.toList.any (·.toUInt8 = c)

/-! ### Problems -/

inductive Message
  | translated (message : Translated)
  | unterminatedComment
  | directiveInInput
  | illegalCharacter (c : UInt8)
  | strayBackslash
  | invalidUtf8
  | malformedUcn (need got : Nat)
  | longDelimiter (length : Nat)
  | badDelimiter
  | unterminatedRaw
  | noBinaryDigits
  | noHexadecimalDigits
  | noBinaryExponentDigits
  | noBinaryExponent
  | noExponentDigits
  | badOctalDigit
  | badSeparator
  | signedSuffix (suffix : List UInt8)
  | badSuffix (suffix : List UInt8)
  | unterminatedChar
  | emptyChar
  | unterminatedString
  | noDigits (escape : String)
  | unbraced (escape : String)
  | unterminatedEscape (escape : String)
  | unknownEscape (c : UInt8)
  | unmatched (closer : Kind)
  | unclosed (opener closer : Kind)
  | unclosedAtEnd (opener : Kind)
  deriving Repr, DecidableEq

/-- An error in a token. One of value is left to a later phase in preprocessor mode. The numbers
are those of the bytes left where it starts and where it ends. -/
structure Problem where
  ofValue : Bool := false
  left : Nat
  right : Nat
  message : Message
  deriving Repr, DecidableEq

/-! ### Identifiers -/

/-- `scanUCN`, at the backslash of `\u` or `\U`. -/
def scanUCN (s : List UInt8) : List UInt8 × List Problem :=
  let need := if s.tail.head? = some 'U'.toUInt8 then 8 else 4
  let digits := ((s.drop 2).take need).takeWhile isHexDigit
  let rest := s.drop (2 + digits.length)
  (rest, if digits.length < need then [⟨false, s.length, rest.length, .malformedUcn need digits.length⟩] else [])

/-- A backslash that starts a universal character name. -/
def atUCN (s : List UInt8) : Bool :=
  s.head? = some backslash && (s.tail.head? = some 'u'.toUInt8 || s.tail.head? = some 'U'.toUInt8)

/-- `identPart`: one character of an identifier. -/
def identPart (s : List UInt8) : Option (List UInt8 × List Problem) :=
  match s with
  | [] => none
  | c :: rest =>
    if isIdentPart c then some (rest, [])
    else if atUCN s then some (scanUCN s)
    else if 0x80 ≤ c then
      let r := decodeRune s
      if r.1 = runeError ∧ r.2 ≤ 1 then some (rest, [⟨false, s.length, rest.length, .invalidUtf8⟩])
      else some (s.drop r.2, [])
    else none

theorem scanUCN_length {s : List UInt8} (here : atUCN s = true) : (scanUCN s).1.length < s.length := by
  cases s with
  | nil => cases here
  | cons c rest =>
    simp only [scanUCN, List.length_drop, List.length_cons]
    omega

theorem identPart_length {s rest : List UInt8} {ps : List Problem} (part : identPart s = some (rest, ps)) :
    rest.length < s.length := by
  cases s with
  | nil => cases part
  | cons c s =>
    simp only [identPart] at part
    split at part
    · cases part
      exact Nat.lt_succ_self _
    split at part
    · rename_i here
      cases part
      exact scanUCN_length here
    split at part
    · split at part
      · cases part
        exact Nat.lt_succ_self _
      · cases part
        have size := decodeRune_size c s
        rw [List.length_drop]
        omega
    · cases part

/-- The loop `for s.identPart() {}`. -/
def identParts (s : List UInt8) : List UInt8 × List Problem :=
  match _part : identPart s with
  | none => (s, [])
  | some (rest, ps) =>
    let more := identParts rest
    (more.1, ps ++ more.2)
termination_by s.length
decreasing_by exact identPart_length _part

/-! ### Tokens -/

/-- A token scanned: what is left after it, and its problems. -/
structure Lexeme where
  kind : Kind
  digraph : Bool := false
  altToken : Bool := false
  raw : Bool := false
  userDefined : Bool := false
  rest : List UInt8
  problems : List Problem := []
  deriving Repr, DecidableEq

/-- The bytes from `s` up to where `rest` is left. -/
def upTo (s rest : List UInt8) : List UInt8 := s.take (s.length - rest.length)

/-- `scanIdent`. -/
def scanIdent (std : Std) (s : List UInt8) : Lexeme :=
  if s.head? = some backslash && !atUCN s then
    { kind := .illegal, rest := s.tail, problems := [⟨true, s.length, s.tail.length, .strayBackslash⟩] }
  else
    let (rest, problems) := identParts s
    let spelling := upTo s rest
    { kind := lookup std spelling, altToken := isAltToken spelling, rest := rest, problems := problems }

/-- `scanUDSuffix`: a ud-suffix, and whether there is one. -/
def scanUDSuffix (s : List UInt8) : Bool × List UInt8 × List Problem :=
  if s.head?.any (fun c => isIdentStart c || 0x80 ≤ c) || atUCN s then (true, identParts s) else (false, s, [])

/-! ### Escape sequences -/

/-- `delimited`: the digits in braces of an escape that starts where `start` bytes are left. -/
def delimited (start : Nat) (what : String) (isDigit : UInt8 → Bool) (s : List UInt8) : List UInt8 × List Problem :=
  if s.head? ≠ some '{'.toUInt8 then (s, [⟨true, start, s.length, .unbraced what⟩])
  else
    let digits := s.tail.takeWhile isDigit
    let rest := s.tail.dropWhile isDigit
    if rest.head? ≠ some '}'.toUInt8 then (rest, [⟨true, start, rest.length, .unterminatedEscape what⟩])
    else (rest.tail, if digits = [] then [⟨true, start, rest.tail.length, .noDigits what⟩] else [])

/-- `named`: the name in braces of `\N`. -/
def named (start : Nat) (s : List UInt8) : List UInt8 × List Problem :=
  if s.head? ≠ some '{'.toUInt8 then (s, [⟨true, start, s.length, .unbraced "N"⟩])
  else
    let name := s.tail.takeWhile fun c => !(isOneOf "\x7d\"'" c || isNewline c)
    let rest := s.tail.dropWhile fun c => !(isOneOf "\x7d\"'" c || isNewline c)
    if rest.head? ≠ some '}'.toUInt8 then (rest, [⟨true, start, rest.length, .unterminatedEscape "N"⟩])
    else (rest.tail, if name = [] then [⟨true, start, rest.tail.length, .noDigits "N"⟩] else [])

/-- `scanEscape`, at the backslash. -/
def scanEscape (s : List UInt8) : List UInt8 × List Problem :=
  match s.tail with
  | [] => ([], [])
  | c :: rest =>
    if isNewline c then (c :: rest, [])
    else if isOneOf "'\"?\\abfnrtv" c then (rest, [])
    else if isOctDigit c then (rest.drop ((rest.take 2).takeWhile isOctDigit).length, [])
    else if c = 'o'.toUInt8 then delimited s.length "o" isOctDigit rest
    else if c = 'x'.toUInt8 then
      if rest.head? = some '{'.toUInt8 then delimited s.length "x" isHexDigit rest
      else
        let rest' := rest.dropWhile isHexDigit
        (rest', if rest.takeWhile isHexDigit = [] then [⟨true, s.length, rest'.length, .noDigits "x"⟩] else [])
    else if c = 'u'.toUInt8 ∧ rest.head? = some '{'.toUInt8 then delimited s.length "u" isHexDigit rest
    else if c = 'u'.toUInt8 ∨ c = 'U'.toUInt8 then scanUCN s
    else if c = 'N'.toUInt8 then named s.length rest
    else (rest, [⟨true, s.length, rest.length, .unknownEscape c⟩])

theorem delimited_length (start : Nat) (what : String) (isDigit : UInt8 → Bool) (s : List UInt8) :
    (delimited start what isDigit s).1.length ≤ s.length := by
  have fewer := (List.dropWhile_sublist (l := s.tail) isDigit).length_le
  have tail := s.length_tail
  simp only [delimited]
  split
  · exact Nat.le_refl _
  · split
    · exact Nat.le_trans fewer (by omega)
    · have tail' := (s.tail.dropWhile isDigit).length_tail
      simp only
      omega

theorem named_length (start : Nat) (s : List UInt8) : (named start s).1.length ≤ s.length := by
  have fewer := (List.dropWhile_sublist (l := s.tail) fun c => !(isOneOf "\x7d\"'" c || isNewline c)).length_le
  have tail := s.length_tail
  simp only [named]
  split
  · exact Nat.le_refl _
  · split
    · exact Nat.le_trans fewer (by omega)
    · have tail' := (s.tail.dropWhile fun c => !(isOneOf "\x7d\"'" c || isNewline c)).length_tail
      simp only
      omega

/-- What an escape sequence leaves, with `c` behind the backslash. -/
inductive EscapeRest (s : List UInt8) (c : UInt8) (rest : List UInt8) : List UInt8 → Prop
  | newline (ends : isNewline c = true) : EscapeRest s c rest (c :: rest)
  | simple (within : isNewline c = false) : EscapeRest s c rest rest
  | octal (within : isNewline c = false) : EscapeRest s c rest (rest.drop ((rest.take 2).takeWhile isOctDigit).length)
  | delimited (within : isNewline c = false) (what : String) {isDigit : UInt8 → Bool}
      (digits : isDigit = isOctDigit ∨ isDigit = isHexDigit) : EscapeRest s c rest (delimited s.length what isDigit rest).1
  | hex (within : isNewline c = false) : EscapeRest s c rest (rest.dropWhile isHexDigit)
  | ucn (within : isNewline c = false) (letter : c = 'u'.toUInt8 ∨ c = 'U'.toUInt8) : EscapeRest s c rest (scanUCN s).1
  | named (within : isNewline c = false) : EscapeRest s c rest (named s.length rest).1

theorem scanEscape_rest {s : List UInt8} {c : UInt8} {rest : List UInt8} (tail : s.tail = c :: rest) :
    EscapeRest s c rest (scanEscape s).1 := by
  have branch {p : Prop} [Decidable p] {x y : List UInt8 × List Problem} (yes : p → EscapeRest s c rest x.1)
      (no : ¬p → EscapeRest s c rest y.1) : EscapeRest s c rest (if p then x else y).1 := by
    by_cases h : p
    · rw [if_pos h]
      exact yes h
    · rw [if_neg h]
      exact no h
  rw [scanEscape, tail]
  refine branch .newline fun ends => ?_
  have within : isNewline c = false := Bool.eq_false_iff.2 ends
  refine branch (fun _ => .simple within) fun _ => branch (fun _ => .octal within) fun _ => ?_
  refine branch (fun _ => .delimited within _ (.inl rfl)) fun _ => ?_
  refine branch (fun _ => branch (fun _ => .delimited within _ (.inr rfl)) fun _ => .hex within) fun _ => ?_
  refine branch (fun _ => .delimited within _ (.inr rfl)) fun _ => branch (.ucn within) fun _ => ?_
  exact branch (fun _ => .named within) fun _ => .simple within

/-- An escape sequence takes its backslash at least. -/
theorem scanEscape_length {s : List UInt8} (here : s ≠ []) : (scanEscape s).1.length < s.length := by
  obtain ⟨b, s, rfl⟩ := List.exists_cons_of_ne_nil here
  cases s with
  | nil => exact Nat.zero_lt_one
  | cons c rest =>
    have short {r : List UInt8} (le : r.length ≤ rest.length) : r.length < (b :: c :: rest).length :=
      Nat.lt_of_le_of_lt le (Nat.lt_trans (Nat.lt_succ_self _) (Nat.lt_succ_self _))
    have left : EscapeRest (b :: c :: rest) c rest (scanEscape (b :: c :: rest)).1 := scanEscape_rest rfl
    generalize (scanEscape (b :: c :: rest)).1 = r at left ⊢
    cases left with
    | newline => exact Nat.lt_succ_self _
    | simple => exact short (Nat.le_refl _)
    | octal => exact short (List.drop_sublist _ rest).length_le
    | delimited => exact short (delimited_length ..)
    | hex => exact short (List.dropWhile_sublist _).length_le
    | ucn =>
      simp only [scanUCN, List.length_drop, List.length_cons]
      omega
    | named => exact short (named_length ..)

/-! ### Strings and characters -/

/-- What `scanQuoted` finds: whether the closing quote is there, and the number of characters. -/
structure Quoted where
  terminated : Bool
  count : Nat
  rest : List UInt8
  problems : List Problem

/-- The loop of `scanQuoted`, after the opening quote. -/
def scanQuoted (quote : UInt8) (s : List UInt8) : Quoted :=
  match s with
  | [] => ⟨false, 0, [], []⟩
  | c :: rest =>
    if c = quote then ⟨true, 0, rest, []⟩
    else if isNewline c then ⟨false, 0, c :: rest, []⟩
    else if c = backslash then
      let escape := scanEscape (c :: rest)
      let more := scanQuoted quote escape.1
      ⟨more.terminated, more.count + 1, more.rest, escape.2 ++ more.problems⟩
    else
      let more := scanQuoted quote rest
      ⟨more.terminated, more.count + 1, more.rest, more.problems⟩
termination_by s.length
decreasing_by
  · exact scanEscape_length (List.cons_ne_nil _ _)
  · exact Nat.lt_succ_self _

/-- `scanChar`, at the quote of a literal that starts where `start` bytes are left. -/
def scanChar (start : Nat) (s : List UInt8) : Lexeme :=
  let q := scanQuoted apostrophe s.tail
  let own :=
    if !q.terminated then [⟨false, start, q.rest.length, .unterminatedChar⟩]
    else if q.count = 0 then [⟨true, start, q.rest.length, .emptyChar⟩]
    else []
  let suffix := if q.terminated then scanUDSuffix q.rest else (false, q.rest, [])
  { kind := .charLit, userDefined := suffix.1, rest := suffix.2.1, problems := q.problems ++ own ++ suffix.2.2 }

/-- `scanString`. -/
def scanString (start : Nat) (s : List UInt8) : Lexeme :=
  let q := scanQuoted quote s.tail
  let own := if !q.terminated then [⟨false, start, q.rest.length, .unterminatedString⟩] else []
  let suffix := if q.terminated then scanUDSuffix q.rest else (false, q.rest, [])
  { kind := .stringLit, userDefined := suffix.1, rest := suffix.2.1, problems := q.problems ++ own ++ suffix.2.2 }

/-! ### Raw strings -/

/-- `isRawDelimChar`. -/
def isRawDelimChar (c : UInt8) : Bool :=
  ' '.toUInt8 < c && c < 0x7F && c ≠ '('.toUInt8 && c ≠ ')'.toUInt8 && c ≠ backslash

/-- `bytes.Index`: where a text first stands in another. -/
def indexOf (text : List UInt8) : List UInt8 → Option Nat
  | [] => if text = [] then some 0 else none
  | c :: rest => if text.isPrefixOf (c :: rest) then some 0 else (indexOf text rest).map (· + 1)

/-- The text from where a raw offset leads to. -/
def fromRaw (f : File) (raw : Nat) : List UInt8 := f.text.drop (f.transOffset raw)

/-- `scanRawString`: the delimiters and the body are those of the source, before the translation. -/
def scanRawString (f : File) (start : Nat) (s : List UInt8) : Lexeme :=
  let i := (f.rawOff (f.text.length - s.length)).toNat + 1
  let delim := (f.src.drop i).takeWhile isRawDelimChar
  let i := i + delim.length
  let failed := fun (rest : List UInt8) message =>
    { kind := .stringLit, raw := true, rest := rest, problems := [⟨false, start, rest.length, message⟩] : Lexeme }
  if 16 < delim.length then failed (fromRaw f i) (.longDelimiter delim.length)
  else if f.src[i]? ≠ some '('.toUInt8 then failed (fromRaw f (i + 1)) .badDelimiter
  else
    let closer := ')'.toUInt8 :: delim ++ [quote]
    match indexOf closer (f.src.drop (i + 1)) with
    | none => failed [] .unterminatedRaw
    | some j =>
      let suffix := scanUDSuffix (fromRaw f (i + 1 + j + closer.length))
      { kind := .stringLit, raw := true, userDefined := suffix.1, rest := suffix.2.1, problems := suffix.2.2 }

/-! ### Prefixes -/

/-- `literalPrefixes`, each with whether it is that of a raw string. -/
def literalPrefixes : List (String × Bool) :=
  [("u8R\"", true), ("u8\"", false), ("u8'", false), ("uR\"", true), ("UR\"", true), ("LR\"", true), ("R\"", true),
    ("u\"", false), ("U\"", false), ("L\"", false), ("u'", false), ("U'", false), ("L'", false)]

/-- `scanIdentOrLiteralPrefix`. -/
def scanIdentOrLiteralPrefix (f : File) (std : Std) (s : List UInt8) : Lexeme :=
  match literalPrefixes.find? fun p => (bytes p.1).isPrefixOf s with
  | none => scanIdent std s
  | some p =>
    let atQuote := s.drop ((bytes p.1).length - 1)
    if p.2 then scanRawString f s.length atQuote
    else if (bytes p.1).getLast? = some apostrophe then scanChar s.length atQuote
    else scanString s.length atQuote

end Vcx.Scanner
