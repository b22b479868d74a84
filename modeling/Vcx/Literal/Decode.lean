import Vcx.Lib.Utf8

/-!
# Decoding string and character literals

The package `literal`: a literal's spelling is taken apart into prefix, body and ud-suffix, and
the escape sequences of its body become code units. Adjacent string literals are one string.
-/

namespace Vcx.Literal
set_option autoImplicit false
open Vcx.Lib

/-- `Encoding`: a literal's encoding prefix. -/
inductive Encoding where
  | narrow
  | utf8
  | utf16
  | utf32
  | wide
  deriving Repr, DecidableEq

/-- The spelling of an encoding prefix. -/
def Encoding.spelling : Encoding → List UInt8
  | .narrow => []
  | .utf8 => ['u'.toUInt8, '8'.toUInt8]
  | .utf16 => ['u'.toUInt8]
  | .utf32 => ['U'.toUInt8]
  | .wide => ['L'.toUInt8]

/-- What decoding reports instead of a string. `outOfRange` is the slice `raw[i+1 : len(raw)-1]`
of a spelling whose only quote is its last byte, where the program panics. -/
inductive Fault where
  | malformed (raw : List UInt8)
  | unknownPrefix (text : List UInt8)
  | malformedRaw (raw : List UInt8)
  | outOfRange
  | endsInBackslash
  | noHexDigits
  | fewDigits (esc : UInt8) (width : Nat)
  | unknownEscape (esc : UInt8)
  | differentPrefixes (first second : Encoding)
  | malformedChar (raw : List UInt8)
  | unknownCharPrefix (text : List UInt8)
  | emptyChar
  | moreThanOneUnit (raw : List UInt8)
  deriving Repr, DecidableEq

/-- `String`: a decoded string literal. -/
structure Str where
  enc : Encoding
  units : List Nat
  suffix : List UInt8
  deriving Repr, DecidableEq

def quote : UInt8 := '"'.toUInt8
def apostrophe : UInt8 := '\''.toUInt8
def backslash : UInt8 := '\\'.toUInt8

/-- `isIdentStart`, of a byte. -/
def isIdentStart (c : UInt8) : Bool :=
  c = '_'.toUInt8 || inBytes 'a'.toUInt8 'z'.toUInt8 c || inBytes 'A'.toUInt8 'Z'.toUInt8 c

/-- `isHexDigit`. -/
def isHexDigit (c : UInt8) : Bool :=
  inBytes '0'.toUInt8 '9'.toUInt8 c || inBytes 'a'.toUInt8 'f'.toUInt8 c || inBytes 'A'.toUInt8 'F'.toUInt8 c

def isOctDigit (c : UInt8) : Bool := inBytes '0'.toUInt8 '7'.toUInt8 c

/-- The value of a hexadecimal digit. -/
def digit (c : UInt8) : Nat :=
  if inBytes '0'.toUInt8 '9'.toUInt8 c then c.toNat - '0'.toNat
  else if inBytes 'a'.toUInt8 'f'.toUInt8 c then c.toNat - 'a'.toNat + 10
  else c.toNat - 'A'.toNat + 10

/-- `ParseUint(ds, base, 32)`, of digits of the base: what does not fit is the largest number. -/
def parseUint (base : Nat) (ds : List UInt8) : Nat :=
  min (ds.foldl (fun n d => n * base + digit d) 0) 0xFFFFFFFF

/-- `encode`: one source character as the encoding's code units. -/
def encode (r : Nat) (enc : Encoding) : List Nat :=
  match enc with
  | .narrow | .utf8 => if r < 0x80 then [r] else encodeRune r
  | .utf16 => if 0x10000 ≤ r then [0xD800 + (r - 0x10000) / 1024, 0xDC00 + (r - 0x10000) % 1024] else [r]
  | .utf32 | .wide => [r]

/-! ### The parts of a spelling -/

/-- The ud-suffix after the last quote, and the spelling without it. -/
def cutSuffix (raw : List UInt8) : List UInt8 × List UInt8 :=
  let suffix := (raw.reverse.takeWhile (· ≠ quote)).reverse
  let quoted := (raw.reverse.dropWhile (· ≠ quote)).reverse
  match suffix with
  | c :: _ => if isIdentStart c && quoted.dropLast.contains quote then (suffix, quoted) else ([], raw)
  | [] => ([], raw)

/-- The encoding a prefix stands for. -/
def encodingOf (text : List UInt8) : Option Encoding :=
  [Encoding.narrow, .utf8, .utf16, .utf32, .wide].find? (·.spelling = text)

/-- The body between the raw delimiters: the delimiter is what stands before the first
parenthesis. -/
def rawBody (body : List UInt8) : Option (List UInt8) :=
  let delim := body.takeWhile (· ≠ '('.toUInt8)
  let tail := ')'.toUInt8 :: delim
  let rest := body.dropWhile (· ≠ '('.toUInt8)
  if rest = [] || body.length < delim.length + 1 + tail.length || body.drop (body.length - tail.length) ≠ tail then none
  else some ((body.drop (delim.length + 1)).take (body.length - tail.length - (delim.length + 1)))

/-- What `split` finds in a spelling. -/
structure Parts where
  enc : Encoding
  isRaw : Bool
  body : List UInt8
  suffix : List UInt8
  deriving Repr, DecidableEq

/-- `split`. -/
def split (raw : List UInt8) : Except Fault Parts :=
  let (suffix, raw) := cutSuffix raw
  let before := raw.takeWhile (· ≠ quote)
  if before.length = raw.length || raw.getLast? ≠ some quote then .error (.malformed raw)
  else
    let isRaw := before.getLast? = some 'R'.toUInt8
    let text := if isRaw then before.dropLast else before
    match encodingOf text with
    | none => .error (.unknownPrefix text)
    | some enc =>
      if raw.length ≤ before.length + 1 then .error .outOfRange
      else
        let body := (raw.drop (before.length + 1)).dropLast
        if isRaw then
          match rawBody body with
          | none => .error (.malformedRaw raw)
          | some body => .ok ⟨enc, true, body, suffix⟩
        else .ok ⟨enc, false, body, suffix⟩

/-! ### The characters of a body -/

/-- What stands in a literal: a character, which the encoding decides how to store, or a
code unit, given as its number. -/
inductive Item where
  | char (r : Nat)
  | unit (n : Nat)
  deriving Repr, DecidableEq

/-- The code units of an item. -/
def Item.units (enc : Encoding) : Item → List Nat
  | .char r => encode r enc
  | .unit n => [n]

/-- The escapes of one letter. -/
def simpleEscapes : List (Char × Nat) :=
  [('n', 10), ('t', 9), ('r', 13), ('a', 7), ('b', 8), ('f', 12), ('v', 11), ('e', 27),
    ('\\', 92), ('\'', 39), ('"', 34), ('?', 63)]

def simpleEscape (esc : UInt8) : Option Nat :=
  (simpleEscapes.find? (·.1.toUInt8 = esc)).map (·.2)

/-- The number of digits of a universal character name. -/
def width (esc : UInt8) : Nat := if esc = 'U'.toUInt8 then 8 else 4

/-- The `switch` of `unescape`: the escape after a backslash, and what follows it. -/
def escape : List UInt8 → Except Fault (Item × List UInt8)
  | [] => .error .endsInBackslash
  | esc :: rest =>
    match simpleEscape esc with
    | some n => .ok (.unit n, rest)
    | none =>
      if esc = 'x'.toUInt8 then
        if rest.takeWhile isHexDigit = [] then .error .noHexDigits
        else .ok (.unit (parseUint 16 (rest.takeWhile isHexDigit)), rest.dropWhile isHexDigit)
      else if esc = 'u'.toUInt8 || esc = 'U'.toUInt8 then
        if rest.length < width esc || !(rest.take (width esc)).all isHexDigit then .error (.fewDigits esc (width esc))
        else .ok (.char (parseUint 16 (rest.take (width esc))), rest.drop (width esc))
      else if isOctDigit esc then
        let more := (rest.take 2).takeWhile isOctDigit
        .ok (.unit (parseUint 8 (esc :: more)), rest.drop more.length)
      else .error (.unknownEscape esc)

/-- The item at a byte that is no backslash: a byte that is no UTF-8 is kept as one. -/
def written (c : UInt8) (rest : List UInt8) : Item :=
  let r := decodeRune (c :: rest)
  if r.1 = runeError ∧ r.2 = 1 then .unit c.toNat else .char r.1

theorem escape_length {body rest : List UInt8} {item : Item} (run : escape body = .ok (item, rest)) :
    rest.length < body.length := by
  cases body with
  | nil => cases run
  | cons esc after =>
    simp only [escape] at run
    split at run
    · cases run
      exact Nat.lt_succ_self _
    · split at run
      · split at run
        · cases run
        · cases run
          exact Nat.lt_succ_of_le (List.dropWhile_sublist _).length_le
      split at run
      · split at run
        · cases run
        · cases run
          exact Nat.lt_succ_of_le (List.drop_sublist _ _).length_le
      split at run
      · cases run
        exact Nat.lt_succ_of_le (List.drop_sublist _ _).length_le
      · cases run

theorem drop_decodeRune_length (c : UInt8) (rest : List UInt8) :
    ((c :: rest).drop (decodeRune (c :: rest)).2).length < (c :: rest).length := by
  have size := decodeRune_size c rest
  rw [List.length_drop]
  omega

/-- `unescape`: a body's code units. -/
def unescape (enc : Encoding) (body : List UInt8) : Except Fault (List Nat) :=
  match body with
  | [] => .ok []
  | c :: rest =>
    if c ≠ backslash then
      (unescape enc ((c :: rest).drop (decodeRune (c :: rest)).2)).map ((written c rest).units enc ++ ·)
    else
      match _run : escape rest with
      | .error fault => .error fault
      | .ok (item, rest') => (unescape enc rest').map (item.units enc ++ ·)
termination_by body.length
decreasing_by
  · exact drop_decodeRune_length c rest
  · exact Nat.lt_succ_of_lt (escape_length _run)

/-- The characters of a raw body, as Go's `range` gives them. -/
def runes (body : List UInt8) : List Nat :=
  match body with
  | [] => []
  | c :: rest => (decodeRune (c :: rest)).1 :: runes ((c :: rest).drop (decodeRune (c :: rest)).2)
termination_by body.length
decreasing_by exact drop_decodeRune_length c rest

/-! ### Whole literals -/

/-- The units of one segment, in the encoding of its own prefix. -/
def Parts.units (p : Parts) : Except Fault (List Nat) :=
  if p.isRaw then .ok ((runes p.body).flatMap (encode · p.enc)) else unescape p.enc p.body

/-- The loop of `Decode`. -/
def decodeFrom (s : Str) (seenEnc : Bool) : List (List UInt8) → Except Fault Str
  | [] => .ok s
  | raw :: segs =>
    match split raw with
    | .error fault => .error fault
    | .ok p =>
      let s := if p.suffix ≠ [] then { s with suffix := p.suffix } else s
      if p.enc ≠ .narrow && seenEnc && p.enc ≠ s.enc then .error (.differentPrefixes s.enc p.enc)
      else
        let s := if p.enc ≠ .narrow then { s with enc := p.enc } else s
        match p.units with
        | .error fault => .error fault
        | .ok units => decodeFrom { s with units := s.units ++ units } (seenEnc || p.enc ≠ .narrow) segs

/-- `Decode`: adjacent string literals as one string. -/
def decode (segs : List (List UInt8)) : Except Fault Str := decodeFrom ⟨.narrow, [], []⟩ false segs

/-- `Char`: a character literal's value, its encoding, and whether it has several characters. -/
def char (spelling : List UInt8) : Except Fault (Nat × Encoding × Bool) :=
  let before := spelling.takeWhile (· ≠ apostrophe)
  if before.length = spelling.length || spelling.length < before.length + 3 || spelling.getLast? ≠ some apostrophe then
    .error (.malformedChar spelling)
  else match encodingOf before with
    | none => .error (.unknownCharPrefix before)
    | some enc =>
      match unescape enc (spelling.drop (before.length + 1)).dropLast with
      | .error fault => .error fault
      | .ok [] => .error .emptyChar
      | .ok [u] => .ok (u, enc, false)
      | .ok units =>
        if enc ≠ .narrow then .error (.moreThanOneUnit spelling)
        else .ok (units.foldl (fun value u => (value * 256 % 0x100000000) ||| (u % 256)) 0, enc, true)

end Vcx.Literal
