import Vcx.Scanner.Literals

/-!
# Scanning numbers

`scanNumber` takes a preprocessing number, `classify` tells an integer from a floating-point
literal and finds what is wrong with it.
-/

namespace Vcx.Scanner
set_option autoImplicit false
open Vcx.Token (Kind bytes)

/-- The text after a sign, if there is one. -/
def afterSign (s : List UInt8) : List UInt8 :=
  if s.head? = some '+'.toUInt8 ∨ s.head? = some '-'.toUInt8 then s.tail else s

/-- A round of the loop of `scanNumber`. -/
def numberPart (s : List UInt8) : Option (List UInt8 × List Problem) :=
  match s with
  | [] => none
  | c :: rest =>
    if isDigit c || c = '.'.toUInt8 then some (rest, [])
    else if isOneOf "eEpP" c then some (afterSign rest, [])
    else if c = apostrophe ∧ rest.head?.any (fun d => isDigit d || isIdentStart d) then some (rest, [])
    else identPart s

theorem numberPart_length {s rest : List UInt8} {ps : List Problem} (part : numberPart s = some (rest, ps)) :
    rest.length < s.length := by
  cases s with
  | nil => cases part
  | cons c s =>
    simp only [numberPart] at part
    split at part
    · cases part
      exact Nat.lt_succ_self _
    split at part
    · cases part
      have tail := s.length_tail
      unfold afterSign
      split
      · rw [List.length_cons]
        omega
      · exact Nat.lt_succ_self _
    split at part
    · cases part
      exact Nat.lt_succ_self _
    · exact identPart_length part

/-- The loop of `scanNumber`. -/
def numberParts (s : List UInt8) : List UInt8 × List Problem :=
  match _part : numberPart s with
  | none => (s, [])
  | some (rest, ps) =>
    let more := numberParts rest
    (more.1, ps ++ more.2)
termination_by s.length
decreasing_by exact numberPart_length _part

/-- `digits`: how many digits there are, with separators between them, and what follows. -/
def digits (isDigit : UInt8 → Bool) (n : Nat) : List UInt8 → Nat × List UInt8
  | [] => (n, [])
  | [c] => if isDigit c then (n + 1, []) else (n, [c])
  | c :: d :: rest =>
    if isDigit c then digits isDigit (n + 1) (d :: rest)
    else if c = apostrophe ∧ 0 < n ∧ isDigit d then digits isDigit (n + 1) rest
    else (n, c :: d :: rest)

/-- `msvcSizedSuffix`. -/
def msvcSizedSuffix (t : List UInt8) : Bool :=
  let t := if t.head? = some 'u'.toUInt8 ∨ t.head? = some 'U'.toUInt8 then t.tail else t
  (t.head? = some 'i'.toUInt8 ∨ t.head? = some 'I'.toUInt8) && ["8", "16", "32", "64"].any (bytes · = t.tail)

/-- The loop of `isIntSuffix`, with whether a sign and a size have been seen. -/
def intSuffixParts (u size : Bool) : List UInt8 → Bool
  | [] => true
  | [c] =>
    (isOneOf "uU" c && !u) || (isOneOf "lLzZ" c && !size)
  | c :: d :: rest =>
    if isOneOf "uU" c && !u then intSuffixParts true size (d :: rest)
    else if isOneOf "lL" c && !size then
      if d = c then intSuffixParts u true rest else intSuffixParts u true (d :: rest)
    else if isOneOf "zZ" c && !size then intSuffixParts u true (d :: rest)
    else false

/-- `isIntSuffix`. -/
def isIntSuffix (t : List UInt8) : Bool := msvcSizedSuffix t || intSuffixParts false false t

/-- `isFloatSuffix`. -/
def isFloatSuffix (t : List UInt8) : Bool :=
  ["f", "F", "l", "L", "f16", "F16", "f32", "F32", "f64", "F64", "f128", "F128", "bf16", "BF16"].any (bytes · = t)

/-- `isUDSuffix`. -/
def isUDSuffix (t : List UInt8) : Bool :=
  t.head?.any (fun c => isIdentStart c || 0x80 ≤ c || c = backslash) &&
    t.all fun c => isIdentPart c || 0x80 ≤ c || c = backslash

/-- What is found of a number before its suffix: an error with the kind of the token, or whether
it is a floating-point one, and the suffix. -/
def beforeSuffix (t : List UInt8) : Except (Kind × Message) (Bool × List UInt8) :=
  let second := t.tail.head?
  let zero := t.head? = some '0'.toUInt8
  if zero ∧ (second = some 'b'.toUInt8 ∨ second = some 'B'.toUInt8) then
    let run := digits isBinDigit 0 (t.drop 2)
    if run.1 = 0 then .error (.intLit, .noBinaryDigits) else .ok (false, run.2)
  else if zero ∧ (second = some 'x'.toUInt8 ∨ second = some 'X'.toUInt8) then
    let whole := digits isHexDigit 0 (t.drop 2)
    let isFloat := whole.2.head? = some '.'.toUInt8
    let fraction := if isFloat then digits isHexDigit 0 whole.2.tail else (0, whole.2)
    if whole.1 + fraction.1 = 0 then .error (.intLit, .noHexadecimalDigits)
    else if fraction.2.head?.any (isOneOf "pP") then
      let exponent := digits isDigit 0 (afterSign fraction.2.tail)
      if exponent.1 = 0 then .error (.floatLit, .noBinaryExponentDigits) else .ok (true, exponent.2)
    else if isFloat then .error (.floatLit, .noBinaryExponent)
    else .ok (false, fraction.2)
  else
    let whole := digits isDigit 0 t
    let dotted := whole.2.head? = some '.'.toUInt8
    let fraction := if dotted then digits isDigit 0 whole.2.tail else (0, whole.2)
    if fraction.2.head?.any (isOneOf "eE") then
      let exponent := digits isDigit 0 (afterSign fraction.2.tail)
      if exponent.1 = 0 then .error (.floatLit, .noExponentDigits) else .ok (true, exponent.2)
    else if !dotted && zero && (upTo t fraction.2).tail.any (fun c => c ≠ apostrophe && '7'.toUInt8 < c) then
      .error (.intLit, .badOctalDigit)
    else .ok (dotted, fraction.2)

/-- `classify`: the kind, whether there is a ud-suffix, and what is wrong. -/
def classify (t : List UInt8) : Kind × Bool × Option Message :=
  if 2 ≤ t.count '.'.toUInt8 then (.floatLit, false, none)
  else match beforeSuffix t with
    | .error (kind, message) => (kind, false, some message)
    | .ok (isFloat, suffix) =>
      let kind := if isFloat then Kind.floatLit else .intLit
      if suffix = [] then (kind, false, none)
      else if suffix.head? = some apostrophe then (kind, false, some .badSeparator)
      else if suffix.head? = some '+'.toUInt8 ∨ suffix.head? = some '-'.toUInt8 then (kind, false, some (.signedSuffix suffix))
      else if (if isFloat then isFloatSuffix suffix else isIntSuffix suffix) then (kind, false, none)
      else if isUDSuffix suffix then (kind, true, none)
      else (kind, false, some (.badSuffix suffix))

/-- `scanNumber`. -/
def scanNumber (s : List UInt8) : Lexeme :=
  let parts := numberParts s
  let c := classify (upTo s parts.1)
  { kind := c.1, userDefined := c.2.1, rest := parts.1,
    problems := parts.2 ++ c.2.2.toList.map fun message => ⟨true, s.length, parts.1.length, message⟩ }

end Vcx.Scanner
