import Vcx.Scanner.Numbers
import Vcx.Lower.IntExprTypes

/-!
# The spelling of an integer literal

`parseIntegerLiteral` of `constexpr/eval.go`, and `checkBasicLit`, `integerLiteralType` and `suffixOf` of
`sema/expr.go`, on the bytes of a literal without a user-defined suffix. Both take the base and the suffix from
the spelling; the second gets the value as an `int64` from the first.
-/

namespace Vcx.IntLiteral
set_option autoImplicit false
open Vcx.Lib Vcx.Types Vcx.Scanner
open Vcx.Constexpr (bits isSignedKind)
open Vcx.IntExpr (Literal Length)
open Vcx.Token (bytes)

/-- `strings.ToLower`, of a byte. -/
def toLower (c : UInt8) : UInt8 := if inBytes 'A'.toUInt8 'Z'.toUInt8 c then c + 32 else c

/-- `strings.Contains` -/
def contains (text : String) (s : List UInt8) : Bool := s.tails.any (bytes text).isPrefixOf

/-- `strings.HasPrefix` -/
def hasPrefix (text : String) (s : List UInt8) : Bool := (bytes text).isPrefixOf s

/-! ### The evaluator -/

/-- The suffix loop of `parseIntegerLiteral`, from the end of the spelling: what is left, whether it is unsigned,
and the count of `long`. -/
def stripSuffix : List UInt8 → Bool → Nat → List UInt8 × Bool × Nat
  | [], unsigned, long => ([], unsigned, long)
  | [c], unsigned, long =>
    if c = 'u'.toUInt8 then ([], true, long)
    else if c = 'l'.toUInt8 then ([], unsigned, max long 1)
    else if c = 'z'.toUInt8 then ([], true, 1)
    else ([c], unsigned, long)
  | c :: d :: rest, unsigned, long =>
    if c = 'u'.toUInt8 then stripSuffix (d :: rest) true long
    else if c = 'l'.toUInt8 then
      if d = 'l'.toUInt8 then stripSuffix rest unsigned 2 else stripSuffix (d :: rest) unsigned (max long 1)
    else if c = 'z'.toUInt8 then stripSuffix (d :: rest) true 1
    else (c :: d :: rest, unsigned, long)

/-- The value of a digit or of a letter as one. -/
def digitValue (c : UInt8) : Option Nat :=
  if isDigit c then some (c.toNat - '0'.toNat)
  else if inBytes 'a'.toUInt8 'z'.toUInt8 c then some (c.toNat - 'a'.toNat + 10)
  else if inBytes 'A'.toUInt8 'Z'.toUInt8 c then some (c.toNat - 'A'.toNat + 10)
  else none

/-- A digit after the digits before it. -/
def addDigit (base n : Nat) (c : UInt8) : Option Nat :=
  match digitValue c with
  | some d => if d < base then some (n * base + d) else none
  | none => none

/-- `SetString` of a `big.Int`, of a text that has no sign. -/
def setString (s : List UInt8) (base : Nat) : Option Nat := if s = [] then none else s.foldlM (addDigit base) 0

/-- The base, and the text of the value. -/
def baseOf (lower : List UInt8) : Nat × List UInt8 :=
  if hasPrefix "0x" lower then (16, lower.drop 2)
  else if hasPrefix "0b" lower then (2, lower.drop 2)
  else if hasPrefix "0" lower && 1 < lower.length then (8, lower.drop 1)
  else (10, lower)

/-- The type that the suffix names. -/
def suffixType (unsigned : Bool) (long : Nat) : Kind :=
  if unsigned then
    match long with
    | 2 => .uLongLong
    | 1 => .uLong
    | _ => .uInt
  else
    match long with
    | 2 => .longLong
    | 1 => .long
    | _ => .int

/-- `parseIntegerLiteral` once the suffix is off. -/
def parseStripped (m : Model) (stripped : List UInt8 × Bool × Nat) : Option (Kind × Int) :=
  let (base, valStr) := baseOf stripped.1.reverse
  (setString valStr base).map fun (bi : Nat) =>
    let typ := suffixType stripped.2.1 stripped.2.2
    (typ, wrap (isSignedKind typ) (bits m typ) bi)

/-- `parseIntegerLiteral`: the type and the value reduced to it, `none` for a malformed literal. -/
def parseIntegerLiteral (m : Model) (text : List UInt8) : Option (Kind × Int) :=
  let lower := (text.filter (· ≠ apostrophe)).map toLower
  parseStripped m (stripSuffix lower.reverse false 0)

/-! ### The analyzer -/

/-- `suffixOf`: what stands behind the last digit. -/
def suffixOf (lower : List UInt8) : List UInt8 :=
  let (digits, lower) :=
    if hasPrefix "0x" lower then ("0123456789abcdef'", lower.drop 2)
    else if hasPrefix "0b" lower then ("01'", lower.drop 2)
    else ("0123456789'", lower)
  if lower.any (isOneOf digits) then (lower.reverse.takeWhile fun c => !isOneOf digits c).reverse else []

/-- `integerLiteralType` -/
def integerLiteralType (text : List UInt8) (val : Int) : Kind :=
  let lower := text.map toLower
  let suffix := suffixOf lower
  let unsigned := 'u'.toUInt8 ∈ suffix
  let longLong := contains "ll" suffix
  let long := !longLong && 'l'.toUInt8 ∈ suffix
  let decimal := !hasPrefix "0x" lower && !hasPrefix "0b" lower && !(1 < lower.length && lower.head? = some '0'.toUInt8)
  let u64 := val % 2 ^ 64
  if unsigned && longLong then .uLongLong
  else if unsigned && long then if u64 ≤ 0xFFFFFFFF then .uLong else .uLongLong
  else if unsigned then if u64 ≤ 0xFFFFFFFF then .uInt else .uLongLong
  else if longLong then .longLong
  else if long then if -2147483648 ≤ val ∧ val ≤ 2147483647 then .long else .longLong
  else if -2147483648 ≤ val ∧ val ≤ 2147483647 then .int
  else if !decimal && u64 ≤ 0xFFFFFFFF then .uInt
  else .longLong

/-- `checkBasicLit` of an integer literal: the type and the constant it records. -/
def checkBasicLit (m : Model) (text : List UInt8) : Kind × Int :=
  let val := ((parseIntegerLiteral m text).map fun v => wrap true 64 v.2).getD 0
  (integerLiteralType text val, val)

/-! ### [lex.icon] -/

/-- What the scanner takes for an integer literal without a user-defined suffix: it starts at a digit, and
`classify` finds nothing wrong with it. -/
structure Accepted (text : List UInt8) : Prop where
  start : text.head?.any isDigit = true
  classified : classify text = (.intLit, false, none)

/-- The base that a spelling is in, and its digits with the separators among them, and its suffix. -/
def parts (text : List UInt8) : Nat × List UInt8 × List UInt8 :=
  let zero := text.head? = some '0'.toUInt8
  let second := text.tail.head?
  if zero ∧ (second = some 'b'.toUInt8 ∨ second = some 'B'.toUInt8) then
    let rest := (digits isBinDigit 0 (text.drop 2)).2
    (2, upTo (text.drop 2) rest, rest)
  else if zero ∧ (second = some 'x'.toUInt8 ∨ second = some 'X'.toUInt8) then
    let rest := (digits isHexDigit 0 (text.drop 2)).2
    (16, upTo (text.drop 2) rest, rest)
  else
    let rest := (digits isDigit 0 text).2
    (if zero then 8 else 10, upTo text rest, rest)

/-- The value of digits in a base. -/
def value (base : Nat) (digits : List UInt8) : Nat :=
  (digits.filter (· ≠ apostrophe)).foldl (fun n c => n * base + (digitValue c).getD 0) 0

/-- The length that a suffix asks for, in lower case. -/
def suffixLength (suffix : List UInt8) : Length :=
  if 'z'.toUInt8 ∈ suffix then .z
  else match suffix.count 'l'.toUInt8 with
    | 0 => .plain
    | 1 => .l
    | _ => .ll

/-- The literal a spelling is. -/
def literal (text : List UInt8) : Literal :=
  let (base, digits, suffix) := parts text
  let suffix := suffix.map toLower
  { decimal := base = 10, unsigned := 'u'.toUInt8 ∈ suffix, length := suffixLength suffix, value := value base digits }

/-- The suffix is one of C++, not one of the sized ones. -/
def standardSuffix (text : List UInt8) : Bool := !msvcSizedSuffix (parts text).2.2

end Vcx.IntLiteral
