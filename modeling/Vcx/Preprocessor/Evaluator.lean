import Vcx.Preprocessor.Eval
import Vcx.Preprocessor.Macro

/-!
# The evaluator of controlling expressions

`evaluator`: precedence climbing over the tokens that are left of a `#if` line when its operators
are resolved and its macros expanded. What it reports is a list of its own here, which the caller
appends to the run's. The three functions call each other at most three deep for each token, so
the fuel is a multiple of the line's length.
-/

namespace Vcx.Preprocessor
set_option autoImplicit false
open Vcx.Token (Kind)

/-- `evaluator`, at its cursor. -/
structure Evaluator where
  toks : List Token
  bad : Bool := false
  errs : List Diagnostic := []

/-- `fail`: the first failure is the one reported. -/
def Evaluator.fail (e : Evaluator) (site : Site) (msg : String) : Evaluator :=
  if e.bad then e else { e with bad := true, errs := e.errs ++ [⟨site, msg⟩] }

/-- What an arm that is not evaluated reported is taken back. -/
def Evaluator.retract (e saved : Evaluator) : Evaluator :=
  { e with bad := saved.bad, errs := e.errs.take saved.errs.length }

/-! ### Constants -/

/-- The bytes of a spelling. -/
def bytes (s : String) : List UInt8 := s.toUTF8.data.toList

/-- A byte of ASCII. -/
def byte (c : Char) : UInt8 := c.toNat.toUInt8

/-- `digit`, `none` for -1. -/
def digit (c : UInt8) : Option Nat :=
  if byte '0' ≤ c && c ≤ byte '9' then some (c.toNat - '0'.toNat)
  else if byte 'a' ≤ c && c ≤ byte 'f' then some (c.toNat - 'a'.toNat + 10)
  else if byte 'A' ≤ c && c ≤ byte 'F' then some (c.toNat - 'A'.toNat + 10)
  else none

/-- The base of an integer literal and its digits with the suffix. -/
def splitBase (s : List UInt8) : Nat × List UInt8 :=
  match s with
  | z :: x :: d :: ds =>
    if z = byte '0' && (x = byte 'x' || x = byte 'X') then (16, d :: ds)
    else if z = byte '0' && (x = byte 'b' || x = byte 'B') then (2, d :: ds)
    else if z = byte '0' then (8, x :: d :: ds)
    else (10, s)
  | [z, x] => if z = byte '0' then (8, [x]) else (10, s)
  | _ => (10, s)

/-- `stripMSVCSuffix`, of the reversed digits. -/
def stripMSVCSuffix (s : List UInt8) : List UInt8 × Bool :=
  match ["i64", "I64", "i32", "I32", "i16", "I16", "i8", "I8"].find? fun suf =>
      decide ((bytes suf).length < s.length) && ((bytes suf).reverse).isPrefixOf s with
  | none => (s, false)
  | some suf =>
    match s.drop (bytes suf).length with
    | [] => ([], false)
    | c :: ds => if c = byte 'u' || c = byte 'U' then (ds, true) else (c :: ds, false)

/-- The loop that takes off `u`, `l` and `z`, of the reversed digits. -/
def stripSuffix : List UInt8 → Bool → List UInt8 × Bool
  | [], unsigned => ([], unsigned)
  | c :: ds, unsigned =>
    if c = byte 'u' || c = byte 'U' then stripSuffix ds true
    else if c = byte 'l' || c = byte 'L' || c = byte 'z' || c = byte 'Z' then stripSuffix ds unsigned
    else (c :: ds, unsigned)

/-- The digits' value, with whether it passed a word; or the byte that is no digit of the base. -/
def digits (base : Nat) : List UInt8 → BitVec 64 → Bool → Except UInt8 (BitVec 64 × Bool)
  | [], v, tooLarge => .ok (v, tooLarge)
  | c :: cs, v, tooLarge =>
    match digit c with
    | none => .error c
    | some d =>
      if base ≤ d then .error c
      else
        let n := v * BitVec.ofNat 64 base + BitVec.ofNat 64 d
        digits base cs n (tooLarge || decide (n < v))

/-- `intConst`. -/
def intConst (t : Token) (e : Evaluator) : Word × Evaluator :=
  let split := splitBase ((bytes t.text).filter (· ≠ byte '\''))
  let sized := stripMSVCSuffix split.2.reverse
  let plain := stripSuffix sized.1 sized.2
  match digits split.1 plain.1.reverse 0 false with
  | .error c => ({ u := 0 }, e.fail t.site ("invalid digit " ++ quoted (String.ofList [Char.ofNat c.toNat]) ++ " in literal"))
  | .ok (v, tooLarge) =>
    ({ u := v, unsigned := plain.2 || v.msb },
      if tooLarge then e.fail t.site "integer literal is too large for intmax_t" else e)

/-- The octal digits of an escape, three at most. -/
def octal : Nat → List UInt8 → BitVec 64 → BitVec 64 × List UInt8
  | n + 1, c :: s, v =>
    if byte '0' ≤ c && c ≤ byte '7' then octal n s (v * 8 + BitVec.ofNat 64 (c.toNat - '0'.toNat)) else (v, c :: s)
  | _, s, v => (v, s)

/-- The digits of `\x{...}`. A byte that is no digit counts as -1. -/
def delimited : List UInt8 → BitVec 64 → BitVec 64 × List UInt8
  | [], v => (v, [])
  | c :: s, v =>
    if c = byte '}' then (v, s)
    else delimited s (v * 16 + match digit c with | some d => BitVec.ofNat 64 d | none => -1)

/-- The digits of `\x...`. -/
def hexadecimal : List UInt8 → BitVec 64 → BitVec 64 × List UInt8
  | [], v => (v, [])
  | c :: s, v =>
    match digit c with
    | some d => hexadecimal s (v * 16 + BitVec.ofNat 64 d)
    | none => (v, c :: s)

/-- `decodeChar`, of a non-empty spelling. -/
def decodeChar (c : UInt8) (s : List UInt8) : BitVec 64 × List UInt8 :=
  if c ≠ byte '\\' then (BitVec.ofNat 64 c.toNat, s)
  else match s with
    | [] => (BitVec.ofNat 64 '\\'.toNat, [])
    | k :: s =>
      if k = byte 'n' then (10, s)
      else if k = byte 't' then (9, s)
      else if k = byte 'r' then (13, s)
      else if byte '0' ≤ k && k ≤ byte '7' then octal 3 (k :: s) 0
      else if k = byte 'x' then
        match s with
        | b :: s' => if b = byte '{' then delimited s' 0 else hexadecimal (b :: s') 0
        | [] => (0, [])
      else if k = byte 'a' then (7, s)
      else if k = byte 'b' then (8, s)
      else if k = byte 'f' then (12, s)
      else if k = byte 'v' then (11, s)
      else (BitVec.ofNat 64 k.toNat, s)

/-- The loop of `charConst`: every character takes a byte at least, so the length is fuel enough. -/
def charLoop (prefixed : Bool) : Nat → List UInt8 → BitVec 64 → Nat → BitVec 64 × Nat
  | fuel + 1, c :: s, acc, n =>
    let d := decodeChar c s
    let acc := if n = 0 && (prefixed || d.2.isEmpty) then d.1 else acc <<< 8 ||| (d.1 &&& 0xff)
    charLoop prefixed fuel d.2 acc (n + 1)
  | _, _, acc, n => (acc, n)

/-- `charConst`. -/
def charConst (t : Token) : Word :=
  let s := bytes t.text
  let body := s.dropWhile (· ≠ byte '\'')
  let inner := match body with
    | _ :: cs => if cs.getLast? = some (byte '\'') then cs.dropLast else cs
    | [] => []
  let r := charLoop (body.length < s.length) inner.length inner 0 0
  -- a plain single character has the signed type char
  { u := if r.2 = 1 && body.length = s.length && decide (127 < r.1.toInt) then (r.1.setWidth 8).signExtend 64 else r.1 }

/-! ### Expressions -/

/-- `prec`. -/
def prec : Kind → Nat
  | .lor => 1
  | .land => 2
  | .or => 3
  | .xor => 4
  | .and => 5
  | .eql | .neq => 6
  | .lss | .gtr | .leq | .geq => 7
  | .shl | .shr => 8
  | .add | .sub => 9
  | .mul | .quo | .rem => 10
  | _ => 0

/-- The value of `&&` or `||`, and whether its right operand is not evaluated. -/
def logical (op : Kind) (lhs rhs : Word) : Word × Bool :=
  let l := lhs.u ≠ 0
  let r := rhs.u ≠ 0
  if op = .land then (boolean (l && r), !l) else (boolean (l || r), l)

/-- `apply`, reporting at the operator. -/
def Evaluator.apply (e : Evaluator) (op : Token) (lhs rhs : Word) : Word × Evaluator :=
  match Preprocessor.apply op.kind lhs rhs with
  | (v, none) => (v, e)
  | (v, some msg) => (v, e.fail op.site msg)

mutual

/-- `conditional`. -/
def conditional (site : Site) : Nat → Evaluator → Word × Evaluator
  | 0, e => ({ u := 0 }, e)
  | fuel + 1, e =>
    let c := binary site fuel 1 e
    match c.2.toks with
    | [] => c
    | q :: ts =>
      if q.kind ≠ .question then c
      else
        let t := conditional site fuel { c.2 with toks := ts }
        match t.2.toks with
        | [] => ({ u := 0 }, t.2.fail site "expected ':' in preprocessor conditional")
        | colon :: ts =>
          if colon.kind ≠ .colon then ({ u := 0 }, t.2.fail site "expected ':' in preprocessor conditional")
          else
            let f := conditional site fuel { t.2 with toks := ts }
            if c.1.u ≠ 0 then (t.1, f.2) else (f.1, f.2.retract c.2)

/-- `binary`. -/
def binary (site : Site) : Nat → Nat → Evaluator → Word × Evaluator
  | 0, _, e => ({ u := 0 }, e)
  | fuel + 1, least, e =>
    let lhs := unary site fuel e
    binaryLoop site fuel least lhs.1 lhs.2

/-- The loop of `binary`. -/
def binaryLoop (site : Site) : Nat → Nat → Word → Evaluator → Word × Evaluator
  | 0, _, lhs, e => (lhs, e)
  | fuel + 1, least, lhs, e =>
    match e.toks with
    | [] => (lhs, e)
    | t :: ts =>
      if prec t.kind < least then (lhs, e)
      else
        let rhs := binary site fuel (prec t.kind + 1) { e with toks := ts }
        if t.kind = .land || t.kind = .lor then
          let v := logical t.kind lhs rhs.1
          binaryLoop site fuel least v.1 (if v.2 then rhs.2.retract e else rhs.2)
        else
          let v := rhs.2.apply t lhs rhs.1
          binaryLoop site fuel least v.1 v.2

/-- `unary`. -/
def unary (site : Site) : Nat → Evaluator → Word × Evaluator
  | 0, e => ({ u := 0 }, e)
  | fuel + 1, e =>
    match e.toks with
    | [] => ({ u := 0 }, e.fail site "expected an expression")
    | t :: ts =>
      match t.kind with
      | .add => unary site fuel { e with toks := ts }
      | .sub =>
        let v := unary site fuel { e with toks := ts }
        ({ v.1 with u := -v.1.u }, v.2)
      | .tilde =>
        let v := unary site fuel { e with toks := ts }
        ({ v.1 with u := ~~~v.1.u }, v.2)
      | .not =>
        let v := unary site fuel { e with toks := ts }
        (boolean (v.1.u = 0), v.2)
      | .lparen =>
        let v := conditional site fuel { e with toks := ts }
        match v.2.toks with
        | [] => (v.1, v.2.fail t.site "missing ')' in preprocessor expression")
        | r :: ts =>
          if r.kind = .rparen then (v.1, { v.2 with toks := ts })
          else (v.1, v.2.fail t.site "missing ')' in preprocessor expression")
      | .kwTrue => ({ u := 1 }, { e with toks := ts })
      | .kwFalse => ({ u := 0 }, { e with toks := ts })
      | .intLit => intConst t { e with toks := ts }
      | .charLit => (charConst t, { e with toks := ts })
      | .floatLit => ({ u := 0 }, { e with toks := ts }.fail t.site "floating literal in preprocessor expression")
      | .stringLit => ({ u := 0 }, { e with toks := ts }.fail t.site "string literal in preprocessor expression")
      | _ => ({ u := 0 }, e.fail t.site ("unexpected " ++ quoted t.text ++ " in preprocessor expression"))

end

/-- The last part of `Eval`: whether the expression holds, and what is reported. -/
def evaluate (line : List Token) (site : Site) : Bool × List Diagnostic :=
  let r := conditional site (4 * (line.length + 1)) { toks := line }
  let e := match r.2.toks with
    | t :: _ => r.2.fail t.site ("unexpected " ++ quoted t.text ++ " in preprocessor expression")
    | [] => r.2
  (!e.bad && decide (r.1.u ≠ 0), e.errs)

example : evaluate [.mint .not "!", .mint .intLit "0x1u", .mint .lor "||", .mint .intLit "1"] ⟨none, 0, 0⟩ = (true, []) := by
  decide

end Vcx.Preprocessor
