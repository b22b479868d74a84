import Vcx.Scanner.Numbers

/-!
# The scanner

`Scan`: between the tokens white space, comments and, in ordinary mode, directive lines are
skipped. The bracket stack is advisory and never affects the tokens.
-/

namespace Vcx.Scanner
set_option autoImplicit false
open Vcx.Token (Kind File Severity Diagnostic Std bytes isHorizontalSpace)

/-- `Mode`. -/
structure Mode where
  scanComments : Bool := false
  scanPP : Bool := false
  scanObjC : Bool := false
  deriving Repr, DecidableEq

/-- `token.Token`. -/
structure Token where
  kind : Kind
  adjacent : Bool
  nlBefore : Bool
  digraph : Bool := false
  altToken : Bool := false
  raw : Bool := false
  userDefined : Bool := false
  pos : Int
  stop : Int
  deriving Repr, DecidableEq

/-- `scanner`. The text that is left stands for the offset. -/
structure Scanner where
  f : File
  std : Std
  mode : Mode
  rest : List UInt8
  toks : List Token := []
  diags : List (Diagnostic Message) := []
  adjacent : Bool := false
  nlBefore : Bool
  lineOpen : Bool := true
  hashReported : Bool := false
  brackets : List (Kind × Nat) := []
  bracketQuiet : Bool := false

namespace Scanner

/-- The offset at which a number of bytes is left. -/
def offAt (s : Scanner) (left : Nat) : Nat := s.f.text.length - left

/-- `report`, of offsets. -/
def report (s : Scanner) (severity : Severity) (lo hi : Nat) (message : Message) : Scanner :=
  let n := s.f.text.length
  if n = 0 then s
  else
    let hi := min (if hi ≤ lo then lo + 1 else hi) n
    let lo := if hi ≤ lo then hi - 1 else lo
    { s with diags := s.diags ++ [⟨File.pos lo, File.pos hi, severity, message⟩] }

/-- The token from where `start` bytes are left to where the lexeme ends. -/
def token (s : Scanner) (start : Nat) (l : Lexeme) : Token where
  kind := l.kind
  adjacent := s.adjacent
  nlBefore := s.nlBefore
  digraph := l.digraph
  altToken := l.altToken
  raw := l.raw
  userDefined := l.userDefined
  pos := File.pos (s.offAt start)
  stop := File.pos (s.offAt l.rest.length)

/-- `emitFlags`. -/
def emit (s : Scanner) (start : Nat) (l : Lexeme) : Scanner :=
  { s with rest := l.rest, toks := s.toks ++ [s.token start l], adjacent := true, nlBefore := false }

/-- `errTok` and `valueErr`: the first problem of a token is reported. -/
def reportFirst (s : Scanner) (problems : List Problem) : Scanner :=
  match problems.find? fun p => !(p.ofValue && s.mode.scanPP) with
  | none => s
  | some p => s.report .error (s.offAt p.left) (s.offAt p.right) p.message

/-! ### White space and comments -/

/-- The end of a comment that starts with two slashes: the line's. -/
def lineEnd (s : List UInt8) : List UInt8 := s.dropWhile fun c => !isNewline c

/-- What follows the end of a block comment, from within it. -/
def blockEnd : List UInt8 → Option (List UInt8)
  | [] => none
  | c :: rest =>
    if c = '*'.toUInt8 ∧ rest.head? = some '/'.toUInt8 then some rest.tail else blockEnd rest

/-- `comment`: the one that ends before `rest`. -/
def comment (s : Scanner) (rest : List UInt8) : Scanner :=
  let s' := if (upTo s.rest rest).any isNewline then { s with nlBefore := true } else s
  let s' := if s.mode.scanComments then s'.emit s.rest.length { kind := .comment, rest := rest } else { s' with rest := rest }
  { s' with adjacent := false }

/-- A round of `skipTrivia`. -/
def trivium (s : Scanner) : Option Scanner :=
  match s.rest with
  | [] => none
  | c :: rest =>
    if isHorizontalSpace c then some { s with rest := rest, adjacent := false }
    else if isNewline c then
      let rest := if c = '\r'.toUInt8 ∧ rest.head? = some '\n'.toUInt8 then rest.tail else rest
      some { s with rest := rest, adjacent := false, nlBefore := true, lineOpen := true }
    else if c = '/'.toUInt8 ∧ rest.head? = some '/'.toUInt8 then some (s.comment (lineEnd s.rest))
    else if c = '/'.toUInt8 ∧ rest.head? = some '*'.toUInt8 then
      match blockEnd rest.tail with
      | some rest => some (s.comment rest)
      | none =>
        some ((s.report .error (s.offAt s.rest.length) s.f.text.length .unterminatedComment).comment [])
    else none

theorem lineEnd_suffix (s : List UInt8) : lineEnd s <:+ s := List.dropWhile_suffix _

theorem blockEnd_suffix {s rest : List UInt8} (ends : blockEnd s = some rest) : rest <:+ s := by
  induction s with
  | nil => cases ends
  | cons c s ih =>
    simp only [blockEnd] at ends
    split at ends
    · cases ends
      exact (List.tail_suffix s).trans (List.suffix_cons c s)
    · exact (ih ends).trans (List.suffix_cons c s)

theorem comment_rest (s : Scanner) (rest : List UInt8) : (s.comment rest).rest = rest := by
  unfold comment
  split <;> split <;> rfl

theorem trivium_length {s s' : Scanner} (round : s.trivium = some s') : s'.rest.length < s.rest.length := by
  unfold trivium at round
  split at round
  · cases round
  rename_i c rest here
  rw [here, List.length_cons]
  split at round
  · cases round
    exact Nat.lt_succ_self _
  split at round
  · cases round
    have tail := rest.length_tail
    simp only
    split <;> omega
  split at round
  · rename_i slashes
    cases round
    obtain ⟨d, rest, rfl⟩ : ∃ d rest', rest = d :: rest' := by
      cases rest with
      | nil => cases slashes.2
      | cons d rest => exact ⟨d, rest, rfl⟩
    have fewer := (lineEnd_suffix rest).length_le
    have second : isNewline d = false := by
      cases slashes.2
      rfl
    rw [comment_rest, here, lineEnd, slashes.1, List.dropWhile_cons_of_pos rfl, List.dropWhile_cons_of_pos (by simp [second])]
    unfold lineEnd at fewer
    rw [List.length_cons]
    omega
  split at round
  · split at round
    · rename_i ends
      cases round
      have fewer := (blockEnd_suffix ends).length_le
      have tail := rest.length_tail
      rw [comment_rest]
      omega
    · cases round
      rw [comment_rest]
      exact Nat.zero_lt_succ _
  · cases round

/-- `skipTrivia`. -/
def skipTrivia (s : Scanner) : Scanner :=
  match _round : s.trivium with
  | none => s
  | some s' => s'.skipTrivia
termination_by s.rest.length
decreasing_by exact trivium_length _round

/-! ### Directive lines -/

/-- `isLineMarker`. -/
def isLineMarker (line : List UInt8) : Bool :=
  let rest := line.dropWhile (isOneOf "# \t")
  let rest := if (bytes "line").isPrefixOf rest then (rest.drop 4).dropWhile (isOneOf " \t") else rest
  rest.head?.any isDigit

/-- `directiveLine`. -/
def directiveLine (s : Scanner) : Scanner :=
  let rest := lineEnd s.rest
  let s' :=
    if !s.hashReported && !isLineMarker (upTo s.rest rest) then
      { s with hashReported := true }.report .warn (s.offAt s.rest.length) (s.offAt rest.length) .directiveInInput
    else s
  { s' with rest := rest, adjacent := false }

/-! ### Punctuators -/

/-- The spellings that `scanPunct` tells apart, each before those it goes on from, with the kind and
whether it is a digraph. -/
def punctuators : List (String × Kind × Bool) :=
  [("[", .lbrack, false), ("]", .rbrack, false), ("(", .lparen, false), (")", .rparen, false), ("\x7b", .lbrace, false),
    ("\x7d", .rbrace, false), (";", .semi, false), (",", .comma, false), ("?", .question, false), ("~", .tilde, false),
    ("...", .ellipsis, false), (".*", .periodStar, false), (".", .period, false),
    ("++", .inc, false), ("+=", .addAssign, false), ("+", .add, false),
    ("->*", .arrowStar, false), ("->", .arrow, false), ("--", .dec, false), ("-=", .subAssign, false), ("-", .sub, false),
    ("*=", .mulAssign, false), ("*", .mul, false), ("/=", .quoAssign, false), ("/", .quo, false),
    ("!=", .neq, false), ("!", .not, false), ("==", .eql, false), ("=", .assign, false),
    ("^=", .xorAssign, false), ("^^", .caretCaret, false), ("^", .xor, false),
    ("&&", .land, false), ("&=", .andAssign, false), ("&", .and, false),
    ("||", .lor, false), ("|=", .orAssign, false), ("|", .or, false),
    ("<=>", .spaceship, false), ("<<=", .shlAssign, false), ("<<", .shl, false), ("<=", .leq, false), ("<:", .lbrack, true),
    ("<%", .lbrace, true), ("<", .lss, false),
    (">>=", .shrAssign, false), (">>", .shr, false), (">=", .geq, false), (">", .gtr, false),
    ("::", .scope, false), (":>", .rbrack, true), (":", .colon, false),
    ("%:%:", .hashhash, true), ("%:", .hash, true), ("%>", .rbrace, true), ("%=", .remAssign, false), ("%", .rem, false),
    ("@", .at, false), ("##", .hashhash, false), ("#", .hash, false)]

/-- The `^^` of C++26 and the `@` of Objective-C++ are punctuators there only. -/
def isPunctuator (std : Std) (mode : Mode) (p : String × Kind × Bool) : Bool :=
  (p.2.1 ≠ .caretCaret || std = .cxx26) && (p.2.1 ≠ .at || mode.scanObjC)

/-- `<::` is `<` and `::`, unless a `:` or a `>` follows. -/
def splitsDigraph (s : List UInt8) : Bool :=
  (bytes "<::").isPrefixOf s && s[3]? ≠ some ':'.toUInt8 && s[3]? ≠ some '>'.toUInt8

/-- The `switch` of `scanPunct`: the kind, the number of bytes, and whether it is a digraph. -/
def punct (std : Std) (mode : Mode) (s : List UInt8) : Option (Kind × Nat × Bool) :=
  if splitsDigraph s then some (.lss, 1, false)
  else (punctuators.find? fun p => isPunctuator std mode p && (bytes p.1).isPrefixOf s).map fun p => (p.2.1, (bytes p.1).length, p.2.2)

/-- `scanPunct`, without the brackets: what is no punctuator is one illegal character. -/
def scanPunct (std : Std) (mode : Mode) (s : List UInt8) : Lexeme :=
  match punct std mode s with
  | some (kind, size, digraph) => { kind := kind, digraph := digraph, rest := s.drop size }
  | none =>
    { kind := .illegal, rest := s.tail, problems := [⟨true, s.length, s.tail.length, .illegalCharacter (s.headD 0)⟩] }

/-! ### Brackets -/

/-- `closerFor`. -/
def closerFor : Kind → Kind
  | .lparen => .rparen
  | .lbrack => .rbrack
  | _ => .rbrace

/-- `bracketErr`: the first one of a file. -/
def bracketErr (s : Scanner) (pos : Nat) (message : Message) : Scanner :=
  if s.bracketQuiet then s else { s with bracketQuiet := true }.report .error pos (pos + 1) message

/-- `bracket`. -/
def bracket (s : Scanner) (k : Kind) (pos : Nat) : Scanner :=
  if k = .lparen ∨ k = .lbrack ∨ k = .lbrace then { s with brackets := (k, pos) :: s.brackets }
  else if k = .rparen ∨ k = .rbrack ∨ k = .rbrace then
    match s.brackets with
    | [] => s.bracketErr pos (.unmatched k)
    | (opener, at_) :: outer =>
      let s := { s with brackets := outer }
      if closerFor opener ≠ k then s.bracketErr at_ (.unclosed opener k) else s
  else s

/-- `atEOF`: the innermost bracket that is open. -/
def atEOF (s : Scanner) : Scanner :=
  match s.brackets with
  | [] => s
  | (opener, at_) :: _ => s.bracketErr at_ (.unclosedAtEnd opener)

/-! ### The loop -/

/-- The `switch` of `scanToken`. -/
def lexeme (s : Scanner) : Lexeme :=
  let c := s.rest.headD 0
  if isOneOf "uULR" c then scanIdentOrLiteralPrefix s.f s.std s.rest
  else if isIdentStart c || c = backslash || 0x80 ≤ c then scanIdent s.std s.rest
  else if isDigit c || (c = '.'.toUInt8 && s.rest.tail.head?.any isDigit) then scanNumber s.rest
  else if c = apostrophe then scanChar s.rest.length s.rest
  else if c = quote then scanString s.rest.length s.rest
  else scanPunct s.std s.mode s.rest

/-- A `#` that opens a line. -/
def atDirective (s : Scanner) : Bool :=
  s.lineOpen && (s.rest.head? = some '#'.toUInt8 ||
    s.rest.head? = some '%'.toUInt8 && s.rest.tail.head? = some ':'.toUInt8)

/-- `scanToken`. -/
def scanToken (s : Scanner) : Scanner :=
  if !s.mode.scanPP && s.atDirective then s.directiveLine
  else
    let l := s.lexeme
    let s := { s with lineOpen := false }
    let s := s.reportFirst l.problems
    let s := if s.mode.scanPP then s else s.bracket l.kind (s.offAt s.rest.length)
    s.emit s.rest.length l

/-- The loop of `Scan`, for a number of rounds. -/
def rounds : Nat → Scanner → Option Scanner
  | 0, _ => none
  | n + 1, s =>
    let s := s.skipTrivia
    if s.rest = [] then some s else rounds n s.scanToken

/-- The state at the start of a file. -/
def start (f : File) (std : Std) (mode : Mode) : Scanner :=
  { f := f, std := std, mode := mode, rest := f.text, nlBefore := mode.scanPP,
    diags := f.diags.map fun d => ⟨d.pos, d.stop, d.severity, .translated d.message⟩ }

end Scanner

/-- `Scan`: the tokens, and the diagnostics before they are sorted. -/
def scan (fuel : Nat) (f : File) (std : Std) (mode : Mode) : Option (List Token × List (Diagnostic Message)) :=
  ((Scanner.start f std mode).rounds fuel).map fun s =>
    let s := s.emit s.rest.length { kind := .eof, rest := s.rest }
    let s := if mode.scanPP then s else s.atEOF
    (s.toks, s.diags)

end Vcx.Scanner
