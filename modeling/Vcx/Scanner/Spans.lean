import Vcx.Scanner.Progress
import Mathlib.Data.List.Chain

/-!
# The spans of a scan

The tokens of a file in order: what may stand between two of them, and when a token is adjacent
to the one before. `scan_spans` says that a scan ends and that its tokens are so.
-/

namespace Vcx.Scanner
set_option autoImplicit false
set_option linter.dupNamespace false
open Vcx.Lib
open Vcx.Token (Kind File Std isHorizontalSpace)

/-! ### Between tokens -/

def slash : UInt8 := '/'.toUInt8
def star : UInt8 := '*'.toUInt8
def hash : UInt8 := '#'.toUInt8

/-- Whether a comment's end stands in a text. -/
def Closes (s : List UInt8) : Prop := ∃ a b, s = a ++ star :: slash :: b

/-- The state of a line: no token is on it yet, there is one, or nothing but its end may follow. -/
inductive Line
  | fresh
  | used
  | ended
  deriving Repr, DecidableEq

/-- A piece of what stands between tokens, and what it makes of the line. -/
inductive Piece (mode : Mode) : Line → List UInt8 → Line → Prop
  | blank {l : Line} {c : UInt8} (on : l ≠ .ended) (isBlank : isHorizontalSpace c = true) : Piece mode l [c] l
  | newline {l : Line} {c : UInt8} (ends : isNewline c = true) : Piece mode l [c] .fresh
  | lineComment {l : Line} {body : List UInt8} (dropped : mode.scanComments = false) (on : l ≠ .ended)
      (one : ∀ c ∈ body, isNewline c = false) : Piece mode l (slash :: slash :: body) .ended
  | blockComment {l : Line} {body : List UInt8} (dropped : mode.scanComments = false) (on : l ≠ .ended)
      (first : ¬Closes (body ++ [star])) : Piece mode l (slash :: star :: (body ++ [star, slash])) l
  | unterminated {l : Line} {body : List UInt8} (dropped : mode.scanComments = false) (on : l ≠ .ended)
      (open_ : ¬Closes body) : Piece mode l (slash :: star :: body) .ended
  | directive {line : List UInt8} (ordinary : mode.scanPP = false)
      (starts : line.head? = some hash ∨ line.head? = some '%'.toUInt8 ∧ line.tail.head? = some ':'.toUInt8)
      (one : ∀ c ∈ line, isNewline c = false) : Piece mode .fresh line .ended

/-- White space, comments that are not kept, and, in ordinary mode, directive lines. -/
inductive Gap (mode : Mode) : Line → List UInt8 → Line → Prop
  | nil (l : Line) : Gap mode l [] l
  | snoc {l m n : Line} {s piece : List UInt8} (before : Gap mode l s m) (last : Piece mode m piece n) :
      Gap mode l (s ++ piece) n

/-- The line after a token: there is a token on it, unless the token is a comment. -/
def After (t : Token) (l : Line) : Prop := t.kind ≠ .comment → l = .used

/-- The bytes of a text from one position to another. -/
def spelled (text : List UInt8) (p stop : Int) : List UInt8 := part text (File.offset p) (File.offset stop)

/-- A token and the next one. -/
structure Next (mode : Mode) (text : List UInt8) (t u : Token) : Prop where
  disjoint : t.stop ≤ u.pos
  gap : ∃ l m, After t l ∧ Gap mode l (spelled text t.stop u.pos) m
  adjacent : u.adjacent = true ↔ t.stop = u.pos ∧ t.kind ≠ .comment

/-- The first token. -/
structure First (mode : Mode) (text : List UInt8) (t : Token) : Prop where
  inside : 1 ≤ t.pos
  gap : ∃ m, Gap mode .fresh (text.take (File.offset t.pos)) m
  adjacent : t.adjacent = false

/-- The tokens of a text: all but the last have a span, the last is the end of the file. -/
structure Spans (mode : Mode) (text : List UInt8) (toks : List Token) : Prop where
  proper : ∀ t ∈ toks.dropLast, t.pos < t.stop
  ordered : toks.Pairwise fun t u => t.stop ≤ u.pos
  last : ∃ t, toks.getLast? = some t ∧ t.kind = .eof ∧ t.pos = text.length + 1 ∧ t.stop = t.pos
  first : ∀ t, toks.head? = some t → First mode text t
  next : toks.IsChain (Next mode text)
  kept : mode.scanComments = false → ∀ t ∈ toks, t.kind ≠ .comment

/-! ### Along a scan -/

namespace Scanner

/-- The offset a scanner is at. -/
def off (s : Scanner) : Nat := s.offAt s.rest.length

/-- The offset at which the last token ends. -/
def endOf (toks : List Token) : Nat := (toks.getLast?.map fun t => File.offset t.stop).getD 0

/-- The line after the last token. -/
def Since (toks : List Token) (l : Line) : Prop :=
  match toks.getLast? with
  | none => l = .fresh
  | some t => After t l

/-- What a scanner knows of the line. -/
def Agrees (s : Scanner) : Line → Prop
  | .fresh => s.lineOpen = true
  | .used => s.lineOpen = false
  | .ended => s.rest.head?.all isNewline = true

/-- What holds of a scanner of a file: its tokens so far are in order, and since the last one it
has passed nothing but what may stand between tokens. -/
structure Run (f : File) (mode : Mode) (s : Scanner) : Prop where
  file : s.f = f
  isMode : s.mode = mode
  suffix : s.rest <:+ f.text
  proper : ∀ t ∈ s.toks, t.pos < t.stop
  ordered : s.toks.Pairwise fun t u => t.stop ≤ u.pos
  first : ∀ t, s.toks.head? = some t → First mode f.text t
  next : s.toks.IsChain (Next mode f.text)
  kept : mode.scanComments = false → ∀ t ∈ s.toks, t.kind ≠ .comment
  below : ∀ t ∈ s.toks, t.stop ≤ s.off + 1
  ends : ∀ t, s.toks.getLast? = some t → t.stop = endOf s.toks + 1
  gap : ∃ l m, Since s.toks l ∧ Gap mode l (part f.text (endOf s.toks) s.off) m ∧ s.Agrees m
  adjacent : s.adjacent = true ↔ endOf s.toks = s.off ∧ ∃ t, s.toks.getLast? = some t ∧ t.kind ≠ .comment

variable {f : File} {mode : Mode} {s s' : Scanner}

theorem pos_eq {o n : Nat} (small : n < 2147483647) (inside : o ≤ n) : File.pos o = (o + 1 : Nat) :=
  Token.int32_of_lt (by omega)

theorem part_eq_upTo {text a b : List UInt8} (left : a <:+ text) (right : b <:+ a) :
    part text (text.length - a.length) (text.length - b.length) = upTo a b := by
  refine List.append_cancel_right (?_ : _ ++ b = _ ++ b)
  rw [part_of_suffix left right]
  obtain ⟨front, rfl⟩ := right
  rw [upTo, List.length_append, Nat.add_sub_cancel, List.take_left]

theorem Run.end_le (run : Run f mode s) : endOf s.toks ≤ s.off := by
  unfold endOf
  cases last : s.toks.getLast? with
  | none => exact Nat.zero_le _
  | some t =>
    have ends := run.ends t last
    have below := run.below t (List.mem_of_getLast? last)
    rw [Option.map_some, Option.getD_some]
    unfold File.offset
    omega

/-- What the scan passes without a token. -/
structure Moved (s s' : Scanner) : Prop where
  f : s'.f = s.f
  mode : s'.mode = s.mode
  toks : s'.toks = s.toks
  adjacent : s'.adjacent = false
  takes : Takes s.rest s'.rest

theorem off_of (same : s'.f = s.f) : s'.off = s.offAt s'.rest.length := by
  rw [off, offAt, offAt, same]

theorem Run.off_lt (run : Run f mode s) {rest : List UInt8} (takes : Takes s.rest rest) : s.off < s.offAt rest.length := by
  have inside := run.suffix.length_le
  have less := takes.2
  unfold off offAt
  rw [run.file]
  omega

/-- Bytes that may go on what stands between tokens. -/
def Extends (mode : Mode) (m : Line) (bytes : List UInt8) (n : Line) : Prop :=
  ∀ l front, Gap mode l front m → Gap mode l (front ++ bytes) n

theorem Run.skip (run : Run f mode s) (moved : Moved s s')
    (piece : ∀ m, s.Agrees m → ∃ n, Extends mode m (upTo s.rest s'.rest) n ∧ s'.Agrees n) : Run f mode s' := by
  have ahead : s.off < s'.off := by
    rw [off_of moved.f]
    exact run.off_lt moved.takes
  obtain ⟨l, m, since, gap, agrees⟩ := run.gap
  obtain ⟨n, last, agrees'⟩ := piece m agrees
  have here := part_eq_upTo run.suffix moved.takes.1
  have whole := part_append f.text run.end_le (Nat.le_of_lt ahead)
  have there : part f.text s.off s'.off = upTo s.rest s'.rest := by
    rw [← here, off, off, offAt, offAt, moved.f, run.file]
  refine { file := moved.f.trans run.file, isMode := moved.mode.trans run.isMode, suffix := moved.takes.1.trans run.suffix,
           proper := ?_, ordered := ?_, first := ?_, next := ?_, kept := ?_, below := ?_, ends := ?_, gap := ?_, adjacent := ?_ }
  · rw [moved.toks]
    exact run.proper
  · rw [moved.toks]
    exact run.ordered
  · rw [moved.toks]
    exact run.first
  · rw [moved.toks]
    exact run.next
  · rw [moved.toks]
    exact run.kept
  · rw [moved.toks]
    intro t mem
    have low := run.below t mem
    omega
  · rw [moved.toks]
    exact run.ends
  · rw [moved.toks, ← whole, there]
    exact ⟨l, n, since, last l _ gap, agrees'⟩
  · rw [moved.adjacent, moved.toks]
    have le := run.end_le
    constructor
    · nofun
    · rintro ⟨same, -⟩
      omega

/-- A token that is pushed, and the state after it. -/
structure Pushed (s s' : Scanner) (t : Token) : Prop where
  f : s'.f = s.f
  mode : s'.mode = s.mode
  toks : s'.toks = s.toks ++ [t]
  takes : Takes s.rest s'.rest
  pos : t.pos = File.pos s.off
  stop : t.stop = File.pos s'.off
  flag : t.adjacent = s.adjacent
  adjacent : s'.adjacent = true ↔ t.kind ≠ .comment
  line : t.kind ≠ .comment → s'.lineOpen = false
  kept : s.mode.scanComments = false → t.kind ≠ .comment

theorem endOf_append (toks : List Token) (t : Token) : endOf (toks ++ [t]) = File.offset t.stop := by
  rw [endOf, List.getLast?_concat]
  rfl

/-- A token at the scanner's offset comes after the others as it should. -/
theorem Run.next_of (run : Run f mode s) (small : f.text.length < 2147483647) {t u : Token} (last : s.toks.getLast? = some t)
    (pos : u.pos = File.pos s.off) (flag : u.adjacent = s.adjacent) : Next mode f.text t u := by
  have inside : s.off ≤ f.text.length := by
    rw [off, offAt, run.file]
    exact Nat.sub_le _ _
  have at_ : u.pos = (s.off + 1 : Nat) := pos.trans (pos_eq small inside)
  have ends := run.ends t last
  have le := run.end_le
  have start : File.offset u.pos = s.off := by
    rw [at_, File.offset]
    omega
  have stop : File.offset t.stop = endOf s.toks := by
    rw [ends, File.offset]
    omega
  obtain ⟨l, m, since, gap, -⟩ := run.gap
  refine { disjoint := by omega, gap := ⟨l, m, ?_, ?_⟩, adjacent := ?_ }
  · simpa [Since, last] using since
  · rw [spelled, start, stop]
    exact gap
  · rw [flag, run.adjacent, last, ends, at_]
    constructor
    · rintro ⟨same, _, isLast, isToken⟩
      cases isLast
      exact ⟨by omega, isToken⟩
    · rintro ⟨same, isToken⟩
      exact ⟨by omega, t, rfl, isToken⟩

theorem Run.first_of (run : Run f mode s) (small : f.text.length < 2147483647) {u : Token} (none : s.toks = [])
    (pos : u.pos = File.pos s.off) (flag : u.adjacent = s.adjacent) : First mode f.text u := by
  have inside : s.off ≤ f.text.length := by
    rw [off, offAt, run.file]
    exact Nat.sub_le _ _
  have at_ : u.pos = (s.off + 1 : Nat) := pos.trans (pos_eq small inside)
  have start : File.offset u.pos = s.off := by
    rw [at_, File.offset]
    omega
  obtain ⟨l, m, since, gap, -⟩ := run.gap
  have fresh : l = .fresh := by simpa [Since, none] using since
  have zero : endOf s.toks = 0 := by simp [endOf, none]
  refine { inside := by omega, gap := ⟨m, ?_⟩, adjacent := ?_ }
  · rw [start, ← part_zero, ← zero, ← fresh]
    exact gap
  · rw [flag]
    cases isAdjacent : s.adjacent with
    | false => rfl
    | true =>
      obtain ⟨-, t, last, -⟩ := run.adjacent.1 isAdjacent
      rw [none] at last
      cases last

theorem Run.push (run : Run f mode s) (small : f.text.length < 2147483647) {t : Token} (pushed : Pushed s s' t) :
    Run f mode s' := by
  have ahead : s.off < s'.off := by
    rw [off_of pushed.f]
    exact run.off_lt pushed.takes
  have inside : s'.off ≤ f.text.length := by
    rw [off, offAt, pushed.f, run.file]
    exact Nat.sub_le _ _
  have pos : t.pos = (s.off + 1 : Nat) := pushed.pos.trans (pos_eq small (by omega))
  have stop : t.stop = (s'.off + 1 : Nat) := pushed.stop.trans (pos_eq small inside)
  have end_ : endOf s'.toks = s'.off := by
    rw [pushed.toks, endOf_append, stop, File.offset]
    omega
  refine { file := pushed.f.trans run.file, isMode := pushed.mode.trans run.isMode, suffix := pushed.takes.1.trans run.suffix,
           proper := ?_, ordered := ?_, first := ?_, next := ?_, kept := ?_, below := ?_, ends := ?_, gap := ?_, adjacent := ?_ }
  · rw [pushed.toks]
    intro u mem
    obtain mem | mem := List.mem_append.1 mem
    · exact run.proper u mem
    · rw [List.mem_singleton.1 mem]
      omega
  · rw [pushed.toks, List.pairwise_append]
    refine ⟨run.ordered, List.pairwise_singleton _ _, fun u mem v mem' => ?_⟩
    have low := run.below u mem
    rw [List.mem_singleton.1 mem']
    omega
  · rw [pushed.toks]
    intro u head
    cases toks : s.toks with
    | nil =>
      rw [toks] at head
      cases head
      exact run.first_of small toks pushed.pos pushed.flag
    | cons v rest =>
      rw [toks] at head
      exact run.first u (by rw [toks]; exact head)
  · rw [pushed.toks, List.isChain_append]
    refine ⟨run.next, .singleton _, fun u last v head => ?_⟩
    cases head
    exact run.next_of small last pushed.pos pushed.flag
  · rw [pushed.toks]
    intro drops u mem
    obtain mem | mem := List.mem_append.1 mem
    · exact run.kept drops u mem
    · rw [List.mem_singleton.1 mem]
      exact pushed.kept (by rw [run.isMode]; exact drops)
  · rw [pushed.toks]
    intro u mem
    obtain mem | mem := List.mem_append.1 mem
    · have low := run.below u mem
      omega
    · rw [List.mem_singleton.1 mem]
      omega
  · rw [end_, pushed.toks]
    intro u last
    rw [List.getLast?_concat] at last
    cases last
    exact stop
  · rw [end_, part_self]
    have some : s'.toks.getLast? = some t := by rw [pushed.toks, List.getLast?_concat]
    by_cases isComment : t.kind = .comment
    · cases isOpen : s'.lineOpen with
      | true => exact ⟨.fresh, .fresh, by simp [Since, some, After, isComment], .nil _, isOpen⟩
      | false => exact ⟨.used, .used, by simp [Since, some, After, isComment], .nil _, isOpen⟩
    · exact ⟨.used, .used, by simp [Since, some, After], .nil _, pushed.line isComment⟩
  · rw [pushed.adjacent, end_, pushed.toks, List.getLast?_concat]
    simp

/-! ### Comments -/

theorem upTo_of_append {a b s : List UInt8} (eq : s = a ++ b) : upTo s b = a := by
  rw [eq, upTo, List.length_append, Nat.add_sub_cancel, List.take_left]

theorem not_closes_of_length {s : List UInt8} (short : s.length < 2) : ¬Closes s := by
  rintro ⟨a, b, rfl⟩
  rw [List.length_append, List.length_cons, List.length_cons] at short
  omega

theorem not_closes_cons {c : UInt8} {s : List UInt8} (not : ¬(c = star ∧ s.head? = some slash)) (rest : ¬Closes s) :
    ¬Closes (c :: s) := by
  rintro ⟨a, b, eq⟩
  cases a with
  | nil =>
    cases eq
    exact not ⟨rfl, rfl⟩
  | cons d a =>
    cases eq
    exact rest ⟨a, b, rfl⟩

theorem blockEnd_none {s : List UInt8} (ends : blockEnd s = none) : ¬Closes s := by
  induction s with
  | nil => exact not_closes_of_length (by decide)
  | cons c s ih =>
    simp only [blockEnd] at ends
    split at ends
    · cases ends
    · rename_i not
      exact not_closes_cons not (ih ends)

/-- A block comment goes on to its first end. -/
theorem blockEnd_some {s rest : List UInt8} (ends : blockEnd s = some rest) :
    ∃ body, s = body ++ [star, slash] ++ rest ∧ ¬Closes (body ++ [star]) := by
  induction s with
  | nil => cases ends
  | cons c s ih =>
    simp only [blockEnd] at ends
    split at ends
    · rename_i here
      obtain ⟨rfl, head⟩ := here
      obtain ⟨tail, rfl⟩ := List.head?_eq_some_iff.1 head
      cases ends
      exact ⟨[], rfl, not_closes_of_length (by decide)⟩
    · rename_i not
      obtain ⟨body, rfl, first⟩ := ih ends
      refine ⟨c :: body, rfl, not_closes_cons ?_ first⟩
      rintro ⟨same, head⟩
      apply not
      refine ⟨same, ?_⟩
      cases body with
      | nil => cases head
      | cons d body =>
        cases head
        rfl

theorem lineEnd_head (s : List UInt8) : (lineEnd s).head?.all isNewline = true := by
  have head := List.head?_dropWhile_not (fun c => !isNewline c) s
  unfold lineEnd
  split at head
  · rename_i c eq
    rw [eq]
    simpa using head
  · rename_i eq
    rw [eq]
    rfl

theorem upTo_lineEnd (s : List UInt8) : upTo s (lineEnd s) = s.takeWhile fun c => !isNewline c :=
  upTo_of_append List.takeWhile_append_dropWhile.symm

theorem takeWhile_one (s : List UInt8) : ∀ c ∈ s.takeWhile (fun c => !isNewline c), isNewline c = false := by
  intro c mem
  simpa using List.all_eq_true.1 (List.all_takeWhile (p := fun c => !isNewline c)) c mem

theorem not_newline_of_blank {c : UInt8} (isBlank : isHorizontalSpace c = true) : ¬isNewline c = true := by
  simp only [isHorizontalSpace, Bool.or_eq_true, decide_eq_true_eq] at isBlank
  obtain ((rfl | rfl) | rfl) | rfl := isBlank <;> decide

/-! ### The steps -/

/-- What reports and the bracket stack change. -/
def Noted (s s' : Scanner) : Prop :=
  ∃ diags brackets quiet hash, s' =
    { s with diags := diags, brackets := brackets, bracketQuiet := quiet, hashReported := hash }

theorem Noted.refl (s : Scanner) : Noted s s := ⟨s.diags, s.brackets, s.bracketQuiet, s.hashReported, rfl⟩

theorem Noted.trans {a b c : Scanner} (first : Noted a b) (second : Noted b c) : Noted a c := by
  obtain ⟨_, _, _, _, rfl⟩ := first
  obtain ⟨diags, brackets, quiet, hash, rfl⟩ := second
  exact ⟨diags, brackets, quiet, hash, rfl⟩

theorem noted_report (s : Scanner) (severity : Token.Severity) (lo hi : Nat) (message : Message) :
    Noted s (s.report severity lo hi message) := by
  unfold report
  simp only
  split
  · exact .refl s
  · exact ⟨_, s.brackets, s.bracketQuiet, s.hashReported, rfl⟩

theorem noted_reportFirst (s : Scanner) (problems : List Problem) : Noted s (s.reportFirst problems) := by
  unfold reportFirst
  split
  · exact .refl s
  · exact noted_report ..

theorem noted_bracketErr (s : Scanner) (pos : Nat) (message : Message) : Noted s (s.bracketErr pos message) := by
  unfold bracketErr
  split
  · exact .refl s
  · exact Noted.trans ⟨s.diags, s.brackets, true, s.hashReported, rfl⟩ (noted_report ..)

theorem noted_bracket (s : Scanner) (k : Kind) (pos : Nat) : Noted s (s.bracket k pos) := by
  unfold bracket
  split
  · exact ⟨s.diags, _, s.bracketQuiet, s.hashReported, rfl⟩
  split
  · split
    · exact noted_bracketErr ..
    · rename_i outer _
      have popped : Noted s { s with brackets := outer } := ⟨s.diags, outer, s.bracketQuiet, s.hashReported, rfl⟩
      simp only
      split
      · exact popped.trans (noted_bracketErr ..)
      · exact popped
  · exact .refl s

theorem Run.noted (run : Run f mode s) (noted : Noted s s') : Run f mode s' := by
  obtain ⟨diags, brackets, quiet, hash, rfl⟩ := noted
  exact ⟨run.file, run.isMode, run.suffix, run.proper, run.ordered, run.first, run.next, run.kept, run.below, run.ends,
    run.gap, run.adjacent⟩

/-- A comment is put, or it is left out. -/
theorem comment_eq (s : Scanner) (rest : List UInt8) : ∃ nl, s.comment rest =
    { (if s.mode.scanComments then ({ s with nlBefore := nl } : Scanner).emit s.rest.length { kind := .comment, rest := rest }
        else { s with nlBefore := nl, rest := rest }) with adjacent := false } := by
  by_cases ends : (upTo s.rest rest).any isNewline = true
  · exact ⟨true, by rw [comment, if_pos ends]⟩
  · exact ⟨s.nlBefore, by rw [comment, if_neg ends]⟩

/-- A comment: kept as a token, or passed as a piece. -/
theorem Run.comment (run : Run f mode s) (small : f.text.length < 2147483647) {rest : List UInt8} (takes : Takes s.rest rest)
    (starts : s.rest.head? = some slash)
    (piece : mode.scanComments = false → ∀ m, m ≠ .ended →
      ∃ n, Piece mode m (upTo s.rest rest) n ∧ (n = m ∨ n = .ended ∧ rest.head?.all isNewline = true)) :
    Run f mode (s.comment rest) := by
  obtain ⟨nl, eq⟩ := comment_eq s rest
  rw [eq]
  split
  · rename_i keeps
    apply run.push small (t := ({ s with nlBefore := nl } : Scanner).token s.rest.length { kind := .comment, rest := rest })
    refine { f := rfl, mode := rfl, toks := rfl, takes := takes, pos := ?_, stop := ?_, flag := rfl, adjacent := ?_,
             line := ?_, kept := ?_ }
    · simp only [token, off, offAt]
    · simp only [token, emit, off, offAt]
    · simp [token]
    · intro isToken
      exact absurd rfl isToken
    · intro drops
      simp only [drops] at keeps
      cases keeps
  · rename_i drops
    refine run.skip ⟨rfl, rfl, rfl, rfl, takes⟩ fun m agrees => ?_
    have on : m ≠ .ended := by
      rintro rfl
      have newline : s.rest.head?.all isNewline = true := agrees
      rw [starts] at newline
      exact absurd newline (by decide)
    obtain ⟨n, isPiece, next⟩ := piece (by rw [← run.isMode]; simpa using drops) m on
    refine ⟨n, fun l front gap => .snoc gap isPiece, ?_⟩
    obtain rfl | ⟨rfl, newline⟩ := next
    · cases n with
      | fresh => exact agrees
      | used => exact agrees
      | ended => exact absurd rfl on
    · exact newline

theorem upTo_cons (c : UInt8) (s : List UInt8) : upTo (c :: s) s = [c] := upTo_of_append (a := [c]) rfl

/-- A line's end, of one or two characters. -/
theorem extends_newline {c : UInt8} {rest : List UInt8} (ends : isNewline c = true) (m : Line) :
    Extends mode m (upTo (c :: rest) (if c = '\r'.toUInt8 ∧ rest.head? = some '\n'.toUInt8 then rest.tail else rest)) .fresh := by
  intro l front gap
  split
  · rename_i two
    obtain ⟨rest', rfl⟩ := List.head?_eq_some_iff.1 two.2
    have both : upTo (c :: '\n'.toUInt8 :: rest') rest' = [c] ++ ['\n'.toUInt8] := upTo_of_append rfl
    rw [List.tail_cons, both, ← List.append_assoc]
    exact .snoc (.snoc gap (.newline ends)) (.newline rfl)
  · rw [upTo_cons]
    exact .snoc gap (.newline ends)

/-- **A round between tokens keeps the tokens in order.** -/
theorem Run.trivium (run : Run f mode s) (small : f.text.length < 2147483647) (round : s.trivium = some s') :
    Run f mode s' := by
  unfold Scanner.trivium at round
  split at round
  · cases round
  rename_i c rest here
  have takes : Takes s.rest rest := by
    rw [here]
    exact Takes.cons (List.suffix_refl rest)
  split at round
  · rename_i isBlank
    cases round
    refine run.skip ⟨rfl, rfl, rfl, rfl, takes⟩ fun m agrees => ⟨m, fun l front gap => ?_, ?_⟩
    · simp only [here, upTo_cons]
      refine .snoc gap (.blank ?_ isBlank)
      rintro rfl
      have newline : s.rest.head?.all isNewline = true := agrees
      rw [here, List.head?_cons, Option.all_some] at newline
      exact not_newline_of_blank isBlank newline
    · cases m with
      | fresh => exact agrees
      | used => exact agrees
      | ended =>
        have newline : s.rest.head?.all isNewline = true := agrees
        rw [here, List.head?_cons, Option.all_some] at newline
        exact absurd newline (not_newline_of_blank isBlank)
  split at round
  · rename_i ends
    cases round
    have takes' : Takes s.rest (if c = '\r'.toUInt8 ∧ rest.head? = some '\n'.toUInt8 then rest.tail else rest) := by
      split
      · exact takes.append (List.tail_suffix rest)
      · exact takes
    refine run.skip ⟨rfl, rfl, rfl, rfl, takes'⟩ fun m _ => ⟨.fresh, ?_, rfl⟩
    simp only [here]
    exact extends_newline ends m
  split at round
  · rename_i slashes
    obtain ⟨rfl, second⟩ := slashes
    obtain ⟨rest, rfl⟩ := List.head?_eq_some_iff.1 second
    cases round
    have opened : lineEnd s.rest = lineEnd rest := by
      rw [here]
      rfl
    rw [opened]
    refine run.comment small ?_ (by rw [here]; rfl) fun drops m on => ⟨.ended, ?_, .inr ⟨rfl, lineEnd_head rest⟩⟩
    · exact takes.append ((lineEnd_suffix rest).trans (List.suffix_cons _ rest))
    · have bytes : upTo s.rest (lineEnd rest) = slash :: slash :: rest.takeWhile fun c => !isNewline c := by
        rw [here]
        apply upTo_of_append
        rw [List.cons_append, List.cons_append, lineEnd, List.takeWhile_append_dropWhile]
        rfl
      rw [bytes]
      exact .lineComment drops on (takeWhile_one rest)
  split at round
  · rename_i opens
    obtain ⟨rfl, second⟩ := opens
    obtain ⟨rest, rfl⟩ := List.head?_eq_some_iff.1 second
    split at round
    · rename_i after ends
      cases round
      obtain ⟨body, eq, first⟩ := blockEnd_some ends
      have whole : s.rest = (slash :: star :: (body ++ [star, slash])) ++ after := by
        rw [List.tail_cons] at eq
        rw [here, eq]
        rfl
      refine run.comment small ?_ (by rw [here]; rfl) fun drops m on => ⟨m, ?_, .inl rfl⟩
      · exact takes.append ((blockEnd_suffix ends).trans (List.suffix_cons _ rest))
      · rw [upTo_of_append whole]
        exact .blockComment drops on first
    · rename_i open_
      cases round
      have whole : s.rest = (slash :: star :: rest) ++ [] := by
        rw [List.append_nil, here]
        rfl
      have noted := noted_report s .error (s.offAt s.rest.length) s.f.text.length .unterminatedComment
      have same : (s.report .error (s.offAt s.rest.length) s.f.text.length .unterminatedComment).rest = s.rest := by
        obtain ⟨_, _, _, _, eq⟩ := noted
        rw [eq]
      refine (run.noted noted).comment small ?_ (by rw [same, here]; rfl) fun drops m on => ⟨.ended, ?_, .inr ⟨rfl, rfl⟩⟩
      · rw [same]
        exact takes.append List.nil_suffix
      · rw [same, upTo_of_append whole]
        exact .unterminated drops on (blockEnd_none open_)
  · cases round

theorem Run.skipTrivia (run : Run f mode s) (small : f.text.length < 2147483647) :
    Run f mode s.skipTrivia ∧ s.skipTrivia.rest.length ≤ s.rest.length ∧ s.skipTrivia.trivium = none := by
  fun_induction Scanner.skipTrivia s with
  | case1 s ends => exact ⟨run, Nat.le_refl _, ends⟩
  | case2 s s' round ih =>
    obtain ⟨run', le, ends⟩ := ih (run.trivium small round)
    exact ⟨run', Nat.le_trans le (Nat.le_of_lt (trivium_length round)), ends⟩

/-- Where nothing is left to pass, no line ends. -/
theorem not_newline_of_trivium (ends : s.trivium = none) {c : UInt8} {rest : List UInt8} (here : s.rest = c :: rest) :
    isNewline c = false := by
  cases isEnd : isNewline c with
  | false => rfl
  | true =>
    simp only [trivium, here, isEnd, if_true] at ends
    split at ends <;> cases ends

theorem not_ended (ends : s.trivium = none) (some : s.rest ≠ []) : ¬s.Agrees .ended := by
  obtain ⟨c, rest, here⟩ := List.exists_cons_of_ne_nil some
  intro newline
  have head : s.rest.head?.all isNewline = true := newline
  rw [here, List.head?_cons, Option.all_some, not_newline_of_trivium ends here] at head
  cases head

theorem directive_starts (opens : s.atDirective = true) :
    s.rest.head? = some hash ∨ s.rest.head? = some '%'.toUInt8 ∧ s.rest.tail.head? = some ':'.toUInt8 := by
  simp only [atDirective, Bool.and_eq_true, Bool.or_eq_true, decide_eq_true_eq] at opens
  exact opens.2

theorem takeWhile_two {a b : UInt8} {s : List UInt8} (first : s.head? = some a) (second : s.tail.head? = some b)
    (p : UInt8 → Bool) (holds : p a = true) (holds' : p b = true) :
    (s.takeWhile p).head? = some a ∧ (s.takeWhile p).tail.head? = some b := by
  obtain ⟨t, rfl⟩ := List.head?_eq_some_iff.1 first
  obtain ⟨u, rfl⟩ := List.head?_eq_some_iff.1 second
  rw [List.takeWhile_cons_of_pos holds, List.takeWhile_cons_of_pos holds']
  exact ⟨rfl, rfl⟩

/-- **A directive line is passed as one.** -/
theorem Run.directiveLine (run : Run f mode s) (ends : s.trivium = none) (ordinary : mode.scanPP = false)
    (opens : s.atDirective = true) : Run f mode s.directiveLine ∧ s.directiveLine.rest.length < s.rest.length := by
  have starts := directive_starts opens
  obtain ⟨c, rest, here⟩ : ∃ c rest, s.rest = c :: rest := by
    apply List.exists_cons_of_ne_nil
    rintro none
    rw [none] at starts
    obtain h | ⟨h, -⟩ := starts <;> cases h
  have notEnd := not_newline_of_trivium ends here
  have takes : Takes s.rest (lineEnd s.rest) := by
    have opened : lineEnd s.rest = lineEnd rest := by
      rw [here, lineEnd, List.dropWhile_cons_of_pos (by simp [notEnd])]
      rfl
    rw [opened, here]
    exact Takes.cons (lineEnd_suffix rest)
  have line : s.lineOpen = true := by
    unfold atDirective at opens
    exact (Bool.and_eq_true_iff.1 opens).1
  have noted : ∃ s', Noted s s' ∧ s.directiveLine = { s' with rest := lineEnd s.rest, adjacent := false } := by
    unfold Scanner.directiveLine
    simp only
    split
    · exact ⟨_, Noted.trans ⟨s.diags, s.brackets, s.bracketQuiet, true, rfl⟩ (noted_report ..), rfl⟩
    · exact ⟨s, .refl s, rfl⟩
  obtain ⟨s', noted, eq⟩ := noted
  have run' := run.noted noted
  obtain ⟨_, _, _, _, rfl⟩ := noted
  rw [eq]
  refine ⟨run'.skip ⟨rfl, rfl, rfl, rfl, takes⟩ fun m agrees => ⟨.ended, fun l front gap => ?_, lineEnd_head s.rest⟩, takes.2⟩
  have fresh : m = .fresh := by
    cases m with
    | fresh => rfl
    | used =>
      have used : s.lineOpen = false := agrees
      rw [line] at used
      cases used
    | ended =>
      have agrees' : s.Agrees .ended := agrees
      exact absurd agrees' (not_ended ends (by rw [here]; exact List.cons_ne_nil c rest))
  rw [fresh] at gap
  refine .snoc gap (.directive ordinary ?_ ?_)
  · simp only [upTo_lineEnd]
    obtain isHash | ⟨percent, colon⟩ := starts
    · obtain ⟨t, eq⟩ := List.head?_eq_some_iff.1 isHash
      left
      rw [eq, List.takeWhile_cons_of_pos (by decide)]
      rfl
    · exact .inr (takeWhile_two percent colon _ (by decide) (by decide))
  · simp only [upTo_lineEnd]
    exact takeWhile_one s.rest

theorem directiveLine_toks (s : Scanner) : s.directiveLine.f = s.f ∧ s.directiveLine.toks = s.toks := by
  unfold Scanner.directiveLine
  simp only
  split
  · have noted := noted_report { s with hashReported := true } .warn (s.offAt s.rest.length) (s.offAt (lineEnd s.rest).length)
      .directiveInInput
    obtain ⟨_, _, _, _, eq⟩ := noted
    rw [eq]
    exact ⟨rfl, rfl⟩
  · exact ⟨rfl, rfl⟩

/-- Unless it is a directive, a token is put. -/
theorem scanToken_token (s : Scanner) (token : (!s.mode.scanPP && s.atDirective) = false) :
    s.scanToken.f = s.f ∧ s.scanToken.toks = s.toks ++ [s.token s.rest.length s.lexeme] := by
  have emitted : ∀ s', Noted { s with lineOpen := false } s' → (s'.emit s'.rest.length s.lexeme).f = s.f ∧
      (s'.emit s'.rest.length s.lexeme).toks = s.toks ++ [s.token s.rest.length s.lexeme] := by
    rintro _ ⟨_, _, _, _, rfl⟩
    exact ⟨rfl, rfl⟩
  have first := noted_reportFirst { s with lineOpen := false } s.lexeme.problems
  unfold Scanner.scanToken
  simp only [token, Bool.false_eq_true, if_false]
  split
  · exact emitted _ first
  · exact emitted _ (first.trans (noted_bracket ..))

/-- **A token is put after the others.** -/
theorem Run.scanToken (run : Run f mode s) {ks : List Nat} (cuts : f.Cuts ks) (small : f.text.length < 2147483647)
    (ends : s.trivium = none) (some : s.rest ≠ []) :
    Run f mode s.scanToken ∧ s.scanToken.rest.length < s.rest.length := by
  unfold Scanner.scanToken
  split
  · rename_i directive
    simp only [Bool.and_eq_true, Bool.not_eq_true'] at directive
    exact run.directiveLine ends (by rw [← run.isMode]; exact directive.1) directive.2
  · have takes : Takes s.rest s.lexeme.rest := by
      have file := run.file
      have suffix := run.suffix
      subst file
      exact lexeme_takes cuts suffix some
    have emitted : ∀ s', Noted { s with lineOpen := false } s' →
        Run f mode (s'.emit s'.rest.length s.lexeme) ∧ (s'.emit s'.rest.length s.lexeme).rest.length < s.rest.length := by
      rintro _ ⟨_, _, _, _, rfl⟩
      refine ⟨run.push small (t := s.token s.rest.length s.lexeme) ?_, takes.2⟩
      refine { f := rfl, mode := rfl, toks := rfl, takes := takes, pos := ?_, stop := ?_, flag := rfl, adjacent := ?_,
               line := fun _ => rfl, kept := fun _ => lexeme_kind s }
      · simp only [token, off, offAt]
      · simp only [token, emit, off, offAt]
      · simp [emit, token, lexeme_kind s]
    have first := noted_reportFirst { s with lineOpen := false } s.lexeme.problems
    simp only
    split
    · exact emitted _ first
    · exact emitted _ (first.trans (noted_bracket ..))

theorem Run.rounds (run : Run f mode s) {ks : List Nat} (cuts : f.Cuts ks) (small : f.text.length < 2147483647) (fuel : Nat)
    (enough : s.rest.length < fuel) : ∃ s', s.rounds fuel = some s' ∧ Run f mode s' ∧ s'.rest = [] := by
  induction fuel generalizing s with
  | zero => omega
  | succ fuel ih =>
    obtain ⟨run', le, ends⟩ := run.skipTrivia small
    simp only [Scanner.rounds]
    split
    · rename_i none
      exact ⟨_, rfl, run', none⟩
    · rename_i some
      obtain ⟨run'', lt⟩ := run'.scanToken cuts small ends some
      exact ih run'' (by omega)

theorem run_start (f : File) (std : Std) (mode : Mode) : Run f mode (start f std mode) := by
  have zero : (start f std mode).off = 0 := by
    simp only [off, offAt, start, Nat.sub_self]
  refine { file := rfl, isMode := rfl, suffix := List.suffix_refl _, proper := ?_, ordered := .nil, first := ?_, next := .nil,
           kept := ?_, below := ?_, ends := ?_, gap := ?_, adjacent := ?_ }
  · intro t mem
    cases mem
  · intro t head
    cases head
  · intro _ t mem
    cases mem
  · intro t mem
    cases mem
  · intro t last
    cases last
  · rw [zero]
    exact ⟨.fresh, .fresh, rfl, .nil _, rfl⟩
  · constructor
    · intro isAdjacent
      cases isAdjacent
    · rintro ⟨-, t, last, -⟩
      cases last

/-- The end of the file comes after the other tokens as it should. -/
theorem Run.spans (run : Run f mode s) (small : f.text.length < 2147483647) (none : s.rest = []) {t : Token}
    (kind : t.kind = .eof) (pos : t.pos = File.pos s.off) (stop : t.stop = File.pos s.off) (flag : t.adjacent = s.adjacent) :
    Spans mode f.text (s.toks ++ [t]) := by
  have at_ : s.off = f.text.length := by
    rw [off, offAt, none, run.file, List.length_nil, Nat.sub_zero]
  have isPos : t.pos = f.text.length + 1 := by
    rw [pos, pos_eq small (Nat.le_of_eq at_), at_]
    rfl
  refine { proper := ?_, ordered := ?_, last := ?_, first := ?_, next := ?_, kept := ?_ }
  · rw [List.dropLast_concat]
    exact run.proper
  · rw [List.pairwise_append]
    refine ⟨run.ordered, List.pairwise_singleton _ _, fun u mem v mem' => ?_⟩
    have low := run.below u mem
    rw [List.mem_singleton.1 mem']
    omega
  · exact ⟨t, List.getLast?_concat, kind, isPos, stop.trans pos.symm⟩
  · intro u head
    cases toks : s.toks with
    | nil =>
      rw [toks] at head
      cases head
      exact run.first_of small toks pos flag
    | cons v rest =>
      rw [toks] at head
      exact run.first u (by rw [toks]; exact head)
  · rw [List.isChain_append]
    refine ⟨run.next, .singleton _, fun u last v head => ?_⟩
    cases head
    exact run.next_of small last pos flag
  · intro drops u mem
    obtain mem | mem := List.mem_append.1 mem
    · exact run.kept drops u mem
    · rw [List.mem_singleton.1 mem, kind]
      nofun

end Scanner

theorem noted_atEOF (s : Scanner) : Scanner.Noted s s.atEOF := by
  unfold Scanner.atEOF
  split
  · exact .refl s
  · exact Scanner.noted_bracketErr ..

namespace Scanner

theorem report_diags (s : Scanner) (severity : Token.Severity) (lo hi : Nat) (message : Message) :
    s.diags ⊆ (s.report severity lo hi message).diags := by
  unfold report
  simp only
  split
  · exact fun _ mem => mem
  · exact List.subset_append_left _ _

theorem bracketErr_diags (s : Scanner) (pos : Nat) (message : Message) : s.diags ⊆ (s.bracketErr pos message).diags := by
  unfold bracketErr
  split
  · exact fun _ mem => mem
  · exact report_diags { s with bracketQuiet := true } _ _ _ _

theorem atEOF_diags (s : Scanner) : s.diags ⊆ s.atEOF.diags := by
  unfold atEOF
  split
  · exact fun _ mem => mem
  · exact bracketErr_diags ..

theorem rounds_mono {n m : Nat} (le : n ≤ m) {s r : Scanner} (ends : s.rounds n = some r) : s.rounds m = some r := by
  induction n generalizing m s with
  | zero => cases ends
  | succ n ih =>
    obtain ⟨m, rfl⟩ : ∃ m', m = m' + 1 := ⟨m - 1, by omega⟩
    simp only [rounds] at ends ⊢
    split at ends
    · rename_i none
      rw [if_pos none]
      exact ends
    · rename_i some
      rw [if_neg some]
      exact ih (by omega) ends

end Scanner

/-- The tokens of a scan: those of its loop, and the end of the file. -/
theorem scan_toks {n : Nat} {f : File} {std : Std} {mode : Mode} {s : Scanner}
    (ends : (Scanner.start f std mode).rounds n = some s) :
    ∃ diags, s.diags ⊆ diags ∧ ∀ m, n ≤ m → scan m f std mode =
      some (s.toks ++ [s.token s.rest.length { kind := .eof, rest := s.rest }], diags) := by
  have toks : (if mode.scanPP = true then s.emit s.rest.length { kind := .eof, rest := s.rest }
      else (s.emit s.rest.length { kind := .eof, rest := s.rest }).atEOF).toks =
        s.toks ++ [s.token s.rest.length { kind := .eof, rest := s.rest }] := by
    split
    · rfl
    · obtain ⟨_, _, _, _, eq⟩ := noted_atEOF (s.emit s.rest.length { kind := .eof, rest := s.rest })
      rw [eq]
      rfl
  refine ⟨(if mode.scanPP = true then s.emit s.rest.length { kind := .eof, rest := s.rest }
    else (s.emit s.rest.length { kind := .eof, rest := s.rest }).atEOF).diags, ?_, fun m le => ?_⟩
  · split
    · exact fun _ mem => mem
    · exact Scanner.atEOF_diags (s.emit s.rest.length { kind := .eof, rest := s.rest })
  simp only [scan, Scanner.rounds_mono le ends, Option.map_some, toks]

/-- A scan of a text that is cut ends, with the tokens of the text in order. -/
theorem scan_of_cuts {src : List UInt8} {ks : List Nat} (cuts : File.Cuts (File.new src) ks) (small : (File.new src).text.length < 2147483647)
    (std : Std) (mode : Mode) :
    ∃ toks diags, (∀ fuel, (File.new src).text.length < fuel → scan fuel (File.new src) std mode = some (toks, diags)) ∧
      Spans mode (File.new src).text toks := by
  obtain ⟨s, ends, run, none⟩ := (Scanner.run_start (File.new src) std mode).rounds cuts small _ (Nat.lt_succ_self _)
  obtain ⟨diags, -, scanned⟩ := scan_toks ends
  refine ⟨_, diags, fun fuel enough => scanned fuel enough, ?_⟩
  apply run.spans small none
  · rfl
  · simp only [Scanner.token, Scanner.off]
  · simp only [Scanner.token, Scanner.off]
  · rfl

/-- **A scan ends, with the tokens of the text in order**, however many rounds it is given from
their number on. -/
theorem scan_spans (src : List UInt8) (std : Std) (mode : Mode) (small : src.length < 2147483647) :
    ∃ toks diags, (∀ fuel, (File.new src).text.length < fuel → scan fuel (File.new src) std mode = some (toks, diags)) ∧
      Spans mode (File.new src).text toks := by
  obtain ⟨ks, cuts⟩ := File.cuts_new src small
  have le := cuts.length_le
  rw [File.new_src] at le
  exact scan_of_cuts cuts (by omega) std mode

/-- The tokens of `/* */ a+1`, whose text is its source, are in order. -/
theorem sum_spans :
    ∃ toks diags, scan 10 (File.new (Token.bytes "/* */ a+1")) .cxx23 {} = some (toks, diags) ∧
      Spans {} (File.new (Token.bytes "/* */ a+1")).text toks := by
  obtain ⟨toks, diags, ends, spans⟩ := scan_spans (Token.bytes "/* */ a+1") .cxx23 {} (by decide)
  exact ⟨toks, diags, ends 10 (by decide), spans⟩

/-- In `/**/a` with its comment kept the identifier starts where the comment ends and is not
adjacent to it. -/
theorem keptComment_not_adjacent :
    ∃ comment ident eof, scan 6 (File.new (Token.bytes "/**/a")) .cxx23 { scanComments := true } =
      some ([comment, ident, eof], []) ∧ comment.stop = ident.pos ∧ ident.adjacent = false :=
  ⟨{ kind := .comment, adjacent := false, nlBefore := false, pos := 1, stop := 5 },
    { kind := .ident, adjacent := false, nlBefore := false, pos := 5, stop := 6 },
    { kind := .eof, adjacent := true, nlBefore := false, pos := 6, stop := 6 }, by decide +kernel, rfl, rfl⟩

end Vcx.Scanner
