import Vcx.Scanner.Spans

/-!
# The two modes of the scanner

The preprocessor's scan and the ordinary one go through the same states, but for what the ordinary one skips: a line that
a `#` opens. It looks at the first characters of the line, and so takes `##` for a directive as well.
-/

namespace Vcx.Scanner
set_option autoImplicit false
set_option linter.dupNamespace false
open Vcx.Lib
open Vcx.Token (Kind File Std bytes marks)

/-- What the tokens of two scans are compared by. -/
def Token.span (t : Token) : Kind × Int × Int := (t.kind, t.pos, t.stop)

namespace Scanner

/-- The states of a scan in which it comes to a token. -/
def starts : Nat → Scanner → List Scanner
  | 0, _ => []
  | n + 1, s =>
    let s := s.skipTrivia
    if s.rest = [] then [] else s :: starts n s.scanToken

end Scanner

/-- The preprocessor's mode, and the ordinary one. -/
def Mode.forPP (mode : Mode) : Mode := { mode with scanPP := true }
def Mode.ordinary (mode : Mode) : Mode := { mode with scanPP := false }

/-- A token of a kind opens a line of a text. -/
def opensLine (src : List UInt8) (std : Std) (mode : Mode) (k : Kind) : Bool :=
  ((Scanner.start (File.new src) std mode.forPP).starts ((File.new src).text.length + 1)).any
    fun s => s.lineOpen && s.lexeme.kind = k

namespace Scanner

/-! ### What opens a directive -/

theorem hash_spelled : ∀ p ∈ punctuators, (p.2.1 = .hash ∨ p.2.1 = .hashhash ↔
    (bytes p.1).head? = some '#'.toUInt8 ∨ (bytes p.1).take 2 = ['%'.toUInt8, ':'.toUInt8]) := by
  decide

/-- No other routine is given a text that starts so. -/
theorem lexeme_hash {s : Scanner}
    (sharp : s.rest.head? = some '#'.toUInt8 ∨ s.rest.head? = some '%'.toUInt8 ∧ s.rest.tail.head? = some ':'.toUInt8) :
    s.lexeme = scanPunct s.std s.mode s.rest := by
  have first : s.rest.headD 0 = '#'.toUInt8 ∨ s.rest.headD 0 = '%'.toUInt8 := by
    obtain first | ⟨first, -⟩ := sharp
    · obtain ⟨t, eq⟩ := List.head?_eq_some_iff.1 first
      exact .inl (by rw [eq]; rfl)
    · obtain ⟨t, eq⟩ := List.head?_eq_some_iff.1 first
      exact .inr (by rw [eq]; rfl)
  unfold Scanner.lexeme
  obtain first | first := first <;> rw [first] <;> rfl

/-- A punctuator that is found starts the text. -/
theorem punct_spelled {std : Std} {mode : Mode} {s : List UInt8} {k : Kind} {size : Nat} {digraph : Bool}
    (isPunct : punct std mode s = some (k, size, digraph)) (isHash : k = .hash ∨ k = .hashhash) :
    s.head? = some '#'.toUInt8 ∨ s.head? = some '%'.toUInt8 ∧ s.tail.head? = some ':'.toUInt8 := by
  unfold punct at isPunct
  split at isPunct
  · cases isPunct
    obtain isHash | isHash := isHash <;> cases isHash
  · obtain ⟨p, found, eq⟩ := Option.map_eq_some_iff.1 isPunct
    cases eq
    have spelled := (hash_spelled p (List.mem_of_find?_eq_some found)).1 isHash
    have holds := List.find?_some found
    rw [Bool.and_eq_true] at holds
    obtain ⟨rest, rfl⟩ := List.isPrefixOf_iff_prefix.1 holds.2
    obtain sharp | percent := spelled
    · obtain ⟨t, eq⟩ := List.head?_eq_some_iff.1 sharp
      rw [eq]
      exact .inl rfl
    · rw [← List.take_append_drop 2 (bytes p.1), percent]
      exact .inr ⟨rfl, rfl⟩

/-- Among punctuators whose first byte tells that they are a `#`, one is found. -/
theorem find_hash (std : Std) (mode : Mode) {l : List (String × Kind × Bool)} {c : UInt8} {s : List UInt8}
    (kinds : ∀ p ∈ l, (bytes p.1).head? = some c → p.2.1 = .hash ∨ p.2.1 = .hashhash) (sub : l ⊆ punctuators)
    {q : String × Kind × Bool} (mem : q ∈ l) (isPunct : isPunctuator std mode q = true) (isPrefix : bytes q.1 <+: c :: s) :
    ∃ p, l.find? (fun p => isPunctuator std mode p && (bytes p.1).isPrefixOf (c :: s)) = some p ∧
      (p.2.1 = .hash ∨ p.2.1 = .hashhash) := by
  have some : (l.find? fun p => isPunctuator std mode p && (bytes p.1).isPrefixOf (c :: s)).isSome = true := by
    rw [List.find?_isSome]
    exact ⟨q, mem, Bool.and_eq_true_iff.2 ⟨isPunct, List.isPrefixOf_iff_prefix.2 isPrefix⟩⟩
  obtain ⟨p, found⟩ := Option.isSome_iff_exists.1 some
  have isIn := List.mem_of_find?_eq_some found
  have holds := List.find?_some found
  rw [Bool.and_eq_true] at holds
  refine ⟨p, found, kinds p isIn ?_⟩
  have nonempty := punctuators_nonempty p (sub isIn)
  obtain ⟨rest, eq⟩ := List.isPrefixOf_iff_prefix.1 holds.2
  cases spelled : bytes p.1 with
  | nil =>
    rw [spelled] at nonempty
    cases nonempty
  | cons d ds =>
    rw [spelled] at eq
    cases eq
    rfl

/-- The punctuators up to `%:`, before which none but its double starts with a `%`. -/
def uptoPercent : List (String × Kind × Bool) := punctuators.takeWhile fun p => p.1 ≠ "%>"

theorem uptoPercent_kinds : ∀ p ∈ uptoPercent, (bytes p.1).head? = some '%'.toUInt8 → p.2.1 = .hash ∨ p.2.1 = .hashhash := by
  decide

/-- A text that starts with a `#` or its digraph has such a punctuator first. -/
theorem punct_hash (std : Std) (mode : Mode) {s : List UInt8}
    (sharp : s.head? = some '#'.toUInt8 ∨ s.head? = some '%'.toUInt8 ∧ s.tail.head? = some ':'.toUInt8) :
    ∃ k size digraph, punct std mode s = some (k, size, digraph) ∧ (k = .hash ∨ k = .hashhash) := by
  have found : splitsDigraph s = false ∧ ∃ p, punctuators.find? (fun p => isPunctuator std mode p && (bytes p.1).isPrefixOf s) =
      some p ∧ (p.2.1 = .hash ∨ p.2.1 = .hashhash) := by
    obtain first | ⟨first, second⟩ := sharp
    · obtain ⟨t, rfl⟩ := List.head?_eq_some_iff.1 first
      refine ⟨rfl, find_hash std mode (fun p mem head => (hash_spelled p mem).2 (.inl head)) (fun _ mem => mem)
        (q := ("#", .hash, false)) (by decide) rfl ⟨t, rfl⟩⟩
    · obtain ⟨t, rfl⟩ := List.head?_eq_some_iff.1 first
      obtain ⟨u, rfl⟩ := List.head?_eq_some_iff.1 second
      obtain ⟨p, found, isHash⟩ := find_hash std mode uptoPercent_kinds (List.takeWhile_sublist _).subset
        (q := ("%:", .hash, true)) (s := ':'.toUInt8 :: u) (by decide) rfl ⟨u, rfl⟩
      refine ⟨rfl, p, ?_, isHash⟩
      have whole : punctuators = uptoPercent ++ punctuators.dropWhile fun p => p.1 ≠ "%>" :=
        List.takeWhile_append_dropWhile.symm
      rw [whole, List.find?_append, found, Option.some_or]
  obtain ⟨not, p, found, isHash⟩ := found
  exact ⟨p.2.1, _, _, by rw [punct, not, found]; rfl, isHash⟩

theorem atDirective_iff (s : Scanner) :
    s.atDirective = true ↔ s.lineOpen = true ∧ (s.lexeme.kind = .hash ∨ s.lexeme.kind = .hashhash) := by
  constructor
  · intro opens
    refine ⟨(Bool.and_eq_true_iff.1 opens).1, ?_⟩
    obtain ⟨k, size, digraph, isPunct, isHash⟩ := punct_hash s.std s.mode (directive_starts opens)
    rw [lexeme_hash (directive_starts opens), scanPunct, isPunct]
    exact isHash
  · rintro ⟨opens, isHash⟩
    have mark : s.lexeme.kind ∈ marks := by
      obtain eq | eq := isHash <;> rw [eq] <;> decide
    have punctuator := (lexeme_marks s).resolve_left (not_not_intro mark)
    rw [punctuator, scanPunct] at isHash
    have spelled : s.rest.head? = some '#'.toUInt8 ∨ s.rest.head? = some '%'.toUInt8 ∧ s.rest.tail.head? = some ':'.toUInt8 := by
      split at isHash
      · rename_i isPunct
        exact punct_spelled isPunct isHash
      · obtain eq | eq := isHash <;> cases eq
    simpa [atDirective, opens] using spelled

/-! ### The two scans together -/

/-- The state of the preprocessor's scan and that of the ordinary one. The flags of the next token may differ. -/
structure Tied (p o : Scanner) : Prop where
  f : o.f = p.f
  std : o.std = p.std
  preprocessor : p.mode.scanPP = true
  ordinary : o.mode = p.mode.ordinary
  rest : o.rest = p.rest
  line : o.lineOpen = p.lineOpen
  toks : o.toks.map Token.span = p.toks.map Token.span

variable {p o p' o' s s' : Scanner}

theorem Tied.noted (tied : Tied p o) (left : Noted p p') (right : Noted o o') : Tied p' o' := by
  obtain ⟨_, _, _, _, rfl⟩ := left
  obtain ⟨_, _, _, _, rfl⟩ := right
  exact ⟨tied.f, tied.std, tied.preprocessor, tied.ordinary, tied.rest, tied.line, tied.toks⟩

theorem Tied.lexeme (tied : Tied p o) : o.lexeme = p.lexeme := by
  unfold Scanner.lexeme
  rw [tied.rest, tied.f, tied.std, tied.ordinary]
  rfl

theorem Tied.atDirective (tied : Tied p o) : o.atDirective = p.atDirective := by
  unfold Scanner.atDirective
  rw [tied.rest, tied.line]

/-- The same token is put by both. -/
theorem Tied.emit (tied : Tied p o) (l : Lexeme) : Tied (p.emit p.rest.length l) (o.emit o.rest.length l) := by
  refine ⟨tied.f, tied.std, tied.preprocessor, tied.ordinary, rfl, tied.line, ?_⟩
  have same : (o.token o.rest.length l).span = (p.token p.rest.length l).span := by
    simp only [Token.span, token, offAt, tied.f, tied.rest]
  simp only [Scanner.emit, List.map_append, tied.toks, List.map_cons, same, List.map_nil]

theorem Tied.comment (tied : Tied p o) (rest : List UInt8) : Tied (p.comment rest) (o.comment rest) := by
  obtain ⟨nl, left⟩ := comment_eq p rest
  obtain ⟨nl', right⟩ := comment_eq o rest
  have kept : o.mode.scanComments = p.mode.scanComments := by
    rw [tied.ordinary]
    rfl
  have again : Tied { p with nlBefore := nl } { o with nlBefore := nl' } :=
    ⟨tied.f, tied.std, tied.preprocessor, tied.ordinary, tied.rest, tied.line, tied.toks⟩
  rw [left, right, kept]
  split
  · have put := again.emit { kind := .comment, rest := rest }
    exact ⟨put.f, put.std, put.preprocessor, put.ordinary, put.rest, put.line, put.toks⟩
  · exact ⟨tied.f, tied.std, tied.preprocessor, tied.ordinary, rfl, tied.line, tied.toks⟩

/-- A round between tokens is the same in both. -/
theorem Tied.trivium (tied : Tied p o) : Option.Rel Tied p.trivium o.trivium := by
  have moved : ∀ (rest : List UInt8) (nl nl' line line' : Bool), line' = line →
      Tied { p with rest := rest, adjacent := false, nlBefore := nl, lineOpen := line }
        { o with rest := rest, adjacent := false, nlBefore := nl', lineOpen := line' } :=
    fun rest nl nl' line line' same => ⟨tied.f, tied.std, tied.preprocessor, tied.ordinary, rfl, same, tied.toks⟩
  unfold Scanner.trivium
  rw [tied.rest]
  split
  · exact .none
  rename_i c rest here
  split
  · exact .some (moved rest _ _ _ _ tied.line)
  split
  · exact .some (moved _ true true true true rfl)
  split
  · exact .some (tied.comment _)
  split
  · split
    · exact .some (tied.comment _)
    · exact .some ((tied.noted (noted_report ..) (noted_report ..)).comment [])
  · exact .none

theorem skipTrivia_none (ends : s.trivium = none) : s.skipTrivia = s := by
  rw [skipTrivia]
  split
  · rfl
  · rename_i more
    rw [ends] at more
    cases more

theorem skipTrivia_some (round : s.trivium = some s') : s.skipTrivia = s'.skipTrivia := by
  rw [skipTrivia]
  split
  · rename_i ends
    rw [round] at ends
    cases ends
  · rename_i more
    rw [round] at more
    cases more
    rfl

theorem Tied.skipTrivia (tied : Tied p o) : Tied p.skipTrivia o.skipTrivia := by
  fun_induction Scanner.skipTrivia p generalizing o with
  | case1 p ends =>
    have round := tied.trivium
    rw [ends] at round
    cases ends' : o.trivium with
    | none =>
      rw [skipTrivia_none ends']
      exact tied
    | some o' =>
      rw [ends'] at round
      cases round
  | case2 p p' round ih =>
    have round' := tied.trivium
    rw [round] at round'
    cases more : o.trivium with
    | none =>
      rw [more] at round'
      cases round'
    | some o' =>
      rw [more] at round'
      rw [skipTrivia_some more]
      cases round' with
      | some tied' => exact ih tied'

theorem Tied.scanToken (tied : Tied p o) (plain : p.atDirective = false) : Tied p.scanToken o.scanToken := by
  have plain' := tied.atDirective.trans plain
  have ordinary : o.mode.scanPP = false := by
    rw [tied.ordinary]
    rfl
  have emitted : ∀ p' o', Noted { p with lineOpen := false } p' → Noted { o with lineOpen := false } o' →
      Tied (p'.emit p'.rest.length p.lexeme) (o'.emit o'.rest.length p.lexeme) := by
    have closed : Tied { p with lineOpen := false } { o with lineOpen := false } :=
      ⟨tied.f, tied.std, tied.preprocessor, tied.ordinary, tied.rest, rfl, tied.toks⟩
    exact fun _ _ left right => (closed.noted left right).emit p.lexeme
  have left := noted_reportFirst { p with lineOpen := false } p.lexeme.problems
  have right := noted_reportFirst { o with lineOpen := false } p.lexeme.problems
  have preprocessor : ({ p with lineOpen := false }.reportFirst p.lexeme.problems).mode.scanPP = true := by
    obtain ⟨_, _, _, _, eq⟩ := left
    rw [eq]
    exact tied.preprocessor
  have ordinary' : ({ o with lineOpen := false }.reportFirst p.lexeme.problems).mode.scanPP = false := by
    obtain ⟨_, _, _, _, eq⟩ := right
    rw [eq]
    exact ordinary
  unfold Scanner.scanToken
  simp only [tied.preprocessor, ordinary, plain', tied.lexeme, preprocessor, ordinary', Bool.not_true, Bool.not_false,
    Bool.false_and, Bool.and_false, Bool.false_eq_true, if_false, if_true]
  exact emitted _ _ left (right.trans (noted_bracket ..))

/-- Two scans go together as long as no directive is in the way. -/
theorem Tied.rounds (n : Nat) (tied : Tied p o) (plain : ∀ s ∈ p.starts n, s.atDirective = false) :
    Option.Rel Tied (p.rounds n) (o.rounds n) := by
  induction n generalizing p o with
  | zero => exact .none
  | succ n ih =>
    have between := tied.skipTrivia
    simp only [Scanner.rounds, between.rest]
    split
    · exact .some between
    · rename_i more
      simp only [starts, if_neg more] at plain
      exact ih (between.scanToken (plain _ List.mem_cons_self)) fun s mem => plain s (List.mem_cons_of_mem _ mem)

/-! ### Where they part -/

/-- What a scan does to the tokens: those it has stay, and the others come behind its offset. -/
structure Later (s s' : Scanner) : Prop where
  off : s.off ≤ s'.off
  keeps : s.toks ⊆ s'.toks
  behind : ∀ t ∈ s'.toks, t ∈ s.toks ∨ (s.off + 1 : Int) ≤ t.pos

theorem Later.refl (s : Scanner) : Later s s := ⟨Nat.le_refl _, fun _ mem => mem, fun _ mem => .inl mem⟩

theorem Later.trans {s₁ s₂ s₃ : Scanner} (first : Later s₁ s₂) (second : Later s₂ s₃) : Later s₁ s₃ := by
  refine ⟨Nat.le_trans first.off second.off, fun _ mem => second.keeps (first.keeps mem), fun t mem => ?_⟩
  obtain mem | le := second.behind t mem
  · exact first.behind t mem
  · have off := first.off
    exact .inr (by omega)

/-- At most one token is put, where the scanner is. -/
def Puts (s s' : Scanner) : Prop :=
  s'.f = s.f ∧ (s'.toks = s.toks ∨ ∃ t, s'.toks = s.toks ++ [t] ∧ t.pos = File.pos s.off)

theorem Puts.later (puts : Puts s s') (small : s.f.text.length < 2147483647) (le : s'.rest.length ≤ s.rest.length) :
    Later s s' := by
  have off : s.off ≤ s'.off := by
    rw [off_of puts.1, Scanner.off, offAt, offAt]
    omega
  obtain ⟨-, same | ⟨t, toks, pos⟩⟩ := puts
  · refine ⟨off, ?_, fun t mem => .inl ?_⟩
    · rw [same]
      exact fun _ mem => mem
    · rwa [same] at mem
  · have inside : s.off ≤ s.f.text.length := Nat.sub_le _ _
    have here : t.pos = (s.off + 1 : Nat) := pos.trans (pos_eq small inside)
    refine ⟨off, ?_, fun u mem => ?_⟩
    · rw [toks]
      exact List.subset_append_left _ _
    · rw [toks, List.mem_append, List.mem_singleton] at mem
      obtain mem | rfl := mem
      · exact .inl mem
      · exact .inr (by omega)

theorem comment_puts (s : Scanner) (rest : List UInt8) : Puts s (s.comment rest) := by
  obtain ⟨nl, eq⟩ := comment_eq s rest
  rw [eq]
  split
  · exact ⟨rfl, .inr ⟨_, rfl, by simp only [token, off, offAt]⟩⟩
  · exact ⟨rfl, .inl rfl⟩

theorem Puts.noted (noted : Noted s p) (puts : Puts p s') : Puts s s' := by
  obtain ⟨_, _, _, _, rfl⟩ := noted
  exact puts

theorem trivium_puts (round : s.trivium = some s') : Puts s s' := by
  unfold Scanner.trivium at round
  split at round
  · cases round
  split at round
  · cases round
    exact ⟨rfl, .inl rfl⟩
  split at round
  · cases round
    exact ⟨rfl, .inl rfl⟩
  split at round
  · cases round
    exact comment_puts _ _
  split at round
  · split at round
    · cases round
      exact comment_puts _ _
    · cases round
      exact .noted (noted_report ..) (comment_puts _ _)
  · cases round

theorem scanToken_puts (s : Scanner) : Puts s s.scanToken := by
  cases token : !s.mode.scanPP && s.atDirective with
  | true =>
    unfold Scanner.scanToken
    rw [if_pos token]
    exact ⟨(directiveLine_toks s).1, .inl (directiveLine_toks s).2⟩
  | false =>
    obtain ⟨f, toks⟩ := scanToken_token s token
    exact ⟨f, .inr ⟨_, toks, by simp only [Scanner.token, off, offAt]⟩⟩

variable {f : File} {mode mode' : Mode}

theorem Run.later_skipTrivia (run : Run f mode s) (small : f.text.length < 2147483647) : Later s s.skipTrivia := by
  fun_induction Scanner.skipTrivia s with
  | case1 s ends => exact .refl s
  | case2 s s' round ih =>
    have le := Nat.le_of_lt (trivium_length round)
    exact ((trivium_puts round).later (by rw [run.file]; exact small) le).trans (ih (run.trivium small round))

theorem Run.later_rounds (run : Run f mode s) {ks : List Nat} (cuts : f.Cuts ks) (small : f.text.length < 2147483647) {n : Nat}
    (ends : s.rounds n = some s') : Later s s' := by
  induction n generalizing s with
  | zero => cases ends
  | succ n ih =>
    obtain ⟨run', -, none⟩ := run.skipTrivia small
    have between := run.later_skipTrivia small
    simp only [Scanner.rounds] at ends
    split at ends
    · cases ends
      exact between
    · rename_i more
      obtain ⟨run'', less⟩ := run'.scanToken cuts small none more
      have token := (scanToken_puts s.skipTrivia).later (by rw [run'.file]; exact small) (Nat.le_of_lt less)
      exact (between.trans token).trans (ih run'' ends)

/-- Where the first directive is, the preprocessor's scan has a token and the ordinary one has none. -/
theorem Tied.parts {n : Nat} (tied : Tied p o) (run : Run f mode p) (run' : Run f mode' o) {ks : List Nat} (cuts : f.Cuts ks)
    (small : f.text.length < 2147483647) (opens : ∃ s ∈ p.starts n, s.atDirective = true) (ends : p.rounds n = some p')
    (ends' : o.rounds n = some o') : ∃ t ∈ p'.toks, t.pos < f.text.length + 1 ∧ ∀ u ∈ o'.toks, u.pos ≠ t.pos := by
  induction n generalizing p o with
  | zero => cases ends
  | succ n ih =>
    have between := tied.skipTrivia
    obtain ⟨runP, -, noneP⟩ := run.skipTrivia small
    obtain ⟨runO, -, noneO⟩ := run'.skipTrivia small
    obtain ⟨s, mem, opens⟩ := opens
    simp only [Scanner.rounds] at ends ends'
    simp only [starts] at mem
    split at mem
    · cases mem
    rename_i more
    have moreO : o.skipTrivia.rest ≠ [] := by
      rw [between.rest]
      exact more
    rw [if_neg more] at ends
    rw [if_neg moreO] at ends'
    obtain ⟨nextP, lessP⟩ := runP.scanToken cuts small noneP more
    obtain ⟨nextO, lessO⟩ := runO.scanToken cuts small noneO moreO
    cases here : p.skipTrivia.atDirective with
    | false =>
      have later : ∃ s ∈ p.skipTrivia.scanToken.starts n, s.atDirective = true := by
        obtain rfl | mem := List.mem_cons.1 mem
        · rw [here] at opens
          cases opens
        · exact ⟨s, mem, opens⟩
      exact ih (between.scanToken here) nextP nextO later ends ends'
    | true =>
      have inside : p.skipTrivia.off < f.text.length := by
        have some := List.length_pos_iff.2 more
        have suffix := runP.suffix.length_le
        rw [Scanner.off, offAt, runP.file]
        omega
      obtain ⟨-, toks⟩ := scanToken_token p.skipTrivia (by rw [between.preprocessor]; rfl)
      have at_ : (p.skipTrivia.token p.skipTrivia.rest.length p.skipTrivia.lexeme).pos = (p.skipTrivia.off + 1 : Nat) := by
        rw [Scanner.token, ← pos_eq small (Nat.le_of_lt inside), Scanner.off]
      refine ⟨p.skipTrivia.token p.skipTrivia.rest.length p.skipTrivia.lexeme, (nextP.later_rounds cuts small ends).keeps (by rw [toks]; simp), by omega, fun u mem => ?_⟩
      have same : o.skipTrivia.off = p.skipTrivia.off := by
        rw [Scanner.off, Scanner.off, offAt, offAt, between.f, between.rest]
      -- the line is skipped, and what comes then is behind its start
      have skipped : o.skipTrivia.scanToken = o.skipTrivia.directiveLine := by
        have ordinary : o.skipTrivia.mode.scanPP = false := by
          rw [between.ordinary]
          rfl
        unfold Scanner.scanToken
        rw [if_pos]
        rw [ordinary, between.atDirective, here]
        rfl
      have ahead : o.skipTrivia.off < o.skipTrivia.scanToken.off := by
        rw [off_of (scanToken_puts _).1]
        have suffix := runO.suffix.length_le
        rw [Scanner.off, offAt, offAt, runO.file]
        omega
      obtain mem | le := (nextO.later_rounds cuts small ends').behind u mem
      · rw [skipped, (directiveLine_toks _).2] at mem
        have proper := runO.proper u mem
        have below := runO.below u mem
        omega
      · omega

end Scanner

/-! ### The scans -/

theorem tied_start (f : File) (std : Std) (mode : Mode) :
    Scanner.Tied (Scanner.start f std mode.forPP) (Scanner.start f std mode.ordinary) :=
  ⟨rfl, rfl, rfl, rfl, rfl, rfl, rfl⟩

/-- **The modes of the scanner.** Of a text in which no `#` opens a line, the tokens of both modes have the same kinds and
spans exactly when no `##` opens a line: the ordinary mode skips such a line as a directive. -/
theorem spans_alike_iff (src : List UInt8) (std : Std) (mode : Mode) (small : src.length < 2147483647)
    (noHash : opensLine src std mode .hash = false) :
    ∃ p pd o od, scan ((File.new src).text.length + 1) (File.new src) std mode.forPP = some (p, pd) ∧
      scan ((File.new src).text.length + 1) (File.new src) std mode.ordinary = some (o, od) ∧
      (o.map Token.span = p.map Token.span ↔ opensLine src std mode .hashhash = false) := by
  obtain ⟨ks, cuts⟩ := File.cuts_new src small
  have small' : (File.new src).text.length < 2147483647 := by
    have le := cuts.length_le
    rw [File.new_src] at le
    omega
  have tied := tied_start (File.new src) std mode
  have runP := Scanner.run_start (File.new src) std mode.forPP
  have runO := Scanner.run_start (File.new src) std mode.ordinary
  obtain ⟨p, endsP, -, -⟩ := runP.rounds cuts small' ((File.new src).text.length + 1) (Nat.lt_succ_self _)
  obtain ⟨o, endsO, ranO, noneO⟩ := runO.rounds cuts small' ((File.new src).text.length + 1) (Nat.lt_succ_self _)
  obtain ⟨pd, -, scanP⟩ := scan_toks endsP
  obtain ⟨od, -, scanO⟩ := scan_toks endsO
  refine ⟨_, pd, _, od, scanP _ (Nat.le_refl _), scanO _ (Nat.le_refl _), ?_⟩
  constructor
  · intro same
    by_contra opens
    rw [Bool.not_eq_false, opensLine, List.any_eq_true] at opens
    obtain ⟨s, mem, opens⟩ := opens
    simp only [Bool.and_eq_true, decide_eq_true_eq] at opens
    obtain ⟨t, isIn, below, apart⟩ := tied.parts runP runO cuts small'
      ⟨s, mem, (Scanner.atDirective_iff s).2 ⟨opens.1, .inr opens.2⟩⟩ endsP endsO
    have spanned : t.span ∈ (p.toks ++ [p.token p.rest.length { kind := .eof, rest := p.rest }]).map Token.span :=
      List.mem_map.2 ⟨t, List.mem_append_left _ isIn, rfl⟩
    rw [← same] at spanned
    obtain ⟨u, mem, eq⟩ := List.mem_map.1 spanned
    have pos : u.pos = t.pos := congrArg (fun span => span.2.1) eq
    obtain mem | last := List.mem_append.1 mem
    · exact apart u mem pos
    · have off : o.offAt o.rest.length = (File.new src).text.length := by
        rw [Scanner.offAt, ranO.file, noneO, List.length_nil, Nat.sub_zero]
      have end_ : u.pos = File.pos (o.offAt o.rest.length) := by rw [List.mem_singleton.1 last, Scanner.token]
      rw [off, Scanner.pos_eq small' (Nat.le_refl _)] at end_
      omega
  · intro noDouble
    have plain : ∀ s ∈ (Scanner.start (File.new src) std mode.forPP).starts ((File.new src).text.length + 1),
        s.atDirective = false := by
      intro s mem
      have notHash := List.any_eq_false.1 noHash s mem
      have notDouble := List.any_eq_false.1 noDouble s mem
      rw [Bool.eq_false_iff, Ne, Scanner.atDirective_iff]
      rintro ⟨opens, isHash | isDouble⟩
      · exact notHash (by simp [opens, isHash])
      · exact notDouble (by simp [opens, isDouble])
    have both := tied.rounds _ plain
    rw [endsP, endsO] at both
    cases both with
    | some tied' =>
      have put := (tied'.emit { kind := .eof, rest := p.rest }).toks
      rw [tied'.rest] at put ⊢
      exact put

/-- The modes scan `a+1` alike. -/
theorem sum_alike : ∃ p pd o od,
    scan ((File.new (bytes "a+1")).text.length + 1) (File.new (bytes "a+1")) .cxx23 (Mode.forPP {}) = some (p, pd) ∧
      scan ((File.new (bytes "a+1")).text.length + 1) (File.new (bytes "a+1")) .cxx23 (Mode.ordinary {}) = some (o, od) ∧
      o.map Token.span = p.map Token.span := by
  obtain ⟨p, pd, o, od, left, right, alike⟩ := spans_alike_iff (bytes "a+1") .cxx23 {} (by decide) (by decide +kernel)
  exact ⟨p, pd, o, od, left, right, alike.2 (by decide +kernel)⟩

/-- No `#` opens a line of `##`, which is a token of the preprocessor and none of the ordinary mode. -/
theorem hashhash_skipped : opensLine (bytes "##") .cxx23 {} .hash = false ∧
    (scan 3 (File.new (bytes "##")) .cxx23 (Mode.forPP {})).map (fun x => x.1.map Token.span) =
      some [(.hashhash, 1, 3), (.eof, 3, 3)] ∧
    (scan 3 (File.new (bytes "##")) .cxx23 (Mode.ordinary {})).map (fun x => x.1.map Token.span) = some [(.eof, 3, 3)] := by
  decide +kernel

end Vcx.Scanner
