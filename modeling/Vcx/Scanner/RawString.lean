import Vcx.Scanner.Spans

/-!
# Raw string literals

The scanner reads the text, from which splices are gone, and looks for the end of a raw string in the source, where
they are not. A raw string token is the literal of the source from its prefix to the first place at which its delimiter
closes it, and the scan goes on with the byte of the text that comes next; or it is none, and that is reported.
-/

namespace Vcx.Scanner
set_option autoImplicit false
set_option linter.dupNamespace false
open Vcx.Lib
open Vcx.Token (Kind File Std bytes isSpliced)

/-! ### Literals in a source -/

/-- What closes a raw string. -/
def closer (delim : List UInt8) : List UInt8 := ')'.toUInt8 :: delim ++ [quote]

/-- A raw string from its opening quote to its closing one. -/
def quoted (delim body : List UInt8) : List UInt8 := quote :: (delim ++ '('.toUInt8 :: (body ++ closer delim))

/-- A raw string stands in a source, with its quote at an offset: it is closed for the first time behind its body. -/
structure RawAt (src : List UInt8) (opens : Nat) (delim body : List UInt8) : Prop where
  short : delim.length ≤ 16
  chars : ∀ c ∈ delim, isRawDelimChar c = true
  spelled : quoted delim body <+: src.drop opens
  first : ∀ k < body.length, ¬ closer delim <+: src.drop (opens + delim.length + 2 + k)

/-- The letters before the quote of a raw string. -/
def rawPrefixes : List (List UInt8) := ["u8R", "uR", "UR", "LR", "R"].map bytes

theorem rawPrefixes_spelled : ∀ p ∈ literalPrefixes, p.2 = true →
    (bytes p.1).dropLast ∈ rawPrefixes ∧ bytes p.1 = (bytes p.1).dropLast ++ [quote] := by
  decide

theorem indexOf_some {t s : List UInt8} {j : Nat} (found : indexOf t s = some j) :
    t <+: s.drop j ∧ ∀ k < j, ¬ t <+: s.drop k := by
  induction s generalizing j with
  | nil =>
    simp only [indexOf] at found
    split at found
    · rename_i none
      cases found
      exact ⟨none ▸ List.nil_prefix, fun k lt => absurd lt (Nat.not_lt_zero k)⟩
    · cases found
  | cons c s ih =>
    simp only [indexOf] at found
    split at found
    · rename_i here
      cases found
      exact ⟨List.isPrefixOf_iff_prefix.1 here, fun k lt => absurd lt (Nat.not_lt_zero k)⟩
    · rename_i not
      obtain ⟨i, later, rfl⟩ := Option.map_eq_some_iff.1 found
      obtain ⟨at_, first⟩ := ih later
      refine ⟨at_, fun k lt => ?_⟩
      cases k with
      | zero => exact fun here => not (List.isPrefixOf_iff_prefix.2 here)
      | succ k => exact first k (Nat.lt_of_succ_lt_succ lt)

theorem indexOf_none {t s : List UInt8} (none : indexOf t s = none) (k : Nat) : ¬ t <+: s.drop k := by
  induction s generalizing k with
  | nil =>
    simp only [indexOf] at none
    split at none
    · cases none
    · rename_i not
      rw [List.drop_nil, List.prefix_nil]
      exact not
  | cons c s ih =>
    simp only [indexOf] at none
    split at none
    · cases none
    · rename_i not
      cases k with
      | zero => exact fun here => not (List.isPrefixOf_iff_prefix.2 here)
      | succ k => exact ih (Option.map_eq_none_iff.1 none) k

/-- A raw string has the delimiter that stands behind its quote. -/
theorem RawAt.delim_eq {src : List UInt8} {opens : Nat} {delim body : List UInt8} (raw : RawAt src opens delim body) :
    delim = (src.drop (opens + 1)).takeWhile isRawDelimChar ∧ src[opens + 1 + delim.length]? = some '('.toUInt8 := by
  obtain ⟨rest, eq⟩ := raw.spelled
  have behind : src.drop (opens + 1) = delim ++ '('.toUInt8 :: (body ++ closer delim ++ rest) := by
    rw [← List.drop_drop, ← eq]
    simp [quoted]
  constructor
  · rw [behind, List.takeWhile_append_of_pos raw.chars, List.takeWhile_cons_of_neg (by decide), List.append_nil]
  · rw [← List.getElem?_drop, behind, List.getElem?_append_right (Nat.le_refl _), Nat.sub_self]
    rfl

theorem scanRawString_cases {f : File} {s : List UInt8} {opens : Nat} (start : Nat)
    (at_ : f.rawOff (f.text.length - s.length) = opens) (isQuote : f.src[opens]? = some quote) :
    (∃ delim body, RawAt f.src opens delim body ∧ scanRawString f start s =
      let suffix := scanUDSuffix (fromRaw f (opens + (quoted delim body).length))
      { kind := .stringLit, raw := true, userDefined := suffix.1, rest := suffix.2.1, problems := suffix.2.2 }) ∨
    (¬ ∃ delim body, RawAt f.src opens delim body) ∧ ∃ rest message, scanRawString f start s =
      { kind := .stringLit, raw := true, rest := rest, problems := [⟨false, start, rest.length, message⟩] } := by
  have chars : ∀ c ∈ (f.src.drop (opens + 1)).takeWhile isRawDelimChar, isRawDelimChar c = true :=
    List.all_eq_true.1 List.all_takeWhile
  have split_ := List.takeWhile_append_dropWhile (p := isRawDelimChar) (l := f.src.drop (opens + 1))
  unfold scanRawString
  simp only [at_, Int.toNat_natCast]
  generalize isDelim : (f.src.drop (opens + 1)).takeWhile isRawDelimChar = delim at chars split_
  split
  · rename_i long
    refine .inr ⟨?_, _, _, rfl⟩
    rintro ⟨delim', body, raw⟩
    have short := raw.short
    rw [raw.delim_eq.1, isDelim] at short
    omega
  split
  · rename_i other
    refine .inr ⟨?_, _, _, rfl⟩
    rintro ⟨delim', body, raw⟩
    have paren := raw.delim_eq.2
    rw [raw.delim_eq.1, isDelim] at paren
    exact other paren
  rename_i short paren
  rw [ne_eq, not_not] at paren
  generalize isRest : f.src.drop (opens + 1 + delim.length + 1) = rest
  have behind : f.src.drop opens = quote :: (delim ++ '('.toUInt8 :: rest) := by
    have tail : f.src.drop (opens + 1 + delim.length) = (f.src.drop (opens + 1)).dropWhile isRawDelimChar := by
      rw [← List.drop_drop]
      conv_lhs => rw [← split_, List.drop_left]
    rw [List.drop_eq_getElem_cons (List.getElem?_eq_some_iff.1 isQuote).1, (List.getElem?_eq_some_iff.1 isQuote).2, ← split_,
      ← tail, List.drop_eq_getElem_cons (List.getElem?_eq_some_iff.1 paren).1, (List.getElem?_eq_some_iff.1 paren).2, isRest]
  split
  · rename_i none
    refine .inr ⟨?_, [], _, rfl⟩
    rintro ⟨delim', body, raw⟩
    have same : delim' = delim := raw.delim_eq.1.trans isDelim
    subst same
    obtain ⟨after, eq⟩ := raw.spelled
    rw [behind] at eq
    have inside : body ++ closer delim' ++ after = rest := by simpa [quoted] using eq
    refine indexOf_none none body.length ⟨after, ?_⟩
    rw [← inside, List.append_assoc body, List.drop_left]
    simp [closer]
  · rename_i j found
    obtain ⟨⟨after, eq⟩, first⟩ := indexOf_some found
    have length : (rest.take j).length = j := by
      have longer := congrArg List.length eq
      rw [List.length_append, List.length_drop] at longer
      simp only [List.length_append, List.length_cons] at longer
      rw [List.length_take]
      omega
    refine .inl ⟨delim, rest.take j, ⟨by omega, chars, ⟨after, ?_⟩, fun k lt => ?_⟩, ?_⟩
    · rw [behind, quoted]
      conv_rhs => rw [← List.take_append_drop j rest, ← eq]
      simp [closer]
    · have none := first k (by omega)
      rwa [← isRest, List.drop_drop, show opens + 1 + delim.length + 1 + k = opens + delim.length + 2 + k by omega] at none
    · have whole : (quoted delim (rest.take j)).length = delim.length + j + (')'.toUInt8 :: delim ++ [quote]).length + 2 := by
        simp only [quoted, closer, List.length_cons, List.length_append, length]
        omega
      rw [whole, show opens + 1 + delim.length + 1 + j + (')'.toUInt8 :: delim ++ [quote]).length =
        opens + (delim.length + j + (')'.toUInt8 :: delim ++ [quote]).length + 2) by omega]

theorem quoted_ends (delim body : List UInt8) : ∃ front, quoted delim body = front ++ [quote] :=
  ⟨quote :: (delim ++ '('.toUInt8 :: (body ++ ')'.toUInt8 :: delim)), by simp [quoted, closer]⟩

theorem closing_quote {f : File} {ks : List Nat} (places : f.Places ks) {o : Nat} (isIn : o < ks.length)
    {delim body : List UInt8} (raw : RawAt f.src ks[o] delim body) :
    ∃ (last : Nat) (_ : last < ks.length), ks[last] + 1 = ks[o] + (quoted delim body).length := by
  obtain ⟨front, ends⟩ := quoted_ends delim body
  have isQuote : f.src[ks[o] + front.length]? = some quote := by
    obtain ⟨rest, whole⟩ := raw.spelled
    rw [← List.getElem?_drop, ← whole, ends, List.append_assoc, List.getElem?_append_right (Nat.le_refl _), Nat.sub_self]
    rfl
  obtain ⟨last, isLast, eq⟩ := List.getElem_of_mem (places.kept isIn isQuote (by decide) (Nat.le_add_right _ _))
  refine ⟨last, isLast, ?_⟩
  rw [eq, ends, List.length_append, List.length_singleton, Nat.add_assoc]

/-! ### Tokens -/

/-- The letters before the quote. -/
def Lettered (f : File) (t : Token) (opens : Nat) : Prop :=
  part f.text (File.offset t.pos) (f.transOffset opens) ∈ rawPrefixes

/-- A raw string token. The text goes on with what stands in the source behind the closing quote: that is what the scanner
is given next, or a ud-suffix and then the rest. -/
structure Literal (f : File) (t : Token) (opens : Nat) (delim body : List UInt8) : Prop where
  literal : RawAt f.src opens delim body
  letters : Lettered f t opens
  raw : f.raw t.pos (File.pos (f.transOffset (opens + (quoted delim body).length : Nat))) =
    part f.src (f.rawOff (File.offset t.pos)).toNat opens ++ quoted delim body
  resumes : ∀ o < f.text.length, o < f.transOffset (opens + (quoted delim body).length : Nat) ↔
    f.rawOff o < (opens + (quoted delim body).length : Nat)
  plain : t.userDefined = false → t.stop = File.pos (f.transOffset (opens + (quoted delim body).length : Nat))
  suffixed : t.userDefined = true →
    f.text.drop (File.offset t.stop) = (identParts (f.text.drop (f.transOffset (opens + (quoted delim body).length : Nat)))).1

/-- A token that is none, since no raw string stands at its quote, and what is reported of it. -/
def Malformed (f : File) (t : Token) (diags : List (Token.Diagnostic Message)) : Prop :=
  ∃ opens, Lettered f t opens ∧ (¬ ∃ delim body, RawAt f.src opens delim body) ∧
    ∃ d ∈ diags, d.pos = t.pos ∧ d.severity = .error

namespace Scanner

theorem lexeme_raw {s : Scanner} (raw : s.lexeme.raw = true) : ∃ p ∈ literalPrefixes, p.2 = true ∧ bytes p.1 <+: s.rest ∧
    s.lexeme = scanRawString s.f s.rest.length (s.rest.drop ((bytes p.1).length - 1)) := by
  have ident : ∀ std rest, (scanIdent std rest).raw = false := by
    intro std rest
    unfold scanIdent
    split <;> rfl
  unfold Scanner.lexeme at raw ⊢
  simp only at raw ⊢
  split
  · rename_i letter
    rw [if_pos letter] at raw
    unfold scanIdentOrLiteralPrefix at raw ⊢
    split
    · rename_i none
      simp only [none, ident] at raw
      cases raw
    · rename_i p found
      simp only [found] at raw ⊢
      have holds := List.find?_some found
      have isPrefix := List.isPrefixOf_iff_prefix.1 holds
      split
      · rename_i isRaw
        exact ⟨p, List.mem_of_find?_eq_some found, isRaw, isPrefix, rfl⟩
      · rename_i notRaw
        rw [if_neg notRaw] at raw
        split at raw <;> cases raw
  · rename_i other
    rw [if_neg other] at raw
    exfalso
    split at raw
    · rw [ident] at raw
      cases raw
    split at raw
    · cases raw
    split at raw
    · cases raw
    split at raw
    · cases raw
    · unfold scanPunct at raw
      split at raw <;> cases raw

variable {f : File} {ks : List Nat} {s : Scanner}

/-- **A raw token.** It is a literal of the source, or no literal stands at its quote and that is its one problem. -/
theorem rawToken (places : f.Places ks) (small : f.text.length < 2147483647) (file : s.f = f) (suffix : s.rest <:+ f.text)
    (raw : s.lexeme.raw = true) :
    (∃ opens delim body, Literal f (s.token s.rest.length s.lexeme) opens delim body) ∨
      (∃ opens, Lettered f (s.token s.rest.length s.lexeme) opens ∧ ¬ ∃ delim body, RawAt f.src opens delim body) ∧
        ∃ stop message, s.lexeme.problems = [⟨false, s.rest.length, stop, message⟩] := by
  obtain ⟨p, mem, isRaw, ⟨rest, isPrefix⟩, eq⟩ := lexeme_raw raw
  obtain ⟨isLetters, spelled⟩ := rawPrefixes_spelled p mem isRaw
  generalize (bytes p.1).dropLast = letters at isLetters spelled
  rw [spelled] at isPrefix eq
  rw [List.append_assoc] at isPrefix
  have size : (letters ++ [quote]).length - 1 = letters.length := by simp
  rw [size, ← isPrefix, List.drop_left, isPrefix] at eq
  -- where the token starts in the text, and its quote in the text and in the source
  have length : s.rest.length = letters.length + 1 + rest.length := by
    rw [← isPrefix]
    simp only [List.length_append, List.length_singleton]
    omega
  have inside := suffix.length_le
  have cut := places.size
  generalize isStart : f.text.length - s.rest.length = o
  have off : s.offAt s.rest.length = o := by rw [offAt, file, isStart]
  have pos : (s.token s.rest.length s.lexeme).pos = File.pos o := by simp only [Scanner.token, off]
  have offset : File.offset (s.token s.rest.length s.lexeme).pos = o := by rw [pos, File.offset_pos (by omega)]
  have text : f.text.drop o = s.rest := by
    rw [← isStart]
    exact (List.suffix_iff_eq_drop.1 suffix).symm
  have atQuote : f.text.length - ([quote] ++ rest).length = o + letters.length := by
    rw [List.length_append, List.length_singleton]
    omega
  have isIn : o + letters.length < ks.length := by omega
  have opens : f.rawOff (o + letters.length) = ks[o + letters.length] := places.rawOff_of_lt isIn
  have back : f.transOffset ks[o + letters.length] = o + letters.length := by
    rw [← opens]
    exact places.transOffset_rawOff (by omega)
  have isQuote : f.src[ks[o + letters.length]]? = some quote := by
    rw [← places.bytes _ isIn, ← List.getElem?_drop, text, ← isPrefix, List.getElem?_append_right (Nat.le_refl _), Nat.sub_self]
    rfl
  have lettered : Lettered f (s.token s.rest.length s.lexeme) ks[o + letters.length] := by
    rw [Lettered, offset, back, part, List.drop_take, text, Nat.add_sub_cancel_left, ← isPrefix, List.take_left]
    exact isLetters
  have cases := scanRawString_cases (f := f) (s := [quote] ++ rest) s.rest.length (by rw [atQuote]; exact opens) isQuote
  rw [file] at eq
  rw [← eq] at cases
  obtain ⟨delim, body, literal, made⟩ | ⟨none, left, message, made⟩ := cases
  · left
    obtain ⟨last, isLast, ends⟩ := closing_quote places isIn literal
    have after : f.transOffset (ks[o + letters.length] + (quoted delim body).length : Nat) = last + 1 := by
      rw [← ends]
      exact places.transOffset_after isLast
    have some : 0 < (quoted delim body).length := Nat.succ_pos _
    have ahead : o + letters.length ≤ last := by
      by_contra less
      have lt := places.lt (by omega : last < o + letters.length) isIn
      omega
    have le : ks[o] ≤ ks[o + letters.length] := by
      by_cases none : letters.length = 0
      · simp only [none, Nat.add_zero, Nat.le_refl]
      · exact Nat.le_of_lt (places.lt (by omega) isIn)
    have stop : (s.token s.rest.length s.lexeme).stop = File.pos (f.text.length - s.lexeme.rest.length) := by
      simp only [Scanner.token, offAt, file]
    refine ⟨_, delim, body, literal, lettered, ?_, fun o' isIn' => ?_, fun plain => ?_, fun suffixed => ?_⟩
    · have start : (f.rawOff o).toNat = ks[o] := by rw [places.rawOff_of_lt (by omega), Int.toNat_natCast]
      have whole := places.raw o (last + 1) (by omega) (by omega)
      simp only [Nat.add_sub_cancel, ends] at whole
      have second : part f.src ks[o + letters.length] (ks[o + letters.length] + (quoted delim body).length) = quoted delim body := by
        obtain ⟨rest, spelled⟩ := literal.spelled
        rw [part, List.drop_take, Nat.add_sub_cancel_left, ← spelled, List.take_left]
      rw [after, offset, pos, whole, start, ← part_append f.src le (Nat.le_add_right _ _), second]
    · rw [after, places.rawOff_of_lt (by omega)]
      constructor
      · intro before
        by_cases same : o' = last
        · subst same
          omega
        · have less := places.lt (by omega : o' < last) isLast
          omega
      · intro before
        by_contra behind
        have less := places.lt (by omega : last < o') (by omega)
        omega
    · have rest : s.lexeme.rest = f.text.drop (last + 1) := by
        rw [made] at plain ⊢
        simp only [fromRaw, after] at plain ⊢
        unfold scanUDSuffix at plain ⊢
        split at plain
        · cases plain
        · rename_i other
          rw [if_neg other]
      rw [stop, rest, after, List.length_drop, Nat.sub_sub_self (by omega)]
    · have rest : s.lexeme.rest = (identParts (f.text.drop (last + 1))).1 := by
        rw [made] at suffixed ⊢
        simp only [fromRaw, after] at suffixed ⊢
        unfold scanUDSuffix at suffixed ⊢
        split at suffixed
        · rename_i some
          rw [if_pos some]
        · cases suffixed
      have isSuffix : s.lexeme.rest <:+ f.text := by
        rw [rest]
        exact (identParts_suffix _).trans (List.drop_suffix _ _)
      rw [stop, File.offset_pos (by omega), after, ← rest]
      exact (List.suffix_iff_eq_drop.1 isSuffix).symm
  · right
    exact ⟨⟨_, lettered, none⟩, left.length, message, by rw [made]⟩

/-! ### Along a scan -/

/-- Nothing that was reported is taken back, and no raw token is put. -/
structure Passes (s s' : Scanner) : Prop where
  diags : s.diags ⊆ s'.diags
  toks : ∀ t ∈ s'.toks, t ∈ s.toks ∨ t.raw = false

theorem Passes.refl (s : Scanner) : Passes s s := ⟨fun _ mem => mem, fun _ mem => .inl mem⟩

theorem Passes.trans {s₁ s₂ s₃ : Scanner} (first : Passes s₁ s₂) (second : Passes s₂ s₃) : Passes s₁ s₃ := by
  refine ⟨fun _ mem => second.diags (first.diags mem), fun t mem => ?_⟩
  obtain mem | plain := second.toks t mem
  · exact first.toks t mem
  · exact .inr plain

variable {s' : Scanner}

theorem comment_passes (s : Scanner) (rest : List UInt8) : Passes s (s.comment rest) := by
  obtain ⟨nl, eq⟩ := comment_eq s rest
  rw [eq]
  split
  · refine ⟨fun _ mem => mem, fun t mem => ?_⟩
    obtain mem | last := List.mem_append.1 mem
    · exact .inl mem
    · right
      rw [List.mem_singleton.1 last, Scanner.token]
  · exact ⟨fun _ mem => mem, fun _ mem => .inl mem⟩

theorem report_passes (s : Scanner) (severity : Token.Severity) (lo hi : Nat) (message : Message) :
    Passes s (s.report severity lo hi message) := by
  refine ⟨report_diags .., fun t mem => ?_⟩
  obtain ⟨_, _, _, _, eq⟩ := noted_report s severity lo hi message
  rw [eq] at mem
  exact .inl mem

theorem trivium_passes (round : s.trivium = some s') : Passes s s' := by
  unfold Scanner.trivium at round
  split at round
  · cases round
  split at round
  · cases round
    exact ⟨fun _ mem => mem, fun _ mem => .inl mem⟩
  split at round
  · cases round
    exact ⟨fun _ mem => mem, fun _ mem => .inl mem⟩
  split at round
  · cases round
    exact comment_passes _ _
  split at round
  · split at round
    · cases round
      exact comment_passes _ _
    · cases round
      exact (report_passes ..).trans (comment_passes _ _)
  · cases round

theorem skipTrivia_passes (s : Scanner) : Passes s s.skipTrivia := by
  fun_induction Scanner.skipTrivia s with
  | case1 s ends => exact .refl s
  | case2 s s' round ih => exact (trivium_passes round).trans ih

theorem directiveLine_passes (s : Scanner) : Passes s s.directiveLine := by
  refine ⟨?_, fun t mem => .inl ((directiveLine_toks s).2 ▸ mem)⟩
  unfold Scanner.directiveLine
  simp only
  split
  · exact report_diags { s with hashReported := true } _ _ _ _
  · exact fun _ mem => mem

theorem bracket_diags (s : Scanner) (k : Kind) (pos : Nat) : s.diags ⊆ (s.bracket k pos).diags := by
  unfold bracket
  split
  · exact fun _ mem => mem
  split
  · split
    · exact bracketErr_diags ..
    · rename_i outer _
      simp only
      split
      · exact bracketErr_diags { s with brackets := outer } _ _
      · exact fun _ mem => mem
  · exact fun _ mem => mem

/-- A token's problems are reported before what its bracket has, and what was reported stays. -/
theorem scanToken_diags (s : Scanner) (token : (!s.mode.scanPP && s.atDirective) = false) :
    ({ s with lineOpen := false }.reportFirst s.lexeme.problems).diags ⊆ s.scanToken.diags := by
  unfold Scanner.scanToken
  simp only [token, Bool.false_eq_true, if_false]
  split
  · exact fun _ mem => mem
  · exact bracket_diags ..

theorem reportFirst_diags (s : Scanner) (problems : List Problem) : s.diags ⊆ (s.reportFirst problems).diags := by
  unfold reportFirst
  split
  · exact fun _ mem => mem
  · exact report_diags ..

/-- A problem of the scanner's own is reported where it starts. -/
theorem reported_own (s : Scanner) {left : Nat} (stop : Nat) (message : Message) (some : 0 < left) (inside : left ≤ s.f.text.length) :
    ∃ d ∈ (s.reportFirst [⟨false, left, stop, message⟩]).diags, d.pos = File.pos (s.offAt left) ∧ d.severity = .error := by
  have lt : s.offAt left < s.f.text.length := by
    unfold offAt
    omega
  have ahead : ¬ min (if s.offAt stop ≤ s.offAt left then s.offAt left + 1 else s.offAt stop) s.f.text.length ≤ s.offAt left := by
    split <;> omega
  generalize isHi : min (if s.offAt stop ≤ s.offAt left then s.offAt left + 1 else s.offAt stop) s.f.text.length = hi at ahead
  refine ⟨⟨File.pos (s.offAt left), File.pos hi, .error, message⟩, ?_, by simp only, by simp only⟩
  · have first : s.reportFirst [⟨false, left, stop, message⟩] = s.report .error (s.offAt left) (s.offAt stop) message := by
      simp [reportFirst]
    rw [first, report]
    simp only [if_neg (by omega : ¬ s.f.text.length = 0), isHi, if_neg ahead]
    exact List.mem_append_right _ List.mem_cons_self

/-- What a raw token of a file comes to. -/
def Settled (f : File) (diags : List (Token.Diagnostic Message)) (t : Token) : Prop :=
  t.raw = true → (∃ opens delim body, Literal f t opens delim body) ∨ Malformed f t diags

theorem Settled.mono {diags diags' : List (Token.Diagnostic Message)} {t : Token} (settled : Settled f diags t)
    (more : diags ⊆ diags') : Settled f diags' t := by
  intro raw
  obtain literal | ⟨opens, letters, none, d, mem, at_, isError⟩ := settled raw
  · exact .inl literal
  · exact .inr ⟨opens, letters, none, d, more mem, at_, isError⟩

theorem Passes.settled (passes : Passes s s') (before : ∀ t ∈ s.toks, Settled f s.diags t) :
    ∀ t ∈ s'.toks, Settled f s'.diags t := by
  intro t mem
  obtain mem | plain := passes.toks t mem
  · exact (before t mem).mono passes.diags
  · intro raw
    rw [plain] at raw
    cases raw

/-- **A token that is scanned is settled.** -/
theorem scanToken_settled (places : f.Places ks) (small : f.text.length < 2147483647) (file : s.f = f) (suffix : s.rest <:+ f.text)
    (some : s.rest ≠ []) (before : ∀ t ∈ s.toks, Settled f s.diags t) : ∀ t ∈ s.scanToken.toks, Settled f s.scanToken.diags t := by
  cases token : !s.mode.scanPP && s.atDirective with
  | true =>
    have skipped : s.scanToken = s.directiveLine := by
      unfold Scanner.scanToken
      rw [if_pos token]
    rw [skipped]
    exact (directiveLine_passes s).settled before
  | false =>
    have kept : s.diags ⊆ s.scanToken.diags := fun _ mem =>
      scanToken_diags s token (reportFirst_diags { s with lineOpen := false } _ mem)
    intro t mem
    rw [(scanToken_token s token).2, List.mem_append, List.mem_singleton] at mem
    obtain mem | rfl := mem
    · exact (before t mem).mono kept
    · intro raw
      obtain literal | ⟨⟨opens, letters, none⟩, stop, message, problems⟩ := rawToken places small file suffix raw
      · exact .inl literal
      · have inside := suffix.length_le
        obtain ⟨d, mem, at_, isError⟩ := reported_own { s with lineOpen := false } stop message
          (List.length_pos_iff.2 some) (by rw [← file] at inside; exact inside)
        refine .inr ⟨opens, letters, none, d, scanToken_diags s token ?_, ?_, isError⟩
        · rw [problems]
          exact mem
        · rw [at_]
          simp only [Scanner.token, offAt]

variable {mode : Mode}

theorem rounds_settled (places : f.Places ks) (small : f.text.length < 2147483647) {n : Nat} (run : Run f mode s)
    (before : ∀ t ∈ s.toks, Settled f s.diags t) (ends : s.rounds n = some s') : ∀ t ∈ s'.toks, Settled f s'.diags t := by
  induction n generalizing s with
  | zero => cases ends
  | succ n ih =>
    obtain ⟨run', -, none⟩ := run.skipTrivia small
    have between := (skipTrivia_passes s).settled before
    simp only [Scanner.rounds] at ends
    split at ends
    · cases ends
      exact between
    · rename_i more
      exact ih (run'.scanToken places.toCuts small none more).1
        (scanToken_settled places small run'.file run'.suffix more between) ends

end Scanner

/-- **Raw strings.** A raw token of a scan is the letters of its prefix and, from the quote on, the raw string that stands
there in the source, closed where its delimiter closes it first, with the splices in it; the scan goes on behind the
closing quote, with a ud-suffix that the token has or with what comes next. A raw token at whose quote no raw string
stands has an error reported. -/
theorem scan_rawStrings (src : List UInt8) (std : Std) (mode : Mode) (small : src.length < 2147483647) :
    ∃ toks diags, (∀ fuel, (File.new src).text.length < fuel → scan fuel (File.new src) std mode = some (toks, diags)) ∧
      ∀ t ∈ toks, t.raw = true →
        (∃ opens delim body, Literal (File.new src) t opens delim body) ∨ Malformed (File.new src) t diags := by
  have places := File.places_new small
  have small' : (File.new src).text.length < 2147483647 := by
    have le := places.length_le
    rw [File.new_src] at le
    omega
  have run := Scanner.run_start (File.new src) std mode
  obtain ⟨s, ends, -, -⟩ := run.rounds places.toCuts small' _ (Nat.lt_succ_self _)
  obtain ⟨diags, kept, scanned⟩ := scan_toks ends
  refine ⟨_, diags, fun fuel enough => scanned fuel enough, fun t mem raw => ?_⟩
  obtain mem | last := List.mem_append.1 mem
  · have settled := Scanner.rounds_settled places small' run (fun t mem => by cases mem) ends t mem
    exact settled.mono kept raw
  · rw [List.mem_singleton.1 last, Scanner.token] at raw
    cases raw

/-- A raw string with two splices, one of them in its body, is a literal. -/
theorem spliced_literal : ∃ toks diags, scan 20 (File.new (bytes "R\\\n\"(a\\\nb)\";")) .cxx23 {} = some (toks, diags) ∧
    ∀ t ∈ toks, t.raw = true → (∃ opens delim body, Literal (File.new (bytes "R\\\n\"(a\\\nb)\";")) t opens delim body) ∨
      Malformed (File.new (bytes "R\\\n\"(a\\\nb)\";")) t diags := by
  obtain ⟨toks, diags, ends, settled⟩ := scan_rawStrings (bytes "R\\\n\"(a\\\nb)\";") .cxx23 {} (by decide)
  exact ⟨toks, diags, ends 20 (by decide +kernel), settled⟩

/-- The token of `R"x(a)x"_y`: with its ud-suffix it does not end at the closing quote. -/
theorem suffixed_longer : ∃ t eof, scan 20 (File.new (bytes "R\"x(a)x\"_y")) .cxx23 {} = some ([t, eof], []) ∧ t.raw = true ∧
    ¬ ∃ delim body, (File.new (bytes "R\"x(a)x\"_y")).raw t.pos t.stop = bytes "R" ++ quoted delim body := by
  refine ⟨{ kind := .stringLit, adjacent := false, nlBefore := false, raw := true, userDefined := true, pos := 1, stop := 11 },
    { kind := .eof, adjacent := true, nlBefore := false, pos := 11, stop := 11 }, by decide +kernel, rfl, ?_⟩
  rintro ⟨delim, body, eq⟩
  obtain ⟨front, ends⟩ := quoted_ends delim body
  have last := congrArg List.getLast? eq
  rw [ends, ← List.append_assoc, List.getLast?_concat] at last
  revert last
  decide +kernel

end Vcx.Scanner
