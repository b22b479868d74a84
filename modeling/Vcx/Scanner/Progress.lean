import Vcx.Scanner.Scan
import Vcx.Token.Translate

/-!
# What a token takes

Every routine leaves a suffix of the text it was given, and a token takes at least one byte of it.
-/

namespace Vcx.Scanner
set_option autoImplicit false
open Vcx.Lib
open Vcx.Token (Kind File Std bytes)

/-- `rest` is what is left of `s` after at least one byte. -/
def Takes (s rest : List UInt8) : Prop := rest <:+ s ∧ rest.length < s.length

theorem Takes.cons {c : UInt8} {s rest : List UInt8} (suffix : rest <:+ s) : Takes (c :: s) rest :=
  ⟨suffix.trans (List.suffix_cons c s), Nat.lt_succ_of_le suffix.length_le⟩

theorem Takes.append {s rest rest' : List UInt8} (takes : Takes s rest) (suffix : rest' <:+ rest) : Takes s rest' :=
  ⟨suffix.trans takes.1, Nat.lt_of_le_of_lt suffix.length_le takes.2⟩

theorem takes_drop {s : List UInt8} {n : Nat} (some : 0 < n) (inside : s ≠ []) : Takes s (s.drop n) := by
  refine ⟨List.drop_suffix n s, ?_⟩
  have nonempty := List.length_pos_iff.2 inside
  rw [List.length_drop]
  omega

/-! ### Identifiers and numbers -/

theorem identPart_takes {s rest : List UInt8} {ps : List Problem} (part : identPart s = some (rest, ps)) : Takes s rest := by
  refine ⟨?_, identPart_length part⟩
  cases s with
  | nil => cases part
  | cons c tail =>
    simp only [identPart] at part
    split at part
    · cases part
      exact List.suffix_cons c _
    split at part
    · cases part
      exact List.drop_suffix _ _
    split at part
    · split at part
      · cases part
        exact List.suffix_cons c _
      · cases part
        exact List.drop_suffix _ _
    · cases part

theorem identParts_suffix (s : List UInt8) : (identParts s).1 <:+ s := by
  fun_induction identParts s with
  | case1 s none => exact List.suffix_refl s
  | case2 s rest ps part more ih => exact ih.trans (identPart_takes part).1

theorem identParts_takes {s : List UInt8} (starts : (identPart s).isSome = true) : Takes s (identParts s).1 := by
  obtain ⟨⟨rest, ps⟩, part⟩ := Option.isSome_iff_exists.1 starts
  rw [identParts]
  split
  · rename_i none
    rw [none] at part
    cases part
  · rename_i part'
    exact (identPart_takes part').append (identParts_suffix _)

theorem isIdentPart_of_isIdentStart {c : UInt8} (start : isIdentStart c = true) : isIdentPart c = true := by
  rw [isIdentPart, start, Bool.true_or]

/-- The characters that may start an identifier do, a stray backslash apart. -/
theorem identPart_starts {c : UInt8} {s : List UInt8}
    (starts : isIdentStart c = true ∨ atUCN (c :: s) = true ∨ 0x80 ≤ c) : (identPart (c :: s)).isSome = true := by
  simp only [identPart]
  split
  · rfl
  · rename_i notPart
    split
    · rfl
    · rename_i notUCN
      obtain start | ucn | high := starts
      · exact absurd (isIdentPart_of_isIdentStart start) notPart
      · exact absurd ucn notUCN
      · rw [if_pos high]
        split <;> rfl

theorem scanIdent_takes (std : Std) {c : UInt8} {s : List UInt8}
    (starts : isIdentStart c = true ∨ c = backslash ∨ 0x80 ≤ c) : Takes (c :: s) (scanIdent std (c :: s)).rest := by
  unfold scanIdent
  split
  · exact Takes.cons (List.suffix_refl s)
  · rename_i notStray
    apply identParts_takes
    apply identPart_starts
    obtain start | slash | high := starts
    · exact .inl start
    · subst slash
      refine .inr (.inl ?_)
      simpa using notStray
    · exact .inr (.inr high)

theorem scanUDSuffix_suffix (s : List UInt8) : (scanUDSuffix s).2.1 <:+ s := by
  unfold scanUDSuffix
  split
  · exact identParts_suffix s
  · exact List.suffix_refl s

theorem afterSign_suffix (s : List UInt8) : afterSign s <:+ s := by
  unfold afterSign
  split
  · exact List.tail_suffix s
  · exact List.suffix_refl s

theorem numberPart_takes {s rest : List UInt8} {ps : List Problem} (part : numberPart s = some (rest, ps)) : Takes s rest := by
  cases s with
  | nil => cases part
  | cons c tail =>
    simp only [numberPart] at part
    split at part
    · cases part
      exact Takes.cons (List.suffix_refl _)
    split at part
    · cases part
      exact Takes.cons (afterSign_suffix _)
    split at part
    · cases part
      exact Takes.cons (List.suffix_refl _)
    · exact identPart_takes part

theorem numberParts_suffix (s : List UInt8) : (numberParts s).1 <:+ s := by
  fun_induction numberParts s with
  | case1 s none => exact List.suffix_refl s
  | case2 s rest ps part more ih => exact ih.trans (numberPart_takes part).1

theorem scanNumber_takes {c : UInt8} {s : List UInt8} (starts : isDigit c = true ∨ c = '.'.toUInt8) :
    Takes (c :: s) (scanNumber (c :: s)).rest := by
  have first : numberPart (c :: s) = some (s, []) := by
    unfold numberPart
    apply if_pos
    simpa using starts
  unfold scanNumber
  rw [numberParts]
  split
  · rename_i none
    rw [first] at none
    cases none
  · rename_i part
    exact (numberPart_takes part).append (numberParts_suffix _)

/-! ### Literals -/

theorem delimited_suffix (start : Nat) (what : String) (isDigit : UInt8 → Bool) (s : List UInt8) :
    (delimited start what isDigit s).1 <:+ s := by
  have digits : s.tail.dropWhile isDigit <:+ s := (List.dropWhile_suffix _).trans (List.tail_suffix s)
  simp only [delimited]
  split
  · exact List.suffix_refl s
  · split
    · exact digits
    · exact (List.tail_suffix _).trans digits

theorem named_suffix (start : Nat) (s : List UInt8) : (named start s).1 <:+ s := by
  have name : s.tail.dropWhile (fun c => !(isOneOf "\x7d\"'" c || isNewline c)) <:+ s :=
    (List.dropWhile_suffix _).trans (List.tail_suffix s)
  simp only [named]
  split
  · exact List.suffix_refl s
  · split
    · exact name
    · exact (List.tail_suffix _).trans name

theorem scanEscape_suffix (s : List UInt8) : (scanEscape s).1 <:+ s := by
  cases tail : s.tail with
  | nil =>
    rw [scanEscape, tail]
    exact List.nil_suffix
  | cons c rest =>
    have whole : c :: rest <:+ s := by
      rw [← tail]
      exact List.tail_suffix s
    have after : rest <:+ s := (List.suffix_cons c rest).trans whole
    have left := scanEscape_rest tail
    generalize (scanEscape s).1 = r at left ⊢
    cases left with
    | newline => exact whole
    | simple => exact after
    | octal => exact (List.drop_suffix _ _).trans after
    | delimited => exact (delimited_suffix _ _ _ _).trans after
    | hex => exact (List.dropWhile_suffix _).trans after
    | ucn => exact List.drop_suffix _ s
    | named => exact (named_suffix _ _).trans after

theorem scanQuoted_suffix (quote : UInt8) (s : List UInt8) : (scanQuoted quote s).rest <:+ s := by
  fun_induction scanQuoted quote s with
  | case1 => exact List.suffix_refl []
  | case2 rest => exact List.suffix_cons _ _
  | case3 c rest => exact List.suffix_refl _
  | case4 rest _ _ escape more ih => exact ih.trans (scanEscape_suffix _)
  | case5 c rest _ _ _ more ih => exact ih.trans (List.suffix_cons _ _)

theorem suffixed_suffix (q : Quoted) :
    (if q.terminated = true then scanUDSuffix q.rest else (false, q.rest, [])).2.1 <:+ q.rest := by
  split
  · exact scanUDSuffix_suffix _
  · exact List.suffix_refl _

theorem scanChar_suffix (start : Nat) (s : List UInt8) : (scanChar start s).rest <:+ s.tail :=
  (suffixed_suffix _).trans (scanQuoted_suffix _ _)

theorem scanString_suffix (start : Nat) (s : List UInt8) : (scanString start s).rest <:+ s.tail :=
  (suffixed_suffix _).trans (scanQuoted_suffix _ _)

/-- A raw string ends behind its opening quote, wherever the source takes it. -/
theorem scanRawString_takes {f : File} {ks : List Nat} (cuts : f.Cuts ks) (start : Nat) {s : List UInt8}
    (suffix : s <:+ f.text) (some : s ≠ []) : Takes s (scanRawString f start s).rest := by
  have nonempty := List.length_pos_iff.2 some
  have inside := suffix.length_le
  -- the text from a place of the source past the quote
  have past : ∀ raw : Nat, (f.rawOff (f.text.length - s.length)).toNat < raw → Takes s (fromRaw f raw) := by
    intro raw less
    have behind := @File.Cuts.lt_transOffset _ _ cuts (f.text.length - s.length) raw (by omega) (by omega)
    have eq : s = f.text.drop (f.text.length - s.length) := List.suffix_iff_eq_drop.1 suffix
    have dropped : fromRaw f raw = s.drop (f.transOffset raw - (f.text.length - s.length)) := by
      have same := congrArg (List.drop (f.transOffset raw - (f.text.length - s.length))) eq
      rw [same, List.drop_drop, fromRaw]
      congr 1
      omega
    rw [dropped]
    exact takes_drop (by omega) some
  simp only [scanRawString]
  split
  · exact past _ (by omega)
  split
  · exact past _ (by omega)
  split
  · exact ⟨List.nil_suffix, nonempty⟩
  · exact (past _ (by omega)).append (scanUDSuffix_suffix _)

theorem literalPrefixes_nonempty : ∀ p ∈ literalPrefixes, 0 < (bytes p.1).length := by decide

theorem scanIdentOrLiteralPrefix_takes {f : File} {ks : List Nat} (cuts : f.Cuts ks) (std : Std) {c : UInt8}
    {s : List UInt8} (suffix : c :: s <:+ f.text) (starts : isIdentStart c = true) :
    Takes (c :: s) (scanIdentOrLiteralPrefix f std (c :: s)).rest := by
  unfold scanIdentOrLiteralPrefix
  split
  · exact scanIdent_takes std (.inl starts)
  · rename_i p found
    have isPrefix : bytes p.1 <+: c :: s := by
      have holds := List.find?_some found
      exact List.isPrefixOf_iff_prefix.1 holds
    -- a prefix ends in a quote, which is left
    have positive := literalPrefixes_nonempty p (List.mem_of_find?_eq_some found)
    have some : (c :: s).drop ((bytes p.1).length - 1) ≠ [] := by
      intro none
      have short := isPrefix.length_le
      have empty := congrArg List.length none
      rw [List.length_drop, List.length_nil] at empty
      omega
    have rest := List.drop_suffix ((bytes p.1).length - 1) (c :: s)
    have quoted : Takes ((c :: s).drop ((bytes p.1).length - 1)) ((c :: s).drop ((bytes p.1).length - 1)).tail := by
      rw [← List.drop_one]
      exact takes_drop Nat.zero_lt_one some
    simp only
    split
    · have takes := scanRawString_takes cuts (c :: s).length (rest.trans suffix) some
      exact ⟨takes.1.trans rest, Nat.lt_of_lt_of_le takes.2 rest.length_le⟩
    split
    · have takes := quoted.append (scanChar_suffix (c :: s).length _)
      exact ⟨takes.1.trans rest, Nat.lt_of_lt_of_le takes.2 rest.length_le⟩
    · have takes := quoted.append (scanString_suffix (c :: s).length _)
      exact ⟨takes.1.trans rest, Nat.lt_of_lt_of_le takes.2 rest.length_le⟩

/-! ### Punctuators -/

theorem punctuators_nonempty : ∀ p ∈ Scanner.punctuators, 0 < (bytes p.1).length := by decide

theorem punct_pos {std : Std} {mode : Mode} {s : List UInt8} {k : Kind} {size : Nat} {digraph : Bool}
    (isPunct : Scanner.punct std mode s = some (k, size, digraph)) : 0 < size := by
  unfold Scanner.punct at isPunct
  split at isPunct
  · cases isPunct
    exact Nat.zero_lt_one
  · obtain ⟨p, found, eq⟩ := Option.map_eq_some_iff.1 isPunct
    cases eq
    exact punctuators_nonempty p (List.mem_of_find?_eq_some found)

theorem scanPunct_takes (std : Std) (mode : Mode) {s : List UInt8} (some : s ≠ []) :
    Takes s (Scanner.scanPunct std mode s).rest := by
  unfold Scanner.scanPunct
  split
  · rename_i isPunct
    exact takes_drop (punct_pos isPunct) some
  · rw [← List.drop_one]
    exact takes_drop Nat.zero_lt_one some

/-- **A token takes at least one byte.** -/
theorem lexeme_takes {s : Scanner} {ks : List Nat} (cuts : s.f.Cuts ks) (suffix : s.rest <:+ s.f.text) (some : s.rest ≠ []) :
    Takes s.rest s.lexeme.rest := by
  obtain ⟨c, rest, eq⟩ := List.exists_cons_of_ne_nil some
  rw [eq] at suffix
  have starts : ∀ c, isOneOf "uULR" c = true → isIdentStart c = true := by
    intro c one
    simp only [isOneOf, List.any_eq_true, decide_eq_true_eq] at one
    obtain ⟨d, mem, rfl⟩ := one
    have cases : d = 'u' ∨ d = 'U' ∨ d = 'L' ∨ d = 'R' := by simpa using mem
    obtain rfl | rfl | rfl | rfl := cases <;> rfl
  simp only [Scanner.lexeme, eq, List.headD_cons, List.tail_cons]
  split
  · rename_i one
    exact scanIdentOrLiteralPrefix_takes cuts s.std suffix (starts c one)
  split
  · rename_i ident
    apply scanIdent_takes
    simpa [or_assoc] using ident
  split
  · rename_i digit
    apply scanNumber_takes
    simp only [Bool.or_eq_true, Bool.and_eq_true, decide_eq_true_eq] at digit
    exact digit.imp_right And.left
  split
  · exact Takes.cons (scanChar_suffix _ _)
  split
  · exact Takes.cons (scanString_suffix _ _)
  · exact scanPunct_takes _ _ (List.cons_ne_nil _ _)

/-! ### A token is no comment -/

open Vcx.Token (marks)

theorem beforeSuffix_kind {t : List UInt8} {kind : Kind} {message : Message} (fails : beforeSuffix t = .error (kind, message)) :
    kind ∉ marks := by
  simp only [beforeSuffix] at fails
  repeat' split at fails
  all_goals
    cases fails
    try decide

theorem classify_kind (t : List UInt8) : (classify t).1 ∉ marks := by
  unfold classify
  split
  · decide
  · split
    · rename_i fails
      exact beforeSuffix_kind fails
    · simp only
      repeat' split
      all_goals simp [marks]

theorem scanIdent_kind (std : Std) (s : List UInt8) : (scanIdent std s).kind ∉ marks := by
  unfold scanIdent
  split
  · simp only
    decide
  · exact Token.lookup_kind _ _

theorem scanRawString_kind (f : File) (start : Nat) (s : List UInt8) : (scanRawString f start s).kind ∉ marks := by
  simp only [scanRawString]
  repeat' split
  all_goals
    simp only
    decide

/-- A `#` is scanned as a punctuator, as a comment would be. -/
theorem lexeme_marks (s : Scanner) : s.lexeme.kind ∉ marks ∨ s.lexeme = Scanner.scanPunct s.std s.mode s.rest := by
  unfold Scanner.lexeme
  simp only
  split
  · left
    unfold scanIdentOrLiteralPrefix
    split
    · exact scanIdent_kind _ _
    · simp only
      split
      · exact scanRawString_kind _ _ _
      · split
        · simp only [scanChar]
          decide
        · simp only [scanString]
          decide
  split
  · exact .inl (scanIdent_kind _ _)
  split
  · exact .inl (classify_kind _)
  split
  · left
    simp only [scanChar]
    decide
  split
  · left
    simp only [scanString]
    decide
  · exact .inr rfl

theorem scanPunct_kind (std : Std) (mode : Mode) (s : List UInt8) : (Scanner.scanPunct std mode s).kind ≠ .comment := by
  have none : ∀ p ∈ Scanner.punctuators, p.2.1 ≠ .comment := by decide
  unfold Scanner.scanPunct
  split
  · rename_i isPunct
    unfold Scanner.punct at isPunct
    split at isPunct
    · cases isPunct
      simp
    · obtain ⟨p, found, eq⟩ := Option.map_eq_some_iff.1 isPunct
      cases eq
      exact none p (List.mem_of_find?_eq_some found)
  · simp

theorem lexeme_kind (s : Scanner) : s.lexeme.kind ≠ .comment := by
  obtain apart | punct := lexeme_marks s
  · intro isComment
    rw [isComment] at apart
    exact apart (by decide)
  · rw [punct]
    exact scanPunct_kind _ _ _

end Vcx.Scanner
