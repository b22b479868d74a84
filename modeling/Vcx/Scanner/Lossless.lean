import Vcx.Scanner.Spans

/-!
# Nothing is lost

The bytes of the tokens of a file and those between them, put together, are its source.
-/

namespace Vcx.Scanner
set_option autoImplicit false
open Vcx.Lib
open Vcx.Token (File Std Despliced)

/-- `Raw` of each token and `Between` of each two, in order. -/
def joined (f : File) : List Token → List UInt8
  | [] => []
  | [t] => f.raw t.pos t.stop
  | t :: u :: rest => f.raw t.pos t.stop ++ f.between t.stop u.pos ++ joined f (u :: rest)

/-- The same, after what stands before the first token. -/
def rebuilt (f : File) (toks : List Token) : List UInt8 :=
  f.src.take (f.rawOff (File.offset ((toks.head?.map (·.pos)).getD 1))).toNat ++ joined f toks

theorem pos_offset {p : Int} (low : 1 ≤ p) (high : p ≤ 2147483647) : File.pos (File.offset p) = p := by
  unfold File.pos File.offset
  rw [Token.int32_of_lt (by omega)]
  omega

variable {f : File} {ks : List Nat}

/-- The bytes of a token and those up to the next one. -/
theorem raw_append_between (cuts : f.Cuts ks) (small : f.text.length < 2147483647) {p stop next : Int} (low : 1 ≤ p)
    (span : p < stop) (apart : stop ≤ next) (high : next ≤ f.text.length + 1) :
    f.raw p stop ++ f.between stop next = part f.src (f.rawOff (File.offset p)).toNat (f.rawOff (File.offset next)).toNat ∧
      (f.rawOff (File.offset p)).toNat ≤ (f.rawOff (File.offset next)).toNat := by
  obtain ⟨lo, isLo⟩ : ∃ lo : Nat, p = lo + 1 := ⟨(p - 1).toNat, by omega⟩
  obtain ⟨hi, isHi⟩ : ∃ hi : Nat, stop = hi + 1 := ⟨(stop - 1).toNat, by omega⟩
  obtain ⟨to_, isTo⟩ : ∃ to_ : Nat, next = to_ + 1 := ⟨(next - 1).toNat, by omega⟩
  have size := cuts.size
  have offLo : File.offset p = lo := by rw [File.offset]; omega
  have offHi : File.offset stop = hi := by rw [File.offset]; omega
  have offTo : File.offset next = to_ := by rw [File.offset]; omega
  have ahead : ks[lo] < ks[hi - 1] + 1 := by
    by_cases same : lo = hi - 1
    · simp only [same]
      exact Nat.lt_succ_self _
    · have less := cuts.lt (by omega : lo < hi - 1) (by omega)
      omega
  have behind : ks[hi - 1] + 1 ≤ (f.rawOff to_).toNat := by
    by_cases last : to_ = ks.length
    · have within := cuts.within _ (List.getElem_mem (l := ks) (n := hi - 1) (by omega))
      have end_ := cuts.rawOff_end
      rw [← last] at end_
      omega
    · have less := cuts.lt (by omega : hi - 1 < to_) (by omega)
      have here := cuts.rawOff_of_lt (by omega : to_ < ks.length)
      omega
  have first : f.rawOff lo = ks[lo] := cuts.rawOff_of_lt (by omega)
  have raw := cuts.raw lo hi (by omega) (by omega)
  have after : f.rawAfter hi = (ks[hi - 1] + 1 : Nat) := by
    have at_ := cuts.rawAfter (hi - 1) (by omega)
    rwa [Nat.sub_add_cancel (by omega)] at at_
  have ends : (min (f.rawAfter hi) (f.rawOff to_)).toNat = ks[hi - 1] + 1 := by
    rw [after, Int.min_eq_left (by omega), Int.toNat_natCast]
  have posLo : File.pos lo = p := by
    rw [← offLo]
    exact pos_offset low (by omega)
  have posHi : File.pos hi = stop := by
    rw [← offHi]
    exact pos_offset (by omega) (by omega)
  rw [posLo, posHi] at raw
  rw [offLo, offTo, first, raw]
  refine ⟨?_, by omega⟩
  rw [File.between, offHi, offTo, ends]
  apply part_append f.src _ behind
  omega

/-- From a token on, the bytes of the tokens and between them are the rest of the source. -/
theorem joined_eq (cuts : f.Cuts ks) (small : f.text.length < 2147483647) {t : Token} {rest : List Token} (low : 1 ≤ t.pos)
    (proper : ∀ u ∈ (t :: rest).dropLast, u.pos < u.stop) (ordered : (t :: rest).Pairwise fun t u => t.stop ≤ u.pos)
    (last : ∃ e, (t :: rest).getLast? = some e ∧ e.pos = f.text.length + 1 ∧ e.stop = e.pos) :
    t.pos ≤ f.text.length + 1 ∧ joined f (t :: rest) = part f.src (f.rawOff (File.offset t.pos)).toNat f.src.length := by
  induction rest generalizing t with
  | nil =>
    obtain ⟨e, isLast, pos, stop⟩ := last
    have same : t = e := by simpa using isLast
    subst same
    have end_ : File.offset t.pos = ks.length := by
      rw [← cuts.size, File.offset]
      omega
    have at_ : t.pos = File.pos ks.length := by
      rw [← end_, pos_offset low (by omega)]
    refine ⟨by omega, ?_⟩
    rw [joined, stop, end_, cuts.rawOff_end, Int.toNat_natCast, part_self, at_]
    exact cuts.rawEmpty _ (Nat.le_refl _)
  | cons u rest ih =>
    rw [List.dropLast_cons_cons] at proper
    rw [List.pairwise_cons] at ordered
    have span := proper t List.mem_cons_self
    have apart := ordered.1 u List.mem_cons_self
    obtain ⟨high, more⟩ := ih (by omega) (fun v mem => proper v (List.mem_cons_of_mem t mem)) ordered.2
      (by simpa [List.getLast?_cons_cons] using last)
    obtain ⟨both, le⟩ := raw_append_between cuts small low span apart high
    refine ⟨by omega, ?_⟩
    rw [joined, both, more]
    apply part_append f.src le
    apply cuts.rawOff_le
    rw [File.offset]
    omega

theorem rebuilt_eq (cuts : f.Cuts ks) (small : f.text.length < 2147483647) {mode : Mode} {toks : List Token}
    (spans : Spans mode f.text toks) : rebuilt f toks = f.src := by
  obtain ⟨e, last, -, pos, stop⟩ := spans.last
  cases toks with
  | nil => cases last
  | cons t rest =>
    obtain ⟨high, eq⟩ := joined_eq cuts small (spans.first t rfl).inside spans.proper spans.ordered ⟨e, last, pos, stop⟩
    have le : (f.rawOff (File.offset t.pos)).toNat ≤ f.src.length := by
      apply cuts.rawOff_le
      rw [File.offset]
      omega
    rw [rebuilt, eq, List.head?_cons, Option.map_some, Option.getD_some, take_append_part f.src le, List.take_length]

/-- **Nothing of a source is lost.** Its text is the source without the byte order mark and the line
splices. The places in the source of the text's bytes increase and lead back to them. What stands
before the first token of a scan, the tokens and what is between them are the source again. Where
there is neither mark nor backslash, a file with tables would answer alike. -/
theorem scan_lossless (src : List UInt8) (std : Std) (mode : Mode) (small : src.length < 2147483647) :
    Despliced (src.drop (File.bomLength src)) (File.new src).text ∧
    (∀ o o', o < o' → o' ≤ (File.new src).text.length → (File.new src).rawOff o < (File.new src).rawOff o') ∧
    (∀ o ≤ (File.new src).text.length, (File.new src).transOffset ((File.new src).rawOff o) = o) ∧
    (∃ toks diags, (∀ fuel, (File.new src).text.length < fuel → scan fuel (File.new src) std mode = some (toks, diags)) ∧
      rebuilt (File.new src) toks = src) ∧
    (File.isPlain src = true → File.Alike (File.new src) (File.translated src)) := by
  obtain ⟨ks, cuts⟩ := File.cuts_new src small
  have isSrc := File.new_src src
  have le := cuts.length_le
  rw [isSrc] at le
  obtain ⟨toks, diags, ends, spans⟩ := scan_of_cuts cuts (by omega) std mode
  refine ⟨File.new_despliced src, fun o o' below inside => cuts.rawOff_lt below inside,
    fun o inside => cuts.transOffset_rawOff inside, ⟨toks, diags, ends, ?_⟩, File.new_alike small⟩
  rw [rebuilt_eq cuts (by omega) spans, isSrc]

/-- A source with a mark, blanks before the first token and a splice in it is put together again. -/
theorem spliced_rebuilt :
    ∃ toks diags, scan 12 (File.new (Token.bom ++ Token.bytes "  a\\\nb")) .cxx23 {} = some (toks, diags) ∧
      rebuilt (File.new (Token.bom ++ Token.bytes "  a\\\nb")) toks = Token.bom ++ Token.bytes "  a\\\nb" := by
  obtain ⟨-, -, -, ⟨toks, diags, ends, eq⟩, -⟩ := scan_lossless (Token.bom ++ Token.bytes "  a\\\nb") .cxx23 {} (by decide)
  exact ⟨toks, diags, ends 12 (by decide +kernel), eq⟩

/-- The bytes of the tokens of ` a` and between them leave the blank out. -/
theorem blank_not_joined :
    ∃ a eof, scan 3 (File.new (Token.bytes " a")) .cxx23 {} = some ([a, eof], []) ∧
      joined (File.new (Token.bytes " a")) [a, eof] ≠ Token.bytes " a" :=
  ⟨{ kind := .ident, adjacent := false, nlBefore := false, pos := 2, stop := 3 },
    { kind := .eof, adjacent := true, nlBefore := false, pos := 3, stop := 3 }, by decide +kernel, by decide +kernel⟩

end Vcx.Scanner
