import Vcx.Token.File

/-!
# What the translation keeps

The text of a file is its source without the byte order mark and the line splices, and the bytes
of the text stand at increasing offsets of the source: its cuts.
-/

namespace Vcx.Token
set_option autoImplicit false
open Vcx.Lib

theorem int32_of_lt {n : Nat} (small : n < 2147483648) : int32 n = n := by
  unfold int32
  rw [Int.bmod_eq_of_le] <;> omega

/-! ### Line splices -/

/-- A line terminator, before a text. -/
inductive Terminator : List UInt8 → List UInt8 → Prop
  | lf (rest : List UInt8) : Terminator [newline] rest
  | crlf (rest : List UInt8) : Terminator [carriageReturn, newline] rest
  | cr {rest : List UInt8} (alone : rest.head? ≠ some newline) : Terminator [carriageReturn] rest

/-- A line splice, before a text: a backslash, blanks and a line terminator. -/
inductive Splice : List UInt8 → List UInt8 → Prop
  | mk {blanks terminator rest : List UInt8} (blank : ∀ c ∈ blanks, isHorizontalSpace c = true)
      (ends : Terminator terminator rest) : Splice (backslash :: (blanks ++ terminator)) rest

/-- The second text is the first one without its line splices. -/
inductive Despliced : List UInt8 → List UInt8 → Prop
  | done : Despliced [] []
  | splice {splice rest text : List UInt8} (here : Splice splice rest) (more : Despliced rest text) :
      Despliced (splice ++ rest) text
  | byte {c : UInt8} {rest text : List UInt8} (none : ∀ splice after, c :: rest = splice ++ after → ¬Splice splice after)
      (more : Despliced rest text) : Despliced (c :: rest) (c :: text)

theorem afterNewline_eq_some {s after : List UInt8} :
    afterNewline s = some after ↔ ∃ terminator, s = terminator ++ after ∧ Terminator terminator after := by
  constructor
  · intro ends
    cases s with
    | nil => cases ends
    | cons c rest =>
      simp only [afterNewline] at ends
      split at ends
      · rename_i cr
        subst cr
        cases ends
        split
        · rename_i lf
          obtain ⟨rest, rfl⟩ := List.head?_eq_some_iff.1 lf
          exact ⟨_, rfl, .crlf rest⟩
        · rename_i alone
          exact ⟨[carriageReturn], rfl, .cr alone⟩
      · split at ends
        · rename_i lf
          subst lf
          cases ends
          exact ⟨[newline], rfl, .lf _⟩
        · cases ends
  · rintro ⟨_, rfl, ends⟩
    cases ends with
    | lf => rfl
    | crlf => rfl
    | cr alone => simp only [List.singleton_append, afterNewline, if_true, if_neg alone]

theorem Terminator.head {terminator rest : List UInt8} (ends : Terminator terminator rest) :
    ∃ c s, terminator = c :: s ∧ isHorizontalSpace c = false := by
  cases ends <;> exact ⟨_, _, rfl, rfl⟩

theorem afterSplice_eq_some {s after : List UInt8} :
    afterSplice s = some after ↔ ∃ splice, s = splice ++ after ∧ Splice splice after := by
  constructor
  · intro spliced
    cases s with
    | nil => cases spliced
    | cons c rest =>
      simp only [afterSplice] at spliced
      split at spliced
      · rename_i slash
        subst slash
        obtain ⟨terminator, eq, ends⟩ := afterNewline_eq_some.1 spliced
        refine ⟨backslash :: (rest.takeWhile isHorizontalSpace ++ terminator), ?_, .mk ?_ ends⟩
        · rw [List.cons_append, List.append_assoc, ← eq, List.takeWhile_append_dropWhile]
        · apply List.all_eq_true.1
          exact List.all_takeWhile
      · cases spliced
  · rintro ⟨_, rfl, @⟨blanks, terminator, _, blank, ends⟩⟩
    obtain ⟨c, s, rfl, not⟩ := ends.head
    have dropped : (blanks ++ (c :: s) ++ after).dropWhile isHorizontalSpace = c :: s ++ after := by
      rw [List.append_assoc, List.dropWhile_append_of_pos blank, List.cons_append, List.dropWhile_cons_of_neg (by simp [not])]
    simp only [List.cons_append, afterSplice, if_true, afterNewline_eq_some]
    exact ⟨c :: s, dropped, ends⟩

/-! ### The bytes of the text -/

/-- The bytes of the text, each with its offset in the source, from the offset `i` on. -/
def cells (i : Nat) (src : List UInt8) : List (Nat × UInt8) :=
  match src with
  | [] => []
  | c :: rest =>
    match _ends : afterSplice (c :: rest) with
    | some after => cells (i + ((c :: rest).length - after.length)) after
    | none => (i, c) :: cells (i + 1) rest
termination_by src.length
decreasing_by
  · exact afterSplice_length _ends
  · exact Nat.lt_succ_self _

theorem cells_despliced (i : Nat) (src : List UInt8) : Despliced src ((cells i src).map (·.2)) := by
  fun_induction cells i src with
  | case1 => exact .done
  | case2 i c rest after spliced ih =>
    obtain ⟨splice, eq, here⟩ := afterSplice_eq_some.1 spliced
    have more := Despliced.splice here ih
    rwa [← eq] at more
  | case3 i c rest unspliced ih =>
    refine .byte ?_ ih
    intro splice after eq here
    rw [afterSplice_eq_some.2 ⟨splice, eq, here⟩] at unspliced
    cases unspliced

/-- The offsets increase and stay within the source. -/
theorem cells_ordered (i : Nat) (src : List UInt8) :
    ((cells i src).map (·.1)).Pairwise (· < ·) ∧ ∀ k ∈ (cells i src).map (·.1), i ≤ k ∧ k < i + src.length := by
  fun_induction cells i src with
  | case1 => exact ⟨.nil, by simp⟩
  | case2 i c rest after spliced ih =>
    have shorter := afterSplice_length spliced
    refine ⟨ih.1, fun k mem => ?_⟩
    have bounds := ih.2 k mem
    omega
  | case3 i c rest unspliced ih =>
    rw [List.map_cons, List.pairwise_cons]
    refine ⟨⟨fun k mem => (ih.2 k mem).1, ih.1⟩, fun k mem => ?_⟩
    rw [List.length_cons]
    cases mem with
    | head => omega
    | tail _ mem =>
      have bounds := ih.2 k mem
      omega

theorem cells_bytes {i : Nat} {src : List UInt8} {cell : Nat × UInt8} (mem : cell ∈ cells i src) :
    i ≤ cell.1 ∧ src[cell.1 - i]? = some cell.2 := by
  fun_induction cells i src with
  | case1 => cases mem
  | case2 i c rest after spliced ih =>
    obtain ⟨splice, eq, -⟩ := afterSplice_eq_some.1 spliced
    obtain ⟨le, byte⟩ := ih mem
    have whole := congrArg List.length eq
    rw [List.length_append] at whole
    refine ⟨by omega, ?_⟩
    rw [eq, List.getElem?_append_right (by omega), ← byte]
    congr 1
    omega
  | case3 i c rest unspliced ih =>
    obtain rfl | mem := List.mem_cons.1 mem
    · exact ⟨Nat.le_refl _, by rw [Nat.sub_self]; rfl⟩
    · obtain ⟨le, byte⟩ := ih mem
      refine ⟨by omega, ?_⟩
      rw [show cell.1 - i = cell.1 - (i + 1) + 1 by omega, List.getElem?_cons_succ, byte]

/-- A byte that a splice may have. -/
def isSpliced (c : UInt8) : Bool := c = backslash || isHorizontalSpace c || c = newline || c = carriageReturn

theorem Splice.bytes {splice after : List UInt8} (here : Splice splice after) : ∀ c ∈ splice, isSpliced c = true := by
  obtain ⟨blank, ends⟩ := here
  intro c mem
  rw [List.mem_cons, List.mem_append] at mem
  obtain rfl | mem | mem := mem
  · rfl
  · simp [isSpliced, blank c mem]
  · cases ends with
    | lf | cr =>
      rw [List.mem_singleton.1 mem]
      rfl
    | crlf =>
      obtain rfl | mem := List.mem_cons.1 mem
      · rfl
      · rw [List.mem_singleton.1 mem]
        rfl

theorem mem_cells {i k : Nat} {src : List UInt8} {c : UInt8} (here : src[k]? = some c) (kept : isSpliced c = false) :
    (i + k, c) ∈ cells i src := by
  fun_induction cells i src generalizing k with
  | case1 => cases here
  | case2 i d rest after spliced ih =>
    obtain ⟨splice, eq, isSplice⟩ := afterSplice_eq_some.1 spliced
    have whole := congrArg List.length eq
    rw [List.length_append] at whole
    rw [eq] at here
    by_cases inside : k < splice.length
    · rw [List.getElem?_append_left inside] at here
      have not := isSplice.bytes c (List.mem_of_getElem? here)
      rw [kept] at not
      cases not
    · rw [List.getElem?_append_right (by omega)] at here
      have mem := ih here
      rwa [show i + ((d :: rest).length - after.length) + (k - splice.length) = i + k by omega] at mem
  | case3 i d rest unspliced ih =>
    cases k with
    | zero =>
      cases here
      exact List.mem_cons_self
    | succ k =>
      rw [List.getElem?_cons_succ] at here
      have mem := ih here
      rw [Nat.add_right_comm] at mem
      exact List.mem_cons_of_mem _ mem

theorem translateFrom_eq (i : Nat) (t : Translation) (src : List UInt8) :
    (translateFrom i t src).text = t.text ++ (cells i src).map (·.2) ∧
      (translateFrom i t src).table =
        ⟨t.table.lo ++ (cells i src).map fun cell => int32 cell.1,
          t.table.hi ++ (cells i src).map fun cell => int32 (cell.1 + 1)⟩ := by
  fun_induction cells i src generalizing t with
  | case1 i => simp [translateFrom]
  | case2 i c rest after spliced ih =>
    rw [translateFrom, spliced]
    exact ih _
  | case3 i c rest unspliced ih =>
    rw [translateFrom, unspliced]
    obtain ⟨text, table⟩ := ih { t with
      text := t.text ++ [c], spliceAtEOF := false,
      table := { lo := t.table.lo ++ [int32 i], hi := t.table.hi ++ [int32 (i + 1)] } }
    exact ⟨by rw [text]; simp, by rw [table]; simp⟩

/-! ### Files -/

namespace File

/-- A file and what it is after some reports. -/
def Reported (f g : File) : Prop := ∃ diags, g = { f with diags := diags }

theorem Reported.refl (f : File) : Reported f f := ⟨f.diags, rfl⟩

theorem Reported.trans {f g h : File} (first : Reported f g) (second : Reported g h) : Reported f h := by
  obtain ⟨_, rfl⟩ := first
  obtain ⟨diags, rfl⟩ := second
  exact ⟨diags, rfl⟩

theorem reported_report (f : File) (severity : Severity) (off : Int) (message : Translated) :
    Reported f (f.report severity off message) := by
  unfold report
  split
  · exact .refl f
  · exact ⟨_, rfl⟩

theorem Reported.foldl {α : Type} {report : File → α → File} (reports : ∀ f a, Reported f (report f a))
    (items : List α) (f : File) : Reported f (items.foldl report f) := by
  induction items generalizing f with
  | nil => exact .refl f
  | cons a items ih => exact (reports f a).trans (ih (report f a))

theorem reported_checkSplicedUCN (f : File) (t : Table) : Reported f (f.checkSplicedUCN t) := by
  apply Reported.foldl
  intro f i
  split
  · exact reported_report f _ _ _
  · exact .refl f

theorem reported_ofTranslation (src : List UInt8) (t : Translation) :
    Reported ⟨src, t.text, some t.table, []⟩ (ofTranslation src t) := by
  have padded := Reported.foldl (fun f off => reported_report f .warn off .spacedSplice) t.pad
    ⟨src, t.text, some t.table, []⟩
  refine padded.trans ((reported_checkSplicedUCN _ t.table).trans ?_)
  unfold ofTranslation
  simp only
  split
  · exact reported_report _ _ _ _
  · exact .refl _

/-- The cells of a source. -/
def cellsOf (src : List UInt8) : List (Nat × UInt8) := cells (bomLength src) (src.drop (bomLength src))

theorem translated_eq (src : List UInt8) :
    ∃ diags, translated src =
      ⟨src, (cellsOf src).map (·.2),
        some ⟨(cellsOf src).map fun cell => int32 cell.1, (cellsOf src).map fun cell => int32 (cell.1 + 1)⟩, diags⟩ := by
  obtain ⟨diags, eq⟩ := reported_ofTranslation src (translateFrom (bomLength src) {} (src.drop (bomLength src)))
  obtain ⟨text, table⟩ := translateFrom_eq (bomLength src) {} (src.drop (bomLength src))
  rw [text, table] at eq
  exact ⟨diags, eq⟩

/-! ### Cuts -/

/-- The offsets in the source of the bytes of the text, and what the file makes of them. -/
structure Cuts (f : File) (ks : List Nat) : Prop where
  size : f.text.length = ks.length
  ordered : ks.Pairwise (· < ·)
  within : ∀ k ∈ ks, k < f.src.length
  rawOff : ∀ o ≤ ks.length, f.rawOff o = (ks[o]?.getD f.src.length : Nat)
  rawAfter : ∀ o (inside : o < ks.length), f.rawAfter (o + 1) = (ks[o] + 1 : Nat)
  transOffset : ∀ raw m, f.transOffset raw = m ↔
    m ≤ ks.length ∧ (∀ i (_ : i < ks.length), i < m → (ks[i] : Int) < raw) ∧ (∀ _ : m < ks.length, raw ≤ ks[m])
  raw : ∀ lo hi (_ : lo < hi) (_ : hi ≤ ks.length),
    f.raw (pos lo) (pos hi) = part f.src ks[lo] (ks[hi - 1] + 1)
  rawEmpty : ∀ o ≤ ks.length, f.raw (pos o) (pos o) = []

theorem offset_pos {o : Nat} (small : o < 2147483647) : offset (pos o) = o := by
  unfold offset pos
  rw [int32_of_lt (by omega)]
  omega

/-- Without tables a byte stands where it stands. -/
theorem cuts_plain (src : List UInt8) (small : src.length < 2147483647) (diags : List (Diagnostic Translated)) :
    Cuts ⟨src, src, none, diags⟩ (List.range src.length) where
  size := List.length_range.symm
  ordered := List.pairwise_lt_range
  within k mem := List.mem_range.1 mem
  rawOff o le := by
    rw [List.length_range] at le
    simp only [File.rawOff]
    by_cases inside : o < src.length
    · rw [List.getElem?_range inside]
      rfl
    · rw [List.getElem?_eq_none (by rw [List.length_range]; omega)]
      simp only [Option.getD_none]
      omega
  rawAfter o inside := by
    rw [List.getElem_range]
    rfl
  transOffset raw m := by
    simp only [File.transOffset, List.length_range, List.getElem_range]
    constructor
    · rintro rfl
      split
      · exact ⟨Nat.zero_le _, by omega, by omega⟩
      · split
        · exact ⟨Nat.le_refl _, by omega, by omega⟩
        · exact ⟨by omega, by omega, by omega⟩
    · rintro ⟨le, below, above⟩
      split
      · apply Nat.le_antisymm (Nat.zero_le m)
        apply Nat.le_of_not_lt
        intro lt
        have neg := below 0 (by omega) lt
        omega
      · split
        · apply Nat.le_antisymm _ le
          apply Nat.le_of_not_lt
          intro lt
          have high := above lt
          omega
        · by_cases lt : m < src.length
          · have high := above lt
            by_cases zero : m = 0
            · omega
            · have low := below (m - 1) (by omega) (by omega)
              omega
          · by_cases zero : m = 0
            · omega
            · have low := below (m - 1) (by omega) (by omega)
              omega
  raw lo hi lt le := by
    rw [List.length_range] at le
    simp only [File.raw, List.getElem_range]
    rw [offset_pos (by omega), offset_pos (by omega), Nat.sub_add_cancel (by omega)]
  rawEmpty o le := by
    simp only [File.raw, part_self]

theorem bomLength_le (src : List UInt8) : bomLength src ≤ src.length := by
  unfold bomLength
  split
  · rename_i marked
    exact (List.isPrefixOf_iff_prefix.1 marked).length_le
  · exact Nat.zero_le _

/-- The offsets in a source of the bytes of its text. -/
def offsetsOf (src : List UInt8) : List Nat := (cellsOf src).map (·.1)

theorem offsetsOf_lt {src : List UInt8} {k : Nat} (mem : k ∈ offsetsOf src) : k < src.length := by
  have bounds := (cells_ordered (bomLength src) (src.drop (bomLength src))).2 k mem
  have le := bomLength_le src
  rw [List.length_drop] at bounds
  omega

/-- A table of 32-bit numbers has the offsets where they are small. -/
theorem getD_offsets {ks : List Nat} {shift : Nat} (small : ∀ k ∈ ks, k + shift < 2147483648) {i : Nat}
    (inside : i < ks.length) : (ks.map fun k => int32 (k + shift)).getD i 0 = (ks[i] + shift : Nat) := by
  rw [List.getD_eq_getElem?_getD, List.getElem?_eq_getElem (by rwa [List.length_map]), Option.getD_some, List.getElem_map,
    int32_of_lt (small _ (List.getElem_mem inside))]

theorem le_of_ordered {ks : List Nat} (ordered : ks.Pairwise (· < ·)) (i : Nat) (inside : i < ks.length) : i ≤ ks[i] := by
  induction i with
  | zero => exact Nat.zero_le _
  | succ i ih =>
    have before := ih (by omega)
    have less : ks[i] < ks[i + 1] := List.pairwise_iff_getElem.1 ordered i (i + 1) (by omega) inside (Nat.lt_succ_self i)
    omega

theorem length_le_of_ordered {ks : List Nat} {n : Nat} (ordered : ks.Pairwise (· < ·)) (within : ∀ k ∈ ks, k < n) :
    ks.length ≤ n := by
  by_cases none : ks.length = 0
  · omega
  · have last := le_of_ordered ordered (ks.length - 1) (by omega)
    have inside := within _ (List.getElem_mem (l := ks) (n := ks.length - 1) (by omega))
    omega

theorem cuts_tables {f : File} {ks : List Nat} (size : f.text.length = ks.length) (ordered : ks.Pairwise (· < ·))
    (within : ∀ k ∈ ks, k < f.src.length) (small : f.src.length < 2147483647)
    (table : f.table = some ⟨ks.map fun k => int32 (k + 0), ks.map fun k => int32 (k + 1)⟩) : Cuts f ks := by
  have lo : ∀ i (inside : i < ks.length), (ks.map fun k => int32 (k + 0)).getD i 0 = ks[i] := fun i inside =>
    getD_offsets (fun k mem => by have := within k mem; omega) inside
  have hi : ∀ i (inside : i < ks.length), (ks.map fun k => int32 (k + 1)).getD i 0 = (ks[i] + 1 : Nat) := fun i inside =>
    getD_offsets (fun k mem => by have := within k mem; omega) inside
  have room := length_le_of_ordered ordered within
  refine { size, ordered, within, rawOff := ?_, rawAfter := ?_, transOffset := ?_, raw := ?_, rawEmpty := ?_ }
  · intro o le
    simp only [File.rawOff, table, size]
    by_cases inside : o < ks.length
    · rw [if_neg (by omega), lo o inside, List.getElem?_eq_getElem inside, Option.getD_some]
    · rw [if_pos (by omega), List.getElem?_eq_none (by omega), Option.getD_none]
  · intro o inside
    simp only [File.rawAfter, table, size]
    rw [if_neg (by omega), if_neg (by omega), Nat.add_sub_cancel, hi o inside]
  · intro raw m
    have increasing : ∀ i j (below : i < j) (inside : j < ks.length), ks[i] < ks[j] := fun i j below inside =>
      List.pairwise_iff_getElem.1 ordered i j (by omega) inside below
    have holdsOn : HoldsOn f.text.length fun i => raw ≤ (ks.map fun k => int32 (k + 0)).getD i 0 := by
      intro i j le inside holds
      rw [size] at inside
      simp only [decide_eq_true_eq, lo i (by omega), lo j inside] at holds ⊢
      by_cases same : i = j
      · subst same
        exact holds
      · have more := increasing i j (by omega) inside
        omega
    simp only [File.transOffset, table]
    rw [search_eq_iff holdsOn, size]
    apply and_congr_right
    intro le
    apply and_congr
    · constructor
      · intro none i inside below
        have low := none i below
        rw [decide_eq_false_iff_not, lo i inside] at low
        omega
      · intro none i below
        have low := none i (by omega) below
        rw [decide_eq_false_iff_not, lo i (by omega)]
        omega
    · apply forall_congr'
      intro inside
      rw [decide_eq_true_eq, lo m inside]
  · intro a b lt le
    simp only [File.raw, table]
    rw [offset_pos (by omega), offset_pos (by omega), if_neg (by omega), lo a (by omega), hi (b - 1) (by omega)]
    rfl
  · intro o le
    simp only [File.raw, table]
    rw [if_pos (Nat.le_refl _), part_self]

theorem cuts_translated (src : List UInt8) (small : src.length < 2147483647) : Cuts (translated src) (offsetsOf src) := by
  obtain ⟨diags, eq⟩ := translated_eq src
  rw [eq]
  apply cuts_tables
  · rw [offsetsOf, List.length_map, List.length_map]
  · exact (cells_ordered _ _).1
  · exact fun k mem => offsetsOf_lt mem
  · exact small
  · simp only [offsetsOf, List.map_map, Nat.add_zero, Function.comp_def]

/-- **Every file has its cuts.** -/
theorem cuts_new (src : List UInt8) (small : src.length < 2147483647) : ∃ ks, Cuts (new src) ks := by
  unfold new
  split
  · exact ⟨_, cuts_plain src small []⟩
  · exact ⟨_, cuts_translated src small⟩

/-! ### The text of a file -/

theorem afterSplice_eq_none {s : List UInt8} (plain : backslash ∉ s) : afterSplice s = none := by
  cases s with
  | nil => rfl
  | cons c s =>
    have other : c ≠ backslash := fun same => plain (by rw [same]; exact List.mem_cons_self)
    exact if_neg other

theorem cells_plain (i : Nat) {src : List UInt8} (plain : backslash ∉ src) : (cells i src).map (·.2) = src := by
  fun_induction cells i src with
  | case1 => rfl
  | case2 i c rest after spliced ih =>
    rw [afterSplice_eq_none plain] at spliced
    cases spliced
  | case3 i c rest unspliced ih =>
    rw [List.map_cons, ih fun mem => plain (List.mem_cons_of_mem c mem)]

theorem translated_text (src : List UInt8) : (translated src).text = (cellsOf src).map (·.2) := by
  obtain ⟨diags, eq⟩ := translated_eq src
  rw [eq]

/-- When the text is the source. -/
def isPlain (src : List UInt8) : Bool := !bom.isPrefixOf src && !src.contains backslash

theorem not_mem_of_isPlain {src : List UInt8} (plain : isPlain src = true) : bomLength src = 0 ∧ backslash ∉ src := by
  simp only [isPlain, Bool.and_eq_true, Bool.not_eq_true', List.contains_eq_mem, decide_eq_false_iff_not] at plain
  exact ⟨if_neg (by simp [plain.1]), plain.2⟩

theorem new_eq (src : List UInt8) : new src = if isPlain src = true then ⟨src, src, none, []⟩ else translated src := rfl

theorem new_src (src : List UInt8) : (new src).src = src := by
  obtain ⟨diags, eq⟩ := translated_eq src
  rw [new_eq, eq]
  split <;> rfl

/-- Either way the text is the one that the translation gives. -/
theorem new_text (src : List UInt8) : (new src).text = (cellsOf src).map (·.2) := by
  rw [new_eq]
  split
  · rename_i plain
    obtain ⟨none, noBackslash⟩ := not_mem_of_isPlain plain
    rw [cellsOf, none, List.drop_zero, cells_plain 0 noBackslash]
  · exact translated_text src

/-- **The text is the source without the byte order mark and the line splices.** -/
theorem new_despliced (src : List UInt8) : Despliced (src.drop (bomLength src)) (new src).text := by
  rw [new_text]
  exact cells_despliced _ _

namespace Cuts

variable {f : File} {ks : List Nat}

theorem lt (cuts : Cuts f ks) {i j : Nat} (below : i < j) (inside : j < ks.length) : ks[i] < ks[j] :=
  List.pairwise_iff_getElem.1 cuts.ordered i j (by omega) inside below

theorem length_le (cuts : Cuts f ks) : f.text.length ≤ f.src.length := by
  rw [cuts.size]
  exact length_le_of_ordered cuts.ordered cuts.within

theorem rawOff_of_lt (cuts : Cuts f ks) {o : Nat} (inside : o < ks.length) : f.rawOff o = ks[o] := by
  rw [cuts.rawOff o (by omega), List.getElem?_eq_getElem inside, Option.getD_some]

theorem rawOff_end (cuts : Cuts f ks) : f.rawOff ks.length = f.src.length := by
  rw [cuts.rawOff _ (Nat.le_refl _), List.getElem?_eq_none (Nat.le_refl _), Option.getD_none]

/-- **Where the bytes of the text stand increases**, up to the end of the source. -/
theorem rawOff_lt (cuts : Cuts f ks) {o o' : Nat} (below : o < o') (inside : o' ≤ f.text.length) :
    f.rawOff o < f.rawOff o' := by
  rw [cuts.size] at inside
  rw [cuts.rawOff_of_lt (by omega)]
  by_cases last : o' = ks.length
  · have within := cuts.within _ (List.getElem_mem (l := ks) (n := o) (by omega))
    have end_ := cuts.rawOff_end
    rw [← last] at end_
    rw [end_]
    omega
  · have less := cuts.lt below (by omega)
    rw [cuts.rawOff_of_lt (by omega)]
    omega

/-- **From an offset to the source and back is no way.** -/
theorem transOffset_rawOff (cuts : Cuts f ks) {o : Nat} (inside : o ≤ f.text.length) : f.transOffset (f.rawOff o) = o := by
  rw [cuts.size] at inside
  rw [cuts.transOffset]
  refine ⟨inside, fun i isIn below => ?_, fun isIn => ?_⟩
  · rw [← cuts.rawOff_of_lt isIn]
    exact cuts.rawOff_lt below (by rwa [cuts.size])
  · exact Int.le_of_eq (cuts.rawOff_of_lt isIn)

theorem rawOff_le (cuts : Cuts f ks) {o : Nat} (inside : o ≤ f.text.length) : (f.rawOff o).toNat ≤ f.src.length := by
  have end_ := cuts.rawOff_end
  rw [← cuts.size] at end_
  by_cases last : o = f.text.length
  · rw [last, end_]
    exact Nat.le_refl _
  · have less := @rawOff_lt _ _ cuts o f.text.length (by omega) (Nat.le_refl _)
    omega

/-- Past the place of a byte is past the byte. -/
theorem lt_transOffset (cuts : Cuts f ks) {o : Nat} {raw : Int} (inside : o < f.text.length) (past : f.rawOff o < raw) :
    o < f.transOffset raw := by
  rw [cuts.size] at inside
  obtain ⟨le, -, from_⟩ := (cuts.transOffset raw _).1 rfl
  apply Nat.lt_of_not_le
  intro notPast
  have here := from_ (by omega)
  rw [cuts.rawOff_of_lt inside] at past
  by_cases same : f.transOffset raw = o
  · simp only [same] at here
    omega
  · have less := cuts.lt (by omega : f.transOffset raw < o) inside
    omega

end Cuts

/-! ### With tables and without -/

theorem translateFrom_plain (i : Nat) (t : Translation) {src : List UInt8} (plain : backslash ∉ src)
    (fresh : t.spliceAtEOF = false) :
    (translateFrom i t src).pad = t.pad ∧ (translateFrom i t src).spliceAtEOF = false := by
  induction src generalizing i t with
  | nil =>
    rw [translateFrom]
    exact ⟨rfl, fresh⟩
  | cons c rest ih =>
    rw [translateFrom, afterSplice_eq_none plain]
    exact ih _ _ (fun mem => plain (List.mem_cons_of_mem c mem)) rfl

theorem checkSplicedUCN_plain {f : File} (t : Table) (plain : backslash ∉ f.text) : f.checkSplicedUCN t = f := by
  unfold checkSplicedUCN
  induction List.range (f.text.length - 1) with
  | nil => rfl
  | cons i rest ih =>
    have other : ¬f.text[i]? = some backslash := fun here => plain (List.mem_of_getElem? here)
    rw [List.foldl_cons, if_neg fun both => other both.1]
    exact ih

theorem translated_diags {src : List UInt8} (plain : isPlain src = true) : (translated src).diags = [] := by
  obtain ⟨none, noBackslash⟩ := not_mem_of_isPlain plain
  obtain ⟨pad, splice⟩ := translateFrom_plain 0 {} noBackslash rfl
  obtain ⟨text, -⟩ := translateFrom_eq 0 {} src
  rw [List.nil_append, cells_plain 0 noBackslash] at text
  simp only [translated, ofTranslation, none, List.drop_zero, pad, splice, List.foldl_nil, Bool.false_eq_true, if_false]
  rw [checkSplicedUCN_plain]
  rw [text]
  exact noBackslash

/-- Two files that answer alike: they have one source and one text, report the same, and lead from
one to the other in the same way. -/
structure Alike (f g : File) : Prop where
  src : f.src = g.src
  text : f.text = g.text
  diags : f.diags = g.diags
  rawOff : ∀ o ≤ f.text.length, f.rawOff o = g.rawOff o
  transOffset : ∀ raw, f.transOffset raw = g.transOffset raw
  raw : ∀ lo hi, lo ≤ hi → hi ≤ f.text.length → f.raw (pos lo) (pos hi) = g.raw (pos lo) (pos hi)
  between : ∀ stop next, stop ≤ f.text.length → next ≤ f.text.length →
    f.between (pos stop) (pos next) = g.between (pos stop) (pos next)

theorem rawAfter_zero (f : File) : f.rawAfter 0 = 0 := by
  unfold rawAfter
  cases f.table with
  | none => rfl
  | some t => rfl

theorem Cuts.alike {f g : File} {ks : List Nat} (cuts : Cuts f ks) (cuts' : Cuts g ks) (src : f.src = g.src)
    (text : f.text = g.text) (diags : f.diags = g.diags) (small : f.text.length < 2147483647) : Alike f g := by
  have rawOff : ∀ o ≤ f.text.length, f.rawOff o = g.rawOff o := by
    intro o le
    rw [cuts.size] at le
    rw [cuts.rawOff o le, cuts'.rawOff o le, src]
  have rawAfter : ∀ o ≤ f.text.length, f.rawAfter o = g.rawAfter o := by
    intro o le
    cases o with
    | zero => rw [rawAfter_zero, rawAfter_zero]
    | succ o =>
      rw [cuts.size] at le
      rw [cuts.rawAfter o le, cuts'.rawAfter o le]
  refine { src, text, diags, rawOff, transOffset := ?_, raw := ?_, between := ?_ }
  · intro raw
    exact (cuts.transOffset raw _).2 ((cuts'.transOffset raw _).1 rfl)
  · intro lo hi le inside
    rw [cuts.size] at inside
    by_cases empty : lo = hi
    · rw [empty, cuts.rawEmpty hi inside, cuts'.rawEmpty hi inside]
    · rw [cuts.raw lo hi (by omega) inside, cuts'.raw lo hi (by omega) inside, src]
  · intro stop next inside inside'
    unfold File.between
    rw [offset_pos (by omega), offset_pos (by omega), rawAfter stop inside, rawOff next inside', src]

theorem offsetsOf_plain {src : List UInt8} (plain : isPlain src = true) : offsetsOf src = List.range src.length := by
  obtain ⟨none, noBackslash⟩ := not_mem_of_isPlain plain
  have counted : ∀ i (s : List UInt8), backslash ∉ s → (cells i s).map (·.1) = List.range' i s.length := by
    intro i s clean
    fun_induction cells i s with
    | case1 => rfl
    | case2 i c rest after spliced ih =>
      rw [afterSplice_eq_none clean] at spliced
      cases spliced
    | case3 i c rest unspliced ih =>
      rw [List.map_cons, ih fun mem => clean (List.mem_cons_of_mem c mem), List.length_cons, List.range'_succ]
  rw [offsetsOf, cellsOf, none, List.drop_zero, counted 0 src noBackslash, List.range_eq_range']

/-- **Where the text is the source, a file with tables would answer alike.** -/
theorem new_alike {src : List UInt8} (small : src.length < 2147483647) (plain : isPlain src = true) :
    Alike (new src) (translated src) := by
  have text := new_text src
  have isNew : new src = ⟨src, src, none, []⟩ := by rw [new_eq, if_pos plain]
  have cuts := cuts_translated src small
  rw [offsetsOf_plain plain] at cuts
  have cuts' := cuts_plain src small []
  rw [← isNew] at cuts'
  apply cuts'.alike cuts
  · rw [isNew]
    obtain ⟨diags, eq⟩ := translated_eq src
    rw [eq]
  · rw [text, translated_text]
  · rw [translated_diags plain, isNew]
  · rw [isNew]
    exact small

/-! ### The offsets of the text -/

theorem cuts_offsetsOf {src : List UInt8} (small : src.length < 2147483647) : Cuts (new src) (offsetsOf src) := by
  rw [new_eq]
  split
  · rename_i plain
    rw [offsetsOf_plain plain]
    exact cuts_plain src small []
  · exact cuts_translated src small

theorem text_offsetsOf {src : List UInt8} {o : Nat} (inside : o < (offsetsOf src).length) :
    (new src).text[o]? = src[(offsetsOf src)[o]]? := by
  have inside' : o < (cellsOf src).length := by rwa [offsetsOf, List.length_map] at inside
  obtain ⟨le, byte⟩ := cells_bytes (List.getElem_mem (l := cellsOf src) inside')
  rw [List.getElem?_drop, Nat.add_sub_cancel' le] at byte
  have at_ : (offsetsOf src)[o] = (cellsOf src)[o].1 := List.getElem_map ..
  rw [new_text, List.getElem?_map, List.getElem?_eq_getElem inside', at_, byte]
  rfl

/-- A byte that no splice may have is in the text. -/
theorem mem_offsetsOf {src : List UInt8} {k : Nat} {c : UInt8} (here : src[k]? = some c) (kept : isSpliced c = false)
    (past : bomLength src ≤ k) : k ∈ offsetsOf src := by
  have here' : (src.drop (bomLength src))[k - bomLength src]? = some c := by
    rw [List.getElem?_drop, Nat.add_sub_cancel' past, here]
  have mem := mem_cells (i := bomLength src) here' kept
  rw [Nat.add_sub_cancel' past] at mem
  exact List.mem_map.2 ⟨_, mem, rfl⟩

theorem le_of_mem_offsetsOf {src : List UInt8} {k : Nat} (mem : k ∈ offsetsOf src) : bomLength src ≤ k :=
  ((cells_ordered _ _).2 k mem).1

/-- The text of a file in its source: it has the bytes at its cuts, and between them only what splices have. -/
structure Places (f : File) (ks : List Nat) : Prop extends Cuts f ks where
  bytes : ∀ o (_ : o < ks.length), f.text[o]? = f.src[ks[o]]?
  kept : ∀ {k c o} (_ : o < ks.length), f.src[k]? = some c → isSpliced c = false → ks[o] ≤ k → k ∈ ks

theorem places_new {src : List UInt8} (small : src.length < 2147483647) : Places (new src) (offsetsOf src) where
  toCuts := cuts_offsetsOf small
  bytes o inside := by rw [text_offsetsOf inside, new_src]
  kept inside here other past :=
    mem_offsetsOf (by rwa [new_src] at here) other (Nat.le_trans (le_of_mem_offsetsOf (List.getElem_mem inside)) past)

/-- Behind the place of a byte the next byte is. -/
theorem Cuts.transOffset_after {f : File} {ks : List Nat} (cuts : Cuts f ks) {o : Nat} (inside : o < ks.length) :
    f.transOffset (ks[o] + 1 : Nat) = o + 1 := by
  rw [cuts.transOffset]
  refine ⟨inside, fun i isIn below => ?_, fun isIn => ?_⟩
  · by_cases same : i = o
    · subst same
      omega
    · have less := cuts.lt (by omega : i < o) inside
      omega
  · have less := cuts.lt (by omega : o < o + 1) isIn
    omega

end File

end Vcx.Token
