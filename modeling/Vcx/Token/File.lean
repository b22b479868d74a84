import Vcx.Lib.BinarySearch
import Vcx.Lib.Part

/-!
# Source files

`token.File`: a source file's bytes and its translated text, from which a byte order mark and the
line splices are gone, with the tables that lead from one to the other. Positions count from one
in the translated text and are kept in 32 bits.
-/

namespace Vcx.Token
set_option autoImplicit false
open Vcx.Lib

/-- `int32(n)`. -/
def int32 (n : Nat) : Int := (n : Int).bmod 4294967296

def backslash : UInt8 := '\\'.toUInt8
def newline : UInt8 := '\n'.toUInt8
def carriageReturn : UInt8 := '\r'.toUInt8

/-- `bom`. -/
def bom : List UInt8 := [0xEF, 0xBB, 0xBF]

/-- `isHorizontalSpace`. -/
def isHorizontalSpace (c : UInt8) : Bool :=
  c = ' '.toUInt8 || c = '\t'.toUInt8 || c = 0x0B || c = 0x0C

inductive Severity
  | note
  | warn
  | error
  deriving Repr, DecidableEq

/-- What the translation has to report. -/
inductive Translated
  | spacedSplice
  | spliceAtEnd
  | splicedUcn
  deriving Repr, DecidableEq

/-- A message about the text from one position to another. -/
structure Diagnostic (μ : Type) where
  pos : Int
  stop : Int
  severity : Severity
  message : μ
  deriving Repr, DecidableEq

/-- The tables of the raw offset of each byte of the text and of the one after it. -/
structure Table where
  lo : List Int
  hi : List Int
  deriving Repr, DecidableEq

/-- `File`. There are no tables where the text is the source. -/
structure File where
  src : List UInt8
  text : List UInt8
  table : Option Table
  diags : List (Diagnostic Translated)
  deriving Repr, DecidableEq

/-! ### The translation -/

/-- What follows a line terminator. -/
def afterNewline : List UInt8 → Option (List UInt8)
  | [] => none
  | c :: rest =>
    if c = carriageReturn then some (if rest.head? = some newline then rest.tail else rest)
    else if c = newline then some rest
    else none

/-- What follows a line splice: a backslash, blanks and a line terminator. -/
def afterSplice : List UInt8 → Option (List UInt8)
  | [] => none
  | c :: rest => if c = backslash then afterNewline (rest.dropWhile isHorizontalSpace) else none

theorem afterNewline_length {s rest : List UInt8} (ends : afterNewline s = some rest) : rest.length < s.length := by
  cases s with
  | nil => cases ends
  | cons c s =>
    simp only [afterNewline] at ends
    split at ends
    · cases ends
      split
      · simp only [List.length_tail, List.length_cons]
        omega
      · exact Nat.lt_succ_self _
    · split at ends
      · cases ends
        exact Nat.lt_succ_self _
      · cases ends

theorem afterSplice_length {s rest : List UInt8} (ends : afterSplice s = some rest) : rest.length < s.length := by
  cases s with
  | nil => cases ends
  | cons c s =>
    simp only [afterSplice] at ends
    split at ends
    · have shorter := afterNewline_length ends
      have le := (List.dropWhile_sublist (l := s) isHorizontalSpace).length_le
      rw [List.length_cons]
      omega
    · cases ends

/-- The state of `translate`: the text and the tables so far, where a splice with blanks was
found, and whether the last bytes were a splice. -/
structure Translation where
  text : List UInt8 := []
  table : Table := ⟨[], []⟩
  pad : List Int := []
  spliceAtEOF : Bool := false

/-- The loop of `translate`, at the raw offset `i`. -/
def translateFrom (i : Nat) (t : Translation) (src : List UInt8) : Translation :=
  match src with
  | [] => t
  | c :: rest =>
    match _ends : afterSplice (c :: rest) with
    | some after =>
      let pad := if (rest.head?.any isHorizontalSpace) then t.pad ++ [(t.text.length : Int) - 1] else t.pad
      translateFrom (i + ((c :: rest).length - after.length)) { t with pad := pad, spliceAtEOF := after = [] } after
    | none =>
      let table := { lo := t.table.lo ++ [int32 i], hi := t.table.hi ++ [int32 (i + 1)] }
      translateFrom (i + 1) { t with text := t.text ++ [c], table := table, spliceAtEOF := false } rest
termination_by src.length
decreasing_by
  · exact afterSplice_length _ends
  · exact Nat.lt_succ_self _

namespace File

/-- `Pos`. -/
def pos (offset : Nat) : Int := int32 (offset + 1)

/-- `report`: the text must not be empty. -/
def report (f : File) (severity : Severity) (off : Int) (message : Translated) : File :=
  if f.text = [] then f
  else
    let off := min off.toNat (f.text.length - 1)
    { f with diags := f.diags ++ [⟨pos off, pos off + 1, severity, message⟩] }

/-- `checkSplicedUCN`. -/
def checkSplicedUCN (f : File) (t : Table) : File :=
  (List.range (f.text.length - 1)).foldl (fun (f : File) (i : Nat) =>
    if f.text[i]? = some backslash ∧ (f.text[i + 1]? = some 'u'.toUInt8 ∨ f.text[i + 1]? = some 'U'.toUInt8) ∧
        t.hi[i]? ≠ t.lo[i + 1]? then f.report .error i .splicedUcn
    else f) f

/-- The length of a byte order mark. -/
def bomLength (src : List UInt8) : Nat := if bom.isPrefixOf src then bom.length else 0

/-- The file of a translation, with its reports: the splices with blanks, `checkSplicedUCN` and a
splice at the end. -/
def ofTranslation (src : List UInt8) (t : Translation) : File :=
  let f := t.pad.foldl (fun (f : File) off => f.report .warn off .spacedSplice) ⟨src, t.text, some t.table, []⟩
  let f := f.checkSplicedUCN t.table
  if t.spliceAtEOF then f.report .warn ((f.text.length : Int) - 1) .spliceAtEnd else f

/-- The file of a source that is translated. -/
def translated (src : List UInt8) : File :=
  ofTranslation src (translateFrom (bomLength src) {} (src.drop (bomLength src)))

/-- `NewFile`: without a byte order mark and without a backslash the text is the source. -/
def new (src : List UInt8) : File :=
  if !bom.isPrefixOf src && !src.contains backslash then ⟨src, src, none, []⟩ else translated src

/-! ### From one offset to the other -/

/-- `Offset`. -/
def offset (p : Int) : Nat := (p - 1).toNat

/-- `RawOffset`, `rawOff`: where a byte of the text stands in the source. -/
def rawOff (f : File) (off : Nat) : Int :=
  match f.table with
  | none => off
  | some t => if f.text.length ≤ off then f.src.length else t.lo.getD off 0

/-- `TransOffset`. -/
def transOffset (f : File) (raw : Int) : Nat :=
  match f.table with
  | none => if raw < 0 then 0 else if (f.text.length : Int) < raw then f.text.length else raw.toNat
  | some t => search f.text.length fun i => raw ≤ t.lo.getD i 0

/-- `rawAfter`: where the byte before ends. -/
def rawAfter (f : File) (off : Nat) : Int :=
  match f.table with
  | none => off
  | some t => if off = 0 then 0 else if f.text.length < off then f.src.length else t.hi.getD (off - 1) 0

/-- `Slice`. -/
def slice (f : File) (p stop : Int) : List UInt8 := part f.text (offset p) (offset stop)

/-- `Raw`. -/
def raw (f : File) (p stop : Int) : List UInt8 :=
  let lo := offset p
  let hi := offset stop
  match f.table with
  | none => part f.src lo hi
  | some t =>
    if hi ≤ lo then part f.src (f.rawOff lo).toNat (f.rawOff lo).toNat
    else part f.src (t.lo.getD lo 0).toNat (t.hi.getD (hi - 1) 0).toNat

/-- `Between`, of the end of a token and the start of the next. -/
def between (f : File) (stop next : Int) : List UInt8 :=
  let lo := f.rawAfter (offset stop)
  let hi := f.rawOff (offset next)
  part f.src (min lo hi).toNat hi.toNat

end File

end Vcx.Token
