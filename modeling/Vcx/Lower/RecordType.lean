import Vcx.Lib.Sweep
import Vcx.Lower.Comparison
import Vcx.Types.Itanium.VTable
import Vcx.Types.Microsoft.VTable

/-!
# The struct type of a class

`recordType` of `lower/record.go` describes the storage of a class to the backend: the table
pointer, the bases and the fields where the layout put them, and fillers for the bytes
between. The pieces are taken in the order of their offsets, and one that starts before the
last one taken has ended is passed over. A struct type stands here by the number of its
class, for the name and the table of those that are made already.
-/

namespace Vcx.RecordType
set_option autoImplicit false
open Vcx.Lib Vcx.Types
open Vcx.Comparison (regType elemSize)

/-- A store type: of an integer of so many bytes, a floating-point number or a pointer, an array, or the struct of
a class. -/
inductive FType where
  | int (bytes : Nat)
  | f32 | f64 | ptr
  | array (n : Nat) (elem : FType)
  | record (r : Nat)
  deriving DecidableEq, Repr

variable (m : Model) (h : Hierarchy)

/-- The bytes of a store type; a struct is as long as its class. -/
def FType.bytes : FType → Nat
  | .int n => n
  | .f32 => 4
  | .f64 => 8
  | .ptr => m.sizePtr
  | .array n elem => n * elem.bytes
  | .record r => elemSize m h (.record r)

/-- `ftype`. -/
def ftype (t : Ty) (size : Nat) : FType :=
  match regType m h t, size with
  | .i128, _ => .int 16
  | .i64, _ => .int 8
  | .f32, _ => .f32
  | .f64, _ => .f64
  | .ptr, _ => .ptr
  | _, 1 => .int 1
  | _, 2 => .int 2
  | _, 8 => .int 8
  | _, 16 => .int 16
  | _, _ => .int 4

/-- `storageType`. -/
def storageType : Ty → FType
  | .array elem len incomplete => .array (if incomplete then 0 else len) (storageType elem)
  | .qualified _ (.array elem len incomplete) => .array (if incomplete then 0 else len) (storageType elem)
  | t => match t.asRecord with
    | some r => .record r
    | none => ftype m h t.unqualify (elemSize m h t.unqualify)

/-- `identOf`: the letters, the digits but a first one, and `_`. -/
def identOf (s : String) : String :=
  let out := (s.toList.zipIdx.filter fun (c, i) => c == '_' || ('a' ≤ c && c ≤ 'z') || ('A' ≤ c && c ≤ 'Z') ||
    ('0' ≤ c && c ≤ '9' && 0 < i)).map Prod.fst
  if out.isEmpty then "fn" else String.ofList out

/-- Whether `VTables` has any for a class. -/
def hasVTables (r : Nat) : Bool :=
  if m.abi.isItanium then !(vtablesItanium m h (layoutInfo m h) r).isEmpty
  else !(vtablesMicrosoft m h (layoutInfo m h) r).isEmpty

/-- `baseSuppliesVPtr`. -/
def baseSuppliesVPtr (r : Nat) : Bool :=
  (h.record r).bases.any fun b => b.plain.any (hasVTables m h)

/-- A part of the storage of a class. -/
structure Piece where
  off : Nat
  size : Nat
  ft : FType
  name : String
  deriving DecidableEq, Repr

def Piece.stop (p : Piece) : Nat := p.off + p.size

variable (r : Nat) (info : RecordInfo)

/-- The table pointer, where no base has it. -/
def vfptrPiece : List Piece :=
  if hasVTables m h r && !baseSuppliesVPtr m h r then [⟨0, m.sizePtr, .ptr, "vfptr"⟩] else []

/-- The `i`th base, if it is not virtual. -/
def basePiece (b : BaseSpec × Nat) : Option Piece :=
  b.1.plain.map fun c =>
    ⟨info.baseOffsets.getD b.2 0, elemSize m h (.record c), .record c, "base_" ++ identOf (h.record c).name⟩

/-- The `i`th field, if it is no bit-field. -/
def fieldPiece (f : Field × Nat) : Option Piece :=
  if f.1.bitField then none
  else some ⟨info.fieldOffsets.getD f.2 0, elemSize m h f.1.type, storageType m h f.1.type, identOf f.1.name⟩

/-- The pieces of a class. -/
def pieces : List Piece :=
  vfptrPiece m h r ++ (h.record r).bases.zipIdx.filterMap (basePiece m h info) ++
    (h.record r).fields.zipIdx.filterMap (fieldPiece m h info)

/-- A field of the struct type: a piece, or the `k`th filler, of so many bytes. -/
inductive StructField where
  | piece (name : String) (ft : FType) (off : Nat)
  | pad (k bytes off : Nat)
  deriving DecidableEq, Repr

def Piece.field (p : Piece) : StructField := .piece p.name p.ft p.off

/-- The loop over the pieces, from where the last one ended and the fillers so far on: the fields, where they end,
and how many fillers there are then. -/
def placePieces : Nat → Nat → List Piece → List StructField × Nat × Nat
  | stop, fillers, [] => ([], stop, fillers)
  | stop, fillers, p :: ps =>
    if p.off < stop then placePieces stop fillers ps
    else if stop < p.off then
      let (fields, rest) := placePieces p.stop (fillers + 1) ps
      (.pad (fillers + 1) (p.off - stop) stop :: p.field :: fields, rest)
    else
      let (fields, rest) := placePieces p.stop fillers ps
      (p.field :: fields, rest)

/-- `recordType`: the fields of the struct type of a class. -/
def recordType : List StructField :=
  let (fields, stop, fillers) := placePieces 0 0 (sortBy Piece.off (pieces m h r info))
  let size := elemSize m h (.record r)
  if stop < size then fields ++ [.pad (fillers + 1) (size - stop) stop] else fields

/-! ### What the struct type is for -/

def StructField.off : StructField → Nat
  | .piece _ _ off => off
  | .pad _ _ off => off

def StructField.bytes : StructField → Nat
  | .piece _ ft _ => ft.bytes m h
  | .pad _ n _ => n

/-- The fields lie one behind the other, from a position to the next. -/
def Tiles : Nat → List StructField → Nat → Prop
  | at_, [], size => at_ = size
  | at_, f :: fields, size => f.off = at_ ∧ Tiles (at_ + f.bytes m h) fields size

/-- A type whose objects have nothing in them. -/
def emptyType (t : Ty) : Bool :=
  t.recordElem.any (itaniumEmpty h) || sizeof m h (layoutInfo m h) t == some 0

/-- The parts of a class that are not empty. -/
def wanted : List Piece :=
  vfptrPiece m h r ++
    ((h.record r).bases.zipIdx.filter fun b => b.1.cls.all fun c => !itaniumEmpty h c).filterMap (basePiece m h info) ++
    ((h.record r).fields.zipIdx.filter fun f => !emptyType m h f.1.type).filterMap (fieldPiece m h info)

/-- **The struct type is right**: its fields are at increasing offsets and cover the bytes of the class one behind the
other, and those of a class that is no union have everything in it that is not empty. -/
structure Right : Prop where
  increasing : (recordType m h r info).Pairwise fun f g => f.off < g.off
  tiles : Tiles m h 0 (recordType m h r info) info.size
  all : (h.record r).tag ≠ .union → ∀ p ∈ wanted m h r info, p.field ∈ recordType m h r info

/-- What comes first of two pieces: the one with the smaller offset, or the one listed first. -/
def Before (p q : Piece × Nat) : Prop := p.1.off < q.1.off ∨ p.1.off = q.1.off ∧ p.2 < q.2

/-- The pieces of a class can be seen: of some of them no two overlap, each of the others starts within one of them
before it, and all that is not empty is among them. Their types are as wide as they are, and none goes beyond the
class; where a type is narrower, the class ends with it. -/
structure Seen (chosen : Nat → Prop) : Prop where
  apart : ∀ i j p q, (pieces m h r info)[i]? = some p → (pieces m h r info)[j]? = some q → chosen i → chosen j →
    Before (p, i) (q, j) → p.stop ≤ q.off
  hidden : ∀ j q, (pieces m h r info)[j]? = some q → ¬ chosen j →
    ∃ i p, (pieces m h r info)[i]? = some p ∧ chosen i ∧ Before (p, i) (q, j) ∧ q.off < p.stop
  wide : ∀ i p, (pieces m h r info)[i]? = some p → chosen i → p.ft.bytes m h = p.size ∧ p.stop ≤ info.size ∨
    p.ft.bytes m h < p.size ∧ p.off + p.ft.bytes m h = info.size
  all : (h.record r).tag ≠ .union → ∀ w ∈ wanted m h r info,
    ∃ i p, (pieces m h r info)[i]? = some p ∧ chosen i ∧ p.field = w.field

end Vcx.RecordType
