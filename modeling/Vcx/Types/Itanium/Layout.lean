import Vcx.Lib.Loop
import Vcx.Lib.Thread
import Vcx.Types.Itanium.Graph
import Vcx.Types.Itanium.Pod

/-!
# Record layout under the Itanium ABI

`types/itanium.go`. Every function takes the layouts `L` of the records below; the knot is
tied in `Vcx.Types.Layout`. The two search loops of the source move a candidate offset
while it conflicts with an empty subobject already placed. They have no bound: past the
`horizon` of what is recorded nothing conflicts, so a loop that is still running there
never stops, and the layout has no result (`Vcx.Types.Itanium.Search`).
-/

namespace Vcx.Types
set_option autoImplicit false
open Vcx.Lib

/-- A `map[*Record]int64`: the offsets of virtual bases. -/
abbrev VBaseMap := AList fun _ : Nat => Nat

section

variable (m : Model) (h : Hierarchy) (L : Layouts)

/-! ### Primary bases -/

/-- A dynamic class whose only content is its vptr. -/
def nearlyEmpty (r : Nat) : Bool :=
  isDynamic h r && (L r).any fun info => info.nvsize == m.sizePtr

/-- What `primaryBase` answers: an index among the direct bases, and a virtual base. -/
structure Primary where
  idx : Option Nat := none
  virt : Option Nat := none
  deriving DecidableEq, Repr

/-- Where `v` is named as a direct virtual base of `r`. -/
def directIndex (r v : Nat) : Option Nat :=
  (h.record r).bases.findIdx? fun b => b.virtual && b.cls == some v

/-- The class `indirectPrimaries` records for a base whose primary base is `p`. -/
def Primary.recorded (p : Primary) (br : Nat) : List Nat :=
  match p.virt, p.idx with
  | some v, _ => [v]
  | none, some i => ((h.record br).bases[i]?.bind BaseSpec.cls).toList
  | none, none => []

/-- Every class that is the primary base of some base of `r`, at any depth. -/
def indirectPrimaries (primary : Nat → Primary) : Nat → List Nat :=
  fix (fun self c => (h.record c).bases.flatMap fun b => match b.cls with
    | none => []
    | some br => (primary br).recorded h br ++ self br) []

def primaryBaseBody (self : Nat → Primary) (r : Nat) : Primary :=
  if !isDynamic h r then {}
  else match (h.record r).bases.findIdx? fun b => b.plain.any (isDynamic h) with
    | some i => { idx := some i }
    | none =>
      let nearly := (itaniumVBases h r).filter (nearlyEmpty m h L)
      let indirect := indirectPrimaries h self r
      match nearly.find? fun v => !indirect.contains v with
      | some v => { idx := directIndex h r v, virt := some v }
      | none => match nearly.head? with
        | some v => { idx := directIndex h r v, virt := some v }
        | none => {}

/-- The base a dynamic class shares its vptr and its address with. -/
def primaryBase : Nat → Primary := fix (primaryBaseBody m h L) {}

/-! ### Empty subobjects -/

/-- One class of `eachEmpty`: itself, its bases, its virtual bases when it is a complete
object, and every element of its members. -/
def eachEmptyBody (self : Nat → Nat → Bool → List (Nat × Nat)) (r start : Nat) (asBase : Bool) :
    List (Nat × Nat) :=
  (if itaniumEmpty h r then [(r, start)] else []) ++ match L r with
    | none => []
    | some info =>
      ((h.record r).bases.zipIdx.flatMap fun (b, i) => match b.plain with
        | none => []
        | some c => self c (start + info.baseOffsets.getD i 0) true) ++
      (if asBase then [] else (itaniumVBases h r).flatMap fun v => match info.vbaseOffsets.lookup v with
        | none => []
        | some off => self v (start + off) true) ++
      (h.record r).fields.zipIdx.flatMap fun (f, i) => match f.type.recordElem with
        | none => []
        | some c => (List.range f.type.elemCount).flatMap fun k =>
          self c (start + info.fieldOffsets.getD i 0 + k * (sizeof m h L (.record c)).getD 0) false

/-- Every empty subobject of `r` placed at `start`, with its offset. -/
def eachEmpty : Nat → Nat → Bool → List (Nat × Nat) :=
  fix (eachEmptyBody m h L) fun _ _ => []

/-- `emptyMap.conflicts`: an empty subobject would land on a recorded one of its type. -/
def conflicts (empties : List (Nat × Nat)) (r start : Nat) (asBase : Bool) : Bool :=
  (eachEmpty m h L r start asBase).any empties.contains

/-- An offset beyond every recorded one. -/
def horizon (empties : List (Nat × Nat)) : Nat :=
  (empties.map Prod.snd).foldr max 0 + 1

/-! ### Placing bases and members -/

/-- The running state of a layout. -/
structure Cursor where
  align : Nat := 1
  dsize : Nat := 0
  size : Nat := 0
  empties : List (Nat × Nat) := []

def Cursor.grow (c : Cursor) (stop : Nat) : Cursor :=
  { c with size := if c.size < stop then stop else c.size }

def Cursor.raise (c : Cursor) (a : Nat) : Cursor :=
  { c with align := if c.align < a then a else c.align }

/-- `empties.add`. -/
def Cursor.record (c : Cursor) (r start : Nat) (asBase : Bool) : Cursor :=
  { c with empties := c.empties ++ eachEmpty m h L r start asBase }

/-- Data up to `stop`. -/
def Cursor.fill (c : Cursor) (stop : Nat) : Cursor :=
  { c.grow stop with dsize := stop }

/-- Where an empty base goes: offset zero, or from the data size on. -/
def emptyBaseOffset (c : Cursor) (br nvalign : Nat) : Option Nat :=
  loop (fun off => conflicts m h L c.empties br off true)
    (fun off =>
      let next := if off = 0 then c.dsize else off + nvalign
      if next < c.dsize then c.dsize else next)
    (horizon c.empties + 1) 0

/-- The first offset from `start` on, by steps of `a`, where `r` conflicts with nothing. -/
def freeOffset (c : Cursor) (r start a : Nat) (asBase : Bool) : Option Nat :=
  loop (fun off => conflicts m h L c.empties r off asBase) (· + a) (horizon c.empties) start

/-- An empty base: it takes no data storage. -/
def placeEmptyBase (br : Nat) (bi : RecordInfo) (first : Bool) (c : Cursor) : Option (Nat × Cursor) :=
  (if first then some 0 else emptyBaseOffset m h L c br bi.nvalign).map fun off =>
    (off, (c.record m h L br off true).grow (off + bi.size))

/-- Any other base, after the data so far. -/
def placeDataBase (br : Nat) (bi : RecordInfo) (first : Bool) (c : Cursor) : Option (Nat × Cursor) :=
  (freeOffset m h L c br (if first then 0 else roundUp c.dsize bi.nvalign) bi.nvalign true).map fun off =>
    (off, (c.record m h L br off true).fill (off + bi.nvsize))

/-- `placeBase`. -/
def placeBase (br : Nat) (first : Bool) (c : Cursor) : Option (Nat × Cursor) :=
  match L br with
  | none => none
  | some bi =>
    if itaniumEmpty h br then placeEmptyBase m h L br bi first (c.raise bi.nvalign)
    else placeDataBase m h L br bi first (c.raise bi.nvalign)

/-- II.2, one base-specifier: the primary base is placed already, where `keep` says; a
virtual base is passed over and its offset stays zero for now. -/
def placeBaseAt (keep : Nat → Option Nat) (b : BaseSpec × Nat) (c : Cursor) : Option (Nat × Cursor) :=
  match keep b.2 with
  | some off => some (off, c)
  | none => match b.1.plain.filter fun br => (h.record br).complete with
    | none => some (0, c)
    | some br => placeBase m h L br false c

/-- II.2: the non-virtual bases but the primary one, in declaration order. -/
def placeBases (keep : Nat → Option Nat) : List (BaseSpec × Nat) → Cursor → Option (List Nat × Cursor) :=
  thread (placeBaseAt m h L keep)

/-- Where a member was put: its byte offset, and a bit-field's place in its unit. -/
structure Placed where
  offset : Nat
  bitOffset : Int := 0
  bitUnit : Nat := 0

/-- The bit a bit-field starts at: the running bit, or the next unit when it would not fit. -/
def bitStart (bits width unitBits alignBits : Nat) : Nat :=
  if width = 0 then roundUp bits alignBits
  else if width ≤ unitBits ∧ unitBits < bits % alignBits + width then roundUp bits alignBits
  else bits

/-- The byte a bit-field's unit starts at. -/
def bitUnitStart (o width unitBits alignBits : Nat) : Nat :=
  let unit := o / alignBits * alignBits / 8
  if 0 < unitBits ∧ unit * 8 + unitBits < o + width then (o + width - unitBits + 7) / 8 else unit

/-- A bit-field member, of a type of size `fs`. -/
def placeBitField (f : Field) (fs fa : Nat) (s : Nat × Cursor) : Placed × Nat × Cursor :=
  let o := bitStart s.1 f.width (fs * 8) (fa * 8)
  let unit := bitUnitStart o f.width (fs * 8) (fa * 8)
  let c := if f.name = "" then s.2 else s.2.raise fa
  ({ offset := unit, bitOffset := (o : Int) - unit * 8, bitUnit := fs }, o + f.width,
    c.fill ((o + f.width + 7) / 8))

/-- The class of a `[[no_unique_address]]` member of empty class type. -/
def emptyMember (f : Field) : Option Nat :=
  if f.noUniqueAddress then f.type.asRecord.filter (itaniumEmpty h) else none

/-- Such a member goes where an empty base would and takes no data storage. -/
def placeEmptyMember (fr fs fa : Nat) (s : Nat × Cursor) : Option (Placed × Nat × Cursor) :=
  (freeOffset m h L s.2 fr (roundUp ((s.1 + 7) / 8) fa) fa false).map fun off =>
    ({ offset := off }, s.1, (s.2.record m h L fr off false).grow (off + fs))

/-- Where any other member goes. -/
def memberOffset (t : Ty) (start fa : Nat) (c : Cursor) : Option Nat :=
  match t.recordElem with
  | none => some start
  | some fr => freeOffset m h L c fr start fa false

/-- The empties of a member are recorded when its type is a class, not an array of one. -/
def recordMember (t : Ty) (off : Nat) (c : Cursor) : Cursor :=
  match t.asRecord with
  | none => c
  | some fr => c.record m h L fr off false

def placeMember (t : Ty) (fs fa : Nat) (s : Nat × Cursor) : Option (Placed × Nat × Cursor) :=
  (memberOffset m h L t (roundUp ((s.1 + 7) / 8) fa) fa s.2).map fun off =>
    ({ offset := off }, (off + fs) * 8, (recordMember m h L t off s.2).fill (off + fs))

/-- II.3, one member. The state is where the data ends, counted in bits, and the cursor. -/
def placeField (r : Record) (f : Field) (s : Nat × Cursor) : Option (Placed × Nat × Cursor) :=
  match sizeof m h L f.type, alignof m h L f.type with
  | some fs, some ta =>
    let fa := fieldAlign r f ta
    if f.bitField then some (placeBitField f fs fa s)
    else match emptyMember h f with
      | some fr => placeEmptyMember m h L fr fs fa (s.1, s.2.raise fa)
      | none => placeMember m h L f.type fs fa (s.1, s.2.raise fa)
  | _, _ => none

/-- II.3: the members, in declaration order. -/
def placeFields (r : Record) : List Field → Nat × Cursor → Option (List Placed × Nat × Cursor) :=
  thread (placeField m h L r)

/-! ### Virtual bases -/

/-- The offsets `vs` were given, entered one after the other. -/
def VBaseMap.enter (at_ : VBaseMap) (vs : List (Nat × Nat)) : VBaseMap :=
  vs.foldl (fun at_ (v, off) => at_.insert v off) at_

/-- II.5: the virtual bases that get a place of their own. -/
def placeVBases : List Nat → Cursor → Option (List Nat × Cursor) :=
  thread fun v c => placeBase m h L v false c

/-- Where a base of a class placed at `start` is, in the layout at hand. -/
def baseAt (at_ : VBaseMap) (start : Nat) (offs : List Nat) (b : BaseSpec × Nat) : Option (Nat × Nat) :=
  b.1.cls.bind fun br =>
    (if b.1.virtual then at_.lookup br else some (start + offs.getD b.2 0)).map fun off => (br, off)

/-- The loop of `primaryHolderOffset` over the bases of a class placed at `start`. A base
whose primary base is `vb` ends it; what a deeper walk found is kept meanwhile. -/
def holderBases (vb : Nat) (at_ : VBaseMap) (self : Nat → Nat → List Nat → Option Nat → Option Nat)
    (start : Nat) (offs : List Nat) : List (BaseSpec × Nat) → Option Nat → Option Nat
  | [], found => found
  | b :: bs, found => match baseAt at_ start offs b with
    | none => holderBases vb at_ self start offs bs found
    | some (br, bat) =>
      if (primaryBase m h L br).virt = some vb then some bat
      else match L br with
        | none => holderBases vb at_ self start offs bs found
        | some bi => holderBases vb at_ self start offs bs (self br bat bi.baseOffsets found)

/-- One class of the walk, which does nothing once a holder is found. -/
def holderBody (vb : Nat) (at_ : VBaseMap) (self : Nat → Nat → List Nat → Option Nat → Option Nat)
    (c start : Nat) (offs : List Nat) (found : Option Nat) : Option Nat :=
  if found.isSome then found
  else holderBases m h L vb at_ self start offs (h.record c).bases.zipIdx found

/-- `primaryHolderOffset`: where the class whose primary base `vb` is was placed in `r`. -/
def primaryHolderOffset (vb : Nat) (at_ : VBaseMap) (r : Nat) (offs : List Nat) : Option Nat :=
  fix (holderBody m h L vb at_) (fun _ _ found => found) r 0 offs none

/-- An indirect primary without a place yet goes where the base whose primary it is went. -/
def shareVBase (r : Nat) (indirect offs : List Nat) (at_ : VBaseMap) (v : Nat) : VBaseMap :=
  if (at_.lookup v).isSome || !indirect.contains v then at_
  else match primaryHolderOffset m h L v at_ r offs with
    | none => at_
    | some off => at_.insert v off

/-! ### The layout -/

/-- A member of a union. -/
def unionField (r : Record) (f : Field) (c : Cursor) : Option (Placed × Cursor) :=
  match sizeof m h L f.type, alignof m h L f.type with
  | some fs, some ta =>
    let fa := fieldAlign r f ta
    let unit := if f.bitField then (f.width + 7) / 8 else fs
    some ({ offset := 0, bitUnit := if f.bitField then unit else 0 },
      (if !f.bitField || f.name != "" then c.raise fa else c).grow unit)
  | _, _ => none

/-- A class-head `alignas` is part of the class's alignment from the start. -/
def headCursor (r : Record) : Cursor := { align := if 1 < r.align then r.align else 1 }

/-- The layout of a union from its members. -/
def finishUnion (rec_ : Record) (ps : List Placed) (c : Cursor) : RecordInfo :=
  let size := atLeastOne (roundUp c.size c.align)
  { size, align := c.align, nvsize := size, nvalign := c.align, dsize := size
    fieldOffsets := ps.map Placed.offset
    bitOffsets := ps.map Placed.bitOffset
    bitUnits := ps.map Placed.bitUnit
    primary := some 0
    primaryVirtual := none
    baseOffsets := rec_.bases.map fun _ => 0
    vbptr := none
    vbaseOffsets := ∅ }

def layoutItaniumUnion (r : Nat) : Option RecordInfo :=
  (thread (unionField m h L (h.record r)) (h.record r).fields (headCursor (h.record r))).map
    fun (ps, c) => finishUnion (h.record r) ps c

/-- II.1: the vptr of a dynamic class with no direct primary base. -/
def startCursor (rec_ : Record) (dynamic : Bool) (p : Primary) : Cursor :=
  if dynamic && p.idx.isNone then ((headCursor rec_).raise m.sizePtr).fill m.sizePtr else headCursor rec_

/-- The primary base, at the start of the class. -/
def placePrimary (rec_ : Record) (p : Primary) (c : Cursor) : Option (Option Nat × Cursor) :=
  match p.idx with
  | none => some (none, c)
  | some i => match rec_.bases[i]?.bind BaseSpec.cls with
    | none => none
    | some br => (placeBase m h L br true c).map fun (off, c) => (some off, c)

/-- What the non-virtual part came to: the offsets of the primary base, of the bases and of
the members, and the state. -/
structure NonVirtual where
  primary : Primary
  primaryOff : Option Nat
  baseOffs : List Nat
  fields : List Placed
  cursor : Cursor

/-- The offset of the base that was placed first. -/
def keepPrimary (p : Primary) (off : Option Nat) (i : Nat) : Option Nat :=
  if p.idx = some i then off else none

/-- II.1 to II.3. -/
def layoutNonVirtualPart (r : Nat) : Option NonVirtual :=
  let rec_ := h.record r
  let p := primaryBase m h L r
  (placePrimary m h L rec_ p (startCursor m rec_ (isDynamic h r) p)).bind fun (off, c) =>
    (placeBases m h L (keepPrimary p off) rec_.bases.zipIdx c).bind fun (offs, c) =>
      (placeFields m h L rec_ rec_.fields (c.dsize * 8, c)).map fun (ps, _, c) =>
        { primary := p, primaryOff := off, baseOffs := offs, fields := ps, cursor := c }

/-- The entry the primary base makes when it is a virtual one. -/
def NonVirtual.entries (nv : NonVirtual) : VBaseMap :=
  match nv.primaryOff, nv.primary.virt with
  | some off, some v => (∅ : VBaseMap).insert v off
  | _, _ => ∅

/-- The virtual bases that get a place of their own. -/
def freshVBases (r : Nat) : List Nat :=
  (itaniumVBases h r).filter fun v =>
    !((primaryBase m h L r).virt == some v || (indirectPrimaries h (primaryBase m h L) r).contains v)

/-- II.5: where the virtual bases went; `offs` are the places of the fresh ones. -/
def vbaseEntries (r : Nat) (nv : NonVirtual) (offs : List Nat) : VBaseMap :=
  (itaniumVBases h r).foldl
    (shareVBase m h L r (indirectPrimaries h (primaryBase m h L) r) nv.baseOffs)
    (nv.entries.enter ((freshVBases m h L r).zip offs))

/-- The offsets of the direct bases, the virtual ones where their entry says. -/
def finalBaseOffsets (r : Nat) (offs : List Nat) (at_ : VBaseMap) : List Nat :=
  ((h.record r).bases.zip offs).map fun (b, off) =>
    if b.virtual then (match b.cls with
      | none => off
      | some v => (at_.lookup v).getD 0)
    else off

/-- The layout of a class from its two parts. -/
def finishLayout (r : Nat) (nv : NonVirtual) (offs : List Nat) (c : Cursor) : RecordInfo :=
  let at_ := vbaseEntries m h L r nv offs
  let nvsize := atLeastOne nv.cursor.size
  let size := atLeastOne (roundUp c.size c.align)
  let pod := podForLayout m h r
  { size, align := c.align
    nvalign := nv.cursor.align
    nvsize := if pod then roundUp nvsize c.align else nvsize
    dsize := if pod then size else c.dsize
    fieldOffsets := nv.fields.map Placed.offset
    bitOffsets := nv.fields.map Placed.bitOffset
    bitUnits := nv.fields.map Placed.bitUnit
    primary := nv.primary.idx
    primaryVirtual := nv.primary.virt
    baseOffsets := finalBaseOffsets h r nv.baseOffs at_
    vbptr := none
    vbaseOffsets := at_ }

/-- `layoutItanium`. -/
def layoutItanium (r : Nat) : Option RecordInfo :=
  if (h.record r).tag = .union then layoutItaniumUnion m h L r
  else (layoutNonVirtualPart m h L r).bind fun nv =>
    (placeVBases m h L (freshVBases m h L r) nv.cursor).map fun (offs, c) => finishLayout m h L r nv offs c

end

end Vcx.Types
