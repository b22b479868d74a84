import Vcx.Types.Itanium.Layout
import Vcx.Types.VTable

/-!
# Virtual tables under the Itanium ABI

`types/itanium_vtable.go`. A class has one group of tables: its primary table, which it
shares with the chain of its primary bases, a table for every other non-virtual dynamic base,
and the tables of the virtual bases that are nobody's primary base. The code walks the class
once and appends a table for each subobject it stops at; here the walk lists the subobjects,
and `primaryAndSecondary` is a subobject before those of its bases.
-/

namespace Vcx.Types
set_option autoImplicit false
open Vcx.Lib

/-- `subobject`: a base subobject of the complete class, where it is, and the classes from the
complete object down to it. -/
structure Subobject where
  rec_ : Nat
  offset : Nat := 0
  path : List Nat
  virtual : Bool := false
  deriving DecidableEq, Repr

section

variable (m : Model) (h : Hierarchy) (L : Layouts)

/-! ### The slots of a class -/

/-- The class `primaryBase` names. -/
def primaryClass (r : Nat) : Option Nat :=
  match (primaryBase m h L r).virt with
  | some v => some v
  | none => (primaryBase m h L r).idx.bind fun i => (h.record r).bases[i]?.bind BaseSpec.cls

/-- `overrideSlot`: a slot with the class's own function in it, where it has one. Every class
has a destructor. -/
def overrideSlot (r : Nat) (s : VSlot) : VSlot :=
  if s.name = dtorName then { s with definer := (h.record r).name, pureVirtual := false }
  else match (h.record r).methods.find? fun meth => overrides meth s (h.record r) with
    | some meth => { s with definer := (h.record r).name, pureVirtual := meth.pureVirtual }
    | none => s

/-- A member function the loop over the methods looks at. -/
def declaresVirtual (r : Nat) (meth : Method) : Bool :=
  !(meth.static || meth.friend || meth.template) && virtualName meth (h.record r) != "" &&
    (meth.virtual || overridesVirtual h r meth.name meth.func)

/-- The slots a function adds to a table: two for a destructor. -/
def newSlots (s : VSlot) : List VSlot := if s.name = dtorName then [s, { s with deleting := true }] else [s]

/-- One round of that loop. -/
def addSlot (r : Nat) (slots : List VSlot) (meth : Method) : List VSlot :=
  if declaresVirtual h r meth && !slots.any (fun s => overrides meth s (h.record r)) then
    slots ++ newSlots
      { name := virtualName meth (h.record r), introduced := (h.record r).name, definer := (h.record r).name,
        pureVirtual := meth.pureVirtual, signature := meth.func }
  else slots

/-- The destructor nobody declared, behind everything else. -/
def addDtor (r : Nat) (slots : List VSlot) : List VSlot :=
  if !(h.record r).methods.any (fun meth => declaresVirtual h r meth && virtualName meth (h.record r) == dtorName) &&
      hasVirtualDtor h r && !slots.any (fun s => s.name == dtorName) then
    slots ++ newSlots { name := dtorName, introduced := (h.record r).name, definer := (h.record r).name }
  else slots

def itaniumSlotsBody (self : Nat → List VSlot) (r : Nat) : List VSlot :=
  let inherited := match primaryClass m h L r with
    | some p => (self p).map (overrideSlot h r)
    | none => []
  addDtor h r ((h.record r).methods.foldl (addSlot h r) inherited)

/-- `itaniumSlots`: a class's primary table as the class itself sees it. -/
def itaniumSlots : Nat → List VSlot := fix (itaniumSlotsBody m h L) []

/-! ### The subobjects with tables -/

/-- `secondary` at one class: the subobjects of its non-virtual dynamic bases. A primary base
shares the table, but its own bases may need theirs. -/
def secondaryBody (self : Nat → Nat → List Nat → List Subobject) (c offset : Nat) (path : List Nat) : List Subobject :=
  match L c with
  | none => []
  | some info => (h.record c).bases.zipIdx.flatMap fun (b, i) => match b.plain with
    | none => []
    | some d =>
      if !isDynamic h d then []
      else
        let sub : Subobject := { rec_ := d, offset := offset + info.baseOffsets.getD i 0, path := path ++ [d] }
        let rest := self d sub.offset sub.path
        if info.primary = some i ∧ info.primaryVirtual = none then rest else sub :: rest

def secondary : Nat → Nat → List Nat → List Subobject := fix (secondaryBody h L) fun _ _ => []

/-- `primaryAndSecondary`. -/
def primaryAndSecondary (s : Subobject) : List Subobject := s :: secondary h L s.rec_ s.offset s.path

/-- `primaryVirtualBases`: every virtual base that is the primary base of a class in the hierarchy. -/
def primaryVirtualBases : Nat → List Nat :=
  fix (fun self c => (primaryBase m h L c).virt.toList ++ (h.record c).bases.flatMap fun b => match b.cls with
    | none => []
    | some d => self d) []

/-- The loop of `virtualBases` over one class's bases: the classes that get a table and, in
front of them, those seen already. -/
def VTableGroup.virtualBasesWalk (shared : List Nat) (self : Nat → List Nat → List Nat) : List BaseSpec → List Nat → List Nat
  | [], seen => seen
  | b :: bs, seen => match b.cls with
    | none => VTableGroup.virtualBasesWalk shared self bs seen
    | some c =>
      let seen := if b.virtual && isDynamic h c && !shared.contains c && !seen.contains c then seen ++ [c] else seen
      VTableGroup.virtualBasesWalk shared self bs (if (itaniumVBases h c).isEmpty then seen else self c seen)

/-- `virtualBases`: the virtual bases with tables of their own, in inheritance graph order. -/
def VTableGroup.virtualBases (shared : List Nat) : Nat → List Nat → List Nat :=
  fix (fun self r seen => VTableGroup.virtualBasesWalk h shared self (h.record r).bases seen) fun seen => seen

/-- The subobject of a virtual base. -/
def vbaseSubobject (r : Nat) (info : RecordInfo) (v : Nat) : Subobject :=
  { rec_ := v, offset := (info.vbaseOffsets.lookup v).getD 0, path := [r, v], virtual := true }

/-- The subobjects of `r` that have a table, the complete object first. -/
def tableOwners (r : Nat) (info : RecordInfo) : List Subobject :=
  primaryAndSecondary h L { rec_ := r, path := [r] } ++
    (VTableGroup.virtualBases h (primaryVirtualBases m h L r) r []).flatMap fun v =>
      primaryAndSecondary h L (vbaseSubobject r info v)

/-! ### What is in a table -/

/-- `derivedFrom`'s walk: whether the class has `vb` as a base, and the classes that do,
bases before the classes derived from them. -/
def derivedBody (vb : Nat) (self : Nat → List Nat → Bool × List Nat) (c : Nat) (out : List Nat) : Bool × List Nat :=
  if c = vb then (true, out)
  else
    let (has, out) := (h.record c).bases.foldl (fun (has, out) b => match b.cls with
      | none => (has, out)
      | some d =>
        let (found, out) := self d out
        (has || found, out)) (false, out)
    (has, if has && !out.contains c then out ++ [c] else out)

def derivedWalk (vb : Nat) : Nat → List Nat → Bool × List Nat := fix (derivedBody h vb) fun out => (false, out)

/-- `derivedFrom`: each class before its own bases, `vb` last. -/
def derivedFrom (r vb : Nat) : List Nat := (derivedWalk h vb r []).2.reverse ++ [vb]

/-- `itaniumBaseOffset`: where a base class's subobject is in `r`. -/
def itaniumBaseOffset (base : Nat) : Nat → Option Nat :=
  fix (fun self r => if r = base then some 0 else match L r with
    | none => none
    | some info => match info.vbaseOffsets.lookup base with
      | some off => some off
      | none => (h.record r).bases.zipIdx.findSome? fun (b, i) => match b.cls with
        | none => none
        | some c => match L c with
          | none => none
          | some _ =>
            let at_ := if b.virtual then (info.vbaseOffsets.lookup c).getD 0 else info.baseOffsets.getD i 0
            if c = base then some at_
            else if b.virtual then none else (self c).map (at_ + ·)) none

/-- The classes `finalOverrider` looks at, in the order it does: from the subobject's class
up, for a virtual base along every path. -/
def candidates (r : Nat) (s : Subobject) : List Nat :=
  (if s.virtual then derivedFrom h r s.rec_ else s.path).dropLast.reverse

/-- `finalOverrider`: the most derived definition, and how far `this` has to move for it. -/
def finalOverrider (r : Nat) (s : Subobject) (slot : VSlot) : VSlot :=
  let slot := (candidates h r s).foldl (fun slot c => overrideSlot h c slot) slot
  let definer := if slot.definer = (h.record r).name then some r else findBase h r slot.definer
  match definer.bind fun d => itaniumBaseOffset h L d r with
  | some off => { slot with adjust := (s.offset : Int) - off }
  | none => slot

/-- The table of a subobject of `r`. -/
def subobjectTable (r : Nat) (info : RecordInfo) (s : Subobject) : VTable where
  base := if s.offset ≠ 0 then (h.record s.rec_).name else ""
  offset := s.offset
  vbaseOffsets := (itaniumVBases h s.rec_).filterMap fun v => (info.vbaseOffsets.lookup v).map fun at_ => at_ - s.offset
  slots := (itaniumSlots m h L s.rec_).map (finalOverrider h L r s)

/-- `vtablesItanium`: the vtable group of a class, primary table first. -/
def vtablesItanium (r : Nat) : List VTable :=
  if !isDynamic h r then []
  else match L r with
    | none => []
    | some info => (tableOwners m h L r info).map (subobjectTable m h L r info)

end

end Vcx.Types
