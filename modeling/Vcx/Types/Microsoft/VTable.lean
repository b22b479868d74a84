import Vcx.Types.Layout
import Vcx.Types.VTable

/-!
# Virtual tables under Microsoft's ABI

`VTables` and what it calls. A class's primary table is that of its first non-virtual
polymorphic base with the class's own functions put in and its new ones appended; every other
such base gives one table more.
-/

namespace Vcx.Types
set_option autoImplicit false
open Vcx.Lib

section

variable (m : Model) (h : Hierarchy) (L : Layouts)

/-- One slot of `applyOverrides`: the class's own function, where it declares one. -/
def applyOverride (r : Nat) (s : VSlot) : VSlot :=
  match (h.record r).methods.find? fun meth => overrides meth s (h.record r) with
  | some meth => { s with definer := (h.record r).name, pureVirtual := meth.pureVirtual }
  | none => s

/-- A virtual function that overrides nothing. -/
def introducesVirtual (r : Nat) (existing : List VSlot) (meth : Method) : Bool :=
  meth.virtual && virtualName meth (h.record r) != "" && !existing.any (fun s => overrides meth s (h.record r)) &&
    !overridesVirtual h r meth.name meth.func

/-- `newVirtuals`: the functions a class introduces, by name, the overloads of a name in
reverse order. -/
def newVirtuals (r : Nat) (existing : List VSlot) : List VSlot :=
  let new := (h.record r).methods.filter (introducesVirtual h r existing)
  let name := fun meth => virtualName meth (h.record r)
  (new.map name).eraseDups.flatMap fun n =>
    let group := new.filter fun meth => name meth == n
    (if m.abi.isMicrosoft then group.reverse else group).map fun meth =>
      { name := n, introduced := (h.record r).name, definer := (h.record r).name, pureVirtual := meth.pureVirtual,
        signature := meth.func }

/-- The base whose table a class continues, and its index. -/
def msPrimary (r : Nat) : Option (BaseSpec × Nat) := (baseOrder h r).find? fun b => leads h b.1

/-- The class of that base. -/
def msPrimaryClass (r : Nat) : Option Nat := (msPrimary h r).bind fun b => b.1.cls

/-- The offset of the `i`th base. -/
def msBaseOffset (r i : Nat) : Nat := ((L r).map fun info => info.baseOffsets.getD i 0).getD 0

/-- The primary table, from those of the bases. -/
def msPrimaryTable (self : Nat → List VTable) (r : Nat) : VTable :=
  let inherited := match msPrimaryClass h r with
    | some c => ((self c).head?.map VTable.slots).getD []
    | none => []
  let slots := inherited.map (applyOverride h r)
  { base := ((msPrimaryClass h r).map fun c => (h.record c).name).getD "", slots := slots ++ newVirtuals m h r slots }

/-- The table of another base. -/
def msSecondaryTable (self : Nat → List VTable) (r : Nat) (b : BaseSpec × Nat) : Option VTable :=
  if msPrimary h r |>.any fun p => p.2 == b.2 then none
  else match b.1.plain with
    | none => none
    | some c =>
      if !isPolymorphic h c then none
      else (self c).head?.map fun t =>
        { base := (h.record c).name, offset := msBaseOffset L r b.2
          slots := t.slots.map fun s => { applyOverride h r s with adjust := msBaseOffset L r b.2 } }

def vtablesBody (self : Nat → List VTable) (r : Nat) : List VTable :=
  if !isPolymorphic h r then []
  else msPrimaryTable m h self r :: (baseOrder h r).filterMap (msSecondaryTable h L self r)

/-- The Microsoft half of `VTables`, primary table first. -/
def vtablesMicrosoft : Nat → List VTable := fix (vtablesBody m h L) []

end

end Vcx.Types
