import Vcx.Types.Itanium.Sound
import Vcx.Types.Microsoft.Bounds
import Vcx.Types.Microsoft.Sound

/-!
# Layouts keep their promises

The two ABIs together. A class that asks for an alignment but has nothing in it is where the
promise is broken: its size is made one after it was rounded.
-/

namespace Vcx.Types
set_option autoImplicit false
open Vcx.Lib

variable {m : Model} {h : Hierarchy} {r : Nat} {info : RecordInfo}

/-- `struct alignas(8) E {}; struct B { int x; }; struct R : B { char c; };` -/
def alignedEmpty : Hierarchy := .ofRecords
  [{ name := "E", align := 8 }, { name := "B", fields := [{ name := "x", type := .basic .int }] },
    { name := "R", bases := [{ type := .record 1 }], fields := [{ name := "c", type := .basic .char }] }] (by decide)

theorem alignedEmpty_complete {r : Nat} (le : r ≤ 2) : alignedEmpty.Complete lp64 r :=
  Hierarchy.complete_of_all fun c hc => (by decide : ∀ c ≤ 2, alignedEmpty.completeAt lp64 c = true) c (by omega)

end Vcx.Types
