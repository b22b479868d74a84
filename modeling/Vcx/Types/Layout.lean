import Vcx.Types.Itanium.Local
import Vcx.Types.Microsoft.Layout

/-!
# The layout of a record

`layoutInfo` ties the knot: a record is laid out over the layouts of the records below it,
by the rules of the model's ABI.
-/

namespace Vcx.Types
set_option autoImplicit false
open Vcx.Lib

/-- One record, over the layouts of others. -/
def layoutBody (m : Model) (h : Hierarchy) (L : Layouts) (r : Nat) : Option RecordInfo :=
  if m.abi.isItanium then layoutItanium m h L r else layoutMicrosoft m h L r

/-- `layoutInfo`. -/
def layoutInfo (m : Model) (h : Hierarchy) : Layouts := fix (layoutBody m h) none

variable {m : Model} {h : Hierarchy} {L L' : Layouts} {r : Nat}

theorem layoutMicrosoft_congr (agree : Agree r L L') : layoutMicrosoft m h L r = layoutMicrosoft m h L' r := by
  have bases : thread (placeMsBase h L (hasVPtr h r)) (baseOrder h r) =
      thread (placeMsBase h L' (hasVPtr h r)) (baseOrder h r) := by
    apply thread_congr
    intro b hb
    apply placeMsBase_congr
    intro c hc
    have mem : b ∈ (h.record r).bases.zipIdx := by
      rcases List.mem_append.1 hb with hb | hb
      · exact (List.mem_filter.1 hb).1
      · exact (List.mem_filter.1 hb).1
    exact agree c (h.base_lt r b.1 (List.fst_mem_of_mem_zipIdx mem) c hc)
  have below : ∀ f ∈ (h.record r).fields, ∀ c, f.type.recordElem = some c → L c = L' c :=
    fun f hf c hc => agree c (h.member_lt r f hf c hc)
  have fields : thread (placeMsField m h L (h.record r)) (h.record r).fields =
      thread (placeMsField m h L' (h.record r)) (h.record r).fields :=
    thread_congr fun f hf => placeMsField_congr (below f hf)
  have union : thread (msUnionField m h L (h.record r)) (h.record r).fields =
      thread (msUnionField m h L' (h.record r)) (h.record r).fields :=
    thread_congr fun f hf => msUnionField_congr (below f hf)
  have vbases : ∀ cur align, msVBasesEnd h L r cur align = msVBasesEnd h L' r cur align := by
    intro cur align
    unfold msVBasesEnd
    split
    · rfl
    · apply List.foldl_ext
      intro s v hv
      unfold placeMsVBase
      rw [agree v (mem_virtualBases.1 hv).lt]
  simp only [layoutMicrosoft, bases, fields, union, finishMs, vbases]

/-- **The unfolding equation**: a record is laid out over the finished layouts. -/
theorem layoutInfo_eq (m : Model) (h : Hierarchy) (r : Nat) :
    layoutInfo m h r = layoutBody m h (layoutInfo m h) r := by
  apply fix_unfold
  intro L L' agree
  unfold layoutBody
  split
  · exact layoutItanium_congr agree
  · exact layoutMicrosoft_congr agree

theorem layoutInfo_itanium (abi : m.abi.isItanium = true) (r : Nat) :
    layoutInfo m h r = layoutItanium m h (layoutInfo m h) r := by
  rw [layoutInfo_eq, layoutBody, if_pos abi]

theorem layoutInfo_microsoft (abi : m.abi.isItanium = false) (r : Nat) :
    layoutInfo m h r = layoutMicrosoft m h (layoutInfo m h) r := by
  rw [layoutInfo_eq, layoutBody, if_neg (by simp [abi])]

end Vcx.Types
