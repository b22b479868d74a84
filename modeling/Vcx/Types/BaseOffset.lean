import Vcx.Types.Itanium.VBases
import Vcx.Types.Layout

/-!
# Where base subobjects are

`BaseOffset` searches a class for a base through non-virtual derivation, depth first. A base subobject has
a name: the virtual base it is within, if any, and the steps down from there; the search finds the offset
of one without a virtual base, and none where there is no such subobject.
-/

namespace Vcx.Types
set_option autoImplicit false
open Vcx.Lib

def baseOffsetBody (h : Hierarchy) (L : Layouts) (base : Nat) (self : Nat → Option Nat) (r : Nat) : Option Nat :=
  if r = base then some 0
  else (h.record r).bases.zipIdx.findSome? fun p => p.1.plain.bind fun c => (self c).map (baseOffset L r p.2 + ·)

/-- `BaseOffset` -/
def baseOffsetOf (m : Model) (h : Hierarchy) (r base : Nat) : Option Nat :=
  fix (baseOffsetBody h (layoutInfo m h) base) none r

/-! ### Steps to a base -/

/-- The class the steps lead to, each to a non-virtual base. -/
def walk (h : Hierarchy) : Nat → List Nat → Option Nat
  | c, [] => some c
  | c, i :: steps => ((h.record c).bases[i]?.bind BaseSpec.plain).bind fun d => walk h d steps

/-- The offset they lead to. -/
def walkOffset (h : Hierarchy) (L : Layouts) : Nat → List Nat → Nat
  | _, [] => 0
  | c, i :: steps =>
    match (h.record c).bases[i]?.bind BaseSpec.plain with
    | none => 0
    | some d => baseOffset L c i + walkOffset h L d steps

/-- The name of a subobject: the virtual base it is within, and the steps from there. -/
structure BaseName where
  root : Option Nat
  steps : List Nat
  deriving DecidableEq, Repr

/-- The name is that of a subobject of class `c` in one of class `r`. -/
def BaseName.Names (h : Hierarchy) (r : Nat) (n : BaseName) (c : Nat) : Prop :=
  match n.root with
  | none => walk h r n.steps = some c
  | some v => h.VBase r v ∧ walk h v n.steps = some c

/-- `c` is an unambiguous base of `d`, or `d` itself: it has one subobject, of this name. -/
structure Unambiguous (h : Hierarchy) (d c : Nat) (n : BaseName) : Prop where
  names : n.Names h d c
  only : ∀ n', n'.Names h d c → n' = n

/-- The subobject's offset in an object that has its virtual bases at `vbase`. -/
def BaseName.offset (h : Hierarchy) (L : Layouts) (vbase : Nat → Nat) (r : Nat) (n : BaseName) : Nat :=
  match n.root with
  | none => walkOffset h L r n.steps
  | some v => vbase v + walkOffset h L v n.steps

/-- The name in the whole object of what is named in a subobject. -/
def BaseName.within (inner outer : BaseName) : BaseName :=
  match inner.root with
  | none => ⟨outer.root, outer.steps ++ inner.steps⟩
  | some v => ⟨some v, inner.steps⟩

variable {m : Model} {h : Hierarchy} {L : Layouts} {r c d base : Nat} {steps : List Nat}

theorem walk_cons {i : Nat} : walk h c (i :: steps) = some d ↔
    ∃ b e, (h.record c).bases[i]? = some b ∧ b.plain = some e ∧ walk h e steps = some d := by
  simp only [walk, Option.bind_eq_some_iff]
  constructor
  · rintro ⟨e, ⟨b, here, plain⟩, rest⟩
    exact ⟨b, e, here, plain, rest⟩
  · rintro ⟨b, e, here, plain, rest⟩
    exact ⟨e, ⟨b, here, plain⟩, rest⟩

theorem walkOffset_cons {i e : Nat} {b : BaseSpec} (here : (h.record c).bases[i]? = some b) (plain : b.plain = some e) :
    walkOffset h L c (i :: steps) = baseOffset L c i + walkOffset h L e steps := by
  rw [walkOffset, here, Option.bind_some, plain]

theorem walk_derives (path : walk h c steps = some d) : h.Derives c d := by
  induction steps generalizing c with
  | nil =>
    cases path
    exact .refl
  | cons i steps ih =>
    obtain ⟨b, e, here, plain, rest⟩ := walk_cons.1 path
    exact .head ⟨b, List.mem_of_getElem? here, (BaseSpec.plain_eq_some.1 plain).2⟩ (ih rest)

theorem walk_append {more : List Nat} {e : Nat} (path : walk h c steps = some d) (rest : walk h d more = some e) :
    walk h c (steps ++ more) = some e ∧ walkOffset h L c (steps ++ more) = walkOffset h L c steps + walkOffset h L d more := by
  induction steps generalizing c with
  | nil =>
    cases path
    exact ⟨rest, by rw [walkOffset, Nat.zero_add, List.nil_append]⟩
  | cons i steps ih =>
    obtain ⟨b, f, here, plain, inner⟩ := walk_cons.1 path
    obtain ⟨joined, offset⟩ := ih inner
    refine ⟨walk_cons.2 ⟨b, f, here, plain, joined⟩, ?_⟩
    rw [List.cons_append, walkOffset_cons here plain, walkOffset_cons here plain, offset, Nat.add_assoc]

theorem BaseName.Names.derives {n : BaseName} (names : n.Names h r c) : h.Derives r c := by
  unfold BaseName.Names at names
  split at names
  · exact walk_derives names
  · obtain ⟨⟨e, path, b, here, -, cls⟩, rest⟩ := names
    exact (path.tail ⟨b, here, cls⟩).trans (walk_derives rest)

/-- A subobject of a subobject is one of the whole object. -/
theorem BaseName.Names.within {inner outer : BaseName} (names : inner.Names h d c) (whole : outer.Names h r d) :
    (inner.within outer).Names h r c := by
  have path := whole.derives
  unfold BaseName.within BaseName.Names at *
  cases root : inner.root with
  | none =>
    rw [root] at names
    cases top : outer.root with
    | none =>
      rw [top] at whole
      exact (walk_append (L := fun _ => none) whole names).1
    | some v =>
      rw [top] at whole
      exact ⟨whole.1, (walk_append (L := fun _ => none) whole.2 names).1⟩
  | some v =>
    rw [root] at names
    obtain ⟨⟨e, inner, b, here, virtual, cls⟩, rest⟩ := names
    exact ⟨⟨e, path.trans inner, b, here, virtual, cls⟩, rest⟩

/-- Without a virtual base in between it is at the sum of the offsets. -/
theorem BaseName.offset_within {outer : BaseName} {e : Nat} (vbase : Nat → Nat) (path : walk h d steps = some e)
    (whole : outer.Names h r d) :
    ((BaseName.mk none steps).within outer).offset h L vbase r = outer.offset h L vbase r + walkOffset h L d steps := by
  unfold BaseName.within BaseName.offset BaseName.Names at *
  cases top : outer.root with
  | none =>
    rw [top] at whole
    exact (walk_append whole path).2
  | some v =>
    rw [top] at whole
    simp only [(walk_append whole.2 path).2, Nat.add_assoc]

/-! ### The search -/

theorem findSome?_congr_mem {α β : Type} {l : List α} {f g : α → Option β} (same : ∀ a ∈ l, f a = g a) :
    l.findSome? f = l.findSome? g := by
  induction l with
  | nil => rfl
  | cons a l ih =>
    rw [List.findSome?_cons, List.findSome?_cons, same a List.mem_cons_self, ih fun b mem => same b (List.mem_cons_of_mem a mem)]

theorem baseOffsetOf_eq (m : Model) (h : Hierarchy) (r base : Nat) : baseOffsetOf m h r base =
    baseOffsetBody h (layoutInfo m h) base (baseOffsetOf m h · base) r := by
  apply fix_unfold
  intro f g agree
  unfold baseOffsetBody
  split
  · rfl
  · apply findSome?_congr_mem
    intro p mem
    cases plain : p.1.plain with
    | none => rfl
    | some c =>
      have here := List.fst_mem_of_mem_zipIdx mem
      rw [Option.bind_some, Option.bind_some, agree c (h.base_lt r p.1 here c (BaseSpec.plain_eq_some.1 plain).2)]

theorem baseOffsetOf_some {off : Nat} (found : baseOffsetOf m h r base = some off) :
    ∃ steps, walk h r steps = some base ∧ walkOffset h (layoutInfo m h) r steps = off := by
  induction r using Nat.strongRecOn generalizing off with
  | ind r ih =>
    rw [baseOffsetOf_eq, baseOffsetBody] at found
    split at found
    · rename_i eq
      cases found
      exact ⟨[], congrArg some eq, rfl⟩
    · obtain ⟨⟨b, i⟩, mem, value⟩ := List.exists_of_findSome?_eq_some found
      obtain ⟨c, plain, value⟩ := Option.bind_eq_some_iff.1 value
      obtain ⟨inner, below, rfl⟩ := Option.map_eq_some_iff.1 value
      have here := List.mem_zipIdx_iff_getElem?.1 mem
      have lt := h.base_lt r b (List.mem_of_getElem? here) c (BaseSpec.plain_eq_some.1 plain).2
      obtain ⟨steps, path, offset⟩ := ih c lt below
      exact ⟨i :: steps, walk_cons.2 ⟨b, c, here, plain, path⟩, by rw [walkOffset_cons here plain, offset]⟩

theorem baseOffsetOf_none (missed : baseOffsetOf m h r base = none) (steps : List Nat) : walk h r steps ≠ some base := by
  induction steps generalizing r with
  | nil =>
    intro path
    rw [baseOffsetOf_eq, baseOffsetBody, if_pos (Option.some.inj path)] at missed
    cases missed
  | cons i steps ih =>
    intro path
    obtain ⟨b, c, here, plain, rest⟩ := walk_cons.1 path
    rw [baseOffsetOf_eq, baseOffsetBody] at missed
    split at missed
    · cases missed
    · have all := List.findSome?_eq_none_iff.1 missed (b, i) (List.mem_zipIdx_iff_getElem?.2 here)
      simp only [plain, Option.bind_some, Option.map_eq_none_iff] at all
      exact ih all rest

/-- The search finds the one subobject that is in no virtual base. -/
theorem baseOffsetOf_unambiguous (only : Unambiguous h r base ⟨none, steps⟩) :
    baseOffsetOf m h r base = some (walkOffset h (layoutInfo m h) r steps) := by
  cases found : baseOffsetOf m h r base with
  | none => exact absurd only.names (baseOffsetOf_none found steps)
  | some off =>
    obtain ⟨others, path, offset⟩ := baseOffsetOf_some found
    have same := only.only ⟨none, others⟩ path
    cases same
    rw [offset]

theorem baseOffsetOf_virtual {v : Nat} (only : Unambiguous h r base ⟨some v, steps⟩) : baseOffsetOf m h r base = none := by
  cases found : baseOffsetOf m h r base with
  | none => rfl
  | some off =>
    obtain ⟨others, path, -⟩ := baseOffsetOf_some found
    cases only.only ⟨none, others⟩ path

theorem baseOffsetOf_upward (derives : h.Derives r base) (ne : r ≠ base) : baseOffsetOf m h base r = none := by
  cases found : baseOffsetOf m h base r with
  | none => rfl
  | some off =>
    obtain ⟨others, path, -⟩ := baseOffsetOf_some found
    exact absurd (Nat.le_antisymm (walk_derives path).le derives.le) ne

end Vcx.Types
