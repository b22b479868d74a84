import Mathlib.Data.List.Nodup
import Vcx.Types.Dynamic

/-!
# Bases under Microsoft's ABI

The questions about bases that Microsoft's layout asks: `isEmptyRecord`, `baseOrder`,
`VirtualBases` and `hasOwnVBPtr`.
-/

namespace Vcx.Types
set_option autoImplicit false
open Vcx.Lib

section

variable (h : Hierarchy)

/-- The loop of `isEmptyRecord` over the bases; a class met twice is not empty. -/
def emptyRecordBases (self : Nat → List Nat → Bool × List Nat) : List BaseSpec → List Nat → Bool × List Nat
  | [], visited => (true, visited)
  | b :: bs, visited => match b.cls with
    | none => (false, visited)
    | some c => match self c visited with
      | (false, visited) => (false, visited)
      | (true, visited) => emptyRecordBases self bs visited

def emptyRecordBody (self : Nat → List Nat → Bool × List Nat) (r : Nat) (visited : List Nat) : Bool × List Nat :=
  if r ∈ visited then (false, visited)
  else if !(h.record r).fields.isEmpty then (false, r :: visited)
  else if (h.record r).methods.any (·.virtual) then (false, r :: visited)
  else emptyRecordBases self (h.record r).bases (r :: visited)

/-- `isEmptyRecord`: no members, no virtual functions, empty bases. -/
def isEmptyRecord (r : Nat) : Bool :=
  (fix (emptyRecordBody h) (fun visited => (false, visited)) r []).1

/-- A non-virtual polymorphic base: these are laid out first. -/
def leads (b : BaseSpec) : Bool := b.plain.any (isPolymorphic h)

/-- `baseOrder`: the order the bases are laid out in. -/
def baseOrder (r : Nat) : List (BaseSpec × Nat) :=
  (h.record r).bases.zipIdx.filter (fun b => leads h b.1) ++ (h.record r).bases.zipIdx.filter (fun b => !leads h b.1)

/-- The loop of `VirtualBases` over one class's bases: a base after its own bases. -/
def virtualBasesWalk (self : Nat → List Nat × List Nat → List Nat × List Nat) :
    List BaseSpec → List Nat × List Nat → List Nat × List Nat
  | [], st => st
  | b :: bs, st => match b.cls with
    | none => virtualBasesWalk self bs st
    | some c =>
      let (visiting, out) := self c st
      virtualBasesWalk self bs (visiting, if b.virtual && !out.contains c then out ++ [c] else out)

/-- One class of `VirtualBases`: the state is what is visited and what is listed. -/
def virtualBasesBody (self : Nat → List Nat × List Nat → List Nat × List Nat) (cur : Nat)
    (st : List Nat × List Nat) : List Nat × List Nat :=
  if cur ∈ st.1 then st else virtualBasesWalk self (h.record cur).bases (cur :: st.1, st.2)

/-- `VirtualBases`: every virtual base, depth first, left to right. -/
def virtualBases (r : Nat) : List Nat :=
  (fix (virtualBasesBody h) (fun st => st) r ([], [])).2

/-- Whether a class introduces a vbptr that no base brings. -/
def hasOwnVBPtr (r : Nat) : Bool :=
  !(virtualBases h r).isEmpty &&
    (h.record r).bases.all fun b => b.virtual || b.cls.all fun c => (virtualBases h c).isEmpty

/-- Whether a class introduces a vfptr: it has a virtual function and no polymorphic base. -/
def hasVPtr (r : Nat) : Bool :=
  (h.record r).methods.any (·.virtual) && (h.record r).bases.all fun b => b.cls.all fun c => !isPolymorphic h c

end

variable {h : Hierarchy}

/-- What a walk did: classes were visited with all their bases, and the virtual ones listed. -/
structure Listed (h : Hierarchy) (c : Nat) (st st' : List Nat × List Nat) : Prop where
  visited : st.1 ⊆ st'.1
  out : st.2 ⊆ st'.2
  closed : ∀ d ∈ st'.1, d ∉ st.1 → ∀ b ∈ (h.record d).bases, ∀ e, b.cls = some e →
    e ∈ st'.1 ∧ (b.virtual = true → e ∈ st'.2)
  new : ∀ v ∈ st'.2, v ∈ st.2 ∨ h.VBase c v
  nodup : st.2.Nodup → st'.2.Nodup

/-- What the loop over the bases of `c` did. -/
structure ListedBases (h : Hierarchy) (c : Nat) (bs : List BaseSpec) (st st' : List Nat × List Nat) : Prop
    extends Listed h c st st' where
  bases : ∀ b ∈ bs, ∀ e, b.cls = some e → e ∈ st'.1 ∧ (b.virtual = true → e ∈ st'.2)

theorem Listed.trans {c : Nat} {a b d : List Nat × List Nat} (ab : Listed h c a b) (bd : Listed h c b d) :
    Listed h c a d where
  visited := fun _ hx => bd.visited (ab.visited hx)
  out := fun _ hx => bd.out (ab.out hx)
  closed := by
    intro x hx fresh b' hb' e he
    by_cases mid : x ∈ b.1
    · obtain ⟨seen, listed⟩ := ab.closed x mid fresh b' hb' e he
      exact ⟨bd.visited seen, fun virt => bd.out (listed virt)⟩
    · exact bd.closed x hx mid b' hb' e he
  new := by
    intro v hv
    rcases bd.new v hv with old | here
    · exact ab.new v old
    · exact .inr here
  nodup := fun nodup => bd.nodup (ab.nodup nodup)

/-- A walk of a base counts as part of the walk of the class. -/
theorem Listed.of_base {c e : Nat} {a b : List Nat × List Nat} (step : h.Base c e) (w : Listed h e a b) :
    Listed h c a b where
  visited := w.visited
  out := w.out
  closed := w.closed
  new := by
    intro v hv
    rcases w.new v hv with old | ⟨d, path, below⟩
    · exact .inl old
    · exact .inr ⟨d, .head step path, below⟩
  nodup := w.nodup

theorem Listed.refl (c : Nat) (st : List Nat × List Nat) : Listed h c st st where
  visited := fun _ hx => hx
  out := fun _ hx => hx
  closed := fun _ hx fresh => absurd hx fresh
  new := fun _ hv => .inl hv
  nodup := fun nodup => nodup

theorem Listed.add {c e : Nat} {b : BaseSpec} (hb : b ∈ (h.record c).bases) (he : b.cls = some e)
    (st : List Nat × List Nat) :
    Listed h c st (st.1, if b.virtual && !st.2.contains e then st.2 ++ [e] else st.2) := by
  by_cases add : (b.virtual && !st.2.contains e) = true
  · rw [if_pos add]
    simp only [Bool.and_eq_true, Bool.not_eq_true', List.contains_eq_mem, decide_eq_false_iff_not] at add
    refine ⟨fun _ hx => hx, fun _ hx => List.mem_append_left _ hx, fun _ hx fresh => absurd hx fresh, ?_, ?_⟩
    · intro v hv
      rcases List.mem_append.1 hv with old | here
      · exact .inl old
      · obtain rfl := List.mem_singleton.1 here
        exact .inr ⟨c, .refl, b, hb, add.1, he⟩
    · intro nodup
      exact List.Nodup.append nodup (List.nodup_singleton e) (by simpa using add.2)
  · rw [if_neg add]
    exact Listed.refl c st

theorem virtualBasesWalk_listed {c : Nat} {self : Nat → List Nat × List Nat → List Nat × List Nat} {bs : List BaseSpec}
    (sub : ∀ b ∈ bs, b ∈ (h.record c).bases)
    (spec : ∀ b ∈ bs, ∀ e, b.cls = some e → ∀ st, Listed h e st (self e st) ∧ e ∈ (self e st).1)
    (st : List Nat × List Nat) : ListedBases h c bs st (virtualBasesWalk self bs st) := by
  induction bs generalizing st with
  | nil => exact { Listed.refl c st with bases := by simp }
  | cons b bs ih =>
    have sub' := fun b' hb' => sub b' (List.mem_cons_of_mem b hb')
    have spec' := fun b' hb' => spec b' (List.mem_cons_of_mem b hb')
    have mem := sub b List.mem_cons_self
    cases he : b.cls with
    | none =>
      have rest := ih sub' spec' st
      simp only [virtualBasesWalk, he]
      refine { rest.toListed with bases := ?_ }
      intro b' hb' e' he'
      rcases List.mem_cons.1 hb' with rfl | hb'
      · rw [he] at he'
        cases he'
      · exact rest.bases b' hb' e' he'
    | some e =>
      obtain ⟨walked, seen⟩ := spec b List.mem_cons_self e he st
      have first := (walked.of_base ⟨b, mem, he⟩).trans (Listed.add mem he (self e st))
      have rest := ih sub' spec' ((self e st).1,
        if b.virtual && !(self e st).2.contains e then (self e st).2 ++ [e] else (self e st).2)
      simp only [virtualBasesWalk, he]
      refine { first.trans rest.toListed with bases := ?_ }
      intro b' hb' e' he'
      rcases List.mem_cons.1 hb' with rfl | hb'
      · rw [he] at he'
        cases he'
        refine ⟨rest.visited seen, ?_⟩
        intro virt
        apply rest.out
        by_cases old : e ∈ (self e st).2
        · simp [virt, old]
        · simp [virt, old]
      · exact rest.bases b' hb' e' he'

theorem virtualBases_listed (c : Nat) (st : List Nat × List Nat) :
    Listed h c st (fix (virtualBasesBody h) (fun st => st) c st) ∧
      c ∈ (fix (virtualBasesBody h) (fun st => st) c st).1 := by
  induction c using Nat.strongRecOn generalizing st with
  | ind c ih =>
    rw [fix_eq, virtualBasesBody]
    split
    · rename_i seen
      exact ⟨Listed.refl c st, seen⟩
    · rename_i fresh
      have spec : ∀ b ∈ (h.record c).bases, ∀ e, b.cls = some e → ∀ st,
          Listed h e st (below (fix (virtualBasesBody h) fun st => st) (fun st => st) c e st) ∧
            e ∈ (below (fix (virtualBasesBody h) fun st => st) (fun st => st) c e st).1 := by
        intro b hb e he st
        have lt := h.base_lt c b hb e he
        rw [below_lt lt]
        exact ih e lt st
      have walked := virtualBasesWalk_listed (fun b hb => hb) spec (c :: st.1, st.2)
      refine ⟨⟨fun x hx => walked.visited (List.mem_cons_of_mem c hx), walked.out, ?_, walked.new, walked.nodup⟩,
        walked.visited List.mem_cons_self⟩
      intro d hd out
      by_cases eq : d = c
      · subst eq
        exact walked.bases
      · exact walked.closed d hd (by simp [eq, out])

theorem mem_virtualBases {r v : Nat} : v ∈ virtualBases h r ↔ h.VBase r v := by
  obtain ⟨walked, start⟩ := virtualBases_listed (h := h) r ([], [])
  constructor
  · intro hv
    simpa using walked.new v hv
  · rintro ⟨d, path, b, hb, virt, hv⟩
    have visited : ∀ e, h.Derives r e → e ∈ (fix (virtualBasesBody h) (fun st => st) r ([], [])).1 := by
      intro e path
      induction path with
      | refl => exact start
      | tail _ step ih =>
        obtain ⟨b, hb, he⟩ := step
        exact (walked.closed _ ih (by simp) b hb _ he).1
    exact (walked.closed d (visited d path) (by simp) b hb v hv).2 virt

theorem virtualBases_nodup (r : Nat) : (virtualBases h r).Nodup :=
  (virtualBases_listed r ([], [])).1.nodup List.nodup_nil

end Vcx.Types
