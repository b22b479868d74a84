import Vcx.Types.Sizes

/-!
# Complete classes

A complete class has complete classes for bases and members of complete object type. That
is all a layout needs to know the size of every member.
-/

namespace Vcx.Types
set_option autoImplicit false
open Vcx.Lib

/-- A complete object type: one that has a size once its class has a layout. -/
def Ty.complete (m : Model) (h : Hierarchy) : Ty → Bool
  | .qualified _ (.qualified _ _) => false
  | .qualified _ t => t.complete m h
  | .basic k => (m.basicSize k).isSome
  | .pointer _ | .blockPointer _ | .lvalueReference _ | .rvalueReference _ => true
  | .memberPointer _ _ => true
  | .enum _ (some k) _ => (m.basicSize k).isSome
  | .enum _ none complete => complete
  | .array elem _ incomplete => !incomplete && elem.complete m h
  | .record r => (h.record r).complete
  | .func .. | .dependent _ => false

/-- One complete class. -/
structure Hierarchy.CompleteAt (m : Model) (h : Hierarchy) (r : Nat) : Prop where
  complete : (h.record r).complete = true
  bases : ∀ b ∈ (h.record r).bases, ∃ c, b.cls = some c
  fields : ∀ f ∈ (h.record r).fields, f.type.complete m h = true

/-- A class that is complete, with everything in it. -/
def Hierarchy.Complete (m : Model) (h : Hierarchy) (r : Nat) : Prop :=
  ∀ c, h.Contains r c → h.CompleteAt m c

/-- `Hierarchy.CompleteAt`, decided. -/
def Hierarchy.completeAt (m : Model) (h : Hierarchy) (r : Nat) : Bool :=
  (h.record r).complete && (h.record r).bases.all (fun b => b.cls.isSome) &&
    (h.record r).fields.all fun f => f.type.complete m h

variable {m : Model} {h : Hierarchy} {L : Layouts} {r c : Nat}

theorem Hierarchy.completeAt_iff : h.completeAt m r = true ↔ h.CompleteAt m r := by
  simp only [Hierarchy.completeAt, Bool.and_eq_true, List.all_eq_true, Option.isSome_iff_exists]
  exact ⟨fun e => ⟨e.1.1, e.1.2, e.2⟩, fun e => ⟨⟨e.complete, e.bases⟩, e.fields⟩⟩

/-- A class whose number is at most `n`, all of them complete, is complete. -/
theorem Hierarchy.complete_of_all (all : ∀ c ≤ r, h.completeAt m c = true) : h.Complete m r :=
  fun c path => Hierarchy.completeAt_iff.1 (all c path.le)

theorem Hierarchy.Complete.at (complete : h.Complete m r) : h.CompleteAt m r := complete r .refl

theorem Hierarchy.Complete.part (complete : h.Complete m r) (e : h.Part r c) : h.Complete m c :=
  fun d path => complete d (.head e path)

theorem Hierarchy.Complete.contains (complete : h.Complete m r) (e : h.Contains r c) : h.Complete m c :=
  fun d path => complete d (e.trans path)

theorem sizeof_isSome {t : Ty} (complete : t.complete m h = true)
    (known : ∀ c, t.recordElem = some c → (L c).isSome = true) : (sizeof m h L t).isSome = true := by
  fun_induction sizeof m h L t with
  | case2 q t plain ih =>
    rw [Ty.complete.eq_2 _ _ _ _ plain] at complete
    exact ih complete fun c hc => known c (by rw [Ty.recordElem.eq_2 _ _ plain]; exact hc)
  | case13 elem len incomplete closed ih =>
    simp only [Ty.complete, Bool.and_eq_true] at complete
    rw [Option.isSome_map]
    exact ih complete.2 fun c hc => known c (by simpa [Ty.recordElem] using hc)
  | case14 r complete =>
    rw [Option.isSome_map]
    exact known r (by simp [Ty.recordElem])
  | _ => simp_all [Ty.complete]

theorem alignof_isSome {t : Ty} (complete : t.complete m h = true)
    (known : ∀ c, t.recordElem = some c → (L c).isSome = true) : (alignof m h L t).isSome = true := by
  have basic : ∀ k, (m.basicSize k).isSome = true → (m.basicAlign k).isSome = true := by
    intro k some
    unfold Model.basicAlign
    split
    · rfl
    · exact some
  fun_induction alignof m h L t with
  | case2 q t plain ih =>
    rw [Ty.complete.eq_2 _ _ _ _ plain] at complete
    exact ih complete fun c hc => known c (by rw [Ty.recordElem.eq_2 _ _ plain]; exact hc)
  | case13 elem len incomplete ih =>
    simp only [Ty.complete, Bool.and_eq_true] at complete
    exact ih complete.2 fun c hc => known c (by simpa [Ty.recordElem] using hc)
  | case14 r complete =>
    rw [Option.isSome_map]
    exact known r (by simp [Ty.recordElem])
  | _ => simp_all [Ty.complete]

/-- A type with a size is of a class with a layout. -/
theorem known_of_sizeof {t : Ty} {n : Nat} (size : sizeof m h L t = some n) (hc : t.recordElem = some c) :
    ∃ info, L c = some info := by
  fun_induction sizeof m h L t generalizing n with
  | case2 q t plain ih =>
    rw [Ty.recordElem.eq_2 _ _ plain] at hc
    exact ih size hc
  | case13 elem len incomplete closed ih =>
    obtain ⟨k, size, -⟩ := Option.map_eq_some_iff.1 size
    exact ih size (by simpa [Ty.recordElem] using hc)
  | case14 r complete =>
    obtain ⟨info, known, -⟩ := Option.map_eq_some_iff.1 size
    simp only [Ty.recordElem, Option.some.injEq] at hc
    exact ⟨info, hc ▸ known⟩
  | _ => simp_all [Ty.recordElem]

end Vcx.Types
