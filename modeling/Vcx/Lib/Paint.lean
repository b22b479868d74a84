import Mathlib.Data.Finset.Card
import Mathlib.Data.List.Infix

/-!
# Rewriting painted lists

Lists whose elements carry a set of the rules that may not be used on them. A rule `m` rewrites
the head of a list, or the head and everything up to a closing element, and paints what it puts
there: with `m` and the head's own paint, and in the second case only with the paint that the
head and the closing element share. The paint that is lost so was never on the whole list, which
is what the induction is on.
-/

namespace Vcx.Lib
set_option autoImplicit false

variable {τ ι : Type} (paint : τ → Finset ι)

/-- Every element of `X` carries the paint `B`. -/
def Painted (B : Finset ι) (X : List τ) : Prop := ∀ x ∈ X, B ⊆ paint x

variable {paint}

theorem Painted.mono {B C : Finset ι} {X : List τ} (painted : Painted paint C X) (sub : B ⊆ C) :
    Painted paint B X :=
  fun x mem => sub.trans (painted x mem)

variable [DecidableEq ι] (paint) (rules : Finset ι) (P : List τ → Prop)

/-- `P` holds of a list as soon as it holds of the lists its head can lead to: what stands in
the tail, and the tail, or what is left of it, with painted elements in front. -/
structure PaintClosed : Prop where
  nil : P []
  cons : ∀ t rest,
    (∀ A, A <:+: rest → P A) →
    (∀ m ∈ rules, m ∉ paint t → ∀ X, Painted paint (insert m (paint t)) X → P (X ++ rest)) →
    (∀ before close after, rest = before ++ close :: after → ∀ m ∈ rules, m ∉ paint t →
      ∀ X, Painted paint (insert m (paint t ∩ paint close)) X → P (X ++ after)) →
    P (t :: rest)

/-- What is asked of a list for `P` to hold with elements painted `B` in front of it. -/
structure PaintGood (B : Finset ι) (R : List τ) : Prop where
  part : ∀ A, A <:+: R → P A
  closes : ∀ close after, (close :: after) <:+: R → ∀ m ∈ rules, m ∉ B →
    ∀ X, Painted paint (insert m (B ∩ paint close)) X → P (X ++ after)

variable {paint rules P}

theorem PaintGood.within {B : Finset ι} {R S : List τ} (good : PaintGood paint rules P B R) (sub : S <:+: R) :
    PaintGood paint rules P B S where
  part := fun A inS => good.part A (inS.trans sub)
  closes := fun close after inS => good.closes close after (inS.trans sub)

/-- A part of `L ++ R` is a part of `L` followed by a part of `R`. -/
theorem infix_append_split {A L R : List τ} (part : A <:+: L ++ R) :
    ∃ L' R', A = L' ++ R' ∧ L' <:+: L ∧ R' <:+: R := by
  obtain ⟨p, q, eq⟩ := part
  rw [List.append_assoc] at eq
  rcases List.append_eq_append_iff.1 eq with ⟨mid, rfl, eq'⟩ | ⟨mid, rfl, rfl⟩
  · rcases List.append_eq_append_iff.1 eq' with ⟨mid', rfl, rfl⟩ | ⟨mid', rfl, rfl⟩
    · exact ⟨A, [], by simp, ⟨p, mid', by simp⟩, List.nil_infix⟩
    · exact ⟨mid, mid', rfl, ⟨p, [], by simp⟩, ⟨[], q, by simp⟩⟩
  · exact ⟨[], A, rfl, List.nil_infix, ⟨mid, q, by simp⟩⟩

/-- A closing element of `L ++ R` stands in `L`, before a part of `R`, or in `R`. -/
theorem infix_append_cons {L R after : List τ} {close : τ} (part : (close :: after) <:+: L ++ R) :
    (∃ L' R', after = L' ++ R' ∧ (close :: L') <:+: L ∧ R' <:+: R) ∨ (close :: after) <:+: R := by
  obtain ⟨L', R', eq, left, right⟩ := infix_append_split part
  cases L' with
  | nil =>
    rw [List.nil_append] at eq
    exact .inr (eq ▸ right)
  | cons c L' =>
    rw [List.cons_append, List.cons.injEq] at eq
    obtain ⟨rfl, rfl⟩ := eq
    exact .inl ⟨L', R', rfl, left, right⟩

section
variable {B : Finset ι}

/-- `P` of `L ++ R`, and of it with further painted elements in front. -/
private structure PaintStep (B : Finset ι) (P : List τ → Prop) (paint : τ → Finset ι) (rules : Finset ι)
    (L R : List τ) : Prop where
  here : P (L ++ R)
  front : ∀ m ∈ rules, m ∉ B → ∀ X, Painted paint (insert m B) X → P (X ++ (L ++ R))

/-- With more paint in front, all that is asked of `L ++ R` follows from shorter `L`. -/
private theorem good_append {L R : List τ} (good : PaintGood paint rules P B R) (painted : Painted paint B L)
    (here : ∀ L' R', L' <:+: L → PaintGood paint rules P B R' → P (L' ++ R'))
    (shorter : ∀ L' R', L'.length < L.length → L' <:+: L → PaintGood paint rules P B R' →
      PaintStep B P paint rules L' R')
    (m : ι) : PaintGood paint rules P (insert m B) (L ++ R) where
  part := by
    intro A part
    obtain ⟨L', R', rfl, left, right⟩ := infix_append_split part
    exact here L' R' left (good.within right)
  closes := by
    intro close after part m' rule fresh X painted'
    have fresh' : m' ∉ B := fun mem => fresh (Finset.mem_insert_of_mem mem)
    rcases infix_append_cons part with ⟨L', R', rfl, left, right⟩ | right
    · -- the closing element is in `L`, and so carries `B`
      have closeB : B ⊆ paint close := painted close (left.subset List.mem_cons_self)
      have short : L'.length < L.length := by
        have := left.length_le
        rwa [List.length_cons] at this
      refine (shorter L' R' short ((List.infix_cons_iff.2 (.inr List.infix_rfl)).trans left) (good.within right)).front
        m' rule fresh' X (painted'.mono ?_)
      exact Finset.insert_subset_insert m' (Finset.subset_inter (Finset.subset_insert m B) closeB)
    · refine good.closes close after right m' rule fresh' X (painted'.mono ?_)
      exact Finset.insert_subset_insert m' (Finset.inter_subset_inter (Finset.subset_insert m B) subset_rfl)

/-- The induction on the length of the painted part. -/
private theorem paintStep_of (closed : PaintClosed paint rules P)
    (more : ∀ m ∈ rules, m ∉ B → ∀ X R, Painted paint (insert m B) X → PaintGood paint rules P (insert m B) R →
      P (X ++ R)) :
    ∀ n, ∀ L : List τ, L.length ≤ n → Painted paint B L → ∀ R, PaintGood paint rules P B R →
      PaintStep B P paint rules L R := by
  intro n
  induction n with
  | zero =>
    intro L len painted R good
    obtain rfl : L = [] := List.eq_nil_of_length_eq_zero (by omega)
    refine ⟨good.part R List.infix_rfl, fun m rule fresh X painted' => ?_⟩
    refine more m rule fresh X ([] ++ R) painted' (good_append good painted ?_ ?_ m)
    · intro L' R' left good'
      obtain rfl := List.infix_nil.1 left
      exact good'.part R' List.infix_rfl
    · intro L' R' short
      simp at short
  | succ n ih =>
    intro L len painted R good
    have shorter : ∀ L' R', L'.length < L.length → L' <:+: L → PaintGood paint rules P B R' →
        PaintStep B P paint rules L' R' :=
      fun L' R' short left good' => ih L' (by omega) (fun x mem => painted x (left.subset mem)) R' good'
    have whole : ∀ R', PaintGood paint rules P B R' → P (L ++ R') := by
      intro R' good'
      cases L with
      | nil => exact good'.part R' List.infix_rfl
      | cons t rest =>
        have headB : B ⊆ paint t := painted t List.mem_cons_self
        have tail : ∀ L', L' <:+: rest → L'.length < (t :: rest).length ∧ L' <:+: t :: rest :=
          fun L' left => ⟨by have := left.length_le; simp; omega, List.infix_cons_iff.2 (.inr left)⟩
        refine closed.cons t (rest ++ R') ?_ ?_ ?_
        · intro A part
          obtain ⟨L', R'', rfl, left, right⟩ := infix_append_split part
          exact (shorter L' R'' (tail L' left).1 (tail L' left).2 (good'.within right)).here
        · intro m rule fresh X painted'
          refine (shorter rest R' (tail rest List.infix_rfl).1 (tail rest List.infix_rfl).2 good').front
            m rule (fun mem => fresh (headB mem)) X (painted'.mono ?_)
          exact Finset.insert_subset_insert m headB
        · intro before close after eq m rule fresh X painted'
          have part : (close :: after) <:+: rest ++ R' := ⟨before, [], by simp [eq]⟩
          have fresh' : m ∉ B := fun mem => fresh (headB mem)
          rcases infix_append_cons part with ⟨L', R'', rfl, left, right⟩ | right
          · have closeB : B ⊆ paint close :=
              painted close (List.mem_cons_of_mem t (left.subset List.mem_cons_self))
            have inner : L' <:+: rest := (List.infix_cons_iff.2 (.inr List.infix_rfl)).trans left
            refine (shorter L' R'' (tail L' inner).1 (tail L' inner).2 (good'.within right)).front
              m rule fresh' X (painted'.mono ?_)
            exact Finset.insert_subset_insert m (Finset.subset_inter headB closeB)
          · refine good'.closes close after right m rule fresh' X (painted'.mono ?_)
            exact Finset.insert_subset_insert m (Finset.inter_subset_inter headB subset_rfl)
    refine ⟨whole R good, fun m rule fresh X painted' => ?_⟩
    refine more m rule fresh X (L ++ R) painted' (good_append good painted ?_ shorter m)
    intro L' R' left good'
    rcases Nat.lt_or_ge L'.length L.length with short | long
    · exact (shorter L' R' short left good').here
    · obtain rfl := left.eq_of_length_le long
      exact whole R' good'

end

/-- With a painted list in front of a good one, by induction on the rules not in the paint. -/
theorem PaintClosed.append (closed : PaintClosed paint rules P) (n : Nat) :
    ∀ B : Finset ι, (rules \ B).card ≤ n → ∀ L R, Painted paint B L → PaintGood paint rules P B R → P (L ++ R) := by
  induction n with
  | zero =>
    intro B card L R painted good
    have empty : rules \ B = ∅ := Finset.card_eq_zero.1 (by omega)
    refine (paintStep_of closed (fun m rule fresh => ?_) L.length L le_rfl painted R good).here
    exact absurd (Finset.mem_sdiff.2 ⟨rule, fresh⟩) (by simp [empty])
  | succ n ih =>
    intro B card L R painted good
    refine (paintStep_of closed (fun m rule fresh X R' painted' good' => ?_) L.length L le_rfl painted R good).here
    refine ih (insert m B) ?_ X R' painted' good'
    have less : rules \ insert m B ⊂ rules \ B := by
      refine Finset.ssubset_iff_of_subset (Finset.sdiff_subset_sdiff subset_rfl (Finset.subset_insert m B)) |>.2 ?_
      exact ⟨m, Finset.mem_sdiff.2 ⟨rule, fresh⟩, by simp⟩
    have := Finset.card_lt_card less
    omega

/-- **Painting terminates**: a property that the lists a head leads to hand on to the list holds
of every list. -/
theorem PaintClosed.all (closed : PaintClosed paint rules P) (s : List τ) : P s := by
  have done := closed.append (rules \ ∅).card ∅ le_rfl s [] (fun x _ => Finset.empty_subset _) ⟨?_, ?_⟩
  · rwa [List.append_nil] at done
  · intro A part
    obtain rfl := List.infix_nil.1 part
    exact closed.nil
  · intro close after part
    exact absurd (List.infix_nil.1 part) (List.cons_ne_nil _ _)

end Vcx.Lib
