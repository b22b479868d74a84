import Mathlib.Data.List.Nodup

/-!
# Sorting by a key, and sweeping over intervals

`sortBy` is insertion sort as a program with an array does it: each element moves down past
those of a larger key, so elements of one key keep their order. `sweep` goes over a list of
intervals and keeps those that start where the last one kept has stopped. What it keeps is
the only choice of intervals that are apart and before which every other one is hidden
(`mem_sweep_iff`).
-/

namespace Vcx.Lib
set_option autoImplicit false

variable {α β : Type}

/-! ### Sorting -/

section

variable (key : α → Nat)

/-- An element moved into a list that is sorted from the largest key down. -/
def sink (a : α) : List α → List α
  | [] => [a]
  | b :: l => if key a < key b then b :: sink a l else a :: b :: l

def sortBy (l : List α) : List α := (l.foldl (fun sorted a => sink key a sorted) []).reverse

end

variable {key : α → Nat}

theorem sink_perm (a : α) (l : List α) : (sink key a l).Perm (a :: l) := by
  induction l with
  | nil => exact .refl _
  | cons b l ih =>
    unfold sink
    split
    · exact (ih.cons b).trans (.swap a b l)
    · exact .refl _

theorem foldl_sink_perm (l sorted : List α) : (l.foldl (fun sorted a => sink key a sorted) sorted).Perm (l ++ sorted) := by
  induction l generalizing sorted with
  | nil => exact .refl _
  | cons a l ih => exact (ih _).trans (((sink_perm a sorted).append_left l).trans List.perm_middle)

theorem sortBy_perm (l : List α) : (sortBy key l).Perm l := by
  have perm : (l.foldl (fun sorted a => sink key a sorted) []).Perm (l ++ []) := foldl_sink_perm l []
  rw [List.append_nil] at perm
  exact (List.reverse_perm _).trans perm

theorem sink_map (f : β → α) (b : β) (l : List β) : sink key (f b) (l.map f) = (sink (key ∘ f) b l).map f := by
  induction l with
  | nil => rfl
  | cons c l ih =>
    simp only [List.map_cons, sink, Function.comp_apply]
    split
    · rw [ih, List.map_cons]
    · rfl

theorem sortBy_map (f : β → α) (l : List β) : sortBy key (l.map f) = (sortBy (key ∘ f) l).map f := by
  have fold : ∀ sorted : List β, (l.map f).foldl (fun sorted a => sink key a sorted) (sorted.map f) =
      (l.foldl (fun sorted a => sink (key ∘ f) a sorted) sorted).map f := by
    induction l with
    | nil => exact fun _ => rfl
    | cons b l ih =>
      intro sorted
      rw [List.map_cons, List.foldl_cons, List.foldl_cons, sink_map, ih]
  rw [sortBy, sortBy, List.map_reverse]
  exact congrArg List.reverse (fold [])

variable (key) in
/-- What comes first of two elements with their places: the smaller key, or the smaller place. -/
def Comes (a b : α × Nat) : Prop := key a.1 < key b.1 ∨ key a.1 = key b.1 ∧ a.2 < b.2

theorem sink_sorted {a : α × Nat} {sorted : List (α × Nat)} (last : ∀ b ∈ sorted, b.2 < a.2)
    (order : sorted.Pairwise fun b c => Comes key c b) :
    (sink (key ∘ Prod.fst) a sorted).Pairwise fun b c => Comes key c b := by
  induction sorted with
  | nil => exact List.pairwise_singleton _ _
  | cons b sorted ih =>
    obtain ⟨first, order⟩ := List.pairwise_cons.1 order
    unfold sink
    split
    · rename_i less
      refine List.pairwise_cons.2 ⟨fun c mem => ?_, ih (fun c mem => last c (List.mem_cons_of_mem b mem)) order⟩
      rcases List.mem_cons.1 ((sink_perm a sorted).mem_iff.1 mem) with rfl | mem
      · exact .inl less
      · exact first c mem
    · rename_i less
      have here : Comes key b a := by
        rcases Nat.lt_or_ge (key b.1) (key a.1) with lt | ge
        · exact .inl lt
        · exact .inr ⟨Nat.le_antisymm (Nat.le_of_not_lt less) ge, last b List.mem_cons_self⟩
      refine List.pairwise_cons.2 ⟨fun c mem => ?_, List.pairwise_cons.2 ⟨first, order⟩⟩
      rcases List.mem_cons.1 mem with rfl | mem
      · exact here
      · unfold Comes at here ⊢
        have := first c mem
        unfold Comes at this
        omega

/-- Sorting with the places keeps the places in order. -/
theorem sortBy_zipIdx (l : List α) : (sortBy (key ∘ Prod.fst) l.zipIdx).Pairwise (Comes key) := by
  have fold : ∀ (l sorted : List (α × Nat)), (l.Pairwise fun a b => a.2 < b.2) → (∀ b ∈ sorted, ∀ a ∈ l, b.2 < a.2) →
      (sorted.Pairwise fun b c => Comes key c b) →
      (l.foldl (fun sorted a => sink (key ∘ Prod.fst) a sorted) sorted).Pairwise fun b c => Comes key c b := by
    intro l
    induction l with
    | nil => exact fun _ _ _ order => order
    | cons a l ih =>
      intro sorted places last order
      obtain ⟨first, places⟩ := List.pairwise_cons.1 places
      refine ih _ places (fun b mem c more => ?_) (sink_sorted (fun b mem => last b mem a List.mem_cons_self) order)
      rcases List.mem_cons.1 ((sink_perm a sorted).mem_iff.1 mem) with rfl | mem
      · exact first c more
      · exact last b mem c (List.mem_cons_of_mem a more)
  rw [sortBy, List.pairwise_reverse]
  refine fold _ [] ?_ (by simp) .nil
  rw [List.pairwise_iff_getElem]
  intro i j hi hj lt
  simpa using lt

/-! ### Sweeping -/

section

variable (start stop : α → Nat)

/-- The intervals that start where the last one kept has stopped, from a position on. -/
def sweep (at_ : Nat) : List α → List α
  | [] => []
  | a :: l => if start a < at_ then sweep at_ l else a :: sweep (stop a) l

/-- A choice among intervals: those chosen are apart, and each of the others starts in one chosen before it. -/
structure Chosen (chosen : α → Prop) (l : List α) : Prop where
  apart : l.Pairwise fun a b => chosen a → chosen b → stop a ≤ start b
  hidden : ∀ before a after, l = before ++ a :: after → ¬ chosen a → ∃ b ∈ before, chosen b ∧ start a < stop b

end

variable {start stop : α → Nat} {chosen : α → Prop} {l : List α} {n : Nat}

theorem sweep_sublist : (sweep start stop n l).Sublist l := by
  induction l generalizing n with
  | nil => exact .slnil
  | cons a l ih =>
    unfold sweep
    split
    · exact ih.cons a
    · exact ih.cons_cons a

theorem sweep_map {f : β → α} {l : List β} :
    sweep start stop n (l.map f) = (sweep (start ∘ f) (stop ∘ f) n l).map f := by
  induction l generalizing n with
  | nil => rfl
  | cons b l ih =>
    simp only [List.map_cons, sweep, Function.comp_apply]
    split
    · exact ih
    · rw [ih, List.map_cons]

theorem le_of_mem_sweep (forward : ∀ a, start a ≤ stop a) {a : α} (mem : a ∈ sweep start stop n l) : n ≤ start a := by
  induction l generalizing n with
  | nil => cases mem
  | cons b l ih =>
    unfold sweep at mem
    split at mem
    · exact ih mem
    · rename_i ge
      rcases List.mem_cons.1 mem with rfl | mem
      · exact Nat.le_of_not_lt ge
      · have := ih mem
        have := forward b
        omega

/-- What is kept is apart, in order. -/
theorem sweep_apart (forward : ∀ a, start a ≤ stop a) (nodup : l.Nodup) :
    l.Pairwise fun a b => a ∈ sweep start stop n l → b ∈ sweep start stop n l → stop a ≤ start b := by
  induction l generalizing n with
  | nil => exact .nil
  | cons b l ih =>
    obtain ⟨fresh, nodup⟩ := List.nodup_cons.1 nodup
    unfold sweep
    split
    · exact List.pairwise_cons.2 ⟨fun a _ kept => absurd (sweep_sublist.subset kept) fresh, ih nodup⟩
    · have rest : ∀ a ∈ l, a ∈ b :: sweep start stop (stop b) l → a ∈ sweep start stop (stop b) l := by
        intro a mem kept
        rcases List.mem_cons.1 kept with rfl | kept
        · exact absurd mem fresh
        · exact kept
      refine List.pairwise_cons.2 ⟨fun a mem _ kept => le_of_mem_sweep forward (rest a mem kept), ?_⟩
      refine (ih (n := stop b) nodup).imp_of_mem ?_
      intro a c memA memC apart keptA keptC
      exact apart (rest a memA keptA) (rest c memC keptC)

/-- The sweep from a position on keeps what is chosen, where what starts before the position is not. -/
theorem mem_sweep_from (forward : ∀ a, start a ≤ stop a) (nodup : l.Nodup)
    (apart : l.Pairwise fun a b => chosen a → chosen b → stop a ≤ start b) (after_ : ∀ a ∈ l, chosen a → n ≤ start a)
    (hidden : ∀ before a after, l = before ++ a :: after → ¬ chosen a →
      start a < n ∨ ∃ b ∈ before, chosen b ∧ start a < stop b) {a : α} (mem : a ∈ l) :
    a ∈ sweep start stop n l ↔ chosen a := by
  induction l generalizing n with
  | nil => cases mem
  | cons b l ih =>
    obtain ⟨fresh, nodup⟩ := List.nodup_cons.1 nodup
    obtain ⟨first, apart⟩ := List.pairwise_cons.1 apart
    unfold sweep
    by_cases here : chosen b
    · have ge : ¬ start b < n := Nat.not_lt.2 (after_ b List.mem_cons_self here)
      rw [if_neg ge]
      rcases List.mem_cons.1 mem with rfl | later
      · exact ⟨fun _ => here, fun _ => List.mem_cons_self⟩
      · have ne : a ≠ b := fun e => fresh (e ▸ later)
        rw [List.mem_cons, or_iff_right ne]
        refine ih nodup apart (fun c mem chosen_ => first c mem here chosen_) (fun before c after split_ no => ?_) later
        rcases hidden (b :: before) c after (by rw [split_, List.cons_append]) no with lt | ⟨d, mem, chosen_, lt⟩
        · have := forward b
          exact .inl (by omega)
        · rcases List.mem_cons.1 mem with rfl | mem
          · exact .inl lt
          · exact .inr ⟨d, mem, chosen_, lt⟩
    · have lt : start b < n := by
        rcases hidden [] b l rfl here with lt | ⟨d, mem, -⟩
        · exact lt
        · cases mem
      rw [if_pos lt]
      rcases List.mem_cons.1 mem with rfl | later
      · exact ⟨fun kept => absurd (sweep_sublist.subset kept) fresh, fun chosen_ => absurd chosen_ here⟩
      · refine ih nodup apart (fun c mem => after_ c (List.mem_cons_of_mem b mem)) (fun before c after split_ no => ?_) later
        rcases hidden (b :: before) c after (by rw [split_, List.cons_append]) no with lt | ⟨d, mem, chosen_, lt⟩
        · exact .inl lt
        · rcases List.mem_cons.1 mem with rfl | mem
          · exact absurd chosen_ here
          · exact .inr ⟨d, mem, chosen_, lt⟩

/-- **A choice of intervals is what the sweep keeps.** -/
theorem Chosen.mem_sweep_iff (choice : Chosen start stop chosen l) (forward : ∀ a, start a ≤ stop a) (nodup : l.Nodup)
    {a : α} (mem : a ∈ l) : a ∈ sweep start stop 0 l ↔ chosen a :=
  mem_sweep_from forward nodup choice.apart (fun _ _ _ => Nat.zero_le _)
    (fun before a after split_ no => .inr (choice.hidden before a after split_ no)) mem

theorem sweep_hidden (nodup : l.Nodup) {before after : List α} {a : α} (split_ : l = before ++ a :: after)
    (dropped : a ∉ sweep start stop n l) : start a < n ∨ ∃ b ∈ before, b ∈ sweep start stop n l ∧ start a < stop b := by
  induction l generalizing n before with
  | nil => cases before <;> cases split_
  | cons b l ih =>
    obtain ⟨fresh, nodup⟩ := List.nodup_cons.1 nodup
    unfold sweep at dropped ⊢
    cases before with
    | nil =>
      obtain ⟨rfl, rfl⟩ := List.cons.inj split_
      split at dropped
      · rename_i lt
        exact .inl lt
      · exact absurd List.mem_cons_self dropped
    | cons c before =>
      obtain ⟨rfl, rest⟩ := List.cons.inj split_
      split at dropped
      · rename_i lt
        rw [if_pos lt]
        rcases ih nodup rest dropped with early | ⟨d, mem, kept, lt⟩
        · exact .inl early
        · exact .inr ⟨d, List.mem_cons_of_mem b mem, kept, lt⟩
      · rename_i ge
        rw [if_neg ge]
        rcases ih nodup rest (fun kept => dropped (List.mem_cons_of_mem b kept)) with early | ⟨d, mem, kept, lt⟩
        · exact .inr ⟨b, List.mem_cons_self, List.mem_cons_self, early⟩
        · exact .inr ⟨d, List.mem_cons_of_mem b mem, List.mem_cons_of_mem b kept, lt⟩

/-- What the sweep keeps is a choice. -/
theorem sweep_chosen (forward : ∀ a, start a ≤ stop a) (nodup : l.Nodup) :
    Chosen start stop (· ∈ sweep start stop 0 l) l where
  apart := sweep_apart forward nodup
  hidden := fun _ _ _ split_ dropped => (sweep_hidden nodup split_ dropped).resolve_left (Nat.not_lt_zero _)

/-- Of a sorted list, a choice by the order alone. -/
theorem chosen_iff {R : α → α → Prop} (asymm : ∀ a b, R a b → ¬ R b a) (sorted : l.Pairwise R) :
    Chosen start stop chosen l ↔ (∀ a ∈ l, ∀ b ∈ l, chosen a → chosen b → R a b → stop a ≤ start b) ∧
      ∀ a ∈ l, ¬ chosen a → ∃ b ∈ l, chosen b ∧ R b a ∧ start a < stop b := by
  constructor
  · intro choice
    constructor
    · intro a memA b memB chosenA chosenB here
      obtain ⟨before, after, split_⟩ := List.append_of_mem memA
      rw [split_] at memB
      obtain ⟨-, tail, cross⟩ := List.pairwise_append.1 (split_ ▸ sorted)
      obtain ⟨-, apart, -⟩ := List.pairwise_append.1 (split_ ▸ choice.apart)
      rcases List.mem_append.1 memB with earlier | later
      · exact absurd here (asymm b a (cross b earlier a List.mem_cons_self))
      · rcases List.mem_cons.1 later with rfl | later
        · exact absurd here (asymm b b here)
        · exact (List.pairwise_cons.1 apart).1 b later chosenA chosenB
    · intro a mem no
      obtain ⟨before, after, split_⟩ := List.append_of_mem mem
      obtain ⟨b, earlier, chosenB, lt⟩ := choice.hidden before a after split_ no
      obtain ⟨-, -, cross⟩ := List.pairwise_append.1 (split_ ▸ sorted)
      exact ⟨b, split_ ▸ List.mem_append_left _ earlier, chosenB, cross b earlier a List.mem_cons_self, lt⟩
  · rintro ⟨apart, hidden⟩
    constructor
    · exact sorted.imp_of_mem fun memA memB here chosenA chosenB => apart _ memA _ memB chosenA chosenB here
    · intro before a after split_ no
      obtain ⟨b, mem, chosenB, here, lt⟩ := hidden a (by simp [split_]) no
      refine ⟨b, ?_, chosenB, lt⟩
      rw [split_] at mem sorted
      obtain ⟨-, tail, -⟩ := List.pairwise_append.1 sorted
      rcases List.mem_append.1 mem with earlier | later
      · exact earlier
      · rcases List.mem_cons.1 later with rfl | later
        · exact absurd here (asymm b b here)
        · exact absurd here (asymm a b ((List.pairwise_cons.1 tail).1 b later))

end Vcx.Lib
