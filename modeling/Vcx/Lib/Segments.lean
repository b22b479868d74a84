import Mathlib.Data.List.Nodup
import Mathlib.Data.List.Permutation

/-!
# Sequences made of labelled parts

A sequence put together from parts, each with a label that its entries carry, is another such sequence
exactly where the parts are. A sequence that may come out in several ways is the list of its outcomes:
`seqAll` puts parts together in order, `anyOrder` in every order, and both have only one outcome exactly
where the parts do, and in `anyOrder` no two of them have an entry.
-/

namespace Vcx.Lib
set_option autoImplicit false

variable {ι E : Type} [DecidableEq ι] {label : E → ι} {is : List ι} {f g : ι → List E}

/-- Every entry of a part carries its label. -/
def Labelled (label : E → ι) (is : List ι) (f : ι → List E) : Prop := ∀ i ∈ is, ∀ e ∈ f i, label e = i

theorem Labelled.filter_eq (labelled : Labelled label is f) (nodup : is.Nodup) {i : ι} (mem : i ∈ is) :
    (is.flatMap f).filter (label · = i) = f i := by
  induction is with
  | nil => cases mem
  | cons j is ih =>
    have rest : Labelled label is f := fun k mem => labelled k (List.mem_cons_of_mem j mem)
    rw [List.flatMap_cons, List.filter_append]
    obtain rfl | later := List.mem_cons.1 mem
    · have all : (f i).filter (label · = i) = f i :=
        List.filter_eq_self.2 fun e inside => decide_eq_true (labelled i List.mem_cons_self e inside)
      have none : (is.flatMap f).filter (label · = i) = [] := by
        rw [List.filter_eq_nil_iff]
        intro e inside same
        obtain ⟨k, memK, inside⟩ := List.mem_flatMap.1 inside
        have here : k = i := (rest k memK e inside).symm.trans (of_decide_eq_true same)
        exact (List.nodup_cons.1 nodup).1 (here ▸ memK)
      rw [all, none, List.append_nil]
    · have other : i ≠ j := fun same => (List.nodup_cons.1 nodup).1 (same ▸ later)
      have none : (f j).filter (label · = i) = [] := by
        rw [List.filter_eq_nil_iff]
        intro e inside same
        exact other ((of_decide_eq_true same).symm.trans (labelled j List.mem_cons_self e inside))
      rw [none, List.nil_append]
      exact ih rest (List.nodup_cons.1 nodup).2 later

/-- Sequences of labelled parts are equal where the parts are. -/
theorem flatMap_eq_iff (nodup : is.Nodup) (labelledF : Labelled label is f) (labelledG : Labelled label is g) :
    is.flatMap f = is.flatMap g ↔ ∀ i ∈ is, f i = g i := by
  constructor
  · intro same i mem
    rw [← labelledF.filter_eq nodup mem, same, labelledG.filter_eq nodup mem]
  · intro same
    exact List.flatMap_congr same

omit [DecidableEq ι] in
/-- A sequence of one part and empty ones is the part. -/
theorem flatMap_eq_of_single (nodup : is.Nodup) {i : ι} (mem : i ∈ is) (empty : ∀ j ∈ is, j ≠ i → f j = []) :
    is.flatMap f = f i := by
  induction is with
  | nil => cases mem
  | cons j is ih =>
    rw [List.flatMap_cons]
    obtain rfl | later := List.mem_cons.1 mem
    · have none : is.flatMap f = [] := by
        rw [List.flatMap_eq_nil_iff]
        intro k memK
        exact empty k (List.mem_cons_of_mem i memK) fun same => (List.nodup_cons.1 nodup).1 (same ▸ memK)
      rw [none, List.append_nil]
    · have other : j ≠ i := fun same => (List.nodup_cons.1 nodup).1 (same ▸ later)
      rw [empty j List.mem_cons_self other, List.nil_append]
      exact ih (List.nodup_cons.1 nodup).2 later fun k memK => empty k (List.mem_cons_of_mem j memK)

/-- At most one entry of a list without duplicates passes a test. -/
theorem filter_length_le_one_iff {α : Type} {l : List α} (nodup : l.Nodup) {q : α → Bool} :
    (l.filter q).length ≤ 1 ↔ ∀ a ∈ l, ∀ b ∈ l, q a = true → q b = true → a = b := by
  have nodup' := nodup.filter q
  constructor
  · intro short a memA b memB passA passB
    have inA := List.mem_filter.2 ⟨memA, passA⟩
    have inB := List.mem_filter.2 ⟨memB, passB⟩
    obtain ⟨c, eq⟩ := List.length_eq_one_iff.1 (Nat.le_antisymm short (List.length_pos_of_mem inA))
    rw [eq, List.mem_singleton] at inA inB
    exact inA.trans inB.symm
  · intro single
    match eq : l.filter q with
    | [] => exact Nat.zero_le 1
    | [a] => exact Nat.le_refl 1
    | a :: b :: rest =>
      rw [eq] at nodup'
      have inA : a ∈ l.filter q := by simp [eq]
      have inB : b ∈ l.filter q := by simp [eq]
      obtain ⟨memA, passA⟩ := List.mem_filter.1 inA
      obtain ⟨memB, passB⟩ := List.mem_filter.1 inB
      rw [single a memA b memB passA passB] at nodup'
      exact absurd List.mem_cons_self (List.nodup_cons.1 nodup').1

/-! ### Outcomes -/

/-- One outcome of each part, in order. -/
def seqAll : List (List (List E)) → List (List E)
  | [] => [[]]
  | part :: parts => part.flatMap fun es => (seqAll parts).map (es ++ ·)

/-- One outcome of each part, in any order. -/
def anyOrder (is : List ι) (outcomes : ι → List (List E)) : List (List E) :=
  is.permutations.flatMap fun order => seqAll (order.map outcomes)

variable {outcomes : ι → List (List E)}

/-- Every entry of every outcome of a part carries its label. -/
def AllLabelled (label : E → ι) (is : List ι) (outcomes : ι → List (List E)) : Prop :=
  ∀ i ∈ is, ∀ es ∈ outcomes i, ∀ e ∈ es, label e = i

theorem mem_seqAll (nodup : is.Nodup) {es : List E} :
    es ∈ seqAll (is.map outcomes) ↔ ∃ f : ι → List E, (∀ i ∈ is, f i ∈ outcomes i) ∧ es = is.flatMap f := by
  induction is generalizing es with
  | nil =>
    refine ⟨fun mem => ⟨fun _ => [], fun i mem => absurd mem List.not_mem_nil, by simpa [seqAll] using mem⟩, ?_⟩
    rintro ⟨f, -, rfl⟩
    simp [seqAll]
  | cons j is ih =>
    obtain ⟨new, nodup⟩ := List.nodup_cons.1 nodup
    rw [List.map_cons, seqAll]
    simp only [List.mem_flatMap, List.mem_map]
    constructor
    · rintro ⟨first, memFirst, rest, memRest, rfl⟩
      obtain ⟨f, all, rfl⟩ := (ih nodup).1 memRest
      have same : ∀ i ∈ is, Function.update f j first i = f i := fun i mem =>
        Function.update_of_ne (fun eq : i = j => new (eq ▸ mem)) _ _
      refine ⟨Function.update f j first, fun i mem => ?_, ?_⟩
      · obtain rfl | later := List.mem_cons.1 mem
        · rwa [Function.update_self]
        · rw [same i later]
          exact all i later
      · rw [List.flatMap_cons, Function.update_self, List.flatMap_congr same]
    · rintro ⟨f, all, rfl⟩
      refine ⟨f j, all j List.mem_cons_self, is.flatMap f, ?_, rfl⟩
      exact (ih nodup).2 ⟨f, fun i mem => all i (List.mem_cons_of_mem j mem), rfl⟩

theorem mem_anyOrder (nodup : is.Nodup) {es : List E} :
    es ∈ anyOrder is outcomes ↔
      ∃ order : List ι, order.Perm is ∧ ∃ f : ι → List E, (∀ i ∈ is, f i ∈ outcomes i) ∧ es = order.flatMap f := by
  unfold anyOrder
  simp only [List.mem_flatMap, List.mem_permutations]
  constructor
  · rintro ⟨order, perm, mem⟩
    obtain ⟨f, all, rfl⟩ := (mem_seqAll (perm.nodup_iff.2 nodup)).1 mem
    exact ⟨order, perm, f, fun i mem => all i (perm.mem_iff.2 mem), rfl⟩
  · rintro ⟨order, perm, f, all, rfl⟩
    exact ⟨order, perm, (mem_seqAll (perm.nodup_iff.2 nodup)).2 ⟨f, fun i mem => all i (perm.mem_iff.1 mem), rfl⟩⟩

omit [DecidableEq ι] in
theorem Labelled.mem (labelled : Labelled label is f) : ∀ e ∈ is.flatMap f, label e ∈ is := by
  intro e inside
  obtain ⟨i, mem, inside⟩ := List.mem_flatMap.1 inside
  rwa [labelled i mem e inside]

theorem AllLabelled.mem_seqAll (labelled : AllLabelled label is outcomes) (nodup : is.Nodup) :
    ∀ es ∈ seqAll (is.map outcomes), ∀ e ∈ es, label e ∈ is := by
  intro es mem
  obtain ⟨f, chosen, rfl⟩ := (Lib.mem_seqAll nodup).1 mem
  exact Labelled.mem fun i mem => labelled i mem _ (chosen i mem)

theorem AllLabelled.mem_anyOrder (labelled : AllLabelled label is outcomes) (nodup : is.Nodup) :
    ∀ es ∈ anyOrder is outcomes, ∀ e ∈ es, label e ∈ is := by
  intro es mem e inside
  obtain ⟨order, perm, f, chosen, rfl⟩ := (Lib.mem_anyOrder nodup).1 mem
  obtain ⟨i, memI, inside⟩ := List.mem_flatMap.1 inside
  have memI := perm.mem_iff.1 memI
  rwa [labelled i memI _ (chosen i memI) e inside]

/-- Where a part always has an entry, so has the sequence. -/
theorem seqAll_loud (nodup : is.Nodup) {i : ι} (mem : i ∈ is) (loud : ∀ es ∈ outcomes i, es ≠ []) :
    ∀ es ∈ seqAll (is.map outcomes), es ≠ [] := by
  intro es inside empty
  obtain ⟨f, chosen, rfl⟩ := (mem_seqAll nodup).1 inside
  exact loud _ (chosen i mem) (List.flatMap_eq_nil_iff.1 empty i mem)

theorem anyOrder_loud (nodup : is.Nodup) {i : ι} (mem : i ∈ is) (loud : ∀ es ∈ outcomes i, es ≠ []) :
    ∀ es ∈ anyOrder is outcomes, es ≠ [] := by
  intro es inside empty
  obtain ⟨order, perm, f, chosen, rfl⟩ := (mem_anyOrder nodup).1 inside
  exact loud _ (chosen i mem) (List.flatMap_eq_nil_iff.1 empty i (perm.mem_iff.2 mem))

/-- One outcome of a part, and some of the others. -/
theorem exists_choice (some : ∀ i ∈ is, outcomes i ≠ []) {i : ι} {es : List E} (mem : es ∈ outcomes i) :
    ∃ f : ι → List E, (∀ j ∈ is, f j ∈ outcomes j) ∧ f i = es := by
  refine ⟨Function.update (fun j => (outcomes j).headD []) i es, fun j memJ => ?_, Function.update_self ..⟩
  by_cases same : j = i
  · subst same
    rwa [Function.update_self]
  · rw [Function.update_of_ne same]
    cases eq : outcomes j with
    | nil => exact absurd eq (some j memJ)
    | cons first rest => exact List.mem_cons_self

omit [DecidableEq ι] in
/-- Parts without duplicates make a sequence without. -/
theorem Labelled.nodup (labelled : Labelled label is f) (nodup : is.Nodup) (parts : ∀ i ∈ is, (f i).Nodup) :
    (is.flatMap f).Nodup := by
  refine List.nodup_flatMap.2 ⟨parts, ?_⟩
  refine nodup.imp_of_mem fun {i j} memI memJ other e inI inJ => ?_
  exact other ((labelled i memI e inI).symm.trans (labelled j memJ e inJ))

omit [DecidableEq ι] in
theorem AllLabelled.choose (labelled : AllLabelled label is outcomes) (all : ∀ i ∈ is, f i ∈ outcomes i) :
    Labelled label is f := fun i mem e inside => labelled i mem (f i) (all i mem) e inside

/-- Parts in order have one outcome exactly where each part has. -/
theorem seqAll_eq_iff (nodup : is.Nodup) (some : ∀ i ∈ is, outcomes i ≠ []) (labelled : AllLabelled label is outcomes)
    (labelledG : Labelled label is g) :
    (∀ es ∈ seqAll (is.map outcomes), es = is.flatMap g) ↔ ∀ i ∈ is, ∀ es ∈ outcomes i, es = g i := by
  constructor
  · intro all i mem es inside
    obtain ⟨f, chosen, rfl⟩ := exists_choice some inside
    have same := all _ ((mem_seqAll nodup).2 ⟨f, chosen, rfl⟩)
    exact (flatMap_eq_iff nodup (labelled.choose chosen) labelledG).1 same i mem
  · intro all es mem
    obtain ⟨f, chosen, rfl⟩ := (mem_seqAll nodup).1 mem
    exact List.flatMap_congr fun i mem => all i mem _ (chosen i mem)

/-- Where all orders of a sequence of parts are one sequence, no two parts have an entry. -/
theorem single_of_orders (labelledG : Labelled label is g)
    (same : ∀ order : List ι, order.Perm is → order.flatMap g = is.flatMap g) {i j : ι} (memI : i ∈ is) (memJ : j ∈ is)
    (someI : g i ≠ []) (someJ : g j ≠ []) : i = j := by
  have first {k : ι} (memK : k ∈ is) (someK : g k ≠ []) : ((is.flatMap g).head?).map label = some k := by
    rw [← same _ (List.perm_cons_erase memK).symm, List.flatMap_cons]
    obtain ⟨e, rest, eq⟩ := List.exists_cons_of_ne_nil someK
    rw [eq, List.cons_append, List.head?_cons, Option.map_some, labelledG k memK e (eq ▸ List.mem_cons_self)]
  exact Option.some.inj ((first memI someI).symm.trans (first memJ someJ))

omit [DecidableEq ι] in
theorem flatMap_perm_of_single (nodup : is.Nodup) {order : List ι} (perm : order.Perm is)
    (single : ∀ i ∈ is, ∀ j ∈ is, g i ≠ [] → g j ≠ [] → i = j) : order.flatMap g = is.flatMap g := by
  by_cases none : ∀ i ∈ is, g i = []
  · rw [List.flatMap_eq_nil_iff.2 none, List.flatMap_eq_nil_iff.2 fun i mem => none i (perm.mem_iff.1 mem)]
  · push Not at none
    obtain ⟨i, mem, some⟩ := none
    have empty : ∀ j ∈ is, j ≠ i → g j = [] := fun j memJ other => by
      by_contra someJ
      exact other (single j memJ i mem someJ some)
    rw [flatMap_eq_of_single nodup mem empty,
      flatMap_eq_of_single (perm.nodup_iff.2 nodup) (perm.mem_iff.2 mem) fun j memJ => empty j (perm.mem_iff.1 memJ)]

/-- Parts in any order have one outcome exactly where each part has, and no two of them an entry. -/
theorem anyOrder_eq_iff (nodup : is.Nodup) (some : ∀ i ∈ is, outcomes i ≠ []) (labelled : AllLabelled label is outcomes)
    (labelledG : Labelled label is g) :
    (∀ es ∈ anyOrder is outcomes, es = is.flatMap g) ↔
      (∀ i ∈ is, ∀ es ∈ outcomes i, es = g i) ∧ ∀ i ∈ is, ∀ j ∈ is, g i ≠ [] → g j ≠ [] → i = j := by
  constructor
  · intro all
    have parts : ∀ i ∈ is, ∀ es ∈ outcomes i, es = g i := by
      refine (seqAll_eq_iff nodup some labelled labelledG).1 fun es mem => all es ?_
      obtain ⟨f, chosen, rfl⟩ := (mem_seqAll nodup).1 mem
      exact (mem_anyOrder nodup).2 ⟨is, .refl is, f, chosen, rfl⟩
    have chosen : ∀ i ∈ is, g i ∈ outcomes i := fun i mem => by
      obtain ⟨es, inside⟩ := List.exists_mem_of_ne_nil _ (some i mem)
      exact parts i mem es inside ▸ inside
    refine ⟨parts, fun i memI j memJ => single_of_orders labelledG (fun order perm => ?_) memI memJ⟩
    exact all _ ((mem_anyOrder nodup).2 ⟨order, perm, g, chosen, rfl⟩)
  · rintro ⟨parts, single⟩ es mem
    obtain ⟨order, perm, f, chosen, rfl⟩ := (mem_anyOrder nodup).1 mem
    rw [← flatMap_perm_of_single nodup perm single]
    exact List.flatMap_congr fun i mem => parts i (perm.mem_iff.1 mem) _ (chosen i (perm.mem_iff.1 mem))

omit [DecidableEq ι] in
theorem seqAll_ne_nil (some : ∀ i ∈ is, outcomes i ≠ []) : seqAll (is.map outcomes) ≠ [] := by
  induction is with
  | nil => exact List.cons_ne_nil _ _
  | cons i is ih =>
    obtain ⟨es, mem⟩ := List.exists_mem_of_ne_nil _ (some i List.mem_cons_self)
    obtain ⟨rest, memRest⟩ := List.exists_mem_of_ne_nil _ (ih fun j memJ => some j (List.mem_cons_of_mem i memJ))
    apply List.ne_nil_of_mem
    exact List.mem_flatMap.2 ⟨es, mem, List.mem_map.2 ⟨rest, memRest, rfl⟩⟩

omit [DecidableEq ι] in
theorem anyOrder_ne_nil (some : ∀ i ∈ is, outcomes i ≠ []) : anyOrder is outcomes ≠ [] := by
  obtain ⟨es, mem⟩ := List.exists_mem_of_ne_nil _ (seqAll_ne_nil some)
  apply List.ne_nil_of_mem
  exact List.mem_flatMap.2 ⟨is, List.mem_permutations.2 (.refl is), mem⟩

/-- Two sequences one after the other, whose entries a test tells apart. -/
theorem append_eq_iff {p : E → Bool} {a b x y : List E} (inA : ∀ e ∈ a, p e = true) (inX : ∀ e ∈ x, p e = true)
    (inB : ∀ e ∈ b, p e = false) (inY : ∀ e ∈ y, p e = false) : a ++ b = x ++ y ↔ a = x ∧ b = y := by
  constructor
  · intro same
    have left {u v : List E} (inU : ∀ e ∈ u, p e = true) (inV : ∀ e ∈ v, p e = false) : (u ++ v).filter p = u := by
      rw [List.filter_append, List.filter_eq_self.2 inU, List.filter_eq_nil_iff.2 fun e mem => by simp [inV e mem],
        List.append_nil]
    have first : a = x := by rw [← left inA inB, same, left inX inY]
    subst first
    exact ⟨rfl, List.append_cancel_left same⟩
  · rintro ⟨rfl, rfl⟩
    rfl

/-- The same of outcomes. -/
theorem append_outcomes_iff {p : E → Bool} {A B : List (List E)} {x y : List E} (someA : A ≠ []) (someB : B ≠ [])
    (inA : ∀ a ∈ A, ∀ e ∈ a, p e = true) (inX : ∀ e ∈ x, p e = true) (inB : ∀ b ∈ B, ∀ e ∈ b, p e = false)
    (inY : ∀ e ∈ y, p e = false) :
    (∀ es ∈ A.flatMap fun a => B.map (a ++ ·), es = x ++ y) ↔ (∀ a ∈ A, a = x) ∧ ∀ b ∈ B, b = y := by
  simp only [List.mem_flatMap, List.mem_map]
  constructor
  · intro all
    have both {a b : List E} (memA : a ∈ A) (memB : b ∈ B) : a = x ∧ b = y :=
      (append_eq_iff (inA a memA) inX (inB b memB) inY).1 (all _ ⟨a, memA, b, memB, rfl⟩)
    obtain ⟨a, memA⟩ := List.exists_mem_of_ne_nil A someA
    obtain ⟨b, memB⟩ := List.exists_mem_of_ne_nil B someB
    exact ⟨fun a' mem => (both mem memB).1, fun b' mem => (both memA mem).2⟩
  · rintro ⟨left, right⟩ es ⟨a, memA, b, memB, rfl⟩
    rw [left a memA, right b memB]

end Vcx.Lib
