import Vcx.Types.Hierarchy

/-!
# Dynamic and polymorphic classes

`isDynamic`, `isPolymorphic` and `hasVirtualBase` are one depth-first search with a set of
visited classes; they differ in what they look for. `search_iff` says what the search
answers, so that the visited set is never seen again.
-/

namespace Vcx.Types
set_option autoImplicit false
open Vcx.Lib

/-- The loop over a class's bases: `vbase` says whether a virtual base ends the search. -/
def searchBases (vbase : Bool) (self : Nat → List Nat → Bool × List Nat) :
    List BaseSpec → List Nat → Bool × List Nat
  | [], visited => (false, visited)
  | b :: bs, visited =>
    if vbase && b.virtual then (true, visited)
    else match b.cls with
      | none => searchBases vbase self bs visited
      | some c => match self c visited with
        | (true, visited) => (true, visited)
        | (false, visited) => searchBases vbase self bs visited

/-- One class: `meth` says whether a virtual function of its own ends the search. -/
def searchBody (h : Hierarchy) (meth vbase : Bool) (self : Nat → List Nat → Bool × List Nat)
    (r : Nat) (visited : List Nat) : Bool × List Nat :=
  if r ∈ visited then (false, visited)
  else if meth && (h.record r).methods.any (·.virtual) then (true, r :: visited)
  else searchBases vbase self (h.record r).bases (r :: visited)

def search (h : Hierarchy) (meth vbase : Bool) : Nat → List Nat → Bool × List Nat :=
  fix (searchBody h meth vbase) fun visited => (false, visited)

/-- The ABI's dynamic class: one with virtual functions or virtual bases, its own or
inherited. -/
def isDynamic (h : Hierarchy) (r : Nat) : Bool := (search h true true r []).1

/-- A class with a virtual function, its own or inherited. -/
def isPolymorphic (h : Hierarchy) (r : Nat) : Bool := (search h true false r []).1

/-- A class with a virtual base anywhere in its hierarchy. -/
def hasVirtualBase (h : Hierarchy) (r : Nat) : Bool := (search h false true r []).1

/-- What the search looks for at one class. -/
def Hit (h : Hierarchy) (meth vbase : Bool) (c : Nat) : Prop :=
  (meth = true ∧ ∃ f ∈ (h.record c).methods, f.virtual = true) ∨
    (vbase = true ∧ ∃ b ∈ (h.record c).bases, b.virtual = true)

/-- From `v` to `v'` the search visited only classes that are not hits, and all their
bases. -/
structure Explored (h : Hierarchy) (meth vbase : Bool) (v v' : List Nat) : Prop where
  subset : v ⊆ v'
  miss : ∀ d ∈ v', d ∉ v → ¬ Hit h meth vbase d
  closed : ∀ d ∈ v', d ∉ v → ∀ e, h.Base d e → e ∈ v'

variable {h : Hierarchy} {meth vbase : Bool}

theorem Explored.refl (v : List Nat) : Explored h meth vbase v v where
  subset := fun _ hd => hd
  miss := fun _ hd out => absurd hd out
  closed := fun _ hd out => absurd hd out

theorem Explored.trans {a b c : List Nat} (ab : Explored h meth vbase a b)
    (bc : Explored h meth vbase b c) : Explored h meth vbase a c where
  subset := fun _ hd => bc.subset (ab.subset hd)
  miss := by
    intro d hd out
    by_cases mid : d ∈ b
    · exact ab.miss d mid out
    · exact bc.miss d hd mid
  closed := by
    intro d hd out e he
    by_cases mid : d ∈ b
    · exact bc.subset (ab.closed d mid out e he)
    · exact bc.closed d hd mid e he

/-- What one search from `c` tells. -/
structure Searched (h : Hierarchy) (meth vbase : Bool) (c : Nat)
    (run : List Nat → Bool × List Nat) : Prop where
  found : ∀ v, (run v).1 = true → ∃ d, h.Derives c d ∧ Hit h meth vbase d
  missed : ∀ v, (run v).1 = false → Explored h meth vbase v (run v).2 ∧ c ∈ (run v).2

attribute [local simp] searchBases

theorem searchBases_found {self : Nat → List Nat → Bool × List Nat} {bs : List BaseSpec}
    (spec : ∀ b ∈ bs, ∀ c, b.cls = some c → Searched h meth vbase c (self c)) (v : List Nat)
    (found : (searchBases vbase self bs v).1 = true) :
    (vbase = true ∧ ∃ b ∈ bs, b.virtual = true) ∨
      ∃ b ∈ bs, ∃ c, b.cls = some c ∧ ∃ d, h.Derives c d ∧ Hit h meth vbase d := by
  induction bs generalizing v with
  | nil => simp [searchBases] at found
  | cons b bs ih =>
    have rest : ∀ v, (searchBases vbase self bs v).1 = true →
        (vbase = true ∧ ∃ b' ∈ b :: bs, b'.virtual = true) ∨
          ∃ b' ∈ b :: bs, ∃ c, b'.cls = some c ∧ ∃ d, h.Derives c d ∧ Hit h meth vbase d := by
      intro v found
      rcases ih (fun b' hb' => spec b' (List.mem_cons_of_mem _ hb')) v found with
        ⟨on, b', hb', virt⟩ | ⟨b', hb', below⟩
      · exact .inl ⟨on, b', List.mem_cons_of_mem _ hb', virt⟩
      · exact .inr ⟨b', List.mem_cons_of_mem _ hb', below⟩
    simp only [searchBases] at found
    split at found
    · rename_i virt
      simp only [Bool.and_eq_true] at virt
      exact .inl ⟨virt.1, b, List.mem_cons_self, virt.2⟩
    · split at found
      · exact rest v found
      · rename_i c hc
        split at found
        · rename_i v' run
          have hit := (spec b List.mem_cons_self c hc).found v (by rw [run])
          exact .inr ⟨b, List.mem_cons_self, c, hc, hit⟩
        · exact rest _ found

theorem searchBases_missed {self : Nat → List Nat → Bool × List Nat} {bs : List BaseSpec}
    (spec : ∀ b ∈ bs, ∀ c, b.cls = some c → Searched h meth vbase c (self c)) (v : List Nat)
    (missed : (searchBases vbase self bs v).1 = false) :
    Explored h meth vbase v (searchBases vbase self bs v).2 ∧
      (vbase = true → ∀ b ∈ bs, b.virtual = false) ∧
      ∀ b ∈ bs, ∀ c, b.cls = some c → c ∈ (searchBases vbase self bs v).2 := by
  induction bs generalizing v with
  | nil => exact ⟨Explored.refl v, by simp, by simp⟩
  | cons b bs ih =>
    have spec' := fun b' hb' => spec b' (List.mem_cons_of_mem b hb')
    simp only [searchBases] at missed ⊢
    split at missed
    · cases missed
    · rename_i plain
      rw [if_neg plain]
      have flag : vbase = true → b.virtual = false := by
        intro on
        simpa [on] using plain
      split at missed
      · rename_i hc
        obtain ⟨ex, virt, mem⟩ := ih spec' v missed
        refine ⟨ex, ?_, ?_⟩
        · intro on b' hb'
          rcases List.mem_cons.1 hb' with rfl | hb'
          · exact flag on
          · exact virt on b' hb'
        · intro b' hb' c' hc'
          rcases List.mem_cons.1 hb' with rfl | hb'
          · rw [hc] at hc'
            cases hc'
          · exact mem b' hb' c' hc'
      · rename_i c hc
        split at missed
        · cases missed
        · rename_i v' run
          have first := (spec b List.mem_cons_self c hc).missed v (by rw [run])
          rw [run] at first
          obtain ⟨ex, virt, mem⟩ := ih spec' v' missed
          refine ⟨first.1.trans ex, ?_, ?_⟩
          · intro on b' hb'
            rcases List.mem_cons.1 hb' with rfl | hb'
            · exact flag on
            · exact virt on b' hb'
          · intro b' hb' c' hc'
            rcases List.mem_cons.1 hb' with rfl | hb'
            · rw [hc] at hc'
              cases hc'
              exact ex.subset first.2
            · exact mem b' hb' c' hc'

theorem search_searched (r : Nat) : Searched h meth vbase r (search h meth vbase r) := by
  induction r using Nat.strongRecOn with
  | ind r ih =>
    have spec : ∀ b ∈ (h.record r).bases, ∀ c, b.cls = some c → Searched h meth vbase c
        (below (search h meth vbase) (fun visited => (false, visited)) r c) := by
      intro b hb c hc
      have lt := h.base_lt r b hb c hc
      rw [below_lt lt]
      exact ih c lt
    constructor
    · intro v found
      rw [search, fix_eq, searchBody] at found
      split at found
      · cases found
      split at found
      · rename_i own
        simp only [Bool.and_eq_true, List.any_eq_true] at own
        exact ⟨r, .refl, .inl own⟩
      · rcases searchBases_found spec _ found with ⟨on, hit⟩ | ⟨b, hb, c, hc, d, path, hit⟩
        · exact ⟨r, .refl, .inr ⟨on, hit⟩⟩
        · exact ⟨d, .head ⟨b, hb, hc⟩ path, hit⟩
    · intro v missed
      rw [search, fix_eq, searchBody] at missed ⊢
      split at missed
      · rename_i seen
        rw [if_pos seen]
        exact ⟨Explored.refl v, seen⟩
      rename_i fresh
      rw [if_neg fresh]
      split at missed
      · cases missed
      rename_i own
      rw [if_neg own]
      obtain ⟨ex, virt, mem⟩ := searchBases_missed spec _ missed
      have here : ¬ Hit h meth vbase r := by
        rintro (hit | ⟨on, b, hb, hv⟩)
        · exact own (by simpa using hit)
        · rw [virt on b hb] at hv
          cases hv
      refine ⟨⟨fun d hd => ex.subset (List.mem_cons_of_mem r hd), ?_, ?_⟩,
        ex.subset List.mem_cons_self⟩
      · intro d hd out
        by_cases eq : d = r
        · rw [eq]; exact here
        · exact ex.miss d hd (by simp [eq, out])
      · intro d hd out e he
        by_cases eq : d = r
        · subst eq
          obtain ⟨b, hb, hc⟩ := he
          exact mem b hb e hc
        · exact ex.closed d hd (by simp [eq, out]) e he

/-- **The search finds a hit exactly when the class or a base of it is one.** -/
theorem search_iff {r : Nat} :
    (search h meth vbase r []).1 = true ↔ ∃ d, h.Derives r d ∧ Hit h meth vbase d := by
  have spec : Searched h meth vbase r (search h meth vbase r) := search_searched r
  constructor
  · exact spec.found []
  · rintro ⟨d, path, hit⟩
    cases answer : (search h meth vbase r []).1 with
    | true => rfl
    | false =>
      obtain ⟨ex, start⟩ := spec.missed [] answer
      have visited : ∀ e, h.Derives r e → e ∈ (search h meth vbase r []).2 := by
        intro e path
        induction path with
        | refl => exact start
        | tail _ step ih => exact ex.closed _ ih (by simp) _ step
      exact absurd hit (ex.miss d (visited d path) (by simp))

theorem isDynamic_iff {r : Nat} : isDynamic h r = true ↔
    ∃ d, h.Derives r d ∧ ((∃ f ∈ (h.record d).methods, f.virtual = true) ∨
      ∃ b ∈ (h.record d).bases, b.virtual = true) := by
  rw [isDynamic, search_iff]
  simp [Hit]

/-- A class with a dynamic base is dynamic. -/
theorem isDynamic_of_derives {r c : Nat} (path : h.Derives r c) (dyn : isDynamic h c = true) :
    isDynamic h r = true := by
  obtain ⟨d, rest, hit⟩ := isDynamic_iff.1 dyn
  exact isDynamic_iff.2 ⟨d, path.trans rest, hit⟩

/-- A class with a virtual base is dynamic. -/
theorem isDynamic_of_vbase {r v : Nat} (e : h.VBase r v) : isDynamic h r = true := by
  obtain ⟨d, path, b, hb, virt, -⟩ := e
  exact isDynamic_iff.2 ⟨d, path, .inr ⟨b, hb, virt⟩⟩

end Vcx.Types
