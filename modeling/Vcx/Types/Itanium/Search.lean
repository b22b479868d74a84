import Vcx.Types.Itanium.Layout

/-!
# The search loops end where they can

Moving a class moves its empty subobjects with it and none lands before its start, so past
the `horizon` nothing conflicts. Hence the bounds the model gives the two loops are exact:
a bounded run without an answer is a loop of the source that never ends. The loop for a
member or a non-empty base always ends. The loop for an empty base ends unless it conflicts
at offset zero before there is any data: it then tries offset zero again, for ever.
-/

namespace Vcx.Types
set_option autoImplicit false
open Vcx.Lib

variable {m : Model} {h : Hierarchy} {L : Layouts}

theorem eachEmpty_eq (r : Nat) : eachEmpty m h L r = eachEmptyBody m h L (eachEmpty m h L) r := by
  apply fix_unfold
  intro f g agree
  funext start asBase
  unfold eachEmptyBody
  congr 1
  cases L r with
  | none => rfl
  | some info =>
    simp only
    congr 1
    · congr 1
      · apply List.flatMap_congr
        rintro ⟨b, i⟩ hb
        cases hc : b.plain with
        | none => simp only
        | some c =>
          have lt := h.base_lt r b (List.fst_mem_of_mem_zipIdx hb) c (BaseSpec.plain_eq_some.1 hc).2
          simp only [agree c lt]
      · split
        · rfl
        · apply List.flatMap_congr
          intro v hv
          simp only [agree v (mem_itaniumVBases.1 hv).lt]
    · apply List.flatMap_congr
      rintro ⟨f', i⟩ hf
      cases hc : f'.type.recordElem with
      | none => simp only
      | some c => simp only [agree c (h.member_lt r f' (List.fst_mem_of_mem_zipIdx hf) c hc)]

/-- One way an empty subobject lies in a class: the class itself, or inside a base, a
virtual base or an element of a member. -/
inductive EmptyVia (m : Model) (h : Hierarchy) (L : Layouts) (r start : Nat) (asBase : Bool) (e : Nat × Nat) : Prop
  | self (empty : itaniumEmpty h r = true) (eq : e = (r, start))
  | base (info : RecordInfo) (b : BaseSpec) (i c : Nat) (known : L r = some info)
    (hb : (b, i) ∈ (h.record r).bases.zipIdx) (hc : b.plain = some c)
    (mem : e ∈ eachEmpty m h L c (start + info.baseOffsets.getD i 0) true)
  | vbase (info : RecordInfo) (v off : Nat) (known : L r = some info) (whole : asBase = false)
    (hv : v ∈ itaniumVBases h r) (entry : info.vbaseOffsets.lookup v = some off)
    (mem : e ∈ eachEmpty m h L v (start + off) true)
  | member (info : RecordInfo) (f : Field) (i c k : Nat) (known : L r = some info)
    (hf : (f, i) ∈ (h.record r).fields.zipIdx) (hc : f.type.recordElem = some c) (lt : k < f.type.elemCount)
    (mem : e ∈ eachEmpty m h L c
      (start + info.fieldOffsets.getD i 0 + k * (sizeof m h L (.record c)).getD 0) false)

theorem mem_eachEmpty {r start : Nat} {asBase : Bool} {e : Nat × Nat} :
    e ∈ eachEmpty m h L r start asBase ↔ EmptyVia m h L r start asBase e := by
  rw [eachEmpty_eq, eachEmptyBody, List.mem_append]
  constructor
  · rintro (own | inside)
    · split at own
      · rename_i empty
        exact .self empty (List.mem_singleton.1 own)
      · cases own
    · cases known : L r with
      | none => simp [known] at inside
      | some info =>
        simp only [known, List.mem_append, List.mem_flatMap] at inside
        rcases inside with (⟨⟨b, i⟩, hb, mem⟩ | inVBase) | ⟨⟨f, i⟩, hf, mem⟩
        · cases hc : b.plain with
          | none => simp [hc] at mem
          | some c => exact .base info b i c known hb hc (by simpa [hc] using mem)
        · cases asBase with
          | true => simp at inVBase
          | false =>
            simp only [Bool.false_eq_true, if_false, List.mem_flatMap] at inVBase
            obtain ⟨v, hv, mem⟩ := inVBase
            cases entry : info.vbaseOffsets.lookup v with
            | none => simp [entry] at mem
            | some off => exact .vbase info v off known rfl hv entry (by simpa [entry] using mem)
        · cases hc : f.type.recordElem with
          | none => simp [hc] at mem
          | some c =>
            simp only [hc, List.mem_flatMap, List.mem_range] at mem
            obtain ⟨k, lt, mem⟩ := mem
            exact .member info f i c k known hf hc lt mem
  · rintro (⟨empty, eq⟩ | ⟨info, b, i, c, known, hb, hc, mem⟩ | ⟨info, v, off, known, rfl, hv, entry, mem⟩ |
      ⟨info, f, i, c, k, known, hf, hc, lt, mem⟩)
    · exact .inl (by simp [empty, eq])
    · right
      simp only [known, List.mem_append, List.mem_flatMap]
      exact .inl (.inl ⟨(b, i), hb, by simpa [hc] using mem⟩)
    · right
      simp only [known, List.mem_append, List.mem_flatMap]
      refine .inl (.inr ?_)
      simp only [Bool.false_eq_true, if_false, List.mem_flatMap]
      exact ⟨v, hv, by simpa [entry] using mem⟩
    · right
      simp only [known, List.mem_append, List.mem_flatMap]
      refine .inr ⟨(f, i), hf, ?_⟩
      simp only [hc, List.mem_flatMap, List.mem_range]
      exact ⟨k, lt, mem⟩

/-- No empty subobject of a class lies before it. -/
theorem start_le_of_mem_eachEmpty {r start : Nat} {asBase : Bool} {e : Nat × Nat}
    (mem : e ∈ eachEmpty m h L r start asBase) : start ≤ e.2 := by
  induction r using Nat.strongRecOn generalizing start asBase with
  | ind r ih =>
    rcases mem_eachEmpty.1 mem with ⟨-, rfl⟩ | ⟨info, b, i, c, -, hb, hc, mem⟩ | ⟨info, v, off, -, -, hv, -, mem⟩ |
      ⟨info, f, i, c, k, -, hf, hc, -, mem⟩
    · exact Nat.le_refl start
    · have lt := h.base_lt r b (List.fst_mem_of_mem_zipIdx hb) c (BaseSpec.plain_eq_some.1 hc).2
      have := ih c lt mem
      omega
    · have := ih v (mem_itaniumVBases.1 hv).lt mem
      omega
    · have := ih c (h.member_lt r f (List.fst_mem_of_mem_zipIdx hf) c hc) mem
      omega

theorem lt_horizon {empties : List (Nat × Nat)} {e : Nat × Nat} (mem : e ∈ empties) : e.2 < horizon empties := by
  induction empties with
  | nil => cases mem
  | cons e' es ih =>
    simp only [horizon, List.map_cons, List.foldr_cons] at ih ⊢
    rcases List.mem_cons.1 mem with rfl | mem
    · omega
    · have := ih mem
      omega

theorem conflicts_of_horizon {empties : List (Nat × Nat)} {r start : Nat} {asBase : Bool}
    (past : horizon empties ≤ start) : conflicts m h L empties r start asBase = false := by
  rw [conflicts, List.any_eq_false]
  intro e mem clash
  have lt := lt_horizon (List.contains_iff_mem.1 clash)
  have := start_le_of_mem_eachEmpty mem
  omega

theorem conflicts_iff {empties : List (Nat × Nat)} {r start : Nat} {asBase : Bool} :
    conflicts m h L empties r start asBase = true ↔ ∃ e ∈ eachEmpty m h L r start asBase, e ∈ empties := by
  simp [conflicts]

theorem conflicts_eq_false {empties : List (Nat × Nat)} {r start : Nat} {asBase : Bool} :
    conflicts m h L empties r start asBase = false ↔ ∀ e ∈ eachEmpty m h L r start asBase, e ∉ empties := by
  simp [conflicts]

/-! ### Members and non-empty bases -/

theorem iterate_add (a n start : Nat) : (· + a)^[n] start = start + n * a := by
  induction n generalizing start with
  | zero => simp
  | succ n ih =>
    rw [Function.iterate_succ_apply, ih, Nat.succ_mul]
    omega

/-- The loop of a member or a non-empty base ends, at a place without conflict. -/
theorem freeOffset_spec (c : Cursor) (r start a : Nat) (asBase : Bool) (pos : 0 < a) :
    ∃ off, freeOffset m h L c r start a asBase = some off ∧ start ≤ off ∧ a ∣ off - start ∧
      conflicts m h L c.empties r off asBase = false := by
  have stop : conflicts m h L c.empties r ((· + a)^[horizon c.empties] start) asBase = false := by
    apply conflicts_of_horizon
    rw [iterate_add]
    have := Nat.le_mul_of_pos_right (horizon c.empties) pos
    omega
  obtain ⟨off, run⟩ : ∃ off, freeOffset m h L c r start a asBase = some off := loop_of_stop (Nat.le_refl _) stop
  obtain ⟨free, k, -, rfl, -⟩ := loop_spec run
  rw [iterate_add] at run free
  refine ⟨start + k * a, run, by omega, ?_, free⟩
  rw [Nat.add_sub_cancel_left]
  exact Nat.dvd_mul_left a k

/-- What the loop answered. -/
theorem freeOffset_some {c : Cursor} {r start a off : Nat} {asBase : Bool} (pos : 0 < a)
    (run : freeOffset m h L c r start a asBase = some off) :
    start ≤ off ∧ a ∣ off - start ∧ conflicts m h L c.empties r off asBase = false := by
  obtain ⟨off', run', le, dvd, free⟩ := freeOffset_spec (m := m) (h := h) (L := L) c r start a asBase pos
  rw [run] at run'
  cases run'
  exact ⟨le, dvd, free⟩

/-! ### Empty bases -/

/-- One round of the loop of an empty base. -/
def nextEmptyOffset (dsize nvalign off : Nat) : Nat :=
  let next := if off = 0 then dsize else off + nvalign
  if next < dsize then dsize else next

theorem emptyBaseOffset_eq (c : Cursor) (br nvalign : Nat) : emptyBaseOffset m h L c br nvalign =
    loop (fun off => conflicts m h L c.empties br off true) (nextEmptyOffset c.dsize nvalign)
      (horizon c.empties + 1) 0 := rfl

/-- With data before it the loop goes through the data size and on. -/
theorem iterate_nextEmptyOffset {dsize nvalign : Nat} (data : 0 < dsize) (n : Nat) :
    (nextEmptyOffset dsize nvalign)^[n + 1] 0 = dsize + n * nvalign := by
  induction n with
  | zero => simp [nextEmptyOffset]
  | succ n ih =>
    rw [Function.iterate_succ_apply', ih, nextEmptyOffset]
    simp only [show dsize + n * nvalign ≠ 0 by omega, if_false]
    rw [if_neg (by omega), Nat.succ_mul]
    omega

/-- Without data it stays where it is. -/
theorem iterate_nextEmptyOffset_zero (nvalign n : Nat) : (nextEmptyOffset 0 nvalign)^[n] 0 = 0 := by
  induction n with
  | zero => rfl
  | succ n ih => rw [Function.iterate_succ_apply', ih]; simp [nextEmptyOffset]

/-- **The loop of an empty base never ends exactly when it conflicts at offset zero and
there is no data yet.** -/
theorem emptyBase_stops_iff (c : Cursor) (br nvalign : Nat) (pos : 0 < nvalign) :
    Stops (fun off => conflicts m h L c.empties br off true) (nextEmptyOffset c.dsize nvalign) 0 ↔
      ¬ (c.dsize = 0 ∧ conflicts m h L c.empties br 0 true = true) := by
  constructor
  · rintro ⟨n, stop⟩ ⟨none, clash⟩
    rw [none, iterate_nextEmptyOffset_zero] at stop
    simp only [clash, reduceCtorEq] at stop
  · intro either
    by_cases clash : conflicts m h L c.empties br 0 true = true
    · have data : 0 < c.dsize := Nat.pos_of_ne_zero fun none => either ⟨none, clash⟩
      refine ⟨horizon c.empties + 1, conflicts_of_horizon ?_⟩
      rw [iterate_nextEmptyOffset data]
      have := Nat.le_mul_of_pos_right (horizon c.empties) pos
      omega
    · exact ⟨0, by simpa using clash⟩

/-- The bound of the model is exact: no answer is a loop that never ends. -/
theorem emptyBaseOffset_eq_none (c : Cursor) (br nvalign : Nat) (pos : 0 < nvalign) :
    emptyBaseOffset m h L c br nvalign = none ↔
      ¬ Stops (fun off => conflicts m h L c.empties br off true) (nextEmptyOffset c.dsize nvalign) 0 := by
  rw [emptyBaseOffset_eq]
  apply loop_eq_none_iff
  intro stops
  by_cases clash : conflicts m h L c.empties br 0 true = true
  · have data : 0 < c.dsize := by
      rw [emptyBase_stops_iff c br nvalign pos] at stops
      exact Nat.pos_of_ne_zero fun none => stops ⟨none, clash⟩
    refine ⟨horizon c.empties + 1, Nat.le_refl _, conflicts_of_horizon ?_⟩
    rw [iterate_nextEmptyOffset data]
    have := Nat.le_mul_of_pos_right (horizon c.empties) pos
    omega
  · exact ⟨0, by omega, by simpa using clash⟩

theorem emptyBaseOffset_none_iff (c : Cursor) (br nvalign : Nat) (pos : 0 < nvalign) :
    emptyBaseOffset m h L c br nvalign = none ↔ c.dsize = 0 ∧ conflicts m h L c.empties br 0 true = true := by
  rw [emptyBaseOffset_eq_none c br nvalign pos, emptyBase_stops_iff c br nvalign pos, not_not]

/-- What the loop answered: offset zero, or one after the data. -/
theorem emptyBaseOffset_some {c : Cursor} {br nvalign off : Nat}
    (run : emptyBaseOffset m h L c br nvalign = some off) :
    (off = 0 ∨ c.dsize ≤ off) ∧ conflicts m h L c.empties br off true = false := by
  rw [emptyBaseOffset_eq] at run
  obtain ⟨free, k, -, rfl, -⟩ := loop_spec run
  refine ⟨?_, free⟩
  cases k with
  | zero => exact .inl rfl
  | succ k =>
    rcases Nat.eq_zero_or_pos c.dsize with none | data
    · rw [none, iterate_nextEmptyOffset_zero]
      exact .inl rfl
    · rw [iterate_nextEmptyOffset data]
      exact .inr (by omega)

end Vcx.Types
