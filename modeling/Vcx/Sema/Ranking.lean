import Mathlib.Data.List.Zip
import Vcx.Sema.Overload

/-!
# What overload resolution selects

The function selected is the viable candidate that beats every other one and that no later one
beats. It is worse than another on no argument unless the two are better on one argument each
and a tie-breaker has decided between them; and the order of the candidates makes no
difference as long as the comparison is antisymmetric.
-/

namespace Vcx.Sema
set_option autoImplicit false
open Vcx.Types Vcx.Lib

variable {an : Analysis} {h : Hierarchy} {special : FuncType → FuncType → Bool}

/-! ### Viable candidates -/

/-- Two candidates that are one function: one symbol, or two of one member's declaration. -/
def Redeclares (f g : FuncSymbol) : Prop :=
  f.id = g.id ∨ f.inClass.isSome = true ∧ g.inClass.isSome = true ∧ sameMember f g = true

theorem sameMember_symm {f g : FuncSymbol} (same : sameMember f g = true) : sameMember g f = true := by
  simp only [sameMember, Bool.or_eq_true, Bool.and_eq_true, beq_iff_eq] at same ⊢
  rcases same with (id | ⟨some, eq⟩) | ⟨some, eq⟩
  · exact .inl (.inl id.symm)
  · exact .inl (.inr ⟨eq ▸ some, eq.symm⟩)
  · exact .inr ⟨eq ▸ some, eq.symm⟩

theorem Redeclares.symm {f g : FuncSymbol} (same : Redeclares f g) : Redeclares g f := by
  rcases same with id | ⟨inF, inG, member⟩
  · exact .inl id.symm
  · exact .inr ⟨inG, inF, sameMember_symm member⟩

theorem viability_func {object : Option Argument} {args : List Argument} {fn : FuncSymbol} {c : ViableCandidate}
    (viable : viability an h object args fn = some c) : c.func = fn := by
  obtain ⟨ft, -, rest⟩ := Option.bind_eq_some_iff.1 viable
  obtain ⟨objectConv, -, rest⟩ := Option.bind_eq_some_iff.1 rest
  split at rest
  · obtain ⟨convs, -, rfl⟩ := Option.map_eq_some_iff.1 rest
    rfl
  · cases rest

section

variable (an h) (object : Option Argument) (args : List Argument)

/-- What `viableCandidates` has made of the candidates `done`. -/
structure Gathered (done : List FuncSymbol) (seen : List Nat) (viable : List ViableCandidate) : Prop where
  /-- Every viable candidate is one of them. -/
  source : ∀ c ∈ viable, c.func ∈ done ∧ viability an h object args c.func = some c
  /-- Each function is there once. -/
  once : viable.Pairwise fun c d => ¬ Redeclares c.func d.func
  seenIds : ∀ n, n ∈ seen ↔ ∃ f ∈ done, f.funcType.isSome = true ∧ f.id = n

variable {an h object args} {done : List FuncSymbol} {seen : List Nat} {viable : List ViableCandidate}

theorem Gathered.step (g : Gathered an h object args done seen viable) (fn : FuncSymbol) :
    (fn.funcType.isNone = true ∨ seen.contains fn.id = true → Gathered an h object args (done ++ [fn]) seen viable) ∧
    (fn.funcType.isNone = false → Gathered an h object args (done ++ [fn]) (fn.id :: seen) viable) ∧
    (fn.funcType.isNone = false → seen.contains fn.id = false →
      (fn.inClass.isSome && sameMemberAsViable fn viable) = false →
      Gathered an h object args (done ++ [fn]) (fn.id :: seen) (viable ++ (viability an h object args fn).toList)) := by
  have source : ∀ c ∈ viable, c.func ∈ done ++ [fn] ∧ viability an h object args c.func = some c := by
    intro c hc
    obtain ⟨mem, viab⟩ := g.source c hc
    exact ⟨List.mem_append_left _ mem, viab⟩
  have ids : fn.funcType.isNone = false → ∀ n, n ∈ fn.id :: seen ↔ ∃ f ∈ done ++ [fn], f.funcType.isSome = true ∧ f.id = n := by
    intro typed n
    simp only [List.mem_cons, g.seenIds, List.mem_append, List.not_mem_nil, or_false]
    constructor
    · rintro (rfl | ⟨f, mem, found⟩)
      · exact ⟨fn, .inr rfl, by simpa using typed, rfl⟩
      · exact ⟨f, .inl mem, found⟩
    · rintro ⟨f, mem | rfl, typedF, rfl⟩
      · exact .inr ⟨f, mem, typedF, rfl⟩
      · exact .inl rfl
  refine ⟨?_, ?_, ?_⟩
  · intro skip
    refine ⟨source, g.once, fun n => ?_⟩
    rw [g.seenIds]
    constructor
    · rintro ⟨f, mem, found⟩
      exact ⟨f, List.mem_append_left _ mem, found⟩
    · rintro ⟨f, mem, typed, rfl⟩
      rcases List.mem_append.1 mem with mem | last
      · exact ⟨f, mem, typed, rfl⟩
      · obtain rfl : f = fn := by simpa using last
        rcases skip with untyped | again
        · rw [Option.isNone_iff_eq_none.1 untyped] at typed
          cases typed
        · exact (g.seenIds _).1 (by simpa using again)
  · intro typed
    exact ⟨source, g.once, ids typed⟩
  · intro typed new other
    refine ⟨?_, ?_, ids typed⟩
    · intro c hc
      rcases List.mem_append.1 hc with old | added
      · exact source c old
      · have viab : viability an h object args fn = some c := by simpa using added
        have func := viability_func viab
        exact ⟨by simp [func], by rw [func, viab]⟩
    · rw [List.pairwise_append]
      refine ⟨g.once, ?_, ?_⟩
      · cases viability an h object args fn <;> simp
      · intro c hc d hd
        have viab : viability an h object args fn = some d := by simpa using hd
        rw [viability_func viab]
        rintro (id | ⟨inC, inF, member⟩)
        · have typedC : c.func.funcType.isSome = true := by
            obtain ⟨-, viabC⟩ := g.source c hc
            cases type : c.func.funcType with
            | none => simp [viability, type] at viabC
            | some _ => rfl
          have : fn.id ∈ seen := (g.seenIds _).2 ⟨c.func, (g.source c hc).1, typedC, id⟩
          simp [this] at new
        · have := other
          simp only [inF, Bool.true_and, sameMemberAsViable, List.any_eq_false] at this
          exact this c hc (sameMember_symm member)

theorem gathered : ∀ (rest : List FuncSymbol) {done seen viable}, Gathered an h object args done seen viable →
    ∃ seen', Gathered an h object args (done ++ rest) seen' (viableCandidates an h object args rest seen viable) := by
  intro rest
  induction rest with
  | nil =>
    intro done seen viable g
    exact ⟨seen, by simpa [viableCandidates] using g⟩
  | cons fn rest ih =>
    intro done seen viable g
    obtain ⟨skip, mark, add⟩ := g.step fn
    rw [viableCandidates]
    split
    · rename_i cond
      obtain ⟨seen', result⟩ := ih (skip (by simpa using cond))
      exact ⟨seen', by simpa using result⟩
    · rename_i cond
      obtain ⟨typed, new⟩ : fn.funcType.isNone = false ∧ seen.contains fn.id = false := by
        simpa only [Bool.or_eq_true, not_or, Bool.not_eq_true] using cond
      split
      · obtain ⟨seen', result⟩ := ih (mark typed)
        exact ⟨seen', by simpa using result⟩
      · rename_i other
        obtain ⟨seen', result⟩ := ih (add typed new (by simpa using other))
        exact ⟨seen', by simpa using result⟩

end

/-! ### The function selected -/

/-- The candidate at `i` is selected: it beats every other one, and no later one beats it. -/
def Selected (special : FuncType → FuncType → Bool) (viable : List ViableCandidate) (i : Nat) : Prop :=
  i < viable.length ∧ BeatsAll (beats special) (nth viable) viable.length i ∧
    StaysBest (beats special) (nth viable) viable.length i

theorem nth_mem {viable : List ViableCandidate} {i : Nat} (lt : i < viable.length) : nth viable i ∈ viable := by
  rw [nth, List.getD_eq_getElem _ _ lt]
  exact List.getElem_mem lt

theorem exists_nth {viable : List ViableCandidate} {c : ViableCandidate} (mem : c ∈ viable) :
    ∃ i < viable.length, nth viable i = c := by
  obtain ⟨i, lt, eq⟩ := List.getElem_of_mem mem
  exact ⟨i, lt, by rw [nth, List.getD_eq_getElem _ _ lt, eq]⟩

theorem verified_iff {viable : List ViableCandidate} (settled : ∀ c ∈ viable, c.dependent = false) {best : Nat}
    (lt : best < viable.length) :
    verified special viable best = true ↔ BeatsAll (beats special) (nth viable) viable.length best := by
  rw [verified, List.all_eq_true]
  constructor
  · intro all i ltI ne
    have := all i (List.mem_range.2 ltI)
    simpa [ne, settled _ (nth_mem ltI), settled _ (nth_mem lt)] using this
  · intro all i hi
    by_cases same : i = best
    · simp [same]
    · simp [all i (List.mem_range.1 hi) same]

/-- What `resolveViable` returns where no candidate waits for an instantiation. -/
theorem resolveViable_ok {viable : List ViableCandidate} {args : Nat} {fn : FuncSymbol}
    (settled : ∀ c ∈ viable, c.dependent = false) :
    resolveViable special viable args = .ok fn ↔ ∃ i, Selected special viable i ∧ (nth viable i).func = fn := by
  unfold resolveViable
  split
  · constructor
    · intro bad
      cases bad
    · rintro ⟨i, ⟨lt, -⟩, -⟩
      omega
  split
  · constructor
    · intro found
      refine ⟨0, ⟨by omega, fun i lt ne => by omega, fun i lt after => by omega⟩, ?_⟩
      cases found
      rfl
    · rintro ⟨i, ⟨lt, -⟩, rfl⟩
      obtain rfl : i = 0 := by omega
      rfl
  · have pred : viable.length - 1 + 1 = viable.length := by omega
    have le : bestViable special viable ≤ viable.length - 1 := runningBest_le ..
    have stays : StaysBest (beats special) (nth viable) viable.length (bestViable special viable) := by
      have := runningBest_stays (beats special) (nth viable) (viable.length - 1)
      rwa [pred] at this
    have best : ∀ i, Selected special viable i → bestViable special viable = i := by
      rintro i ⟨lt, all, staysI⟩
      rw [← pred] at all staysI
      exact runningBest_of_beatsAll (beats special) (nth viable) (by omega) all staysI
    have check := @verified_iff special viable settled (bestViable special viable) (by omega)
    split
    · rename_i passed
      constructor
      · intro found
        exact ⟨_, ⟨by omega, check.1 passed, stays⟩, Except.ok.inj found⟩
      · rintro ⟨i, selected, rfl⟩
        rw [best i selected]
    · rename_i failed
      constructor
      · intro bad
        cases bad
      · rintro ⟨i, selected, rfl⟩
        refine absurd (check.2 ?_) failed
        rw [best i selected]
        exact selected.2.1

/-! ### Conversions that are worse -/

/-- A candidate selected in spite of a worse argument: a tie-breaker put it before one that is
better on an argument and worse on another. -/
def CrossedWinner (special : FuncType → FuncType → Bool) (viable : List ViableCandidate) : Prop :=
  ∃ i j, i < viable.length ∧ j < viable.length ∧ i ≠ j ∧ betterSomewhere (nth viable i) (nth viable j) = true ∧
    worseSomewhere (nth viable i) (nth viable j) = true ∧ tieBreak special (nth viable i) (nth viable j) < 0 ∧
    Selected special viable i

/-- The function selected has no conversion that is worse than another viable candidate's. -/
def NeverWorse (viable : List ViableCandidate) (result : Except ResolveError FuncSymbol) : Prop :=
  ∀ fn, result = .ok fn → ∃ c ∈ viable, c.func = fn ∧ ∀ g ∈ viable, g.func.id ≠ fn.id →
    ∀ p ∈ c.conversions.zip g.conversions, compareConversions p.1 p.2 ≤ 0

theorem not_worseSomewhere {c g : ViableCandidate} :
    worseSomewhere c g = false ↔ ∀ p ∈ c.conversions.zip g.conversions, compareConversions p.1 p.2 ≤ 0 := by
  simp [worseSomewhere, List.any_eq_false]

theorem beats_worse {c g : ViableCandidate} (better : beats special c g = true) (worse : worseSomewhere c g = true) :
    betterSomewhere c g = true ∧ tieBreak special c g < 0 := by
  simp only [beats, decide_eq_true_eq, compareCandidates, worse, Bool.not_true, Bool.and_false, Bool.false_eq_true,
    if_false, Bool.true_and] at better
  split at better
  · omega
  · rename_i some
    exact ⟨by simpa using some, better⟩

/-- Different entries are different functions. -/
theorem nth_id_ne {viable : List ViableCandidate} (once : viable.Pairwise fun c d => ¬ Redeclares c.func d.func)
    {i j : Nat} (ltI : i < viable.length) (ltJ : j < viable.length) (ne : i ≠ j) :
    ¬ Redeclares (nth viable i).func (nth viable j).func := by
  rw [nth, nth, List.getD_eq_getElem _ _ ltI, List.getD_eq_getElem _ _ ltJ]
  rcases Nat.lt_or_gt_of_ne ne with lt | gt
  · exact List.pairwise_iff_getElem.1 once i j ltI ltJ lt
  · exact fun same => List.pairwise_iff_getElem.1 once j i ltJ ltI gt same.symm

theorem neverWorse_iff {viable : List ViableCandidate} {args : Nat} (settled : ∀ c ∈ viable, c.dependent = false)
    (once : viable.Pairwise fun c d => ¬ Redeclares c.func d.func) :
    NeverWorse viable (resolveViable special viable args) ↔ ¬ CrossedWinner special viable := by
  constructor
  · rintro never ⟨i, j, ltI, ltJ, ne, better, worse, tie, selected⟩
    have found := (@resolveViable_ok special viable args _ settled).2 ⟨i, selected, rfl⟩
    obtain ⟨c, mem, func, all⟩ := never _ found
    -- the candidate of that function is the one at `i`
    obtain ⟨k, ltK, rfl⟩ := exists_nth mem
    obtain rfl : k = i := by
      by_contra other
      exact nth_id_ne once ltK ltI other (.inl (by rw [func]))
    have ids : (nth viable j).func.id ≠ (nth viable k).func.id := fun eq => nth_id_ne once ltI ltJ ne (.inl eq.symm)
    have := not_worseSomewhere.2 (all _ (nth_mem ltJ) ids)
    rw [worse] at this
    cases this
  · intro none fn found
    obtain ⟨i, selected, rfl⟩ := (resolveViable_ok settled).1 found
    refine ⟨nth viable i, nth_mem selected.1, rfl, fun g mem ids => not_worseSomewhere.1 ?_⟩
    obtain ⟨j, ltJ, rfl⟩ := exists_nth mem
    have ne : i ≠ j := by
      rintro rfl
      exact ids rfl
    cases worse : worseSomewhere (nth viable i) (nth viable j) with
    | false => rfl
    | true =>
      obtain ⟨better, tie⟩ := beats_worse (selected.2.1 j ltJ ne.symm) worse
      exact absurd ⟨i, j, selected.1, ltJ, ne, better, worse, tie, selected⟩ none

/-- The viable candidates of a call. -/
def viableOf (an : Analysis) (h : Hierarchy) (candidates : List FuncSymbol) (object : Option Argument)
    (args : List Argument) : List ViableCandidate :=
  viableCandidates an h object args candidates [] []

theorem gathered_all (candidates : List FuncSymbol) (object : Option Argument) (args : List Argument) :
    ∃ seen, Gathered an h object args candidates seen (viableOf an h candidates object args) := by
  have start : Gathered an h object args [] [] [] := ⟨by simp, .nil, by simp⟩
  obtain ⟨seen, g⟩ := gathered candidates start
  exact ⟨seen, g⟩

/-- A tie-breaker puts the candidate at `i` before the one at `j`, although it is better on one argument and worse on
another, and not behind it. -/
def Crossed (special : FuncType → FuncType → Bool) (viable : List ViableCandidate) (i j : Nat) : Prop :=
  i < viable.length ∧ j < viable.length ∧ i ≠ j ∧ betterSomewhere (nth viable i) (nth viable j) = true ∧
    worseSomewhere (nth viable i) (nth viable j) = true ∧ tieBreak special (nth viable i) (nth viable j) < 0 ∧
    (j < i ∨ beats special (nth viable j) (nth viable i) = false)

theorem CrossedWinner.crossed {viable : List ViableCandidate} (winner : CrossedWinner special viable) :
    ∃ i j, Crossed special viable i j := by
  obtain ⟨i, j, ltI, ltJ, ne, better, worse, tie, selected⟩ := winner
  refine ⟨i, j, ltI, ltJ, ne, better, worse, tie, ?_⟩
  rcases Nat.lt_or_gt_of_ne ne with after | before
  · exact .inr (selected.2.2 j ltJ after)
  · exact .inl before

/-- Of two candidates the one that is put before the other is selected. -/
theorem Crossed.winner {viable : List ViableCandidate} {i j : Nat} (crossed : Crossed special viable i j)
    (two : viable.length = 2) : CrossedWinner special viable := by
  obtain ⟨ltI, ltJ, ne, better, worse, tie, last⟩ := crossed
  have wins : beats special (nth viable i) (nth viable j) = true := by
    simpa [beats, compareCandidates, better, worse] using tie
  refine ⟨i, j, ltI, ltJ, ne, better, worse, tie, ltI, fun k ltK other => ?_, fun k ltK after => ?_⟩
  · obtain rfl : k = j := by omega
    exact wins
  · obtain rfl : k = j := by omega
    exact last.resolve_left (by omega)

/-- A unit without templates in progress, Objective-C or explicit constructors. -/
def plainUnit : Analysis where
  isDependentType := fun _ => false
  hasDependentBase := fun _ => false
  objcConversion := fun _ _ => none
  deduceParam := fun _ _ => none
  explicit := fun _ _ => false

def noClasses : Hierarchy := .ofRecords [] (.refl true)

def paramsOf (types : List Ty) : List Param := types.map fun type => { type }

/-- `void f(int, double);` -/
def plainF : FuncSymbol :=
  { id := 1, name := "f", funcType := some { id := 1, params := paramsOf [.basic .int, .basic .double] } }

/-- `f<int>` of `template <class T> void f(double, T);` -/
def templateF : FuncSymbol :=
  { id := 2, name := "f", funcType := some { id := 2, params := paramsOf [.basic .double, .basic .int] }
    templateOf := some (none, some { id := 3, params := paramsOf [.basic .double, .dependent 0] }) }

/-- `void f(long, long);` -/
def longF : FuncSymbol :=
  { id := 4, name := "f", funcType := some { id := 4, params := paramsOf [.basic .long, .basic .long] } }

/-- The arguments `1, 1`. -/
def twoInts : List Argument := [{ type := some (.basic .int) }, { type := some (.basic .int) }]

/-- Two conversions of one argument that agree whether they start from an rvalue reference, or
that are not to references of two kinds. -/
def SameSource (cs1 cs2 : ConversionSequence) : Prop :=
  cs1.source.any isRValueReference = cs2.source.any isRValueReference ∨
    ((cs1.target.any Ty.isReference && cs2.target.any Ty.isReference) = true →
      cs1.target.any isLValueReference = cs2.target.any isLValueReference)

theorem compareTargets_antisymm {refs ref1L ref2L rvalue1 rvalue2 : Bool} (const1 const2 : Bool)
    (same : rvalue1 = rvalue2 ∨ (refs = true → ref1L = ref2L)) :
    compareTargets refs ref2L ref1L rvalue2 const2 const1 = -compareTargets refs ref1L ref2L rvalue1 const1 const2 := by
  revert refs ref1L ref2L rvalue1 rvalue2 const1 const2
  decide

theorem compareConversions_antisymm {cs1 cs2 : ConversionSequence} (same : SameSource cs1 cs2) :
    compareConversions cs2 cs1 = -compareConversions cs1 cs2 := by
  unfold compareConversions
  rw [Bool.and_comm (cs2.target.any Ty.isReference), compareTargets_antisymm cs1.isConst cs2.isConst same]
  rcases Nat.lt_trichotomy cs1.rank.toNat cs2.rank.toNat with lt | eq | gt
  · cases cs1.valid <;> cases cs2.valid <;> simp [lt, Nat.lt_asymm lt]
  · cases cs1.valid <;> cases cs2.valid <;> simp [eq]
  · cases cs1.valid <;> cases cs2.valid <;> simp [gt, Nat.lt_asymm gt]

theorem tieBreak_antisymm (c d : ViableCandidate) : tieBreak special d c = -tieBreak special c d := by
  unfold tieBreak
  cases c.isTemplate <;> cases d.isTemplate
  · rfl
  · rfl
  · rfl
  · simp only [Bool.not_true, Bool.and_false, Bool.and_true, Bool.false_eq_true, if_false, if_true]
    cases pc : templatePattern c.func with
    | none => cases templatePattern d.func <;> rfl
    | some p1 =>
      cases pd : templatePattern d.func with
      | none => rfl
      | some p2 =>
        simp only
        rw [show (p2.id == p1.id) = (p1.id == p2.id) from BEq.comm]
        cases p1.id == p2.id <;> cases special p1 p2 <;> cases special p2 p1 <;> rfl

/-- Two candidates whose conversions start alike. -/
def SameSources (c d : ViableCandidate) : Prop := ∀ p ∈ c.conversions.zip d.conversions, SameSource p.1 p.2

theorem better_iff_worse {c d : ViableCandidate} (same : SameSources c d) :
    betterSomewhere d c = worseSomewhere c d ∧ worseSomewhere d c = betterSomewhere c d := by
  have swap : d.conversions.zip c.conversions = (c.conversions.zip d.conversions).map Prod.swap :=
    (List.zip_swap ..).symm
  constructor
  · rw [betterSomewhere, worseSomewhere, swap, List.any_map, Bool.eq_iff_iff]
    simp only [List.any_eq_true, Function.comp_apply, Prod.fst_swap, Prod.snd_swap, decide_eq_true_eq]
    refine exists_congr fun p => and_congr_right fun mem => ?_
    rw [compareConversions_antisymm (same p mem)]
    omega
  · rw [betterSomewhere, worseSomewhere, swap, List.any_map, Bool.eq_iff_iff]
    simp only [List.any_eq_true, Function.comp_apply, Prod.fst_swap, Prod.snd_swap, decide_eq_true_eq]
    refine exists_congr fun p => and_congr_right fun mem => ?_
    rw [compareConversions_antisymm (same p mem)]
    omega

theorem compareCandidates_antisymm {c d : ViableCandidate} (same : SameSources c d) :
    compareCandidates special d c = -compareCandidates special c d := by
  obtain ⟨better, worse⟩ := better_iff_worse same
  unfold compareCandidates
  rw [better, worse, tieBreak_antisymm c d]
  cases betterSomewhere c d <;> cases worseSomewhere c d <;> simp

/-! ### Order -/

/-- Two outcomes that are one up to redeclarations. -/
def SameOutcome : Except ResolveError FuncSymbol → Except ResolveError FuncSymbol → Prop
  | .ok f, .ok g => Redeclares f g
  | .error .noCandidates, .error .noCandidates => True
  | .error (.noViable _), .error (.noViable _) => True
  | .error (.ambiguous _), .error (.ambiguous _) => True
  | _, _ => False

/-- What ranking reads of a candidate. -/
def rankData (c : ViableCandidate) : List ConversionSequence × Bool × Option FuncType :=
  (c.conversions, c.isTemplate, templatePattern c.func)

theorem beats_congr {c c' d d' : ViableCandidate} (hc : rankData c = rankData c') (hd : rankData d = rankData d') :
    beats special c d = beats special c' d' := by
  simp only [rankData, Prod.mk.injEq] at hc hd
  obtain ⟨convC, templC, patC⟩ := hc
  obtain ⟨convD, templD, patD⟩ := hd
  unfold beats compareCandidates betterSomewhere worseSomewhere tieBreak
  rw [convC, convD, templC, templD, patC, patD]

/-- The call is one whose outcome does not turn on the order: one pointer is one symbol; the
conversions of an argument start alike for any two viable candidates; and declarations of one
member are members both, convert alike, and are told from others together. -/
structure Orderly (an : Analysis) (h : Hierarchy) (candidates : List FuncSymbol) (object : Option Argument)
    (args : List Argument) : Prop where
  pointers : ∀ f ∈ candidates, ∀ g ∈ candidates, f.id = g.id → f = g
  sources : ∀ f ∈ candidates, ∀ g ∈ candidates, ∀ c d, viability an h object args f = some c →
    viability an h object args g = some d → SameSources c d
  members : ∀ f ∈ candidates, ∀ g ∈ candidates, sameMember f g = true → f.inClass.isSome = g.inClass.isSome
  trans : ∀ f ∈ candidates, ∀ g ∈ candidates, ∀ k ∈ candidates, Redeclares f g → Redeclares g k → Redeclares f k
  alike : ∀ f ∈ candidates, ∀ g ∈ candidates, Redeclares f g →
    (viability an h object args f).map rankData = (viability an h object args g).map rankData

section

variable {object : Option Argument} {args : List Argument} {candidates : List FuncSymbol}

theorem Orderly.of_perm (orderly : Orderly an h candidates object args) {other : List FuncSymbol}
    (perm : candidates.Perm other) : Orderly an h other object args where
  pointers := fun f hf g hg => orderly.pointers f (perm.mem_iff.2 hf) g (perm.mem_iff.2 hg)
  sources := fun f hf g hg => orderly.sources f (perm.mem_iff.2 hf) g (perm.mem_iff.2 hg)
  members := fun f hf g hg => orderly.members f (perm.mem_iff.2 hf) g (perm.mem_iff.2 hg)
  trans := fun f hf g hg k hk => orderly.trans f (perm.mem_iff.2 hf) g (perm.mem_iff.2 hg) k (perm.mem_iff.2 hk)
  alike := fun f hf g hg => orderly.alike f (perm.mem_iff.2 hf) g (perm.mem_iff.2 hg)

/-- Every candidate that can take the arguments is represented among those gathered. -/
theorem represented {whole : List FuncSymbol} (orderly : Orderly an h whole object args) : ∀ (rest : List FuncSymbol)
    {done : List FuncSymbol} {seen : List Nat} {viable : List ViableCandidate}, done ++ rest ⊆ whole →
    Gathered an h object args done seen viable →
    (∀ f ∈ done, (viability an h object args f).isSome = true → ∃ c ∈ viable, Redeclares f c.func) →
    ∀ f ∈ done ++ rest, (viability an h object args f).isSome = true →
      ∃ c ∈ viableCandidates an h object args rest seen viable, Redeclares f c.func := by
  intro rest
  induction rest with
  | nil =>
    intro done seen viable _ _ reps f mem some
    rw [viableCandidates]
    exact reps f (by simpa using mem) some
  | cons fn rest ih =>
    intro done seen viable sub g reps
    have sub' : (done ++ [fn]) ++ rest ⊆ whole := by simpa using sub
    have shift : done ++ fn :: rest = (done ++ [fn]) ++ rest := by simp
    have inDone : ∀ f ∈ done, f ∈ whole := fun f hf => sub (List.mem_append_left _ hf)
    have fnIn : fn ∈ whole := sub (by simp)
    obtain ⟨skip, mark, add⟩ := g.step fn
    -- it is enough to find one for `fn` itself
    have extend : ∀ {viable' : List ViableCandidate}, (∀ c ∈ viable, c ∈ viable') →
        ((viability an h object args fn).isSome = true → ∃ c ∈ viable', Redeclares fn c.func) →
        ∀ f ∈ done ++ [fn], (viability an h object args f).isSome = true → ∃ c ∈ viable', Redeclares f c.func := by
      intro viable' keep new f mem some
      rcases List.mem_append.1 mem with old | last
      · obtain ⟨c, hc, same⟩ := reps f old some
        exact ⟨c, keep c hc, same⟩
      · obtain rfl : f = fn := by simpa using last
        exact new some
    rw [viableCandidates, shift]
    split
    · rename_i cond
      have cond' : fn.funcType.isNone = true ∨ seen.contains fn.id = true := by simpa using cond
      refine ih sub' (skip cond') (extend (fun c hc => hc) fun some => ?_)
      rcases cond' with untyped | again
      · rw [viability, Option.isNone_iff_eq_none.1 untyped] at some
        cases some
      · obtain ⟨f, mem, -, id⟩ := (g.seenIds fn.id).1 (by simpa using again)
        obtain rfl := orderly.pointers f (inDone f mem) fn fnIn id
        exact reps f mem some
    · rename_i cond
      obtain ⟨typed, new⟩ : fn.funcType.isNone = false ∧ seen.contains fn.id = false := by
        simpa only [Bool.or_eq_true, not_or, Bool.not_eq_true] using cond
      split
      · rename_i again
        obtain ⟨inClass, same⟩ := Bool.and_eq_true_iff.1 again
        obtain ⟨c, hc, member⟩ := List.any_eq_true.1 same
        have inC := inDone c.func (g.source c hc).1
        refine ih sub' (mark typed) (extend (fun c hc => hc) fun _ => ⟨c, hc, .inr ⟨inClass, ?_, member⟩⟩)
        rw [← orderly.members fn fnIn c.func inC member]
        exact inClass
      · rename_i other
        refine ih sub' (add typed new (by simpa using other)) (extend (fun c hc => List.mem_append_left _ hc) fun some => ?_)
        obtain ⟨c, viab⟩ := Option.isSome_iff_exists.1 some
        exact ⟨c, by simp [viab], .inl (by rw [viability_func viab])⟩

/-- A call's viable candidates, as order sees them. -/
structure Ranked (an : Analysis) (h : Hierarchy) (candidates : List FuncSymbol) (object : Option Argument)
    (args : List Argument) (viable : List ViableCandidate) : Prop where
  source : ∀ c ∈ viable, c.func ∈ candidates ∧ viability an h object args c.func = some c
  once : viable.Pairwise fun c d => ¬ Redeclares c.func d.func
  represented : ∀ f ∈ candidates, (viability an h object args f).isSome = true → ∃ c ∈ viable, Redeclares f c.func

theorem ranked_viableOf (orderly : Orderly an h candidates object args) :
    Ranked an h candidates object args (viableOf an h candidates object args) := by
  obtain ⟨seen, g⟩ := @gathered_all an h candidates object args
  have start : Gathered an h object args [] [] [] := ⟨by simp, .nil, by simp⟩
  exact ⟨g.source, g.once, represented orderly candidates (fun _ hf => hf) start (by simp)⟩

/-- A candidate that beats every other function's. -/
def Top (special : FuncType → FuncType → Bool) (viable : List ViableCandidate) (c : ViableCandidate) : Prop :=
  c ∈ viable ∧ ∀ d ∈ viable, ¬ Redeclares d.func c.func → beats special c d = true

/-- With an antisymmetric comparison the one that beats every other one is selected. -/
theorem selected_iff_top (orderly : Orderly an h candidates object args) {viable : List ViableCandidate}
    (ranked : Ranked an h candidates object args viable) {fn : FuncSymbol} :
    (∃ i, Selected special viable i ∧ (nth viable i).func = fn) ↔ ∃ c, Top special viable c ∧ c.func = fn := by
  constructor
  · rintro ⟨i, ⟨lt, all, -⟩, rfl⟩
    refine ⟨nth viable i, ⟨nth_mem lt, fun d hd other => ?_⟩, rfl⟩
    obtain ⟨j, ltJ, rfl⟩ := exists_nth hd
    refine all j ltJ ?_
    rintro rfl
    exact other (.inl rfl)
  · rintro ⟨c, ⟨hc, all⟩, rfl⟩
    obtain ⟨i, lt, rfl⟩ := exists_nth hc
    have wins : ∀ j < viable.length, j ≠ i → beats special (nth viable i) (nth viable j) = true :=
      fun j ltJ ne => all _ (nth_mem ltJ) (nth_id_ne ranked.once ltJ lt ne)
    refine ⟨i, ⟨lt, wins, fun j ltJ after => ?_⟩, rfl⟩
    have won := wins j ltJ (by omega)
    obtain ⟨inI, viabI⟩ := ranked.source _ (nth_mem lt)
    obtain ⟨inJ, viabJ⟩ := ranked.source _ (nth_mem ltJ)
    have anti := @compareCandidates_antisymm special _ _ (orderly.sources _ inI _ inJ _ _ viabI viabJ)
    simp only [beats, decide_eq_true_eq, decide_eq_false_iff_not] at won ⊢
    omega

/-- What beats every other candidate still does in another order. -/
theorem top_of_perm (orderly : Orderly an h candidates object args) {other : List FuncSymbol}
    (perm : candidates.Perm other) {viable viable' : List ViableCandidate}
    (ranked : Ranked an h candidates object args viable) (ranked' : Ranked an h other object args viable')
    {c : ViableCandidate} (top : Top special viable c) :
    ∃ c', Top special viable' c' ∧ Redeclares c.func c'.func := by
  obtain ⟨hc, all⟩ := top
  obtain ⟨inC, viabC⟩ := ranked.source c hc
  obtain ⟨c', hc', same⟩ := ranked'.represented c.func (perm.mem_iff.1 inC) (by rw [viabC]; rfl)
  obtain ⟨inC', viabC'⟩ := ranked'.source c' hc'
  have inC'' := perm.mem_iff.2 inC'
  have dataOf : ∀ {x y : ViableCandidate}, x.func ∈ candidates → y.func ∈ candidates →
      viability an h object args x.func = some x → viability an h object args y.func = some y →
      Redeclares x.func y.func → rankData x = rankData y := by
    intro x y inX inY viabX viabY eq
    have := orderly.alike _ inX _ inY eq
    rw [viabX, viabY] at this
    exact Option.some.inj this
  refine ⟨c', ⟨hc', fun d' hd' otherD => ?_⟩, same⟩
  obtain ⟨inD', viabD'⟩ := ranked'.source d' hd'
  have inD'' := perm.mem_iff.2 inD'
  obtain ⟨d, hd, sameD⟩ := ranked.represented d'.func inD'' (by rw [viabD']; rfl)
  obtain ⟨inD, viabD⟩ := ranked.source d hd
  have apart : ¬ Redeclares d.func c.func := fun eq =>
    otherD (orderly.trans _ inD'' _ inC _ inC'' (orderly.trans _ inD'' _ inD _ inC sameD eq) same)
  rw [← beats_congr (dataOf inC inC'' viabC viabC' same) (dataOf inD inD'' viabD viabD' sameD.symm)]
  exact all d hd apart

theorem resolveViable_cases (viable : List ViableCandidate) (n : Nat) :
    (viable = [] ∧ resolveViable special viable n = .error (.noViable n)) ∨
    (viable ≠ [] ∧ ((∃ fn, resolveViable special viable n = .ok fn) ∨
      ∃ name, resolveViable special viable n = .error (.ambiguous name))) := by
  unfold resolveViable
  cases viable with
  | nil => exact .inl ⟨rfl, rfl⟩
  | cons c rest =>
    refine .inr ⟨by simp, ?_⟩
    rw [if_neg (by simp)]
    split
    · exact .inl ⟨_, rfl⟩
    split
    · exact .inl ⟨_, rfl⟩
    · exact .inr ⟨_, rfl⟩

theorem sameOutcome_resolveViable (orderly : Orderly an h candidates object args) {other : List FuncSymbol}
    (perm : candidates.Perm other) {viable viable' : List ViableCandidate}
    (ranked : Ranked an h candidates object args viable) (ranked' : Ranked an h other object args viable')
    (settled : ∀ c ∈ viable, c.dependent = false) (settled' : ∀ c ∈ viable', c.dependent = false) (n : Nat) :
    SameOutcome (resolveViable special viable n) (resolveViable special viable' n) := by
  have orderly' := orderly.of_perm perm
  have empty : viable = [] ↔ viable' = [] := by
    have of : ∀ {l l' : List ViableCandidate} {k k' : List FuncSymbol}, k.Perm k' → Ranked an h k object args l →
        Ranked an h k' object args l' → l' = [] → l = [] := by
      intro l l' k k' p r r' none
      rw [List.eq_nil_iff_forall_not_mem]
      intro c hc
      obtain ⟨inC, viabC⟩ := r.source c hc
      obtain ⟨c', hc', -⟩ := r'.represented c.func (p.mem_iff.1 inC) (by rw [viabC]; rfl)
      rw [none] at hc'
      cases hc'
    exact ⟨of perm.symm ranked' ranked, of perm ranked ranked'⟩
  -- a function selected in one order is selected in the other
  have found : ∀ fn, resolveViable special viable n = .ok fn →
      ∃ fn', resolveViable special viable' n = .ok fn' ∧ Redeclares fn fn' := by
    intro fn ok
    obtain ⟨c, top, rfl⟩ := (selected_iff_top orderly ranked).1 ((resolveViable_ok settled).1 ok)
    obtain ⟨c', top', same⟩ := top_of_perm orderly perm ranked ranked' top
    exact ⟨c'.func, (resolveViable_ok settled').2 ((selected_iff_top orderly' ranked').2 ⟨c', top', rfl⟩), same⟩
  have found' : ∀ fn, resolveViable special viable' n = .ok fn → ∃ fn', resolveViable special viable n = .ok fn' := by
    intro fn ok
    obtain ⟨c, top, rfl⟩ := (selected_iff_top orderly' ranked').1 ((resolveViable_ok settled').1 ok)
    obtain ⟨c', top', -⟩ := top_of_perm orderly' perm.symm ranked' ranked top
    exact ⟨c'.func, (resolveViable_ok settled).2 ((selected_iff_top orderly ranked).2 ⟨c', top', rfl⟩)⟩
  rcases @resolveViable_cases special viable n with ⟨none, eq⟩ | ⟨some, ⟨fn, eq⟩ | ⟨name, eq⟩⟩
  · rcases @resolveViable_cases special viable' n with ⟨-, eq'⟩ | ⟨some', -⟩
    · rw [eq, eq']
      trivial
    · exact absurd (empty.1 none) some'
  · obtain ⟨fn', eq', same⟩ := found fn eq
    rw [eq, eq']
    exact same
  · rcases @resolveViable_cases special viable' n with ⟨none', -⟩ | ⟨-, ⟨fn', eq'⟩ | ⟨name', eq'⟩⟩
    · exact absurd (empty.2 none') some
    · obtain ⟨fn, bad⟩ := found' fn' eq'
      rw [eq] at bad
      cases bad
    · rw [eq, eq']
      trivial

end

/-- **The order of the candidates makes no difference to an orderly call**, on which
`compareCandidates` is antisymmetric. -/
theorem resolveOverloadOn_order (an : Analysis) (h : Hierarchy) (special : FuncType → FuncType → Bool)
    (candidates : List FuncSymbol) (object : Option Argument) (args : List Argument)
    (orderly : Orderly an h candidates object args)
    (settled : ∀ f ∈ candidates, ∀ c, viability an h object args f = some c → c.dependent = false) :
    (∀ f ∈ candidates, ∀ g ∈ candidates, ∀ c d, viability an h object args f = some c →
      viability an h object args g = some d → compareCandidates special d c = -compareCandidates special c d) ∧
    ∀ other, candidates.Perm other → SameOutcome (resolveOverloadOn an h special candidates object args)
      (resolveOverloadOn an h special other object args) := by
  refine ⟨fun f hf g hg c d viabC viabD =>
    compareCandidates_antisymm (orderly.sources f hf g hg c d viabC viabD), fun other perm => ?_⟩
  have ranked := ranked_viableOf orderly
  have ranked' := ranked_viableOf (orderly.of_perm perm)
  unfold resolveOverloadOn
  cases candidates with
  | nil =>
    obtain rfl := List.nil_perm.1 perm
    trivial
  | cons f rest =>
    have ne : other ≠ [] := by
      rintro rfl
      exact absurd perm.symm.nil_eq (by simp)
    rw [if_neg (by simp), if_neg ne]
    refine sameOutcome_resolveViable orderly perm ranked ranked' ?_ ?_ _
    · intro c hc
      obtain ⟨mem, viab⟩ := ranked.source c hc
      exact settled _ mem c viab
    · intro c hc
      obtain ⟨mem, viab⟩ := ranked'.source c hc
      exact settled _ (perm.mem_iff.2 mem) c viab

/-- The call of `neverWorse_plain` is orderly. -/
theorem order_plain :
    SameOutcome (resolveOverloadOn plainUnit noClasses (fun _ _ => false) [plainF, longF] none twoInts)
      (resolveOverloadOn plainUnit noClasses (fun _ _ => false) [longF, plainF] none twoInts) := by
  have two : ∀ {f : FuncSymbol}, f ∈ [plainF, longF] → f = plainF ∨ f = longF := by simp
  have one : ∀ f ∈ [plainF, longF], ∀ g ∈ [plainF, longF], sameMember f g = true → f = g := by
    intro f hf g hg same
    rcases two hf with rfl | rfl <;> rcases two hg with rfl | rfl <;> first | rfl | cases same
  have same : ∀ f ∈ [plainF, longF], ∀ g ∈ [plainF, longF], Redeclares f g → f = g := by
    rintro f hf g hg (id | ⟨-, -, member⟩)
    · exact one f hf g hg (by simp [sameMember, id])
    · exact one f hf g hg member
  have orderly : Orderly plainUnit noClasses [plainF, longF] none twoInts := by
    refine ⟨fun f hf g hg id => same f hf g hg (.inl id), ?_, fun f hf g hg member => by rw [one f hf g hg member],
      fun f hf g hg k hk fg gk => by rw [same f hf g hg fg]; exact gk, fun f hf g hg fg => by rw [same f hf g hg fg]⟩
    intro f hf g hg c d viabC viabD
    have starts : ∀ f ∈ [plainF, longF], (viability plainUnit noClasses none twoInts f).all (fun c =>
        c.conversions.all fun cs => !cs.source.any isRValueReference) = true := by decide
    intro p hp
    have := starts f hf
    rw [viabC] at this
    have left := List.all_eq_true.1 this p.1 (List.of_mem_zip hp).1
    have := starts g hg
    rw [viabD] at this
    have right := List.all_eq_true.1 this p.2 (List.of_mem_zip hp).2
    exact .inl ((by simpa using left : _ = false).trans (by simpa using right : _ = false).symm)
  have settled : ∀ f ∈ [plainF, longF], (viability plainUnit noClasses none twoInts f).all (fun c => !c.dependent) = true := by
    decide
  refine (resolveOverloadOn_order plainUnit noClasses (fun _ _ => false) [plainF, longF] none twoInts orderly ?_).2
    [longF, plainF] (.swap ..)
  intro f hf c viab
  have := settled f hf
  rw [viab] at this
  simpa using this

/-- `void (int)` and a reference to it. -/
def funcType : Ty := .func (.basic .void) [.basic .int] false {} .none false

/-- `G(void (&&)(int), double);` of a class `G`. -/
def rvalueG : FuncSymbol :=
  { id := 1, name := "G", inClass := some 0, method := some 1
    funcType := some { id := 1, params := paramsOf [.rvalueReference funcType, .basic .double] } }

/-- `template <class T> G(void (&)(int), T);`, with `int` for `T`. -/
def lvalueG : FuncSymbol :=
  { id := 2, name := "G", inClass := some 0, method := some 2
    funcType := some { id := 2, params := paramsOf [.lvalueReference funcType, .basic .int] }
    template := some (some { id := 3, params := paramsOf [.lvalueReference funcType, .dependent 0] }) }

/-- The arguments `f, 1` where `f` is overloaded: `void f(int); void f(double);` -/
def overloadedArgs : List Argument :=
  [{ type := some funcType, isLValue := true
     overloads := [{ id := 5, name := "f", funcType := some { id := 5, params := paramsOf [.basic .int], ret := some (.basic .void) } },
       { id := 6, name := "f", funcType := some { id := 6, params := paramsOf [.basic .double], ret := some (.basic .void) } }] },
    { type := some (.basic .int) }]

/-- The mem-initializer `G(f, 1)` of a class with the base `G`: each of its two constructors beats the other, and the last
one is selected. -/
theorem order_overloaded : ¬ ∀ (an : Analysis) (h : Hierarchy) (special : FuncType → FuncType → Bool)
    (candidates : List FuncSymbol) (object : Option Argument) (args : List Argument),
    (∀ f ∈ candidates, ∀ c, viability an h object args f = some c → c.dependent = false) →
    (∀ f ∈ candidates, ∀ g ∈ candidates, ∀ c d, viability an h object args f = some c →
      viability an h object args g = some d → compareCandidates special d c = -compareCandidates special c d) ∧
    ∀ other, candidates.Perm other → SameOutcome (resolveOverloadOn an h special candidates object args)
      (resolveOverloadOn an h special other object args) := by
  intro all
  have settled : ∀ f ∈ [rvalueG, lvalueG],
      (viability plainUnit noClasses none overloadedArgs f).all (fun c => !c.dependent) = true := by decide
  have same := (all plainUnit noClasses (fun _ _ => false) [rvalueG, lvalueG] none overloadedArgs (by
    intro f hf c viab
    have := settled f hf
    rw [viab] at this
    simpa using this)).2 [lvalueG, rvalueG] (.swap ..)
  have first : resolveOverloadOn plainUnit noClasses (fun _ _ => false) [rvalueG, lvalueG] none overloadedArgs =
      .ok lvalueG := rfl
  have second : resolveOverloadOn plainUnit noClasses (fun _ _ => false) [lvalueG, rvalueG] none overloadedArgs =
      .ok rvalueG := rfl
  rw [first, second] at same
  rcases same with id | ⟨-, -, member⟩
  · cases id
  · cases member

end Vcx.Sema
