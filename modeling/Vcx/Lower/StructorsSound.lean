import Vcx.Lower.Structors

/-!
# When implicit construction and destruction are right

`defaultConstruct` does what C++ says, whatever order the map of virtual bases has, exactly on the
classes of `constructKept`; the implicit part of destructors does exactly on those of `destroyKept`.
-/

namespace Vcx.Structors
set_option autoImplicit false
open Vcx.Lib Vcx.Types

variable {p : Program} {r c i k : Nat}

/-! ### Parts -/

theorem plainBase_lt (eq : p.plainBase r i = some c) : c < r := by
  obtain ⟨b, atB, plain⟩ := Option.bind_eq_some_iff.1 eq
  exact p.h.base_lt r b (List.mem_of_getElem? atB) c (BaseSpec.plain_eq_some.1 plain).2

theorem fieldElem_lt {f : Field} (atF : (p.fields r)[i]? = some f) (eq : f.type.recordElem = some c) : c < r :=
  p.h.member_lt r f (List.mem_of_getElem? atF) c eq

theorem elem_lt (eq : (p.fields r)[i]?.bind (·.type.recordElem) = some c) : c < r := by
  obtain ⟨f, atF, elem⟩ := Option.bind_eq_some_iff.1 eq
  exact fieldElem_lt atF elem

theorem vbase_lt (mem : c ∈ virtualBases p.h r) : c < r := (mem_virtualBases.1 mem).lt

theorem label_under {s : Step} {es : List Event} : ∀ e ∈ under s es, e.label = some s := by
  intro e mem
  obtain ⟨e', -, rfl⟩ := List.mem_map.1 mem
  rfl

theorem under_injective (s : Step) : Function.Injective (under s) := by
  apply List.map_injective_iff.2
  rintro ⟨path, act⟩ ⟨path', act'⟩ same
  simp only [Event.mk.injEq, List.cons.injEq, true_and] at same
  rw [same.1, same.2]

theorem under_nodup {s : Step} {es : List Event} (nodup : es.Nodup) : (under s es).Nodup := by
  refine nodup.map fun e e' same => ?_
  have whole : under s [e] = under s [e'] := congrArg (fun x => [x]) same
  exact List.singleton_inj.1 (under_injective s whole)

theorem under_eq_nil_iff {s : Step} {es : List Event} : under s es = [] ↔ es = [] := List.map_eq_nil_iff

/-- The outcomes of a part are one where those of its class are. -/
theorem under_outcomes_iff {s : Step} {A : List (List Event)} {x : List Event} :
    (∀ es ∈ A.map (under s), es = under s x) ↔ ∀ es ∈ A, es = x := by
  simp only [List.mem_map, forall_exists_index, and_imp, forall_apply_eq_imp_iff₂, (under_injective s).eq_iff]

theorem baseSteps_nodup : (baseSteps p r).Nodup :=
  List.nodup_range.map fun i j same => by simpa using same

theorem vbaseSteps_nodup : (vbaseSteps p r).Nodup :=
  (virtualBases_nodup r).map fun i j same => by simpa using same

theorem fieldSteps_nodup {count : Field → Nat} : (fieldSteps p count r).Nodup := by
  apply List.nodup_flatMap.2
  refine ⟨fun i _ => List.nodup_range.map fun k l same => by simpa using same, ?_⟩
  refine List.nodup_range.imp fun {i j} other => ?_
  intro s memI memJ
  obtain ⟨k, -, rfl⟩ := List.mem_map.1 memI
  obtain ⟨l, -, same⟩ := List.mem_map.1 memJ
  simp only [Option.some.injEq, Step.field.injEq] at same
  exact other same.1.symm

theorem mem_baseSteps {s : Option Step} (mem : s ∈ baseSteps p r) : ∃ i, s = some (.base i) := by
  obtain ⟨i, -, rfl⟩ := List.mem_map.1 mem
  exact ⟨i, rfl⟩

theorem mem_fieldSteps {count : Field → Nat} {s : Option Step} (mem : s ∈ fieldSteps p count r) :
    ∃ i k, s = some (.field i k) := by
  obtain ⟨i, -, mem⟩ := List.mem_flatMap.1 mem
  obtain ⟨k, -, rfl⟩ := List.mem_map.1 mem
  exact ⟨i, k, rfl⟩

theorem mem_vbaseSteps {s : Option Step} : s ∈ vbaseSteps p r ↔ ∃ v ∈ virtualBases p.h r, s = some (.vbase v) := by
  simp only [vbaseSteps, List.mem_map, eq_comm]

theorem builtSteps_nodup : (builtSteps p r).Nodup := by
  unfold builtSteps
  rw [List.nodup_append']
  refine ⟨baseSteps_nodup, List.nodup_cons.2 ⟨fun mem => ?_, fieldSteps_nodup⟩, fun s base rest => ?_⟩
  · obtain ⟨i, k, same⟩ := mem_fieldSteps mem
    cases same
  · obtain ⟨i, rfl⟩ := mem_baseSteps base
    obtain same | field := List.mem_cons.1 rest
    · cases same
    · obtain ⟨j, k, same⟩ := mem_fieldSteps field
      cases same

/-- The steps in the order their parts are destroyed, virtual bases last. -/
def endSteps (p : Program) (r : Nat) (complete : Bool) : List (Option Step) :=
  destroyedSteps p r ++ if complete then (vbaseSteps p r).reverse else []

/-- The steps within an object itself. -/
def isOwn : Option Step → Bool
  | some (.vbase _) => false
  | _ => true

theorem isOwn_of_built {s : Option Step} (mem : s ∈ builtSteps p r) : isOwn s = true := by
  obtain base | rest := List.mem_append.1 mem
  · obtain ⟨i, rfl⟩ := mem_baseSteps base
    rfl
  · obtain rfl | field := List.mem_cons.1 rest
    · rfl
    · obtain ⟨i, k, rfl⟩ := mem_fieldSteps field
      rfl

theorem isOwn_of_destroyed {s : Option Step} (mem : s ∈ destroyedSteps p r) : isOwn s = true := by
  obtain rfl | rest := List.mem_cons.1 mem
  · rfl
  · obtain base | field := List.mem_append.1 (List.mem_reverse.1 rest)
    · obtain ⟨i, rfl⟩ := mem_baseSteps base
      rfl
    · obtain ⟨i, k, rfl⟩ := mem_fieldSteps field
      rfl

theorem isOwn_of_vbase {s : Option Step} (mem : s ∈ vbaseSteps p r) : isOwn s = false := by
  obtain ⟨v, -, rfl⟩ := mem_vbaseSteps.1 mem
  rfl

theorem destroyedSteps_nodup : (destroyedSteps p r).Nodup := by
  unfold destroyedSteps
  rw [List.nodup_cons, List.mem_reverse, List.nodup_reverse, List.nodup_append']
  refine ⟨fun mem => ?_, baseSteps_nodup, fieldSteps_nodup, fun s base field => ?_⟩
  · obtain base | field := List.mem_append.1 mem
    · obtain ⟨i, same⟩ := mem_baseSteps base
      cases same
    · obtain ⟨i, k, same⟩ := mem_fieldSteps field
      cases same
  · obtain ⟨i, rfl⟩ := mem_baseSteps base
    obtain ⟨j, k, same⟩ := mem_fieldSteps field
    cases same

theorem endSteps_nodup {complete : Bool} : (endSteps p r complete).Nodup := by
  unfold endSteps
  rw [List.nodup_append']
  refine ⟨destroyedSteps_nodup, ?_, fun s own other => ?_⟩
  · split_ifs
    · exact List.nodup_reverse.2 vbaseSteps_nodup
    · exact List.nodup_nil
  · split_ifs at other
    · have vbase := isOwn_of_vbase (List.mem_reverse.1 other)
      rw [isOwn_of_destroyed own] at vbase
      cases vbase
    · exact List.not_mem_nil other

/-- A step to destroy is one of the object itself or to a virtual base. -/
theorem known_of_end {complete : Bool} {s : Option Step} (mem : s ∈ endSteps p r complete) :
    isOwn s = true ∨ s ∈ vbaseSteps p r := by
  obtain own | other := List.mem_append.1 mem
  · exact .inl (isOwn_of_destroyed own)
  · split_ifs at other
    · exact .inr (List.mem_reverse.1 other)
    · exact absurd other List.not_mem_nil

/-! ### What is done at all -/

theorem needsConstruction_eq (r : Nat) : needsConstruction p r =
    needsConstructionBody p (below (needsConstruction p) false r) r := fix_eq ..

theorem construct_eq (r : Nat) : construct p r = constructBody p (below (construct p) (fun _ => [[]]) r) r := fix_eq ..

theorem cxxConstruct_eq (r : Nat) : cxxConstruct p r = cxxConstructBody p (below (cxxConstruct p) (fun _ => []) r) r :=
  fix_eq ..

theorem builds_eq (r : Nat) : builds p r = buildsBody p (below (builds p) (fun _ => false) r) r := fix_eq ..

theorem constructKept_eq (r : Nat) :
    constructKept p r = constructKeptBody p (below (constructKept p) (fun _ => true) r) r := fix_eq ..

theorem needsConstruction_of_base {b : BaseSpec} (mem : b ∈ p.bases r) (cls : b.cls = some c)
    (needs : needsConstruction p c = true) : needsConstruction p r = true := by
  have lt := p.h.base_lt r b mem c cls
  rw [needsConstruction_eq]
  simp only [needsConstructionBody, Bool.or_eq_true, List.any_eq_true]
  refine .inl (.inr ⟨b, mem, ?_⟩)
  rw [cls, Option.any_some, below_lt lt]
  exact needs

theorem needsConstruction_of_derives (path : p.h.Derives r c) (needs : needsConstruction p c = true) :
    needsConstruction p r = true := by
  induction path with
  | refl => exact needs
  | tail _ step ih =>
    obtain ⟨b, mem, cls⟩ := step
    exact ih (needsConstruction_of_base mem cls needs)

theorem needsConstruction_of_field {f : Field} (atF : (p.fields r)[i]? = some f)
    (needs : f.hasInit = true ∨ ∃ c, f.type.recordElem = some c ∧ needsConstruction p c = true) :
    needsConstruction p r = true := by
  rw [needsConstruction_eq]
  simp only [needsConstructionBody, Bool.or_eq_true, List.any_eq_true]
  refine .inr ⟨f, List.mem_of_getElem? atF, ?_⟩
  obtain init | ⟨c, elem, needs⟩ := needs
  · exact .inl init
  · refine .inr ?_
    rw [elem, Option.any_some, below_lt (fieldElem_lt atF elem)]
    exact needs

theorem needsConstruction_of_default (own : p.defaultCtor r = true) : needsConstruction p r = true := by
  rw [needsConstruction_eq]
  simp [needsConstructionBody, p.ownCtor_of_default r own]

theorem defaultCtor_of_initializes (init : p.initializes r c = true) : p.defaultCtor r = true :=
  ((Bool.and_eq_true ..).mp init).1

/-- What default-initialization does anything to needs construction. -/
theorem needsConstruction_of_builds {complete : Bool} (built : builds p r complete = true) :
    needsConstruction p r = true := by
  induction r using Nat.strong_induction_on generalizing complete with
  | _ r ih =>
    rw [builds_eq] at built
    simp only [buildsBody, Bool.or_eq_true, Bool.and_eq_true, List.any_eq_true] at built
    obtain ⟨-, s, mem, built⟩ | own | ⟨s, mem, built⟩ := built
    · obtain ⟨v, vbase, rfl⟩ := mem_vbaseSteps.1 mem
      rw [buildsPart, below_lt (vbase_lt vbase), Bool.or_eq_true] at built
      obtain init | built := built
      · exact needsConstruction_of_default (defaultCtor_of_initializes init)
      · exact needsConstruction_of_derives (mem_virtualBases.1 vbase).derives (ih v (vbase_lt vbase) built)
    · exact needsConstruction_of_default own
    · match s with
      | none =>
        rw [needsConstruction_eq]
        have tables : p.tables r = true := built
        simp [needsConstructionBody, tables]
      | some (.vbase v) => exact absurd (isOwn_of_built mem) Bool.false_ne_true
      | some (.base i) =>
        simp only [buildsPart, Option.any_eq_true] at built
        obtain ⟨c, base, built⟩ := built
        rw [below_lt (plainBase_lt base)] at built
        obtain ⟨b, atB, plain⟩ := Option.bind_eq_some_iff.1 base
        exact needsConstruction_of_base (List.mem_of_getElem? atB) (BaseSpec.plain_eq_some.1 plain).2
          (ih c (plainBase_lt base) built)
      | some (.field i k) =>
        simp only [buildsPart, Option.any_eq_true, Bool.or_eq_true, Bool.and_eq_true] at built
        obtain ⟨f, atF, init | ⟨-, c, elem, built⟩⟩ := built
        · simp only [hasDefault, Bool.and_eq_true] at init
          exact needsConstruction_of_field atF (.inl init.1)
        · rw [below_lt (fieldElem_lt atF elem)] at built
          exact needsConstruction_of_field atF (.inr ⟨c, elem, ih c (fieldElem_lt atF elem) built⟩)

section

variable {f : Nat → Bool → List (List Event)} {g : Nat → Bool → List Event}

theorem builtPart_label {s : Option Step} : ∀ es ∈ builtPart p f r s, ∀ e ∈ es, e.label = s := by
  intro es mem e inside
  match s with
  | none =>
    simp only [builtPart, List.mem_singleton] at mem
    subst mem
    split_ifs at inside
    · rw [List.mem_singleton.1 inside]
      rfl
    · cases inside
  | some (.vbase v) =>
    obtain ⟨es', -, rfl⟩ := List.mem_map.1 mem
    exact label_under e inside
  | some (.base i) =>
    simp only [builtPart] at mem
    split at mem
    · obtain ⟨es', -, rfl⟩ := List.mem_map.1 mem
      exact label_under e inside
    · rw [List.mem_singleton.1 mem] at inside
      cases inside
  | some (.field i k) =>
    simp only [builtPart] at mem
    split at mem
    · rw [List.mem_singleton.1 mem] at inside
      cases inside
    · split_ifs at mem
      · rw [List.mem_singleton.1 mem] at inside
        rw [List.mem_singleton.1 inside]
        rfl
      · split at mem
        · split_ifs at mem
          · obtain ⟨es', -, rfl⟩ := List.mem_map.1 mem
            exact label_under e inside
          · rw [List.mem_singleton.1 mem] at inside
            cases inside
        · rw [List.mem_singleton.1 mem] at inside
          cases inside

theorem cxxBuiltPart_label {s : Option Step} : ∀ e ∈ cxxBuiltPart p g r s, e.label = s := by
  intro e inside
  match s with
  | none =>
    simp only [cxxBuiltPart] at inside
    split_ifs at inside
    · rw [List.mem_singleton.1 inside]
      rfl
    · cases inside
  | some (.vbase v) =>
    simp only [cxxBuiltPart] at inside
    split_ifs at inside
    · rw [List.mem_singleton.1 inside]
      rfl
    · exact label_under e inside
  | some (.base i) =>
    simp only [cxxBuiltPart] at inside
    split at inside
    · exact label_under e inside
    · cases inside
  | some (.field i k) =>
    simp only [cxxBuiltPart] at inside
    split at inside
    · cases inside
    · split_ifs at inside
      · rw [List.mem_singleton.1 inside]
        rfl
      · cases inside
      · split at inside
        · exact label_under e inside
        · cases inside

theorem constructOwn_isOwn : ∀ es ∈ constructOwn p f r, ∀ e ∈ es, isOwn e.label = true := by
  intro es mem e inside
  unfold constructOwn at mem
  split_ifs at mem
  · rw [List.mem_singleton.1 mem] at inside
    rw [List.mem_singleton.1 inside]
    rfl
  · exact isOwn_of_built (AllLabelled.mem_seqAll (fun s _ => builtPart_label) builtSteps_nodup es mem e inside)

/-- An object itself gets a table pointer or a constructor, and no initializer. -/
theorem constructBody_quiet {complete : Bool} : ∀ es ∈ constructBody p f r complete, (⟨[], .init⟩ : Event) ∉ es := by
  have quiet : ∀ es ∈ constructOwn p f r, (⟨[], .init⟩ : Event) ∉ es := by
    intro es mem inside
    unfold constructOwn at mem
    split_ifs at mem
    · simp [List.mem_singleton.1 mem] at inside
    · obtain ⟨g, chosen, rfl⟩ := (mem_seqAll builtSteps_nodup).1 mem
      obtain ⟨s, memS, inside⟩ := List.mem_flatMap.1 inside
      obtain rfl : none = s := builtPart_label _ (chosen s memS) _ inside
      have only := List.mem_singleton.1 (chosen none memS)
      rw [only] at inside
      split_ifs at inside <;> simp at inside
  intro es mem inside
  unfold constructBody at mem
  split_ifs at mem
  · obtain ⟨first, memFirst, mem⟩ := List.mem_flatMap.1 mem
    obtain ⟨own, memOwn, rfl⟩ := List.mem_map.1 mem
    obtain inside | inside := List.mem_append.1 inside
    · obtain ⟨v, -, label⟩ := mem_vbaseSteps.1
        (AllLabelled.mem_anyOrder (fun s _ => builtPart_label) vbaseSteps_nodup first memFirst _ inside)
      cases label
    · exact quiet own memOwn inside
  · exact quiet es mem inside

theorem cxxConstructOwn_isOwn : ∀ e ∈ cxxConstructOwn p g r, isOwn e.label = true := by
  intro e inside
  unfold cxxConstructOwn at inside
  split_ifs at inside
  · rw [List.mem_singleton.1 inside]
    rfl
  · exact isOwn_of_built (Labelled.mem (fun s _ => cxxBuiltPart_label) e inside)

/-- A part has an outcome where its class has. -/
theorem builtPart_ne_nil (some : ∀ c < r, ∀ complete, f c complete ≠ []) {s : Option Step}
    (known : s ∈ builtSteps p r ∨ s ∈ vbaseSteps p r) : builtPart p f r s ≠ [] := by
  match s with
  | none => exact List.cons_ne_nil _ _
  | Option.some (.vbase v) =>
    obtain own | vbase := known
    · exact absurd (isOwn_of_built own) Bool.false_ne_true
    · obtain ⟨v', mem, same⟩ := mem_vbaseSteps.1 vbase
      cases same
      exact fun empty => some v (vbase_lt mem) false (List.map_eq_nil_iff.1 empty)
  | Option.some (.base i) =>
    simp only [builtPart]
    split
    · rename_i c base
      exact fun empty => some c (plainBase_lt base) false (List.map_eq_nil_iff.1 empty)
    · exact List.cons_ne_nil _ _
  | Option.some (.field i k) =>
    simp only [builtPart]
    split
    · exact List.cons_ne_nil _ _
    · rename_i field atF
      split_ifs
      · exact List.cons_ne_nil _ _
      · split
        · rename_i c elem
          split_ifs
          · exact fun empty => some c (fieldElem_lt atF elem) true (List.map_eq_nil_iff.1 empty)
          · exact List.cons_ne_nil _ _
        · exact List.cons_ne_nil _ _

theorem constructOwn_ne_nil (some : ∀ c < r, ∀ complete, f c complete ≠ []) : constructOwn p f r ≠ [] := by
  unfold constructOwn
  split_ifs
  · exact List.cons_ne_nil _ _
  · exact seqAll_ne_nil fun s mem => builtPart_ne_nil some (.inl mem)

theorem constructBody_ne_nil (some : ∀ c < r, ∀ complete, f c complete ≠ []) (complete : Bool) :
    constructBody p f r complete ≠ [] := by
  unfold constructBody
  split_ifs
  · obtain ⟨own, memOwn⟩ := List.exists_mem_of_ne_nil _ (constructOwn_ne_nil (p := p) some)
    obtain ⟨first, memFirst⟩ := List.exists_mem_of_ne_nil _
      (anyOrder_ne_nil fun s mem => builtPart_ne_nil (p := p) some (.inr mem))
    apply List.ne_nil_of_mem
    exact List.mem_flatMap.2 ⟨first, memFirst, List.mem_map.2 ⟨own, memOwn, rfl⟩⟩
  · exact constructOwn_ne_nil some

end

theorem construct_ne_nil (r : Nat) (complete : Bool) : construct p r complete ≠ [] := by
  induction r using Nat.strong_induction_on generalizing complete with
  | _ r ih =>
    rw [construct_eq]
    refine constructBody_ne_nil (fun c lt complete => ?_) complete
    rw [below_lt lt]
    exact ih c lt complete

section

variable {g : Nat → Bool → List Event} {b : Nat → Bool → Bool}

theorem cxxBuiltPart_ne_nil_iff (same : ∀ c < r, ∀ complete, g c complete ≠ [] ↔ b c complete = true) {s : Option Step}
    (known : isOwn s = true ∨ s ∈ vbaseSteps p r) :
    cxxBuiltPart p g r s ≠ [] ↔ buildsPart p b r s = true := by
  match s with
  | none => simp [cxxBuiltPart, buildsPart]
  | some (.vbase v) =>
    obtain own | vbase := known
    · cases own
    · obtain ⟨v', mem, eq⟩ := mem_vbaseSteps.1 vbase
      cases eq
      rw [cxxBuiltPart, buildsPart, Bool.or_eq_true, ← same v (vbase_lt mem)]
      split_ifs with init <;> simp [init, under_eq_nil_iff]
  | some (.base i) =>
    rw [cxxBuiltPart, buildsPart]
    cases base : p.plainBase r i with
    | none => simp
    | some c => rw [Option.any_some, ← same c (plainBase_lt base), not_iff_not, under_eq_nil_iff]
  | some (.field i k) =>
    rw [cxxBuiltPart, buildsPart]
    cases atF : (p.fields r)[i]? with
    | none => simp
    | some f =>
      simp only [Option.any_some, Bool.or_eq_true, Bool.and_eq_true, Bool.not_eq_true']
      split_ifs with init union
      · simp [init]
      · simp [init, union]
      · cases elem : f.type.recordElem with
        | none => simp [init]
        | some c =>
          simp only [init, union, Bool.false_eq_true, false_or, true_and, Option.any_some,
            ← same c (fieldElem_lt atF elem)]
          rw [not_iff_not, under_eq_nil_iff]

end

theorem buildsPart_below {b : Nat → Bool → Bool} {d : Bool → Bool} {s : Option Step}
    (known : isOwn s = true ∨ s ∈ vbaseSteps p r) : buildsPart p (below b d r) r s = buildsPart p b r s := by
  match s with
  | none => rfl
  | some (.vbase v) =>
    obtain own | vbase := known
    · cases own
    · obtain ⟨v', mem, eq⟩ := mem_vbaseSteps.1 vbase
      cases eq
      rw [buildsPart, buildsPart, below_lt (vbase_lt mem)]
  | some (.base i) =>
    rw [buildsPart, buildsPart]
    cases base : p.plainBase r i with
    | none => rfl
    | some c => rw [Option.any_some, Option.any_some, below_lt (plainBase_lt base)]
  | some (.field i k) =>
    rw [buildsPart, buildsPart]
    cases atF : (p.fields r)[i]? with
    | none => rfl
    | some f =>
      cases elem : f.type.recordElem with
      | none => simp [elem]
      | some c => simp [elem, below_lt (fieldElem_lt atF elem)]

/-- Default-initialization does something where `builds` says. -/
theorem cxxConstruct_ne_nil_iff {complete : Bool} : cxxConstruct p r complete ≠ [] ↔ builds p r complete = true := by
  induction r using Nat.strong_induction_on generalizing complete with
  | _ r ih =>
    have same : ∀ c < r, ∀ complete, below (cxxConstruct p) (fun _ => []) r c complete ≠ [] ↔
        below (builds p) (fun _ => false) r c complete = true := by
      intro c lt complete
      rw [below_lt lt, below_lt lt]
      exact ih c lt
    have parts {steps : List (Option Step)} (known : ∀ s ∈ steps, isOwn s = true ∨ s ∈ vbaseSteps p r) :
        steps.flatMap (cxxBuiltPart p (below (cxxConstruct p) (fun _ => []) r) r) ≠ [] ↔
          steps.any (buildsPart p (below (builds p) (fun _ => false) r) r) = true := by
      rw [Ne, List.flatMap_eq_nil_iff, List.any_eq_true]
      push Not
      exact exists_congr fun s => and_congr_right fun mem => cxxBuiltPart_ne_nil_iff same (known s mem)
    rw [cxxConstruct_eq, builds_eq, cxxConstructBody, cxxConstructOwn, buildsBody]
    simp only [Bool.or_eq_true, Bool.and_eq_true]
    rw [← parts fun s mem => .inl (isOwn_of_built mem), ← parts fun s mem => .inr mem]
    rw [Ne, List.append_eq_nil_iff, not_and_or]
    refine or_congr ?_ ?_
    · cases complete <;> simp
    · cases p.defaultCtor r <;> simp

section

variable {f : Nat → Bool → List (List Event)}

theorem builtPart_loud (loud : ∀ c < r, ∀ complete, builds p c complete = true → ∀ es ∈ f c complete, es ≠ [])
    {s : Option Step} (known : isOwn s = true ∨ p.defaultCtor r = false ∧ s ∈ vbaseSteps p r)
    (built : buildsPart p (builds p) r s = true) : ∀ es ∈ builtPart p f r s, es ≠ [] := by
  have under_loud {st : Step} {c : Nat} {complete : Bool} (lt : c < r) (built : builds p c complete = true) :
      ∀ es ∈ (f c complete).map (under st), es ≠ [] := by
    intro es mem empty
    obtain ⟨es', inside, rfl⟩ := List.mem_map.1 mem
    exact loud c lt complete built es' inside (under_eq_nil_iff.1 empty)
  match s with
  | none =>
    have tables : p.tables r = true := built
    simp [builtPart, tables]
  | some (.vbase v) =>
    obtain own | ⟨noCtor, vbase⟩ := known
    · cases own
    · obtain ⟨v', mem, eq⟩ := mem_vbaseSteps.1 vbase
      cases eq
      simp only [buildsPart, Program.initializes, noCtor, Bool.false_and, Bool.false_or] at built
      exact under_loud (vbase_lt mem) built
  | some (.base i) =>
    obtain ⟨c, base, built⟩ := (Option.any_eq_true ..).1 built
    simp only [builtPart, base]
    exact under_loud (plainBase_lt base) built
  | some (.field i k) =>
    simp only [buildsPart, Option.any_eq_true, Bool.or_eq_true, Bool.and_eq_true] at built
    obtain ⟨field, atF, built⟩ := built
    simp only [builtPart, atF]
    split_ifs with init
    · simp
    · obtain init' | ⟨-, c, elem, built⟩ := built
      · exact absurd init' init
      · rw [elem]
        simp only [needsConstruction_of_builds built, if_true]
        exact under_loud (fieldElem_lt atF elem) built

end

/-- Where default-initialization does something, so does every way `defaultConstruct` may go. -/
theorem construct_loud {complete : Bool} (built : builds p r complete = true) :
    ∀ es ∈ construct p r complete, es ≠ [] := by
  induction r using Nat.strong_induction_on generalizing complete with
  | _ r ih =>
    have loud {steps : List (Option Step)}
        (known : ∀ s ∈ steps, isOwn s = true ∨ p.defaultCtor r = false ∧ s ∈ vbaseSteps p r)
        (built : steps.any (buildsPart p (below (builds p) (fun _ => false) r) r) = true) :
        ∃ s ∈ steps, ∀ es ∈ builtPart p (below (construct p) (fun _ => [[]]) r) r s, es ≠ [] := by
      obtain ⟨s, mem, built⟩ := List.any_eq_true.1 built
      refine ⟨s, mem, builtPart_loud (fun c lt complete built => ?_) (known s mem) ?_⟩
      · rw [below_lt lt]
        exact ih c lt built
      · rwa [buildsPart_below ((known s mem).imp_right And.right)] at built
    rw [builds_eq, buildsBody, Bool.or_eq_true, Bool.and_eq_true, Bool.or_eq_true] at built
    rw [construct_eq, constructBody]
    have own (built : p.defaultCtor r = true ∨
        (builtSteps p r).any (buildsPart p (below (builds p) (fun _ => false) r) r) = true) :
        ∀ es ∈ constructOwn p (below (construct p) (fun _ => [[]]) r) r, es ≠ [] := by
      unfold constructOwn
      split_ifs with ctor
      · simp
      · obtain ⟨s, mem, loud⟩ := loud (fun s mem => .inl (isOwn_of_built mem)) (built.resolve_left ctor)
        exact seqAll_loud builtSteps_nodup mem loud
    intro es inside
    -- with a constructor of its own the class is built by that, whatever becomes of its virtual bases
    by_cases ctor : p.defaultCtor r = true
    · replace own := own (.inl ctor)
      split_ifs at inside
      · obtain ⟨first, -, inside⟩ := List.mem_flatMap.1 inside
        obtain ⟨rest, memRest, rfl⟩ := List.mem_map.1 inside
        exact List.append_ne_nil_of_right_ne_nil first (own rest memRest)
      · exact own es inside
    obtain ⟨rfl, vbase⟩ | built := built
    · obtain ⟨first, memFirst, inside⟩ := List.mem_flatMap.1 inside
      obtain ⟨rest, -, rfl⟩ := List.mem_map.1 inside
      obtain ⟨s, mem, loud⟩ := loud (fun s mem => .inr ⟨by simpa using ctor, mem⟩) vbase
      exact List.append_ne_nil_of_left_ne_nil (anyOrder_loud vbaseSteps_nodup mem loud first memFirst) rest
    · split_ifs at inside
      · obtain ⟨first, -, inside⟩ := List.mem_flatMap.1 inside
        obtain ⟨rest, memRest, rfl⟩ := List.mem_map.1 inside
        exact List.append_ne_nil_of_right_ne_nil first (own built rest memRest)
      · exact own built es inside

section

variable {f : Nat → Bool → List (List Event)} {g : Nat → Bool → List Event} {kept : Nat → Bool → Bool}

/-- Nothing is done to a part where nothing is to be done to it, and what is done is right. -/
theorem union_part_iff {st : Step} (some : f c true ≠ []) (loud : builds p c true = true → ∀ es ∈ f c true, es ≠ [])
    (built : g c true ≠ [] ↔ builds p c true = true) (same : (∀ es ∈ f c true, es = g c true) ↔ kept c true = true) :
    (∀ es ∈ (f c true).map (under st), es = []) ↔ kept c true = true ∧ builds p c true = false := by
  have empty : (∀ es ∈ (f c true).map (under st), es = []) ↔ ∀ es ∈ f c true, es = [] := by
    simp only [List.mem_map, forall_exists_index, and_imp, forall_apply_eq_imp_iff₂, under_eq_nil_iff]
  rw [empty, ← same, ← Bool.not_eq_true, ← built, not_not]
  constructor
  · intro none
    have quiet : g c true = [] := by
      by_contra some'
      obtain ⟨es, mem⟩ := List.exists_mem_of_ne_nil _ some
      exact loud (built.1 some') es mem (none es mem)
    exact ⟨fun es mem => (none es mem).trans quiet.symm, quiet⟩
  · rintro ⟨all, quiet⟩ es mem
    rw [all es mem, quiet]

/-- What is done to a virtual base is never what a mem-initializer does. -/
theorem under_outcomes_ne {st : Step} (some : f c false ≠ []) (quiet : ∀ es ∈ f c false, (⟨[], .init⟩ : Event) ∉ es) :
    ¬∀ es ∈ (f c false).map (under st), es = [⟨[st], .init⟩] := by
  intro all
  obtain ⟨es, mem⟩ := List.exists_mem_of_ne_nil _ some
  have whole : under st es = under st [⟨[], .init⟩] := all _ (List.mem_map_of_mem mem)
  exact quiet es mem (by rw [under_injective st whole]; exact List.mem_singleton_self _)

theorem builtPart_iff (some : ∀ c < r, ∀ complete, f c complete ≠ [])
    (loud : ∀ c < r, ∀ complete, builds p c complete = true → ∀ es ∈ f c complete, es ≠ [])
    (quiet : ∀ c < r, ∀ complete, ∀ es ∈ f c complete, (⟨[], .init⟩ : Event) ∉ es)
    (built : ∀ c < r, ∀ complete, g c complete ≠ [] ↔ builds p c complete = true)
    (same : ∀ c < r, ∀ complete, (∀ es ∈ f c complete, es = g c complete) ↔ kept c complete = true)
    {s : Option Step} (known : isOwn s = true ∨ s ∈ vbaseSteps p r) :
    (∀ es ∈ builtPart p f r s, es = cxxBuiltPart p g r s) ↔ constructKeptPart p kept (builds p) r s = true := by
  match s with
  | none => simp [builtPart, cxxBuiltPart, constructKeptPart]
  | Option.some (.vbase v) =>
    obtain own | vbase := known
    · cases own
    · obtain ⟨v', mem, eq⟩ := mem_vbaseSteps.1 vbase
      cases eq
      rw [builtPart, cxxBuiltPart, constructKeptPart]
      cases init : p.initializes r v with
      | true => simpa using under_outcomes_ne (some v (vbase_lt mem) false) (quiet v (vbase_lt mem) false)
      | false => simp only [Bool.false_eq_true, if_false, under_outcomes_iff, same v (vbase_lt mem), Bool.not_false, Bool.true_and]
  | Option.some (.base i) =>
    simp only [builtPart, cxxBuiltPart, constructKeptPart]
    cases base : p.plainBase r i with
    | none => simp
    | some c => simp only [under_outcomes_iff, same c (plainBase_lt base), Option.all_some]
  | Option.some (.field i k) =>
    simp only [builtPart, cxxBuiltPart, constructKeptPart]
    cases atF : (p.fields r)[i]? with
    | none => simp
    | some field =>
      simp only [Option.all_some]
      cases init : hasDefault field with
      | true => simp
      | false =>
        cases elem : field.type.recordElem with
        | none => simp
        | some c =>
          have lt := fieldElem_lt atF elem
          cases needs : needsConstruction p c with
          | false =>
            have quiet : g c true = [] := by
              by_contra loud
              rw [needsConstruction_of_builds ((built c lt true).1 loud)] at needs
              cases needs
            simp [needs, quiet, under]
          | true =>
            cases union : p.isUnion r with
            | false =>
              simp only [Bool.false_eq_true, if_false, if_true, needs, under_outcomes_iff, same c lt]
              simp [needs]
            | true =>
              simp only [Bool.false_eq_true, if_false, if_true, needs,
                union_part_iff (some c lt true) (loud c lt true) (built c lt true) (same c lt true)]
              simp [needs]

theorem constructOwn_iff (some : ∀ c < r, ∀ complete, f c complete ≠ [])
    (loud : ∀ c < r, ∀ complete, builds p c complete = true → ∀ es ∈ f c complete, es ≠ [])
    (quiet : ∀ c < r, ∀ complete, ∀ es ∈ f c complete, (⟨[], .init⟩ : Event) ∉ es)
    (built : ∀ c < r, ∀ complete, g c complete ≠ [] ↔ builds p c complete = true)
    (same : ∀ c < r, ∀ complete, (∀ es ∈ f c complete, es = g c complete) ↔ kept c complete = true) :
    (∀ es ∈ constructOwn p f r, es = cxxConstructOwn p g r) ↔
      (p.defaultCtor r || (builtSteps p r).all (constructKeptPart p kept (builds p) r)) = true := by
  unfold constructOwn cxxConstructOwn
  cases p.defaultCtor r with
  | true => simp
  | false =>
    simp only [Bool.false_eq_true, if_false, Bool.false_or, List.all_eq_true]
    rw [seqAll_eq_iff builtSteps_nodup (fun s mem => builtPart_ne_nil some (.inl mem))
      (fun s _ => builtPart_label) (fun s _ => cxxBuiltPart_label)]
    exact forall₂_congr fun s mem => builtPart_iff some loud quiet built same (.inl (isOwn_of_built mem))

theorem vbases_iff (some : ∀ c < r, ∀ complete, f c complete ≠ [])
    (loud : ∀ c < r, ∀ complete, builds p c complete = true → ∀ es ∈ f c complete, es ≠ [])
    (quiet : ∀ c < r, ∀ complete, ∀ es ∈ f c complete, (⟨[], .init⟩ : Event) ∉ es)
    (built : ∀ c < r, ∀ complete, g c complete ≠ [] ↔ builds p c complete = true)
    (same : ∀ c < r, ∀ complete, (∀ es ∈ f c complete, es = g c complete) ↔ kept c complete = true) :
    (∀ es ∈ anyOrder (vbaseSteps p r) (builtPart p f r), es = (vbaseSteps p r).flatMap (cxxBuiltPart p g r)) ↔
      ((vbaseSteps p r).all (constructKeptPart p kept (builds p) r) &&
        ((virtualBases p.h r).filter (builds p · false)).length ≤ 1) = true := by
  rw [Bool.and_eq_true, List.all_eq_true, decide_eq_true_eq, filter_length_le_one_iff (virtualBases_nodup r)]
  rw [anyOrder_eq_iff vbaseSteps_nodup (fun s mem => builtPart_ne_nil some (.inr mem))
    (fun s _ => builtPart_label) (fun s _ => cxxBuiltPart_label)]
  have parts : (∀ s ∈ vbaseSteps p r, ∀ es ∈ builtPart p f r s, es = cxxBuiltPart p g r s) ↔
      ∀ s ∈ vbaseSteps p r, constructKeptPart p kept (builds p) r s = true :=
    forall₂_congr fun s mem => builtPart_iff some loud quiet built same (.inr mem)
  rw [parts]
  refine and_congr_right fun all => ?_
  have loudV {v : Nat} (mem : v ∈ virtualBases p.h r) :
      cxxBuiltPart p g r (Option.some (.vbase v)) ≠ [] ↔ builds p v false = true := by
    have known := mem_vbaseSteps.2 ⟨v, mem, rfl⟩
    have plain : p.initializes r v = false := by simpa using ((Bool.and_eq_true ..).mp (all _ known)).1
    rw [cxxBuiltPart_ne_nil_iff built (.inr known), buildsPart, plain, Bool.false_or]
  constructor
  · intro single v memV w memW builtV builtW
    have eq := single _ (mem_vbaseSteps.2 ⟨v, memV, rfl⟩) _ (mem_vbaseSteps.2 ⟨w, memW, rfl⟩)
      ((loudV memV).2 builtV) ((loudV memW).2 builtW)
    cases eq
    rfl
  · intro single s memS t memT loudS loudT
    obtain ⟨v, memV, rfl⟩ := mem_vbaseSteps.1 memS
    obtain ⟨w, memW, rfl⟩ := mem_vbaseSteps.1 memT
    rw [single v memV w memW ((loudV memV).1 loudS) ((loudV memW).1 loudT)]

end

/-- Every way `defaultConstruct` may go is what C++ says exactly on the classes of `constructKept`. -/
theorem construct_iff (p : Program) (r : Nat) (complete : Bool) :
    (∀ es ∈ construct p r complete, es = cxxConstruct p r complete) ↔ constructKept p r complete = true := by
  induction r using Nat.strong_induction_on generalizing complete with
  | _ r ih =>
    have some : ∀ c < r, ∀ complete, below (construct p) (fun _ => [[]]) r c complete ≠ [] := by
      intro c lt complete
      rw [below_lt lt]
      exact construct_ne_nil c complete
    have loud : ∀ c < r, ∀ complete, builds p c complete = true →
        ∀ es ∈ below (construct p) (fun _ => [[]]) r c complete, es ≠ [] := by
      intro c lt complete built
      rw [below_lt lt]
      exact construct_loud built
    have quiet : ∀ c < r, ∀ complete, ∀ es ∈ below (construct p) (fun _ => [[]]) r c complete,
        (⟨[], .init⟩ : Event) ∉ es := by
      intro c lt complete
      rw [below_lt lt, construct_eq]
      exact constructBody_quiet
    have built : ∀ c < r, ∀ complete,
        below (cxxConstruct p) (fun _ => []) r c complete ≠ [] ↔ builds p c complete = true := by
      intro c lt complete
      rw [below_lt lt]
      exact cxxConstruct_ne_nil_iff
    have same : ∀ c < r, ∀ complete, (∀ es ∈ below (construct p) (fun _ => [[]]) r c complete,
        es = below (cxxConstruct p) (fun _ => []) r c complete) ↔
          below (constructKept p) (fun _ => true) r c complete = true := by
      intro c lt complete
      rw [below_lt lt, below_lt lt, below_lt lt]
      exact ih c lt complete
    rw [construct_eq, cxxConstruct_eq, constructKept_eq, constructBody, cxxConstructBody, constructKeptBody]
    cases complete with
    | false => simpa using constructOwn_iff some loud quiet built same
    | true =>
      rw [Bool.not_true, Bool.false_or, Bool.and_eq_true, ← vbases_iff some loud quiet built same,
        ← constructOwn_iff some loud quiet built same]
      simp only [if_true]
      apply append_outcomes_iff (p := fun e => !isOwn e.label)
      · exact anyOrder_ne_nil fun s mem => builtPart_ne_nil some (.inr mem)
      · exact constructOwn_ne_nil some
      · intro es mem e inside
        rw [isOwn_of_vbase (AllLabelled.mem_anyOrder (fun s _ => builtPart_label) vbaseSteps_nodup es mem e inside)]
        rfl
      · intro e inside
        rw [isOwn_of_vbase (Labelled.mem (fun s _ => cxxBuiltPart_label) e inside)]
        rfl
      · intro es mem e inside
        rw [constructOwn_isOwn es mem e inside]
        rfl
      · intro e inside
        rw [cxxConstructOwn_isOwn e inside]
        rfl

/-! ### Destruction -/

theorem needsDestructor_eq (r : Nat) : needsDestructor p r =
    needsDestructorBody p (below (needsDestructor p) false r) r := fix_eq ..

theorem destroy_eq (r : Nat) : destroy p r = destroyBody p (below (destroy p) [] r) r := fix_eq ..

theorem cxxDestroy_eq (r : Nat) : cxxDestroy p r = cxxDestroyBody p (below (cxxDestroy p) (fun _ => []) r) r :=
  fix_eq ..

theorem runs_eq (r : Nat) : runs p r = runsBody p (below (runs p) false r) r := fix_eq ..

theorem ends_eq (r : Nat) : ends p r = endsBody p (below (ends p) (fun _ => false) r) r := fix_eq ..

theorem destroyKept_eq (r : Nat) :
    destroyKept p r = destroyKeptBody p (below (destroyKept p) (fun _ => true) r) r := fix_eq ..

theorem needsDestructor_of_own (own : p.ownDtor r = true) : needsDestructor p r = true := by
  rw [needsDestructor_eq]
  simp [needsDestructorBody, own]

theorem needsDestructor_of_base {b : BaseSpec} (mem : b ∈ p.bases r) (cls : b.cls = some c)
    (needs : needsDestructor p c = true) : needsDestructor p r = true := by
  have lt := p.h.base_lt r b mem c cls
  rw [needsDestructor_eq]
  simp only [needsDestructorBody, Bool.or_eq_true, List.any_eq_true]
  refine .inl (.inr ⟨b, mem, ?_⟩)
  rw [cls, Option.any_some, below_lt lt]
  exact needs

theorem needsDestructor_of_plain (base : p.plainBase r i = some c) (needs : needsDestructor p c = true) :
    needsDestructor p r = true := by
  obtain ⟨b, atB, plain⟩ := Option.bind_eq_some_iff.1 base
  exact needsDestructor_of_base (List.mem_of_getElem? atB) (BaseSpec.plain_eq_some.1 plain).2 needs

theorem needsDestructor_of_derives (path : p.h.Derives r c) (needs : needsDestructor p c = true) :
    needsDestructor p r = true := by
  induction path with
  | refl => exact needs
  | tail _ step ih =>
    obtain ⟨b, mem, cls⟩ := step
    exact ih (needsDestructor_of_base mem cls needs)

theorem needsDestructor_of_elem (elem : (p.fields r)[i]?.bind (·.type.recordElem) = some c)
    (needs : needsDestructor p c = true) : needsDestructor p r = true := by
  obtain ⟨f, atF, elem⟩ := Option.bind_eq_some_iff.1 elem
  rw [needsDestructor_eq]
  simp only [needsDestructorBody, Bool.or_eq_true, List.any_eq_true]
  refine .inr ⟨f, List.mem_of_getElem? atF, ?_⟩
  rw [elem, Option.any_some, below_lt (fieldElem_lt atF elem)]
  exact needs

/-- A class whose destructor runs one has one. -/
theorem needsDestructor_of_runs (run : runs p r = true) : needsDestructor p r = true := by
  induction r using Nat.strong_induction_on with
  | _ r ih =>
    rw [runs_eq, runsBody, List.any_eq_true] at run
    obtain ⟨s, mem, run⟩ := run
    match s with
    | none => exact needsDestructor_of_own run
    | some (.vbase v) => cases run
    | some (.base i) =>
      obtain ⟨c, base, run⟩ := (Option.any_eq_true ..).1 run
      rw [below_lt (plainBase_lt base)] at run
      exact needsDestructor_of_plain base (ih c (plainBase_lt base) run)
    | some (.field i k) =>
      obtain ⟨c, elem, run⟩ := (Option.any_eq_true ..).1 run
      rw [below_lt (elem_lt elem)] at run
      exact needsDestructor_of_elem elem (ih c (elem_lt elem) run)

/-- A class whose objects' end does something has a destructor. -/
theorem needsDestructor_of_ends {complete : Bool} (ended : ends p r complete = true) : needsDestructor p r = true := by
  induction r using Nat.strong_induction_on generalizing complete with
  | _ r ih =>
    rw [ends_eq, endsBody, List.any_eq_true] at ended
    obtain ⟨s, mem, ended⟩ := ended
    match s with
    | none => exact needsDestructor_of_own ended
    | some (.vbase v) =>
      obtain own | vbase := known_of_end mem
      · cases own
      · obtain ⟨v', mem, eq⟩ := mem_vbaseSteps.1 vbase
        cases eq
        rw [endsPart, below_lt (vbase_lt mem)] at ended
        exact needsDestructor_of_derives (mem_virtualBases.1 mem).derives (ih v (vbase_lt mem) ended)
    | some (.base i) =>
      obtain ⟨c, base, ended⟩ := (Option.any_eq_true ..).1 ended
      rw [below_lt (plainBase_lt base)] at ended
      exact needsDestructor_of_plain base (ih c (plainBase_lt base) ended)
    | some (.field i k) =>
      simp only [endsPart, Bool.and_eq_true, Option.any_eq_true] at ended
      obtain ⟨-, c, elem, ended⟩ := ended
      rw [below_lt (elem_lt elem)] at ended
      exact needsDestructor_of_elem elem (ih c (elem_lt elem) ended)

section

variable {f : Nat → List Event} {g : Nat → Bool → List Event}

theorem destroyedPart_label {s : Option Step} : ∀ e ∈ destroyedPart p f r s, e.label = s := by
  intro e inside
  match s with
  | none =>
    simp only [destroyedPart] at inside
    split_ifs at inside
    · rw [List.mem_singleton.1 inside]
      rfl
    · cases inside
  | some (.vbase v) => cases inside
  | some (.base i) =>
    simp only [destroyedPart] at inside
    split at inside
    · split_ifs at inside
      · exact label_under e inside
      · cases inside
    · cases inside
  | some (.field i k) =>
    simp only [destroyedPart] at inside
    split at inside
    · split_ifs at inside
      · exact label_under e inside
      · cases inside
    · cases inside

theorem cxxDestroyedPart_label {s : Option Step} : ∀ e ∈ cxxDestroyedPart p g r s, e.label = s := by
  intro e inside
  match s with
  | none =>
    simp only [cxxDestroyedPart] at inside
    split_ifs at inside
    · rw [List.mem_singleton.1 inside]
      rfl
    · cases inside
  | some (.vbase v) => exact label_under e inside
  | some (.base i) =>
    simp only [cxxDestroyedPart] at inside
    split at inside
    · exact label_under e inside
    · cases inside
  | some (.field i k) =>
    simp only [cxxDestroyedPart] at inside
    split_ifs at inside
    · cases inside
    · split at inside
      · exact label_under e inside
      · cases inside

theorem destroyedPart_ne_nil_iff (same : ∀ c < r, f c ≠ [] ↔ runs p c = true) {s : Option Step} :
    destroyedPart p f r s ≠ [] ↔ runsPart p (runs p) r s = true := by
  have part {st : Step} {c : Nat} (lt : c < r) :
      (if needsDestructor p c then under st (f c) else []) ≠ [] ↔ runs p c = true := by
    split_ifs with needs
    · rw [← same c lt, not_iff_not, under_eq_nil_iff]
    · refine ⟨fun some => absurd rfl some, fun run => absurd (needsDestructor_of_runs run) needs⟩
  match s with
  | none => simp [destroyedPart, runsPart]
  | some (.vbase v) => simp [destroyedPart, runsPart]
  | some (.base i) =>
    rw [destroyedPart, runsPart]
    cases base : p.plainBase r i with
    | none => simp
    | some c => exact part (plainBase_lt base)
  | some (.field i k) =>
    rw [destroyedPart, runsPart]
    cases elem : (p.fields r)[i]?.bind (·.type.recordElem) with
    | none => simp
    | some c => exact part (elem_lt elem)

theorem cxxDestroyedPart_ne_nil_iff (same : ∀ c < r, ∀ complete, g c complete ≠ [] ↔ ends p c complete = true)
    {s : Option Step} (known : isOwn s = true ∨ s ∈ vbaseSteps p r) :
    cxxDestroyedPart p g r s ≠ [] ↔ endsPart p (ends p) r s = true := by
  match s with
  | none => simp [cxxDestroyedPart, endsPart]
  | some (.vbase v) =>
    obtain own | vbase := known
    · cases own
    · obtain ⟨v', mem, eq⟩ := mem_vbaseSteps.1 vbase
      cases eq
      rw [cxxDestroyedPart, endsPart, ← same v (vbase_lt mem), not_iff_not, under_eq_nil_iff]
  | some (.base i) =>
    rw [cxxDestroyedPart, endsPart]
    cases base : p.plainBase r i with
    | none => simp
    | some c => rw [Option.any_some, ← same c (plainBase_lt base), not_iff_not, under_eq_nil_iff]
  | some (.field i k) =>
    rw [cxxDestroyedPart, endsPart]
    cases union : p.isUnion r with
    | true => simp
    | false =>
      cases elem : (p.fields r)[i]?.bind (·.type.recordElem) with
      | none => simp
      | some c =>
        simp only [Bool.not_false, Bool.true_and, Option.any_some, ← same c (elem_lt elem)]
        exact not_congr under_eq_nil_iff

end

theorem runsPart_below {b : Nat → Bool} {d : Bool} {s : Option Step} :
    runsPart p (below b d r) r s = runsPart p b r s := by
  match s with
  | none => rfl
  | some (.vbase v) => rfl
  | some (.base i) =>
    rw [runsPart, runsPart]
    cases base : p.plainBase r i with
    | none => rfl
    | some c => rw [Option.any_some, Option.any_some, below_lt (plainBase_lt base)]
  | some (.field i k) =>
    rw [runsPart, runsPart]
    cases elem : (p.fields r)[i]?.bind (·.type.recordElem) with
    | none => rfl
    | some c => rw [Option.any_some, Option.any_some, below_lt (elem_lt elem)]

theorem endsPart_below {b : Nat → Bool → Bool} {d : Bool → Bool} {s : Option Step}
    (known : isOwn s = true ∨ s ∈ vbaseSteps p r) : endsPart p (below b d r) r s = endsPart p b r s := by
  match s with
  | none => rfl
  | some (.vbase v) =>
    obtain own | vbase := known
    · cases own
    · obtain ⟨v', mem, eq⟩ := mem_vbaseSteps.1 vbase
      cases eq
      rw [endsPart, endsPart, below_lt (vbase_lt mem)]
  | some (.base i) =>
    rw [endsPart, endsPart]
    cases base : p.plainBase r i with
    | none => rfl
    | some c => rw [Option.any_some, Option.any_some, below_lt (plainBase_lt base)]
  | some (.field i k) =>
    rw [endsPart, endsPart]
    cases elem : (p.fields r)[i]?.bind (·.type.recordElem) with
    | none => rfl
    | some c => rw [Option.any_some, Option.any_some, below_lt (elem_lt elem)]

theorem destroy_ne_nil_iff : destroy p r ≠ [] ↔ runs p r = true := by
  induction r using Nat.strong_induction_on with
  | _ r ih =>
    have same : ∀ c < r, below (destroy p) [] r c ≠ [] ↔ runs p c = true := by
      intro c lt
      rw [below_lt lt]
      exact ih c lt
    rw [destroy_eq, runs_eq, destroyBody, runsBody, Ne, List.flatMap_eq_nil_iff, List.any_eq_true]
    push Not
    refine exists_congr fun s => and_congr_right fun _ => ?_
    rw [runsPart_below]
    exact destroyedPart_ne_nil_iff same

/-- Destruction does something where `ends` says. -/
theorem cxxDestroy_ne_nil_iff {complete : Bool} : cxxDestroy p r complete ≠ [] ↔ ends p r complete = true := by
  induction r using Nat.strong_induction_on generalizing complete with
  | _ r ih =>
    have same : ∀ c < r, ∀ complete,
        below (cxxDestroy p) (fun _ => []) r c complete ≠ [] ↔ ends p c complete = true := by
      intro c lt complete
      rw [below_lt lt]
      exact ih c lt
    rw [cxxDestroy_eq, ends_eq, cxxDestroyBody, endsBody, Ne, List.flatMap_eq_nil_iff, List.any_eq_true]
    push Not
    refine exists_congr fun s => and_congr_right fun mem => ?_
    rw [endsPart_below (known_of_end mem)]
    exact cxxDestroyedPart_ne_nil_iff same (known_of_end mem)

theorem destroyedPart_iff {f : Nat → List Event} {g : Nat → Bool → List Event} {kept : Nat → Bool → Bool}
    (run : ∀ c < r, f c ≠ [] ↔ runs p c = true)
    (ended : ∀ c < r, ∀ complete, g c complete ≠ [] ↔ ends p c complete = true)
    (same : ∀ c < r, ∀ complete, f c = g c complete ↔ kept c complete = true) {s : Option Step}
    (known : isOwn s = true ∨ s ∈ vbaseSteps p r) :
    destroyedPart p f r s = cxxDestroyedPart p g r s ↔ destroyKeptPart p kept r s = true := by
  have part {st : Step} {c : Nat} {complete : Bool} (lt : c < r) :
      (if needsDestructor p c then under st (f c) else []) = under st (g c complete) ↔
        (!needsDestructor p c || kept c complete) = true := by
    cases needs : needsDestructor p c with
    | true => simp [(under_injective st).eq_iff, same c lt]
    | false =>
      have quiet : g c complete = [] := by
        by_contra some
        rw [needsDestructor_of_ends ((ended c lt complete).1 some)] at needs
        cases needs
      simp [quiet, under]
  match s with
  | none => simp [destroyedPart, cxxDestroyedPart, destroyKeptPart]
  | some (.vbase v) =>
    obtain own | vbase := known
    · cases own
    · obtain ⟨v', mem, eq⟩ := mem_vbaseSteps.1 vbase
      cases eq
      rw [destroyedPart, cxxDestroyedPart, destroyKeptPart, eq_comm, under_eq_nil_iff, Bool.not_eq_true',
        ← Bool.not_eq_true, ← ended v (vbase_lt mem), not_not]
  | some (.base i) =>
    rw [destroyedPart, cxxDestroyedPart, destroyKeptPart]
    cases base : p.plainBase r i with
    | none => simp
    | some c => exact part (plainBase_lt base)
  | some (.field i k) =>
    rw [destroyedPart, cxxDestroyedPart, destroyKeptPart]
    cases elem : (p.fields r)[i]?.bind (·.type.recordElem) with
    | none => simp
    | some c =>
      have lt := elem_lt elem
      cases union : p.isUnion r with
      | false => simpa using part lt
      | true =>
        have quiet : f c = [] ↔ runs p c = false := by
          rw [← Bool.not_eq_true, ← run c lt, not_not]
        cases needs : needsDestructor p c <;> simp [needs, under_eq_nil_iff, quiet]

/-- A class's destructor does what C++ says at the end of an object exactly for the classes of `destroyKept`. -/
theorem destroy_iff (p : Program) (r : Nat) (complete : Bool) :
    destroy p r = cxxDestroy p r complete ↔ destroyKept p r complete = true := by
  induction r using Nat.strong_induction_on generalizing complete with
  | _ r ih =>
    have run : ∀ c < r, below (destroy p) [] r c ≠ [] ↔ runs p c = true := by
      intro c lt
      rw [below_lt lt]
      exact destroy_ne_nil_iff
    have ended : ∀ c < r, ∀ complete,
        below (cxxDestroy p) (fun _ => []) r c complete ≠ [] ↔ ends p c complete = true := by
      intro c lt complete
      rw [below_lt lt]
      exact cxxDestroy_ne_nil_iff
    have same : ∀ c < r, ∀ complete,
        below (destroy p) [] r c = below (cxxDestroy p) (fun _ => []) r c complete ↔
          below (destroyKept p) (fun _ => true) r c complete = true := by
      intro c lt complete
      rw [below_lt lt, below_lt lt, below_lt lt]
      exact ih c lt complete
    -- the code does nothing to virtual bases, at their steps as nowhere
    have extended : (destroyedSteps p r).flatMap (destroyedPart p (below (destroy p) [] r) r) =
        (endSteps p r complete).flatMap (destroyedPart p (below (destroy p) [] r) r) := by
      rw [endSteps, List.flatMap_append, List.self_eq_append_right, List.flatMap_eq_nil_iff]
      intro s mem
      split_ifs at mem
      · obtain ⟨v, -, rfl⟩ := mem_vbaseSteps.1 (List.mem_reverse.1 mem)
        rfl
      · exact absurd mem List.not_mem_nil
    rw [destroy_eq, cxxDestroy_eq, destroyKept_eq, destroyBody, extended]
    unfold cxxDestroyBody destroyKeptBody
    rw [← endSteps, List.all_eq_true, flatMap_eq_iff endSteps_nodup (fun s _ => destroyedPart_label)
      (fun s _ => cxxDestroyedPart_label)]
    exact forall₂_congr fun s mem => destroyedPart_iff run ended same (known_of_end mem)

/-! ### Once each -/

theorem cxxBuiltPart_nodup {g : Nat → Bool → List Event} (nodup : ∀ c < r, ∀ complete, (g c complete).Nodup)
    {s : Option Step} (known : isOwn s = true ∨ s ∈ vbaseSteps p r) : (cxxBuiltPart p g r s).Nodup := by
  match s with
  | none =>
    rw [cxxBuiltPart]
    split_ifs
    · exact List.nodup_singleton _
    · exact List.nodup_nil
  | some (.vbase v) =>
    obtain own | vbase := known
    · cases own
    · obtain ⟨v', mem, eq⟩ := mem_vbaseSteps.1 vbase
      cases eq
      rw [cxxBuiltPart]
      split_ifs
      · exact List.nodup_singleton _
      · exact under_nodup (nodup v (vbase_lt mem) false)
  | some (.base i) =>
    rw [cxxBuiltPart]
    cases base : p.plainBase r i with
    | none => exact List.nodup_nil
    | some c => exact under_nodup (nodup c (plainBase_lt base) false)
  | some (.field i k) =>
    rw [cxxBuiltPart]
    cases atF : (p.fields r)[i]? with
    | none => exact List.nodup_nil
    | some f =>
      simp only
      split_ifs
      · exact List.nodup_singleton _
      · exact List.nodup_nil
      · cases elem : f.type.recordElem with
        | none => exact List.nodup_nil
        | some c => exact under_nodup (nodup c (fieldElem_lt atF elem) true)

/-- Default-initialization does nothing twice. -/
theorem cxxConstruct_nodup (p : Program) (r : Nat) (complete : Bool) : (cxxConstruct p r complete).Nodup := by
  induction r using Nat.strong_induction_on generalizing complete with
  | _ r ih =>
    have nodup : ∀ c < r, ∀ complete, (below (cxxConstruct p) (fun _ => []) r c complete).Nodup := by
      intro c lt complete
      rw [below_lt lt]
      exact ih c lt complete
    rw [cxxConstruct_eq, cxxConstructBody, List.nodup_append']
    refine ⟨?_, ?_, fun e first own => ?_⟩
    · split_ifs
      · exact Labelled.nodup (fun s _ => cxxBuiltPart_label) vbaseSteps_nodup fun s mem =>
          cxxBuiltPart_nodup nodup (.inr mem)
      · exact List.nodup_nil
    · unfold cxxConstructOwn
      split_ifs
      · exact List.nodup_singleton _
      · exact Labelled.nodup (fun s _ => cxxBuiltPart_label) builtSteps_nodup fun s mem =>
          cxxBuiltPart_nodup nodup (.inl (isOwn_of_built mem))
    · split_ifs at first
      · have vbase := isOwn_of_vbase (Labelled.mem (fun s _ => cxxBuiltPart_label) e first)
        rw [cxxConstructOwn_isOwn e own] at vbase
        cases vbase
      · cases first

theorem cxxDestroyedPart_nodup {g : Nat → Bool → List Event} (nodup : ∀ c < r, ∀ complete, (g c complete).Nodup)
    {s : Option Step} (known : isOwn s = true ∨ s ∈ vbaseSteps p r) : (cxxDestroyedPart p g r s).Nodup := by
  match s with
  | none =>
    rw [cxxDestroyedPart]
    split_ifs
    · exact List.nodup_singleton _
    · exact List.nodup_nil
  | some (.vbase v) =>
    obtain own | vbase := known
    · cases own
    · obtain ⟨v', mem, eq⟩ := mem_vbaseSteps.1 vbase
      cases eq
      exact under_nodup (nodup v (vbase_lt mem) false)
  | some (.base i) =>
    rw [cxxDestroyedPart]
    cases base : p.plainBase r i with
    | none => exact List.nodup_nil
    | some c => exact under_nodup (nodup c (plainBase_lt base) false)
  | some (.field i k) =>
    rw [cxxDestroyedPart]
    split_ifs
    · exact List.nodup_nil
    · cases elem : (p.fields r)[i]?.bind (·.type.recordElem) with
      | none => exact List.nodup_nil
      | some c => exact under_nodup (nodup c (elem_lt elem) true)

/-- Destruction does nothing twice. -/
theorem cxxDestroy_nodup (p : Program) (r : Nat) (complete : Bool) : (cxxDestroy p r complete).Nodup := by
  induction r using Nat.strong_induction_on generalizing complete with
  | _ r ih =>
    have nodup : ∀ c < r, ∀ complete, (below (cxxDestroy p) (fun _ => []) r c complete).Nodup := by
      intro c lt complete
      rw [below_lt lt]
      exact ih c lt complete
    rw [cxxDestroy_eq, cxxDestroyBody, ← endSteps]
    exact Labelled.nodup (fun s _ => cxxDestroyedPart_label) endSteps_nodup fun s mem =>
      cxxDestroyedPart_nodup nodup (known_of_end mem)

/-- `struct A { A(); ~A(); }; struct B { B(); ~B(); }; struct D : virtual A, virtual B {};` -/
def sharedBases : Hierarchy := .ofRecords
  [{ name := "A" }, { name := "B" },
    { name := "D", bases := [{ type := .record 0, virtual := true }, { type := .record 1, virtual := true }] }]
  (by decide)

/-- Its program, for Microsoft's ABI. -/
def sharedProgram : Program where
  h := sharedBases
  ownCtor r := r < 2
  defaultCtor r := r < 2
  ownCtor_of_default _ own := own
  memInits _ _ := false
  ownDtor r := r < 2
  virtualDtor _ := false
  tables _ := false
  itanium := false

end Vcx.Structors
