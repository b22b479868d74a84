import Vcx.Template.MatchSound

/-!
# Patterns and what they are bound to

`patternBinding` of a pattern of deducible forms gives the arguments back exactly where the pattern is
faithful to them.
-/

namespace Vcx.Template
set_option autoImplicit false
open Vcx.Lib

section forms
variable {values : List String} {a : Ty} {b b₁ b' : Binding}

theorem matched_func {ret ret' : Ty} {ps ps' : List Param} {var : Bool} {q q' : Qual} {r r' : Types.RefQual} {n n' : Bool}
    (first : Matched values ret ret' b b₁) (grows : Extends b₁ b') (bindable : Bindable values b')
    (params : ∀ c, Extends b' c → (equalParams (substituteParams ps c) ps' = true ↔ faithfulParams ps ps' = true))
    (dependent : isDependent (.func ret ps var q r n) = true) :
    Matched values (.func ret ps var q r n) (.func ret' ps' var q' r' n') b b' := by
  refine ⟨first.extends_.trans grows, bindable, (fun _ is => by cases is), fun c more => ?_, fun c more => ?_⟩
  · by_cases none : c = []
    · rw [substitute_idle (.inl none)]
      rfl
    · rw [substitute, if_neg (by simp [none, dependent])]
      rfl
  · have equal := first.equal c (grows.trans more)
    rw [equal_substitute_func dependent]
    simp [Ty.equal, Ty.strict, faithful, dependent, equal, params c more]

theorem matched_specialization {name : String} {as : List Arg} {of_ : TemplateHead} (grows : Extends b b') (bindable : Bindable values b')
    (dependent : isDependent (.specialization name as of_) = true) (built : a.built = true)
    (form : a.form = (Ty.specialization name as of_).form)
    (equal : ∀ c, Extends b' c → ((Ty.specialization name (substituteArgs as c) of_).equal a.unqualify = true ↔
      faithful (.specialization name as of_) a.unqualify = true)) :
    Matched values (.specialization name as of_) a b b' := by
  refine ⟨grows, bindable, (fun _ is => by cases is), fun c more => ?_, fun c more => ?_⟩
  · rw [substitute_specialization, form]
    rfl
  · rw [substitute_specialization]
    obtain is | ⟨q, is, some_⟩ := unqualify_cases built rfl
    · rw [is]
      exact equal c more
    · rw [is, not_equal_qualified rfl some_]
      simp [faithful, dependent]

end forms

/-! ### Template-ids -/

theorem lastIsPack_eq {as : List Arg} (last : lastIsPack as = true) : ∃ ps tp, as = ps ++ [.type (.templateParam tp)] ∧ tp.isPack = true := by
  unfold lastIsPack at last
  rw [Option.any_eq_true] at last
  obtain ⟨p, is, isPack⟩ := last
  obtain ⟨ps, rfl⟩ := List.getLast?_eq_some_iff.1 is
  unfold isPackParam at isPack
  split at isPack
  · exact ⟨ps, _, rfl, isPack⟩
  · cases isPack

section ids
variable {values : List String} {b b' : Binding}

theorem matchTemplate_spec {name name' : String} {of_ : TemplateHead} {primary : Option Nat}
    (matched : matchTemplate name of_ name' primary b = some b') (all : Bindable values b) :
    Extends b b' ∧ Bindable values b' ∧ ((∀ tp, of_ ≠ .param tp) → name = name') := by
  unfold matchTemplate at matched
  split at matched
  · rename_i tp
    split at matched
    · cases matched
    · obtain ⟨grows, bindable, -⟩ := @bindType_bound values _ _ _ _ matched rfl all
      exact ⟨grows, bindable, fun noParam => absurd rfl (noParam tp)⟩
  · split at matched
    · cases matched
    · rename_i same
      cases matched
      exact ⟨.refl b, all, fun _ => (by simpa using same : name' = name).symm⟩

/-- What matching the arguments of a template-id, but for a pack that is the last, leaves. -/
abbrev MatchesArgs (values : List String) (as : List Arg) : Prop :=
  ∀ (packed : Bool) ⦃os : List Arg⦄ ⦃b b' : Binding⦄, builtElems os = true → Bindable values b → matchArgs packed as os b = some b' →
    MatchedArgs values (if packed then as.dropLast else as) os b b'

theorem matchSpecialization_spec {name name' : String} {as os : List Arg} {of_ : TemplateHead} {primary : Option Nat}
    (args : MatchesArgs values as) (matched : matchSpecialization (fun packed => matchArgs packed as) name as of_ name' os primary b = some b')
    (built : builtElems os = true) (all : Bindable values b) :
    Extends b b' ∧ Bindable values b' ∧ ((∀ tp, of_ ≠ .param tp) → name = name') ∧
      ∀ c, Extends b' c → ∀ as', flattenPacks as' = os → (equalArgs (substituteArgs as c) as' = true ↔ spelledArgs as as' = true) := by
  unfold matchSpecialization at matched
  obtain ⟨b₁, isTemplate, matched⟩ := Option.bind_eq_some_iff.1 matched
  obtain ⟨grows, bindable, same⟩ := matchTemplate_spec isTemplate all
  split at matched
  · rename_i last
    obtain ⟨ps, tp, rfl, isPack⟩ := lastIsPack_eq last
    split at matched
    · cases matched
    · rename_i enough
      obtain ⟨b₂, bound, matched⟩ := Option.bind_eq_some_iff.1 matched
      simp only [List.getLast?_concat, Option.elim_some, packName, List.length_append, List.length_singleton, Nat.add_sub_cancel] at bound matched
      obtain ⟨grows', bindable', es, is, esBuilt, equal⟩ := bindRest_bound bound (builtElems_take_drop built _).2 bindable
      have others := args true (builtElems_take_drop built _).1 bindable' matched
      rw [if_pos rfl, List.dropLast_concat] at others
      refine ⟨grows.trans (grows'.trans others.extends_), others.bindable, same, fun c more as' flat => ?_⟩
      have whole : substitute (.templateParam tp) c = .pack es :=
        substitute_templateParam (more _ _ (others.extends_ _ _ is)) fun _ _ => isPack
      rw [substituteArgs_append, substituteArgs, whole, substituteArgs]
      exact equalArgs_packed isPack (others.each c more) equal (flat.trans (List.take_append_drop ps.length os).symm)
  · rename_i noPack
    have others := args false built bindable matched
    rw [if_neg Bool.false_ne_true] at others
    refine ⟨grows.trans others.extends_, others.bindable, same, fun c more as' flat => ?_⟩
    exact equalArgs_replaced (others.each c more) (by simpa using noPack) flat

end ids

/-! ### Matching -/

/-- What matching leaves of a pattern of deducible forms. -/
abbrev Matches (values : List String) (t : Ty) : Prop :=
  ∀ ⦃a : Ty⦄ ⦃b b' : Binding⦄, a.built = true → Bindable values b → matchType t a b = some b' → Matched values t a b b'

/-- What mentions no parameter is compared. -/
theorem matchType_static {t a : Ty} {b b' : Binding} (static : isDependent t = false) (matched : matchType t a b = some b') :
    t.equal a = true ∧ b' = b := by
  unfold matchType at matched
  rw [if_pos (by simp [static])] at matched
  split at matched
  · rename_i equal
    cases matched
    exact ⟨equal, rfl⟩
  · cases matched

theorem matches_static {values : List String} {t : Ty} (static : isDependent t = false) (built : t.built = true) : Matches values t := by
  intro a b b' _ all matched
  obtain ⟨equal, rfl⟩ := matchType_static static matched
  exact matched_static static built equal all

theorem built_unqualify {a : Ty} (built : a.built = true) : a.unqualify.built = true := by
  cases a with
  | qualified q t =>
    simp only [Ty.built, Bool.and_eq_true] at built
    exact built.2
  | _ => exact built

/-- What is under qualifiers takes those that are left of them. -/
theorem built_rest {q' : Qual} {t : Ty} (q : Qual) (built : (Ty.qualified q' t).built = true) :
    (if q' &&& ~~~q ≠ 0 then t.qualify (q' &&& ~~~q) else t).built = true := by
  have parts := built
  simp only [Ty.built, Bool.and_eq_true, Bool.not_eq_true'] at parts
  obtain ⟨⟨⟨⟨-, noRef⟩, noFunc⟩, bare⟩, tBuilt⟩ := parts
  split
  · rename_i some_
    have isBare : t.isBare = true := by
      obtain isBare | ⟨q₁, t₁, rfl, -⟩ := bare_or tBuilt
      · exact isBare
      · cases bare
    rw [qualify_bare isBare noRef noFunc some_]
    simp only [Ty.built, Bool.and_eq_true, Bool.not_eq_true', decide_eq_true_eq]
    exact ⟨⟨⟨⟨some_, noRef⟩, noFunc⟩, bare⟩, tBuilt⟩
  · exact tBuilt

section patterns
variable {values : List String}

theorem matches_templateParam {tp : TemplateParam} (forms : deducible values (.templateParam tp) = true) :
    Matches values (.templateParam tp) := by
  intro a b b' built all matched
  unfold deducible at forms
  unfold matchType at matched
  rw [if_neg (by simp [isDependent])] at matched
  dsimp only at matched
  split at matched
  · cases matched
  · rename_i named
    have isType : values.contains tp.name = false := by
      simp only [Bool.or_eq_true, not_or, Bool.not_eq_true, Bool.not_eq_false'] at named
      simpa [isDependent, named.1] using forms
    exact matched_templateParam matched isType built all

theorem matches_pointer {e : Ty} (inner : Matches values e) (dependent : isDependent e = true) : Matches values (.pointer e) := by
  intro a b b' built all matched
  unfold matchType at matched
  rw [if_neg (by simp [isDependent, dependent])] at matched
  dsimp only at matched
  split at matched
  · rename_i e' is
    have built' := built_unqualify built
    rw [is] at built'
    simp only [Ty.built] at built'
    split at matched
    · cases matched
    · exact matched_pointer (inner built' all matched) dependent built is
  · cases matched

theorem matches_lvalueReference {e : Ty} (inner : Matches values e) (dependent : isDependent e = true)
    (built : (Ty.lvalueReference e).built = true) : Matches values (.lvalueReference e) := by
  intro a b b' built' all matched
  unfold matchType at matched
  rw [if_neg (by simp [isDependent, dependent])] at matched
  dsimp only at matched
  split at matched
  · rename_i e'
    have parts := built'
    simp only [Ty.built, Bool.and_eq_true] at parts
    exact matched_lvalueReference (inner parts.2 all matched) dependent built built'
  · cases matched

theorem matches_rvalueReference {e : Ty} (inner : Matches values e) (dependent : isDependent e = true)
    (built : (Ty.rvalueReference e).built = true) : Matches values (.rvalueReference e) := by
  intro a b b' built' all matched
  unfold matchType at matched
  rw [if_neg (by simp [isDependent, dependent])] at matched
  dsimp only at matched
  split at matched
  · rename_i e'
    have parts := built'
    simp only [Ty.built, Bool.and_eq_true] at parts
    exact matched_rvalueReference (inner parts.2 all matched) dependent built built'
  · cases matched

theorem matches_memberPointer {k e : Ty} (first : Matches values k) (second : Matches values e)
    (dependent : isDependent (.memberPointer k e) = true) : Matches values (.memberPointer k e) := by
  intro a b b' built all matched
  unfold matchType at matched
  rw [if_neg (by simp [dependent])] at matched
  dsimp only at matched
  split at matched
  · rename_i k' e' is
    have built' := built_unqualify built
    rw [is] at built'
    simp only [Ty.built, Bool.and_eq_true] at built'
    obtain ⟨b₁, isClass, matched⟩ := Option.bind_eq_some_iff.1 matched
    have class_ := first built'.1 all isClass
    exact matched_memberPointer class_ (second built'.2 class_.bindable matched) dependent built is
  · cases matched

theorem matches_array {e : Ty} {len : Int} {inc : Bool} {dep : String} (inner : Matches values e)
    (dependent : isDependent (.array e len inc dep) = true) (isValue : dep ≠ "" → values.contains dep = true) :
    Matches values (.array e len inc dep) := by
  intro a b b' built all matched
  unfold matchType at matched
  rw [if_neg (by simp [dependent])] at matched
  dsimp only at matched
  split at matched
  · rename_i e' len' inc' dep' is
    have built' := built_unqualify built
    rw [is] at built'
    simp only [Ty.built] at built'
    obtain ⟨b₁, length, matched⟩ := Option.bind_eq_some_iff.1 matched
    exact matched_array length all (fun bindable => inner built' bindable matched) dependent isValue built is
  · cases matched

theorem matches_qualified {q : Qual} {t : Ty} (inner : Matches values t) (dependent : isDependent t = true)
    (built : (Ty.qualified q t).built = true) : Matches values (.qualified q t) := by
  intro a b b' built' all matched
  unfold matchType at matched
  rw [if_neg (by simp [isDependent, dependent])] at matched
  dsimp only at matched
  split at matched
  · rename_i q' t'
    split at matched
    · cases matched
    · rename_i within
      have within : q' &&& q = q := by simpa using within
      have rest := built_rest q built'
      exact matched_qualified (inner rest all matched) within dependent built built'
  · cases matched

/-- What matching the parameters of a function, but for a pack that is the last, leaves. -/
abbrev MatchesParams (values : List String) (ps : List Param) : Prop :=
  ∀ (packed : Bool) ⦃os : List Param⦄ ⦃b b' : Binding⦄, (packed = false → ps.getLast?.any (·.pack) = false) → builtParams os = true →
    Bindable values b → matchParams packed ps os b = some b' → MatchedParams values (if packed then ps.dropLast else ps) os b b'

theorem matchParams_length : ∀ {ps os : List Param} {b b' : Binding}, matchParams false ps os b = some b' → os.length = ps.length
  | [], [], _, _, _ => rfl
  | [], _ :: _, _, _, matched => by
    unfold matchParams at matched
    cases matched
  | .mk _ _ _ _ _ :: ps, [], _, _, matched => by
    unfold matchParams at matched
    cases matched
  | .mk _ _ _ _ _ :: ps, o :: os, _, _, matched => by
    unfold matchParams at matched
    obtain ⟨b₁, -, matched⟩ := Option.bind_eq_some_iff.1 matched
    rw [List.length_cons, List.length_cons, matchParams_length matched]

theorem builtParams_take {ps : List Param} (built : builtParams ps = true) (n : Nat) : builtParams (ps.take n) = true := by
  induction ps generalizing n with
  | nil => simpa using built
  | cons p ps ih =>
    obtain ⟨_, t, _, _, _⟩ := p
    simp only [builtParams, Bool.and_eq_true] at built
    cases n with
    | zero => rfl
    | succ n => rw [List.take_succ_cons, builtParams, built.1, ih built.2]; rfl

theorem matches_func {ret : Ty} {ps : List Param} {var : Bool} {q : Qual} {r : Types.RefQual} {n : Bool} (first : Matches values ret)
    (params : MatchesParams values ps) (dependent : isDependent (.func ret ps var q r n) = true) :
    Matches values (.func ret ps var q r n) := by
  intro a b b' built all matched
  unfold matchType at matched
  rw [if_neg (by simp [dependent])] at matched
  dsimp only at matched
  split at matched
  · rename_i ret' ps' var' q' r' n' is
    obtain rfl | ⟨q₁, rfl, -⟩ := unqualify_cases built is
    · simp only [Ty.built, Bool.and_eq_true] at built
      split at matched
      · cases matched
      rename_i sameVar
      obtain rfl : var' = var := by simpa using sameVar
      split at matched
      · -- the pack is what the others leave
        rename_i packed
        split at matched
        · rename_i tp isLast
          split at matched
          · cases matched
          rename_i isPack
          obtain ⟨last, is, type⟩ := Option.map_eq_some_iff.1 isLast
          obtain ⟨init, rfl⟩ := List.getLast?_eq_some_iff.1 is
          obtain ⟨name, _, hasDefault, pack, packOf⟩ := last
          obtain rfl : _ = Ty.templateParam tp := type
          simp only [packs, List.getLast?_concat, Option.any_some, Param.pack_mk, Bool.and_eq_true] at packed
          obtain ⟨rfl, -⟩ := packed
          simp only [List.length_append, List.length_singleton, Nat.add_sub_cancel] at matched
          obtain ⟨b₂, matched, bound⟩ := Option.bind_eq_some_iff.1 matched
          obtain ⟨b₁, isRet, matched⟩ := Option.bind_eq_some_iff.1 matched
          have returns := first built.1 all isRet
          have others := params true (by simp) (builtParams_take built.2 _) returns.bindable matched
          rw [if_pos rfl, List.dropLast_concat] at others
          obtain ⟨grows, bindable, reads⟩ := matchedParams_packed (by simpa using isPack) others bound built.2
          exact matched_func returns (others.extends_.trans grows) bindable reads dependent
        · cases matched
      · rename_i plain
        obtain ⟨b₁, isRet, matched⟩ := Option.bind_eq_some_iff.1 matched
        have returns := first built.1 all isRet
        have noPack : ps.getLast?.any (·.pack) = false := by
          simpa [packs, matchParams_length matched] using plain
        have others := params false (fun _ => noPack) built.2 returns.bindable matched
        rw [if_neg Bool.false_ne_true] at others
        apply matched_func returns others.extends_ others.bindable (fun c more => ?_) dependent
        simpa [equalParams] using others.equal c more [] []
    · simp [Ty.built, Ty.isFunc, Ty.kind] at built
  · cases matched

theorem deducible_deduced {t : Ty} (forms : deducible values t = true) (dependent : isDependent t = true) : nonDeduced t = false := by
  have forms : deducible values t.unqualify = true := by
    cases t with
    | qualified q t =>
      unfold deducible at forms
      rw [dependent] at forms
      exact forms
    | _ => exact forms
  have within : isDependent t.unqualify = true := by cases t <;> exact dependent
  unfold nonDeduced needsSubstitution isAliasSpelling
  rw [dependent]
  unfold deducible at forms
  rw [within] at forms
  revert forms
  cases t.unqualify with
  | specialization name as of_ => cases of_ <;> simp
  | _ => simp

/-- Something is deduced from a template-id that mentions a parameter. -/
theorem anyDependentArg_deduced : ∀ {as : List Arg}, anyDependentArg as = true → deducibleArgs values as = true →
    as.all argNonDeduced = false
  | .value _ _ :: as, dependent, forms => by
    rw [anyDependentArg] at dependent
    rw [deducibleArgs] at forms
    rw [List.all_cons, anyDependentArg_deduced dependent forms, Bool.and_false]
  | .type t :: as, dependent, forms => by
    simp only [anyDependentArg, Bool.or_eq_true] at dependent
    simp only [deducibleArgs, Bool.and_eq_true] at forms
    rw [List.all_cons]
    by_cases inner : isDependent t = true
    · have deduced := deducible_deduced forms.1 inner
      have whole : argNonDeduced (.type t) = false := by
        cases t <;> first | exact deduced | exact absurd inner Bool.false_ne_true
      rw [whole, Bool.false_and]
    · rw [anyDependentArg_deduced (dependent.resolve_left inner) forms.2, Bool.and_false]

theorem matches_specialization {name : String} {as : List Arg} {of_ : TemplateHead} (args : MatchesArgs values as)
    (forms : deducibleArgs values as = true) (noAlias : of_ ≠ .alias) (dependent : isDependent (.specialization name as of_) = true) :
    Matches values (.specialization name as of_) := by
  intro a b b' built all matched
  have built' := built_unqualify built
  have deduced : onlyNonDeduced as of_ = false := by
    cases of_ with
    | param tp => rfl
    | primary r => exact anyDependentArg_deduced dependent forms
    | «alias» => exact absurd rfl noAlias
  have noSpelling : isAliasSpelling (.specialization name as of_) = false := by
    cases of_ <;> first | rfl | exact absurd rfl noAlias
  unfold matchType at matched
  rw [if_neg (by simp [dependent])] at matched
  simp only [noSpelling, Bool.false_eq_true, if_false, deduced, Bool.false_and] at matched
  split at matched
  · rename_i name' as' of' is
    rw [is] at built'
    simp only [Ty.built] at built'
    obtain ⟨grows, bindable, -, reads⟩ := matchSpecialization_spec args matched (builtElems_flattenPacks built') all
    apply matched_specialization grows bindable dependent built ((form_of_unqualify is).trans rfl)
    intro c more
    rw [is]
    simp [Ty.equal, Ty.strict, faithful, dependent, reads c more as' rfl]
  · rename_i r name' as' primary pattern is
    rw [is] at built'
    simp only [Ty.built] at built'
    obtain ⟨grows, bindable, -, reads⟩ := matchSpecialization_spec args matched (builtElems_flattenPacks built') all
    apply matched_specialization grows bindable dependent built ((form_of_unqualify is).trans rfl)
    intro c more
    rw [is]
    simp [Ty.equal, Ty.strict, faithful, dependent]
  · cases matched
  · cases matched

theorem isValue_of_deducible {tp : TemplateParam} (forms : deducible values (.templateParam tp) = true) (noType : tp.isType = false) :
    values.contains tp.name = true := by
  unfold deducible at forms
  simpa [isDependent, noType] using forms

/-- A pack in a pattern is no parameter, and only a pack is equal to it. -/
theorem not_matchType_pack {es : List Arg} {a : Ty} {b b' : Binding} (built : a.built = true) : ¬ matchType (.pack es) a b = some b' := by
  intro matched
  obtain ⟨equal, -⟩ := matchType_static rfl matched
  exact kind_ne_pack built (kind_of_equal equal).symm

theorem matchArgs_cons {packed : Bool} {p : Arg} {ps os : List Arg} {b b' : Binding} (matched : matchArgs packed (p :: ps) os b = some b') :
    (packed = true ∧ ps = [] ∧ os = [] ∧ b' = b) ∨
      (packed && ps.isEmpty) = false ∧ ∃ a os' b₁, os = a :: os' ∧ matchArg p a b = some b₁ ∧ matchArgs packed ps os' b₁ = some b' := by
  unfold matchArgs at matched
  split at matched
  · rename_i last
    simp only [Bool.and_eq_true, List.isEmpty_iff] at last
    split at matched
    · rename_i none
      cases matched
      exact .inl ⟨last.1, last.2, by simpa using none, rfl⟩
    · cases matched
  · rename_i more
    cases os with
    | nil => cases matched
    | cons a os' =>
      obtain ⟨b₁, first, others⟩ := Option.bind_eq_some_iff.1 matched
      exact .inr ⟨by simpa using more, a, os', b₁, rfl, first, others⟩

theorem matchParams_cons {packed : Bool} {name packOf : String} {t : Ty} {hasDefault pack : Bool} {ps os : List Param} {b b' : Binding}
    (matched : matchParams packed (.mk name t hasDefault pack packOf :: ps) os b = some b') :
    (packed = true ∧ ps = [] ∧ os = [] ∧ b' = b) ∨
      (packed && ps.isEmpty) = false ∧ ∃ a os' b₁, os = a :: os' ∧ matchType t a.type b = some b₁ ∧ matchParams packed ps os' b₁ = some b' := by
  unfold matchParams at matched
  split at matched
  · rename_i last
    simp only [Bool.and_eq_true, List.isEmpty_iff] at last
    split at matched
    · rename_i none
      cases matched
      exact .inl ⟨last.1, last.2, by simpa using none, rfl⟩
    · cases matched
  · rename_i more
    cases os with
    | nil => cases matched
    | cons a os' =>
      obtain ⟨b₁, first, others⟩ := Option.bind_eq_some_iff.1 matched
      exact .inr ⟨by simpa using more, a, os', b₁, rfl, first, others⟩

theorem dropLast_more {α : Type} {packed : Bool} {ps : List α} (more : (packed && ps.isEmpty) = false) (p : α) :
    (if packed then (p :: ps).dropLast else p :: ps) = p :: (if packed then ps.dropLast else ps) := by
  cases packed with
  | false => rfl
  | true =>
    cases ps with
    | nil => cases more
    | cons _ _ => rfl

theorem matches_of {t : Ty} (built : t.built = true) (matches_ : isDependent t = true → Matches values t) : Matches values t := by
  by_cases dependent : isDependent t = true
  · exact matches_ dependent
  · exact matches_static (by simpa using dependent) built

mutual

theorem match_type : ∀ (t : Ty), t.built = true → deducible values t = true → Matches values t
  | .templateParam tp, _, forms => matches_templateParam forms
  | .qualified q t, built, forms => by
    apply matches_of built
    intro dependent
    have parts := built
    simp only [Ty.built, Bool.and_eq_true] at parts
    unfold deducible at forms
    rw [dependent] at forms
    exact matches_qualified (match_type t parts.2 forms) dependent built
  | .pointer e, built, forms => by
    apply matches_of built
    intro dependent
    simp only [Ty.built] at built
    unfold deducible at forms
    rw [dependent] at forms
    exact matches_pointer (match_type e built forms) dependent
  | .lvalueReference e, built, forms => by
    apply matches_of built
    intro dependent
    have parts := built
    simp only [Ty.built, Bool.and_eq_true] at parts
    unfold deducible at forms
    rw [dependent] at forms
    exact matches_lvalueReference (match_type e parts.2 forms) dependent built
  | .rvalueReference e, built, forms => by
    apply matches_of built
    intro dependent
    have parts := built
    simp only [Ty.built, Bool.and_eq_true] at parts
    unfold deducible at forms
    rw [dependent] at forms
    exact matches_rvalueReference (match_type e parts.2 forms) dependent built
  | .memberPointer k e, built, forms => by
    apply matches_of built
    intro dependent
    simp only [Ty.built, Bool.and_eq_true] at built
    unfold deducible at forms
    simp only [dependent, Bool.not_true, Bool.false_or, Bool.and_eq_true] at forms
    exact matches_memberPointer (match_type k built.1 forms.1) (match_type e built.2 forms.2) dependent
  | .array e len inc dep, built, forms => by
    apply matches_of built
    intro dependent
    simp only [Ty.built] at built
    unfold deducible at forms
    simp only [dependent, Bool.not_true, Bool.false_or, Bool.and_eq_true, Bool.or_eq_true, decide_eq_true_eq] at forms
    exact matches_array (match_type e built forms.2) dependent fun written => forms.1.resolve_left written
  | .func ret ps var q r n, built, forms => by
    apply matches_of built
    intro dependent
    simp only [Ty.built, Bool.and_eq_true] at built
    unfold deducible at forms
    simp only [dependent, Bool.not_true, Bool.false_or, Bool.and_eq_true] at forms
    exact matches_func (match_type ret built.1 forms.1) (match_params ps built.2 forms.2) dependent
  | .specialization name as of_, built, forms => by
    apply matches_of built
    intro dependent
    simp only [Ty.built] at built
    unfold deducible at forms
    simp only [dependent, Bool.not_true, Bool.false_or, Bool.and_eq_true, decide_eq_true_eq] at forms
    exact matches_specialization (match_args as built forms.2) forms.2 forms.1 dependent
  | .record r pattern, built, forms | .specialized r _ _ _ pattern, built, forms | .dependent _, built, forms => by
    apply matches_of built
    intro dependent
    unfold deducible at forms
    rw [dependent] at forms
    cases forms
  | .basic _, built, _ | .blockPointer _, built, _ | .enum _ _, built, _ | .interface _, built, _ | .templateRef _ _ _, built, _ =>
    matches_static rfl built

theorem match_args : ∀ (as : List Arg), builtArgs as = true → deducibleArgs values as = true → MatchesArgs values as
  | [], _, _ => by
    intro packed os b b' _ all matched
    cases os with
    | nil =>
      unfold matchArgs at matched
      cases matched
      cases packed <;> exact matchedArgs_nil all
    | cons o os =>
      unfold matchArgs at matched
      cases matched
  | .value v type :: as, built, forms => by
    intro packed os b b' built' all matched
    simp only [builtArgs, Bool.and_eq_true] at built
    rw [deducibleArgs] at forms
    obtain ⟨rfl, rfl, rfl, rfl⟩ | ⟨more, o, os, b₁, rfl, first, others⟩ := matchArgs_cons matched
    · exact matchedArgs_nil all
    rw [dropLast_more more]
    unfold matchArg at first
    cases o with
    | type t' => cases first
    | value v' type' =>
      dsimp only at first
      split at first
      · rename_i same
        cases first
        subst same
        simp only [builtElems, Bool.and_eq_true] at built'
        exact matchedArgs_values (match_args as built.2 forms packed built'.2 all others)
      · cases first
  | .type t :: as, built, forms => by
    intro packed os b b' built' all matched
    simp only [deducibleArgs, Bool.and_eq_true] at forms
    obtain ⟨isType, built⟩ := builtArgs_cons built
    obtain ⟨rfl, rfl, rfl, rfl⟩ | ⟨more, o, os, b₁, rfl, first, others⟩ := matchArgs_cons matched
    · exact matchedArgs_nil all
    rw [dropLast_more more]
    unfold matchArg at first
    cases o with
    | type t' =>
      simp only [builtElems, Bool.and_eq_true] at built'
      obtain ⟨es, rfl, -⟩ | whole := isType
      · exact absurd first (not_matchType_pack built'.1)
      have first := match_type t whole forms.1 built'.1 all first
      exact matchedArgs_type first built'.1 (match_args as built forms.2 packed built'.2 first.bindable others)
    | value v type =>
      simp only [builtElems, Bool.and_eq_true] at built'
      dsimp only at first
      split at first
      · rename_i tp
        split at first
        · cases first
        · rename_i isValue
          simp only [Bool.or_eq_true, not_or, Bool.not_eq_true] at isValue
          exact matchedArgs_value first (isValue_of_deducible forms.1 isValue.1) built'.1 all fun bindable => match_args as built forms.2 packed built'.2 bindable others
      · cases first

theorem match_params : ∀ (ps : List Param), builtParams ps = true → deducibleParams values ps = true → MatchesParams values ps
  | [], _, _ => by
    intro packed os b b' _ _ all matched
    cases os with
    | nil =>
      unfold matchParams at matched
      cases matched
      cases packed <;> exact matchedParams_nil all
    | cons o os =>
      unfold matchParams at matched
      cases matched
  | .mk name t hasDefault pack packOf :: ps, built, forms => by
    intro packed os b b' noPack built' all matched
    simp only [builtParams, Bool.and_eq_true] at built
    simp only [deducibleParams, Bool.and_eq_true] at forms
    obtain ⟨rfl, rfl, rfl, rfl⟩ | ⟨more, o, os, b₁, rfl, first, others⟩ := matchParams_cons matched
    · exact matchedParams_nil all
    rw [dropLast_more more]
    obtain ⟨name', t', _, _, _⟩ := o
    simp only [builtParams, Bool.and_eq_true] at built'
    obtain ⟨isLast, plain⟩ : pack = false ∧ (packed = false → ps.getLast?.any (·.pack) = false) := by
      cases ps with
      | nil =>
        have whole : packed = false := by simpa using more
        exact ⟨by simpa using noPack whole, fun _ => rfl⟩
      | cons _ _ => exact ⟨by simpa using forms.1.1, by simpa using noPack⟩
    subst isLast
    have first := match_type t built.1 forms.1.2 built'.1 all first
    exact matchedParams_cons first (match_params ps built.2 forms.2 packed plain built'.2 first.bindable others)

end

/-- The arguments of the pattern itself. -/
theorem matchPattern_spec : ∀ (ps : List Arg), builtArgs ps = true → deducibleArgs values ps = true →
    ∀ {os : List Arg} {b b' : Binding}, builtElems os = true → Bindable values b → matchPattern ps os b = some b' →
      MatchedArgs values ps os b b'
  | [], _, _, [], b, b', _, all, matched => by
    cases matched
    exact matchedArgs_nil all
  | .value v type :: ps, built, forms, .value v' type' :: os, b, b', built', all, matched => by
    simp only [builtArgs, builtElems, Bool.and_eq_true] at built built'
    rw [deducibleArgs] at forms
    obtain ⟨b₁, first, others⟩ := Option.bind_eq_some_iff.1 matched
    have first : (if v = v' then some b else none) = some b₁ := first
    split at first
    · rename_i same
      cases first
      subst same
      exact matchedArgs_values (matchPattern_spec ps built.2 forms built'.2 all others)
    · cases first
  | .value v type :: ps, _, _, .type t :: os, _, _, _, _, matched => by
    cases matched
  | .type t :: ps, built, forms, .type t' :: os, b, b', built', all, matched => by
    simp only [deducibleArgs, builtElems, Bool.and_eq_true] at forms built'
    obtain ⟨isType, built⟩ := builtArgs_cons built
    obtain ⟨b₁, first, others⟩ := Option.bind_eq_some_iff.1 matched
    obtain ⟨es, rfl, -⟩ | whole := isType
    · exact absurd first (not_matchType_pack built'.1)
    have first := match_type t whole forms.1 built'.1 all first
    exact matchedArgs_type first built'.1 (matchPattern_spec ps built forms.2 built'.2 first.bindable others)
  | .type t :: ps, built, forms, .value v type :: os, b, b', built', all, matched => by
    simp only [deducibleArgs, builtElems, Bool.and_eq_true] at forms built'
    obtain ⟨-, built⟩ := builtArgs_cons built
    obtain ⟨b₁, first, others⟩ := Option.bind_eq_some_iff.1 matched
    cases t with
    | templateParam tp =>
      have first : (if tp.isType then none else bindValue tp.name type v b) = some b₁ := first
      split at first
      · cases first
      · rename_i noType
        exact matchedArgs_value first (isValue_of_deducible forms.1 (by simpa using noType)) built'.1 all fun bindable =>
          matchPattern_spec ps built forms.2 built'.2 bindable others
    | _ => cases first

theorem builtArgs_append {ps qs : List Arg} : builtArgs (ps ++ qs) = true ↔ builtArgs ps = true ∧ builtArgs qs = true := by
  induction ps with
  | nil => simp [builtArgs]
  | cons p ps ih =>
    cases p with
    | type t => cases t <;> simp [builtArgs, ih, and_assoc]
    | value v t => simp [builtArgs, ih, and_assoc]

theorem deducibleArgs_append {ps qs : List Arg} :
    deducibleArgs values (ps ++ qs) = true ↔ deducibleArgs values ps = true ∧ deducibleArgs values qs = true := by
  induction ps with
  | nil => simp [deducibleArgs]
  | cons p ps ih => cases p <;> simp [deducibleArgs, ih, and_assoc]

end patterns

theorem givesBack_of_equal {a o : Arg} (equal : a.equal o = true) : a.givesBack o = true := by
  unfold Arg.givesBack
  split
  · cases equal
  · exact equal

theorem givesBackArgs_of_equal : ∀ {as os : List Arg}, equalArgs as os = true → givesBackArgs as os = true
  | [], [], _ => rfl
  | _ :: _, _ :: _, equal => by
    simp only [equalArgs, Bool.and_eq_true] at equal
    rw [givesBackArgs, givesBack_of_equal equal.1, givesBackArgs_of_equal equal.2]
    rfl

/-- **A binding gives the arguments back exactly where the pattern is faithful to them**: the pattern with
its parameters replaced and its packs spread is the arguments with theirs, each type equal to the one it
was matched with and each value the same. -/
theorem patternBinding_gives_back {values : List String} {pattern args : List Arg} {b : Binding}
    (matched : patternBinding pattern args = some b) (forms : deducibleArgs values pattern = true) (built : builtArgs pattern = true)
    (builtArgs_ : builtArgs args = true) :
    givesBackArgs (flattenPacks (substituteArgs pattern b)) (flattenPacks args) = true ↔ faithfulArgs pattern (flattenPacks args) = true := by
  have elems := builtElems_flattenPacks builtArgs_
  unfold patternBinding at matched
  dsimp only at matched
  split at matched
  · rename_i last
    obtain ⟨ps, tp, rfl, isPack⟩ := lastIsPack_eq last
    simp only [List.getLast?_concat, Option.elim_some, packName, List.length_append, List.length_singleton, Nat.add_sub_cancel,
      List.dropLast_concat] at matched
    split at matched
    · cases matched
    · have parts := builtArgs_append.1 built
      have forms := deducibleArgs_append.1 forms
      have rest := builtElems_take_drop elems ps.length
      have all : Bindable values [(tp.name, .pack ((flattenPacks args).drop ps.length))] := (AllBound.nil _).cons rest.2
      have others := matchPattern_spec ps parts.1 forms.1 rest.1 all matched
      have each := others.each b (.refl b)
      have whole : substitute (.templateParam tp) b = .pack ((flattenPacks args).drop ps.length) :=
        substitute_templateParam (others.extends_ _ _ (by simp)) fun _ _ => isPack
      have given := givesBackArgs_replaced each ((flattenPacks args).drop ps.length) ((flattenPacks args).drop ps.length)
      rw [List.take_append_drop] at given
      rw [substituteArgs_append, flattenPacks_replaced each, substituteArgs, whole, substituteArgs, flattenPacks_pack, flattenPacks,
        List.append_nil, given, faithfulArgs_last]
      · simp [givesBackArgs_of_equal (equalElems_self _ rest.2)]
      · exact isPack
  · have others := matchPattern_spec pattern built forms elems (.nil _) matched
    have each := others.each b (.refl b)
    have given := givesBackArgs_replaced each [] []
    have flat := flattenPacks_replaced each []
    simp only [List.append_nil] at given flat
    rw [flat, flattenPacks, List.append_nil, given]
    simp [givesBackArgs]

/-- The pattern `R(A...)`. -/
def functionPattern : List Arg :=
  [.type (.func (.templateParam { name := "R", index := 0 })
    [.mk "" (.templateParam { name := "A", index := 1, isPack := true }) false true ""] false 0 .none false)]

/-- `int(bool)`, and with `const`. -/
def boolFunction (quals : Qual) : Ty := .func (.basic .int) [.mk "" (.basic .bool) false false ""] false quals .none false

def functionBinding : Binding := [("A", .pack [.type (.basic .bool)]), ("R", .basic .int)]

theorem boolFunction_given_back : givesBackArgs (flattenPacks (substituteArgs functionPattern functionBinding)) [.type (boolFunction 0)] = true := by
  have matched : patternBinding functionPattern [.type (boolFunction 0)] = some functionBinding := rfl
  exact (@patternBinding_gives_back [] _ _ _ matched rfl rfl rfl).2 rfl

/-- The qualifiers of a function type are not compared. -/
theorem constFunction_lost : patternBinding functionPattern [.type (boolFunction Qual.const)] = some functionBinding ∧
    deducibleArgs [] functionPattern = true ∧ builtArgs functionPattern = true ∧ builtArgs [.type (boolFunction Qual.const)] = true ∧
    givesBackArgs (flattenPacks (substituteArgs functionPattern functionBinding)) (flattenPacks [.type (boolFunction Qual.const)]) = false := by
  refine ⟨rfl, rfl, rfl, rfl, ?_⟩
  rfl

end Vcx.Template
