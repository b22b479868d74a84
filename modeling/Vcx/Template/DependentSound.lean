import Vcx.Template.Dependent

/-!
# When the parameters of a type are gone

A type transformation keeps every occurrence of a parameter that is no array's bound, and it is applied to
what is not dependent only. So what substitution leaves behind are the occurrences it does not come to.
-/

namespace Vcx.Template
set_option autoImplicit false

variable {ns : List String} {t : Ty} {b : Binding}

/-! ### Occurrences are kept -/

section

attribute [local simp] Ty.mentions isDependent

@[simp] theorem qualify_mentions (t : Ty) (q : Qual) : (t.qualify q).mentions ns = t.mentions ns := by
  unfold Ty.qualify
  split
  · rfl
  split
  · rfl
  split <;> simp [Ty.mentions]

@[simp] theorem unqualify_mentions (t : Ty) : t.unqualify.mentions ns = t.mentions ns := by
  cases t <;> simp [Ty.unqualify, Ty.mentions]

@[simp] theorem removeReference_mentions (t : Ty) : t.removeReference.mentions ns = t.mentions ns := by
  cases t <;> simp [Ty.removeReference, Ty.mentions]

@[simp] theorem addLValueReference_mentions (t : Ty) : t.addLValueReference.mentions ns = t.mentions ns := by
  unfold Ty.addLValueReference
  split <;> simp [Ty.mentions]

@[simp] theorem addRValueReference_mentions (t : Ty) : t.addRValueReference.mentions ns = t.mentions ns := by
  unfold Ty.addRValueReference
  split <;> simp [Ty.mentions]

@[simp] theorem withQuals_mentions (f : Qual → Qual) (t : Ty) : (t.withQuals f).mentions ns = t.mentions ns := by
  cases t <;> simp [Ty.withQuals, Ty.mentions]

theorem unqualify_dependent (t : Ty) : isDependent t.unqualify = isDependent t := by
  cases t <;> simp [Ty.unqualify, isDependent]

theorem removeReference_dependent (t : Ty) : isDependent t.removeReference = isDependent t := by
  cases t <;> simp [Ty.removeReference, isDependent]

/-- An array that is not dependent has no parameter for a bound. -/
theorem array_mentions (ns : List String) {e : Ty} {len : Int} {inc : Bool} {dep : String} (static : isDependent (.array e len inc dep) = false) :
    (Ty.array e len inc dep).mentions ns = e.mentions ns ∧ isDependent e = false := by
  simp only [isDependent, ne_eq, Bool.or_eq_false_iff, decide_eq_false_iff_not, not_not] at static
  exact ⟨by simp [Ty.mentions, static.1], static.2⟩

theorem removeAllExtents_mentions (static : isDependent t = false) : (removeAllExtents t).mentions ns = t.mentions ns := by
  induction t using removeAllExtents.induct with
  | case1 e len inc dep ih =>
    obtain ⟨same, inner⟩ := array_mentions _ static
    rw [removeAllExtents, ih inner, same]
  | case2 q e len inc dep ih =>
    obtain ⟨same, inner⟩ := array_mentions ns (show isDependent (.array e len inc dep) = false from static)
    rw [removeAllExtents, ih inner, ← same]
    rfl
  | case3 t noArray noQualified =>
    unfold removeAllExtents
    split
    · exact absurd rfl (noArray _ _ _ _)
    · exact absurd rfl (noQualified _ _ _ _ _)
    · rfl

theorem removeExtent_mentions (static : isDependent t = false) : (removeExtent t).mentions ns = t.mentions ns := by
  rw [← unqualify_dependent] at static
  unfold removeExtent
  split
  · rename_i is
    rw [is] at static
    rw [← unqualify_mentions t, is, (array_mentions _ static).1]
  · rfl

theorem decay_mentions (static : isDependent t = false) : (decay t).mentions ns = t.mentions ns := by
  rw [← removeReference_dependent, ← unqualify_dependent] at static
  rw [← removeReference_mentions t, ← unqualify_mentions t.removeReference, decay]
  split
  · rename_i is
    rw [is] at static ⊢
    exact (array_mentions _ static).1.symm
  · rename_i is
    rw [is]
    rfl
  · rfl

theorem makeSignedness_mentions {signed : Bool} {s : Ty} (made : makeSignedness t signed = some s) : s.mentions ns = t.mentions ns := by
  obtain ⟨k, found, rfl⟩ := Option.map_eq_some_iff.1 made
  rw [qualify_mentions, ← unqualify_mentions t]
  split at found
  · rename_i is
    rw [is]
    rfl
  · rename_i is
    rw [is]
    rfl
  · rename_i u is
    rw [is]
    split at found
    · rename_i basic
      rw [Ty.mentions, Ty.mentions, ← unqualify_mentions u, basic]
      rfl
    · cases found
  · cases found

/-- **A type transformation keeps the occurrences of the parameters.** -/
theorem applyTransform_mentions {op : String} {s : Ty} (applies : applyTransform op t (isDependent t) = some s) :
    s.mentions ns = t.mentions ns := by
  unfold applyTransform at applies
  split at applies
  · cases applies
    rfl
  rename_i static
  have static : isDependent t = false := by simpa using static
  split at applies
  case h_7 =>
    split at applies
    · rename_i is
      cases applies
      rw [← unqualify_mentions t, is]
      rfl
    · cases applies
      rfl
  case h_14 =>
    split at applies
    · rename_i is
      cases applies
      rw [← unqualify_mentions t, is]
      rfl
    · rename_i is
      cases applies
      rw [← unqualify_mentions t, is]
      rfl
    · cases applies
  case h_8 =>
    cases applies
    split <;> simp [Ty.mentions]
  case h_9 =>
    cases applies
    split <;> simp
  case h_10 =>
    cases applies
    split <;> simp
  case h_15 => exact makeSignedness_mentions applies
  case h_16 => exact makeSignedness_mentions applies
  case h_17 => cases applies
  all_goals
    obtain rfl := Option.some.inj applies
    first
      | simp
      | exact decay_mentions static
      | exact removeExtent_mentions static
      | exact removeAllExtents_mentions static

end

/-! ### Where nothing is substituted -/

theorem packParamName_static (static : isDependent t = false) : packParamName t = "" := by
  fun_induction packParamName t with
  | case1 p isPack => cases static
  | case2 p noPack => rfl
  | case3 q t ih => exact ih static
  | case4 t ih => exact ih static
  | case5 t ih => exact ih static
  | case6 t ih => exact ih static
  | case7 t len inc dep ih => exact ih (array_mentions [] static).2
  | case8 => rfl

/-- Nothing is substituted in the type. -/
abbrev Idle (t : Ty) (b : Binding) : Prop := b = [] ∨ isDependent t = false

theorem mentions_imp {rest : Bool} : (!t.mentions ns || rest) = true ↔ (t.mentions ns = true → rest = true) := by
  cases t.mentions ns <;> simp

mutual

/-- Where nothing is substituted, a type that is reached mentions nothing. -/
theorem reached_idle : ∀ (t : Ty) {b : Binding}, b.lookup "" = none → Idle t b → reached ns t b = true → t.mentions ns = false
  | .templateParam p, b, _, idle, all => by
    obtain rfl : b = [] := idle.resolve_right (by simp [isDependent])
    simpa [reached, paramReached] using all
  | .qualified _ t, b, named, idle, all | .pointer t, b, named, idle, all | .lvalueReference t, b, named, idle, all
  | .rvalueReference t, b, named, idle, all => by
    by_contra some_
    have some_ : t.mentions ns = true := by simpa [Ty.mentions] using some_
    have inner : reached ns t b = true := by simpa [reached, Ty.mentions, some_] using all
    rw [reached_idle t named idle inner] at some_
    cases some_
  | .memberPointer c e, b, named, idle, all => by
    by_contra some_
    have parts : reached ns c b = true ∧ reached ns e b = true := by
      rw [reached, mentions_imp, Bool.and_eq_true] at all
      exact all (by simpa using some_)
    have idle : Idle c b ∧ Idle e b := by
      simp only [Idle, isDependent, Bool.or_eq_false_iff] at idle ⊢
      tauto
    exact some_ (by simp [Ty.mentions, reached_idle c named idle.1 parts.1, reached_idle e named idle.2 parts.2])
  | .array e _ _ dep, b, named, idle, all => by
    by_contra some_
    have parts : boundReached ns dep b = true ∧ reached ns e b = true := by
      rw [reached, mentions_imp, Bool.and_eq_true] at all
      exact all (by simpa using some_)
    have bound : dep = "" ∨ ns.contains dep = false := by
      rcases idle with rfl | static
      · simpa [boundReached] using parts.1
      · simp only [isDependent, Bool.or_eq_false_iff] at static
        simpa using Or.inl static.1
    have idle : Idle e b := idle.imp_right fun static => (array_mentions [] static).2
    have inner := reached_idle e named idle parts.2
    apply some_
    rcases bound with none | other
    · simp [Ty.mentions, none, inner]
    · simp only [Ty.mentions, other, inner, Bool.and_false, Bool.or_self]
  | .func ret ps _ _ _ _, b, named, idle, all => by
    by_contra some_
    have parts : reached ns ret b = true ∧ paramsReached ns ps b = true := by
      rw [reached, mentions_imp, Bool.and_eq_true] at all
      exact all (by simpa using some_)
    have idle : Idle ret b ∧ (b = [] ∨ anyDependentParam ps = false) := by
      simp only [Idle, isDependent, Bool.or_eq_false_iff] at idle ⊢
      tauto
    exact some_ (by simp [Ty.mentions, reached_idle ret named idle.1 parts.1, paramsReached_idle ps named idle.2 parts.2])
  | .specialization _ as of_, b, named, idle, all => by
    by_contra some_
    have parts : of_.mentions ns = false ∧ argsReached ns as b = true := by
      rw [reached, mentions_imp, Bool.and_eq_true, Bool.not_eq_true'] at all
      exact all (by simpa using some_)
    exact some_ (by simp [Ty.mentions, parts.1, argsReached_idle as named idle parts.2])
  | .transform _ t, b, named, idle, all => by
    obtain rfl : b = [] := idle.resolve_right (by simp [isDependent])
    by_contra some_
    have inner : reached ns t [] = true := by
      rw [reached, mentions_imp, Bool.and_eq_true] at all
      exact (all (by simpa using some_)).2
    exact some_ (reached_idle t named (.inl rfl) inner)
  | .basic _, _, _, _, all | .blockPointer _, _, _, _, all | .record _ _, _, _, _, all | .specialized _ _ _ _ _, _, _, _, all
  | .enum _ _, _, _, _, all | .interface _, _, _, _, all | .dependent _, _, _, _, all | .templateRef _ _ _, _, _, _, all
  | .pack _, _, _, _, all | .valueBound _ _, _, _, _, all => by simpa [reached] using all
termination_by structural t => t

theorem argsReached_idle : ∀ (as : List Arg) {b : Binding}, b.lookup "" = none → b = [] ∨ anyDependentArg as = false →
    argsReached ns as b = true → argsMention ns as = false
  | [], _, _, _, _ => by simp [argsMention]
  | .type t :: as, b, named, idle, all => by
    simp only [argsReached, Bool.and_eq_true] at all
    have idle : Idle t b ∧ (b = [] ∨ anyDependentArg as = false) := by
      simp only [Idle, anyDependentArg, Bool.or_eq_false_iff] at idle ⊢
      tauto
    simp [argsMention, reached_idle t named idle.1 all.1, argsReached_idle as named idle.2 all.2]
  | .value _ t :: as, b, named, idle, all => by
    simp only [argsReached, Bool.and_eq_true, Bool.not_eq_true'] at all
    have idle : b = [] ∨ anyDependentArg as = false := by simpa [anyDependentArg] using idle
    simp [argsMention, all.1, argsReached_idle as named idle all.2]
termination_by structural as => as

theorem paramsReached_idle : ∀ (ps : List Param) {b : Binding}, b.lookup "" = none → b = [] ∨ anyDependentParam ps = false →
    paramsReached ns ps b = true → paramsMention ns ps = false
  | [], _, _, _, _ => by simp [paramsMention]
  | .mk _ t _ pack _ :: ps, b, named, idle, all => by
    simp only [paramsReached, Bool.and_eq_true] at all
    have idle : Idle t b ∧ (b = [] ∨ anyDependentParam ps = false) := by
      simp only [Idle, anyDependentParam, Bool.or_eq_false_iff] at idle ⊢
      tauto
    -- the pattern of a pack that is bound is dependent
    have unbound : (if pack then b.lookup (packParamName t) else none) = none := by
      split
      · rcases idle.1 with rfl | static
        · rfl
        · rw [packParamName_static static, named]
      · rfl
    rw [unbound] at all
    simp [paramsMention, reached_idle t named idle.1 all.1, paramsReached_idle ps named idle.2 all.2]
termination_by structural ps => ps

end

/-! ### What substitution leaves -/

theorem idle_mentions_iff (named : b.lookup "" = none) (idle : Idle t b) : t.mentions ns = false ↔ reached ns t b = true := by
  constructor
  · intro none
    unfold reached
    simp [none]
  · exact reached_idle t named idle

theorem reached_of_none (none : t.mentions ns = false) (b : Binding) : reached ns t b = true := by
  unfold reached
  simp [none]

theorem argsReached_of_none {as : List Arg} (none : argsMention ns as = false) (b : Binding) : argsReached ns as b = true := by
  induction as with
  | nil => rfl
  | cons a as ih =>
    cases a <;> simp only [argsMention, Bool.or_eq_false_iff] at none <;> simp [argsReached, none.1, ih none.2, reached_of_none]

theorem paramsReached_of_none {ps : List Param} (none : paramsMention ns ps = false) (b : Binding) : paramsReached ns ps b = true := by
  induction ps with
  | nil => rfl
  | cons p ps ih =>
    obtain ⟨name, t, hasDefault, pack, packOf⟩ := p
    simp only [paramsMention, Bool.or_eq_false_iff] at none
    simp only [paramsReached, ih none.2, Bool.and_true]
    split
    · rw [List.all_eq_true]
      intro a _
      cases a with
      | type s => exact reached_of_none none.1 _
      | value v s => simp [none.1]
    · exact reached_of_none none.1 b

/-- A type is reached as its form says, where that is so when nothing is mentioned. -/
theorem reached_of_form {form : Bool} (eq : reached ns t b = (!t.mentions ns || form)) (gone : t.mentions ns = false → form = true) :
    reached ns t b = form := by
  cases some_ : t.mentions ns with
  | false => rw [eq, some_, gone some_]; rfl
  | true => rw [eq, some_]; rfl

theorem reached_qualified (q : Qual) (t : Ty) : reached ns (.qualified q t) b = reached ns t b :=
  reached_of_form (by rw [reached]) fun none => reached_of_none (by simpa [Ty.mentions] using none) b

theorem reached_pointer (t : Ty) : reached ns (.pointer t) b = reached ns t b :=
  reached_of_form (by rw [reached]) fun none => reached_of_none (by simpa [Ty.mentions] using none) b

theorem reached_lvalueReference (t : Ty) : reached ns (.lvalueReference t) b = reached ns t b :=
  reached_of_form (by rw [reached]) fun none => reached_of_none (by simpa [Ty.mentions] using none) b

theorem reached_rvalueReference (t : Ty) : reached ns (.rvalueReference t) b = reached ns t b :=
  reached_of_form (by rw [reached]) fun none => reached_of_none (by simpa [Ty.mentions] using none) b

theorem reached_transform {op : String} (applies : (applyTransform op (substitute t b) (isDependent (substitute t b))).isSome) :
    reached ns (.transform op t) b = reached ns t b :=
  reached_of_form (by rw [reached, applies, Bool.true_and]) fun none => reached_of_none (by simpa [Ty.mentions] using none) b

theorem reached_memberPointer (c e : Ty) : reached ns (.memberPointer c e) b = (reached ns c b && reached ns e b) := by
  apply reached_of_form (by rw [reached])
  intro none
  simp only [Ty.mentions, Bool.or_eq_false_iff] at none
  simp [reached_of_none none.1, reached_of_none none.2]

theorem reached_array (e : Ty) (len : Int) (inc : Bool) (dep : String) :
    reached ns (.array e len inc dep) b = (boundReached ns dep b && reached ns e b) := by
  apply reached_of_form (by rw [reached])
  intro none
  simp only [Ty.mentions, Bool.or_eq_false_iff] at none
  have bound : dep = "" ∨ ns.contains dep = false := by
    by_cases unbound : dep = ""
    · exact .inl unbound
    · exact .inr (by simpa [unbound] using none.1)
  have bound : boundReached ns dep b = true := by
    rcases bound with none | other
    · simp [boundReached, none]
    · simp only [boundReached, other, Bool.not_false, Bool.or_true, Bool.true_or]
  simp [bound, reached_of_none none.2]

theorem reached_func (ret : Ty) (ps : List Param) (var : Bool) (q : Qual) (r : Types.RefQual) (n : Bool) :
    reached ns (.func ret ps var q r n) b = (reached ns ret b && paramsReached ns ps b) := by
  apply reached_of_form (by rw [reached])
  intro none
  simp only [Ty.mentions, Bool.or_eq_false_iff] at none
  simp [reached_of_none none.1, paramsReached_of_none none.2]

theorem reached_specialization (name : String) (as : List Arg) (of_ : TemplateHead) :
    reached ns (.specialization name as of_) b = (!of_.mentions ns && argsReached ns as b) := by
  apply reached_of_form (by rw [reached])
  intro none
  simp only [Ty.mentions, Bool.or_eq_false_iff] at none
  simp [none.1, argsReached_of_none none.2]

/-! ### What substitution leaves -/

theorem substitute_of_active (active : ¬ Idle t b) : (b.isEmpty || !isDependent t) = false := substitute_active active

theorem Apart.element (apart : Apart ns b) {n : String} {es : List Arg} {s : Ty} (bound : b.lookup n = some (.pack es))
    (mem : .type s ∈ es) : Apart ns [(n, s)] := by
  have none : argsMention ns es = false := apart.apart n _ bound
  have clean : s.mentions ns = false := by
    clear bound
    induction es with
    | nil => cases mem
    | cons a es ih =>
      rcases List.mem_cons.1 mem with rfl | mem
      · simp only [argsMention, Bool.or_eq_false_iff] at none
        exact none.1
      · apply ih mem
        cases a <;> simp only [argsMention, Bool.or_eq_false_iff] at none <;> exact none.2
  have ne : n ≠ "" := by
    rintro rfl
    rw [apart.named] at bound
    cases bound
  constructor
  · intro m s' found
    simp only [List.lookup_cons, List.lookup_nil] at found
    split at found
    · cases found
      exact clean
    · cases found
  · have other : ("" == n) = false := by simpa using Ne.symm ne
    simp [List.lookup_cons, other]

theorem paramsMention_append (ps qs : List Param) : paramsMention ns (ps ++ qs) = (paramsMention ns ps || paramsMention ns qs) := by
  induction ps with
  | nil => rfl
  | cons p ps ih =>
    obtain ⟨name, t, hasDefault, pack, packOf⟩ := p
    rw [List.cons_append, paramsMention, paramsMention, ih, Bool.or_assoc]

theorem paramsMention_expanded (name : String) (t : Ty) (replace : Ty → Ty) (es : List Arg) :
    paramsMention ns (es.map (expanded name t replace)) = false ↔ ∀ a ∈ es, (expanded name t replace a).type.mentions ns = false := by
  induction es with
  | nil => simp [paramsMention]
  | cons a es ih =>
    cases a <;> simp [paramsMention, expanded, ih]

mutual

/-- **What substitution leaves of a type mentions no parameter exactly when every occurrence is reached.** -/
theorem substitute_mentions_iff : ∀ (t : Ty) {b : Binding}, Apart ns b → ((substitute t b).mentions ns = false ↔ reached ns t b = true)
  | .templateParam p, b, apart => by
    by_cases idle : Idle (.templateParam p) b
    · rw [substitute_idle idle]
      exact idle_mentions_iff apart.named idle
    rw [substitute, if_neg (by simp [substitute_of_active idle])]
    have clean := apart.apart p.name
    have eq : reached ns (.templateParam p) b = (!(Ty.templateParam p).mentions ns || paramReached p b) := by rw [reached]
    rw [eq, paramReached]
    cases bound : b.lookup p.name with
    | none => simp
    | some s =>
      have clean := clean s bound
      cases s with
      | pack es => cases isPack : p.isPack <;> simp [clean]
      | _ => simp [clean]
  | .qualified q t, b, apart => by
    have eq : (substitute (.qualified q t) b).mentions ns = (substitute t b).mentions ns := by
      by_cases idle : Idle t b
      · rw [substitute_idle (t := .qualified q t) idle, substitute_idle idle, Ty.mentions]
      · rw [substitute, if_neg (by simpa [isDependent] using substitute_of_active idle), qualify_mentions]
    rw [eq, substitute_mentions_iff t apart, reached_qualified]
  | .pointer t, b, apart => by
    rw [substitute_pointer, Ty.mentions, substitute_mentions_iff t apart, reached_pointer]
  | .lvalueReference t, b, apart => by
    have eq : (substitute (.lvalueReference t) b).mentions ns = (substitute t b).mentions ns := by
      by_cases idle : Idle t b
      · rw [substitute_idle (t := .lvalueReference t) idle, substitute_idle idle, Ty.mentions]
      · rw [substitute, if_neg (by simpa [isDependent] using substitute_of_active idle), addLValueReference_mentions]
    rw [eq, substitute_mentions_iff t apart, reached_lvalueReference]
  | .rvalueReference t, b, apart => by
    have eq : (substitute (.rvalueReference t) b).mentions ns = (substitute t b).mentions ns := by
      by_cases idle : Idle t b
      · rw [substitute_idle (t := .rvalueReference t) idle, substitute_idle idle, Ty.mentions]
      · rw [substitute, if_neg (by simpa [isDependent] using substitute_of_active idle), addRValueReference_mentions]
    rw [eq, substitute_mentions_iff t apart, reached_rvalueReference]
  | .memberPointer c e, b, apart => by
    rw [substitute_memberPointer, reached_memberPointer, Ty.mentions, Bool.or_eq_false_iff, Bool.and_eq_true,
      substitute_mentions_iff c apart, substitute_mentions_iff e apart]
  | .array e len inc dep, b, apart => by
    by_cases idle : Idle (.array e len inc dep) b
    · rw [substitute_idle idle]
      exact idle_mentions_iff apart.named idle
    have inner := substitute_mentions_iff e apart
    rw [substitute, if_neg (by simp [substitute_of_active idle]), reached_array, Bool.and_eq_true, ← inner, boundReached]
    by_cases unbound : dep = ""
    · simp [unbound, Ty.mentions]
    simp only [ne_eq, unbound, not_false_eq_true, ↓reduceIte, decide_false, Bool.false_or]
    cases bound : b.lookup dep with
    | none => simp [Ty.mentions, unbound]
    | some s => cases s <;> simp [Ty.mentions, unbound, Ty.isValue]
  | .func ret ps var q r n, b, apart => by
    by_cases idle : Idle (.func ret ps var q r n) b
    · rw [substitute_idle idle]
      exact idle_mentions_iff apart.named idle
    rw [substitute, if_neg (by simp [substitute_of_active idle]), reached_func]
    simp only [Ty.mentions, Bool.or_eq_false_iff, Bool.and_eq_true]
    rw [substitute_mentions_iff ret apart, substituteParams_mentions_iff ps apart]
  | .specialization name as of_, b, apart => by
    by_cases idle : Idle (.specialization name as of_) b
    · rw [substitute_idle idle]
      exact idle_mentions_iff apart.named idle
    rw [substitute, if_neg (by simp [substitute_of_active idle]), reached_specialization]
    simp only [Ty.mentions, Bool.or_eq_false_iff, Bool.and_eq_true, Bool.not_eq_true']
    rw [substituteArgs_mentions_iff as apart]
  | .transform op t, b, apart => by
    by_cases idle : Idle (.transform op t) b
    · rw [substitute_idle idle]
      exact idle_mentions_iff apart.named idle
    have inner := substitute_mentions_iff t apart
    rw [substitute, if_neg (by simp [substitute_of_active idle])]
    cases applies : applyTransform op (substitute t b) (isDependent (substitute t b)) with
    | none => simp [reached, applies]
    | some s =>
      rw [Option.getD_some, applyTransform_mentions applies, inner, reached_transform (by rw [applies]; rfl)]
  | .basic _, b, _ | .blockPointer _, b, _ | .record _ _, b, _ | .specialized _ _ _ _ _, b, _ | .enum _ _, b, _
  | .interface _, b, _ | .dependent _, b, _ | .templateRef _ _ _, b, _ | .pack _, b, _ | .valueBound _ _, b, _ => by
    simp [substitute, reached]
termination_by structural t => t

theorem substituteArgs_mentions_iff : ∀ (as : List Arg) {b : Binding}, Apart ns b →
    (argsMention ns (substituteArgs as b) = false ↔ argsReached ns as b = true)
  | [], _, _ => by simp [substituteArgs, argsMention, argsReached]
  | .type t :: as, b, apart => by
    simp [substituteArgs, argsMention, argsReached, substitute_mentions_iff t apart, substituteArgs_mentions_iff as apart]
  | .value v t :: as, b, apart => by
    simp [substituteArgs, argsMention, argsReached, substituteArgs_mentions_iff as apart]
termination_by structural as => as

theorem substituteParams_mentions_iff : ∀ (ps : List Param) {b : Binding}, Apart ns b →
    (paramsMention ns (substituteParams ps b) = false ↔ paramsReached ns ps b = true)
  | [], _, _ => by simp [substituteParams, paramsMention, paramsReached]
  | .mk name t hasDefault pack packOf :: ps, b, apart => by
    have rest := substituteParams_mentions_iff ps apart
    have append : ∀ qs, paramsMention ns (qs ++ substituteParams ps b) = false ↔ paramsMention ns qs = false ∧ paramsReached ns ps b = true := by
      intro qs
      rw [paramsMention_append, Bool.or_eq_false_iff, rest]
    simp only [substituteParams, paramsReached, append, Bool.and_eq_true, and_congr_left_iff]
    intro _
    have whole : paramsMention ns [.mk name (substitute t b) hasDefault pack ""] = false ↔ reached ns t b = true := by
      simp [paramsMention, substitute_mentions_iff t apart]
    cases bound : (if pack then b.lookup (packParamName t) else none) with
    | none => exact whole
    | some s =>
      cases s with
      | pack es =>
        have found : b.lookup (packParamName t) = some (.pack es) := by
          split at bound
          · exact bound
          · cases bound
        show paramsMention ns (es.map (expanded name t fun s => substitute t [(packParamName t, s)])) = false ↔ _
        rw [paramsMention_expanded, List.all_eq_true]
        apply forall₂_congr
        intro a mem
        cases a with
        | type s => exact substitute_mentions_iff t (apart.element found mem)
        | value v s => simp [expanded]
      | _ => exact whole
termination_by structural ps => ps

end

/-! ### When a type's parameters are seen and gone -/

/-- Where an occurrence is reached, it makes the type dependent. -/
theorem dependent_of_reached (named : b.lookup "" = none) (all : reached ns t b = true) (some_ : t.mentions ns = true) : isDependent t = true := by
  by_contra static
  have static : isDependent t = false := by simpa using static
  rw [reached_idle t named (.inr static) all] at some_
  cases some_

/-- **The parameters of a type make it dependent and are gone once they are substituted, exactly when every
occurrence is reached.** -/
theorem substituted_iff (binds : Binds ns b) (t : Ty) : Substituted ns b t ↔ reached ns t b = true := by
  have gone := substitute_mentions_iff t binds.toApart
  constructor
  · exact fun right => gone.1 right.gone
  · exact fun all => ⟨dependent_of_reached binds.named all, gone.2 all⟩

/-- `template <class T, int N> void f(T (*)[N])`, bound from an `int (*)[3]`. -/
theorem pointerToArray_substituted :
    Binds ["T", "N"] [("T", .basic .int), ("N", .valueBound (.basic .int) 3)] ∧
      Substituted ["T", "N"] [("T", .basic .int), ("N", .valueBound (.basic .int) 3)]
        (.pointer (.array (.templateParam { name := "T", index := 0 }) 0 false "N")) := by
  have binds : Binds ["T", "N"] [("T", .basic .int), ("N", .valueBound (.basic .int) 3)] := by
    refine ⟨⟨?_, by decide⟩, by decide⟩
    intro n s found
    simp only [List.lookup_cons, List.lookup_nil] at found
    split at found
    · cases found
      rfl
    split at found
    · cases found
      rfl
    · cases found
  exact ⟨binds, (substituted_iff binds _).2 rfl⟩

/-- `template <template <class> class C> void f(C<int>)`: nothing is deduced from the parameter. -/
theorem templateTemplate_unseen : ¬ Substituted ["C"] [("C", .templateRef "Box" (some 0) none)]
    (.specialization "C" [.type (.basic .int)] (.param { name := "C", index := 0 })) := by
  intro right
  have dependent := right.seen rfl
  cases dependent

end Vcx.Template
