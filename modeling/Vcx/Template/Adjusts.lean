import Vcx.Template.Deduction

/-!
# What is deduced adjusts a parameter's type to its argument's

At the first level qualifiers may be added: the type that is deduced is compared with the argument's
apart from them.
-/

namespace Vcx.Template
set_option autoImplicit false
open Vcx.Lib

/-! ### Qualifiers -/

theorem withoutCv_kind (t : Ty) : t.withoutCv.kind = t.kind := by
  induction t using Ty.withoutCv.induct with
  | case1 q t ih => exact ih
  | case2 e len inc dep _ => rfl
  | case3 t noQuals noArray =>
    cases t <;> first | rfl | exact absurd rfl (noQuals _ _)

theorem withoutCv_unqualify (t : Ty) : t.unqualify.withoutCv = t.withoutCv := by
  cases t <;> rfl

/-- What is no array and not qualified has no qualifiers. -/
theorem plain_cv {t : Ty} (bare : t.isBare = true) (noArray : t.kind ≠ .array) : t.cv = 0 ∧ t.withoutCv = t := by
  cases t with
  | qualified q t => cases bare
  | array e len inc dep => exact absurd rfl noArray
  | _ => exact ⟨rfl, rfl⟩

theorem qualify_cv {u : Ty} (q : Qual) (noRef : u.isReference = false) : (u.qualify q).cv = if u.isFunc then u.cv else u.cv ||| q := by
  unfold Ty.qualify
  by_cases none : q = 0
  · rw [if_pos none, none]
    simp
  rw [if_neg none]
  by_cases func : u.isFunc = true
  · rw [if_pos (by simp [func]), if_pos func]
  · rw [if_neg (by simp [noRef, func]), if_neg func]
    split
    · rename_i q' t'
      exact (BitVec.or_assoc t'.cv q' q).symm
    · rfl

theorem qualify_withoutCv (u : Ty) (q : Qual) : (u.qualify q).withoutCv = u.withoutCv := by
  unfold Ty.qualify
  split
  · rfl
  split
  · rfl
  split <;> rfl

/-- Equal types have the same qualifiers, and without them they are read as the same. -/
theorem cv_of_equal : ∀ (x : Ty) {a : Ty}, x.built = true → a.built = true → x.equal a = true →
    x.cv = a.cv ∧ x.withoutCv.spells a.withoutCv = true := by
  intro x
  induction x using Ty.withoutCv.induct with
  | case1 q t ih =>
    intro a built built' equal
    simp only [Ty.built, Bool.and_eq_true, decide_eq_true_eq] at built
    unfold Ty.equal at equal
    split at equal
    · rename_i q' t'
      simp only [Ty.built, Bool.and_eq_true] at built'
      simp only [Bool.and_eq_true, decide_eq_true_eq] at equal
      obtain ⟨same, reads⟩ := ih built.2 built'.2 equal.2
      exact ⟨by rw [Ty.cv, Ty.cv, same, equal.1], reads⟩
    · simp only [Bool.and_eq_true, decide_eq_true_eq] at equal
      exact absurd equal.1 built.1.1.1.1
  | case2 e len inc dep ih =>
    intro a built built' equal
    have bare : a.isBare = true := by
      obtain isBare | ⟨q, t, rfl, some_⟩ := bare_or built'
      · exact isBare
      · have reads := spells_of_equal _ built equal
        rw [not_spells_qualified rfl some_] at reads
        cases reads
    cases a with
    | array e' len' inc' dep' =>
      unfold Ty.equal at equal
      simp only [Ty.strict, Bool.and_eq_true] at equal
      obtain ⟨same, reads⟩ := @ih e' built built' equal.1.1.1
      refine ⟨same, ?_⟩
      simp only [Ty.withoutCv]
      unfold Ty.spells
      simp only [Ty.strict, Bool.and_eq_true]
      exact ⟨⟨⟨reads, equal.1.1.2⟩, equal.1.2⟩, equal.2⟩
    | qualified q t => cases bare
    | valueBound t v => cases built'
    | _ => exact absurd (kind_of_equal equal) (by simp [Ty.kind])
  | case3 t noQuals noArray =>
    intro a built built' equal
    have isBare : t.isBare = true := by
      obtain isBare | ⟨q, t, rfl, some_⟩ := bare_or built
      · exact isBare
      · exact absurd rfl (noQuals q t)
    have bare : a.isBare = true := by
      obtain bare | ⟨q, t', rfl, some_⟩ := bare_or built'
      · exact bare
      · have reads := spells_of_equal _ built equal
        rw [not_spells_qualified isBare some_] at reads
        cases reads
    have kind : t.kind ≠ .array := by
      cases t with
      | array e len inc dep => exact absurd rfl (noArray e len inc dep)
      | qualified q t => cases isBare
      | valueBound t v => cases built
      | _ => simp [Ty.kind]
    obtain ⟨noCv, same⟩ := plain_cv isBare kind
    obtain ⟨noCv', same'⟩ := plain_cv bare (kind_of_equal equal ▸ kind)
    rw [noCv, noCv', same, same']
    exact ⟨rfl, spells_of_equal t built equal⟩

/-! ### The first level -/

theorem deduce_stripped {p a : Ty} (compound : p.isCompound = true) (built : a.built = true) (b : Binding) :
    deduce p a.stripped b = deduce p a b := by
  have same := stripped_stripped built
  cases p with
  | pointer _ | memberPointer _ _ | array _ _ _ _ | func _ _ _ _ _ _ | specialization _ _ _ =>
    unfold deduce
    simp only [same]
  | _ => cases compound

/-- `deduce`, or `deduceReferenced` where a parameter takes the argument as it is. -/
def deduceFirst (exact : Bool) (p a : Ty) (b : Binding) : Option Binding :=
  if exact then takes p a b (deduce p a b) else deduce p a b

theorem deduceFirst_eq {exact : Bool} {p a : Ty} {b : Binding} (noParam : ∀ tp, p ≠ .templateParam tp) : deduceFirst exact p a b = deduce p a b := by
  unfold deduceFirst
  split
  · cases p with
    | templateParam tp => exact absurd rfl (noParam tp)
    | _ => rfl
  · rfl

section first
variable {values : List String} {b b' : Binding}

theorem deducedFirst {exact : Bool} {p a : Ty} (deduced : deduceFirst exact p a b = some b') (built : p.built = true)
    (forms : deducible values p = true) (written : declared p = true) (built' : a.built = true) (all : Bindable values b) :
    Deduced values exact p a b b' := by
  have inner : ∀ {b' : Binding}, deduce p a b = some b' → Deduced values false p a b b' := deduce_type p built forms written built' all
  unfold deduceFirst at deduced
  split at deduced
  · rename_i isExact
    rw [isExact]
    exact deduced_takes deduced forms built' all inner
  · rename_i noExact
    rw [Bool.eq_false_iff.2 noExact]
    exact inner deduced

/-- A compound form that is no array is the same at the first level, but for the argument's qualifiers. -/
theorem first_compound {p a : Ty} (compound : p.isCompound = true) (noArray : p.kind ≠ .array) (dependent : isDependent p = true)
    (deduced : deduce p a b = some b') (built : p.built = true) (forms : deducible values p = true) (written : declared p = true)
    (built' : a.built = true) (all : Bindable values b) {c : Binding} (more : Extends b' c) :
    (substitute p c).cv = 0 ∧ (substitute p c).withoutCv = substitute p c ∧
      ((substitute p c).spells a.withoutCv = true ↔ kept p a.unqualify = true) := by
  have noRef : p.isReference = false := by cases p <;> first | rfl | cases compound
  have bare : (substitute p c).isBare = true := by
    apply substitute_bare built
    · rintro tp rfl
      cases compound
    · rintro q t rfl
      cases compound
    · exact noRef
  have kind : (substitute p c).kind ≠ .array := by
    intro is
    have form := substitute_form compound c
    rw [(form_eq_iff (by decide) (by decide)).2 is] at form
    exact noArray ((form_eq_iff (by decide) (by decide)).1 form.symm)
  obtain ⟨noCv, same⟩ := plain_cv bare kind
  refine ⟨noCv, same, ?_⟩
  have noRef' : (substitute p c).isReference = false := (isReference_of_form (substitute_form compound c)).trans noRef
  by_cases isRef : a.isReference = true
  · have spells := (deduce_type p built forms written built' all deduced).spells c more
    obtain ⟨e, rfl | rfl⟩ := reference_cases built' isRef
    · simpa [Ty.withoutCv, Ty.unqualify] using spells
    · simpa [Ty.withoutCv, Ty.unqualify] using spells
  · rw [← deduce_stripped compound built', stripped_of_noRef (by simpa using isRef)] at deduced
    have whole := built_unqualify built'
    have spells := (deduce_type p built forms written whole all deduced).spells c more
    rw [Bool.false_and, Bool.false_or] at spells
    rw [← spells, ← withoutCv_unqualify]
    by_cases isArray : a.unqualify.kind = .array
    · -- no array is read as what is no array
      have differs : ∀ t : Ty, t.kind = .array → (substitute p c).spells t = false := by
        intro t is
        by_contra reads
        rw [Bool.not_eq_false] at reads
        have form := form_of_spells reads
        rw [(form_eq_iff (t := t) (by decide) (by decide)).2 is] at form
        exact kind ((form_eq_iff (by decide) (by decide)).1 form)
      rw [differs _ isArray, differs _ ((withoutCv_kind _).trans isArray)]
    · rw [(plain_cv (bare_unqualify built') isArray).2]

attribute [local simp] gains keptFirst

theorem gains_qualified {q : Qual} {t : Ty} (dependent : isDependent t = true) (exact : Bool) (a : Ty) :
    gains exact (.qualified q t) a = if a.stripped.isFunc then gains false t a.unqualify else gains false t a.unqualify ||| q := by
  conv_lhs => unfold gains
  exact if_neg (by simp [isDependent, dependent])

theorem keptFirst_qualified {q : Qual} {t : Ty} (dependent : isDependent t = true) (exact : Bool) (a : Ty) :
    keptFirst exact (.qualified q t) a = keptFirst false t a.unqualify := by
  conv_lhs => unfold keptFirst
  exact if_neg (by simp [isDependent, dependent])

theorem gains_array {e e' : Ty} {len len' : Int} {inc inc' : Bool} {dep dep' : String} {a : Ty}
    (dependent : isDependent (.array e len inc dep) = true) (exact : Bool) (is : a.stripped = .array e' len' inc' dep') :
    gains exact (.array e len inc dep) a = gains true e e' := by
  conv_lhs => unfold gains
  rw [if_neg (by simp [dependent])]
  dsimp only
  rw [is]

theorem keptFirst_array {e : Ty} {len : Int} {inc : Bool} {dep : String} {a : Ty} (dependent : isDependent (.array e len inc dep) = true)
    (exact : Bool) : keptFirst exact (.array e len inc dep) a = match a.unqualify with
      | .array e' _ _ dep' => (dep ≠ "" || dep' = "") && keptFirst true e e'
      | _ => false := by
  conv_lhs => unfold keptFirst
  exact if_neg (by simp [dependent])

theorem gains_compound {p : Ty} (compound : p.isCompound = true) (noArray : p.kind ≠ .array) (dependent : isDependent p = true) (exact : Bool)
    (a : Ty) : gains exact p a = 0 ∧ keptFirst exact p a = kept p a.unqualify := by
  constructor
  · unfold gains
    rw [if_neg (by simp [dependent])]
    cases p with
    | array e len inc dep => exact absurd rfl noArray
    | pointer _ | memberPointer _ _ | func _ _ _ _ _ _ | specialization _ _ _ => rfl
    | _ => cases compound
  · unfold keptFirst
    rw [if_neg (by simp [dependent])]
    cases p with
    | array e len inc dep => exact absurd rfl noArray
    | pointer _ | memberPointer _ _ | func _ _ _ _ _ _ | specialization _ _ _ => rfl
    | _ => cases compound

/-- What mentions no parameter is put in place as it is. -/
theorem first_static {p : Ty} (static : isDependent p = false) (exact : Bool) (a : Ty) (c : Binding) :
    (substitute p c).cv = gains exact p a ∧ ((substitute p c).withoutCv.spells a.withoutCv = true ↔ keptFirst exact p a = true) := by
  rw [substitute_static c static]
  unfold gains keptFirst
  simp [static]

theorem first_param {tp : TemplateParam} {exact : Bool} {a : Ty} (deduced : Deduced values exact (.templateParam tp) a b b')
    (built : a.built = true) {c : Binding} (more : Extends b' c) :
    (substitute (.templateParam tp) c).cv = gains exact (.templateParam tp) a ∧
      ((substitute (.templateParam tp) c).withoutCv.spells a.withoutCv = true ↔ keptFirst exact (.templateParam tp) a = true) := by
  obtain ⟨xBuilt, equal⟩ := deduced.param tp rfl c more
  generalize substitute (.templateParam tp) c = x at xBuilt equal
  have gain : gains exact (.templateParam tp) a = if exact then a.cv else a.stripped.cv := by simp [gains, isDependent]
  have keeps : keptFirst exact (.templateParam tp) a = (exact || !a.isReference) := by simp [keptFirst, isDependent]
  rw [gain, keeps]
  cases exact with
  | true =>
    rw [if_pos rfl] at equal ⊢
    obtain ⟨same, reads⟩ := cv_of_equal x xBuilt built equal
    exact ⟨same, by simp [reads]⟩
  | false =>
    rw [if_neg (by simp)] at equal ⊢
    obtain ⟨whole, -, noRef⟩ := stripped_spec built
    obtain ⟨same, reads⟩ := cv_of_equal x xBuilt whole equal
    refine ⟨same, ?_⟩
    by_cases isRef : a.isReference = true
    · have xNoRef : x.withoutCv.isReference = false := by
        rw [Ty.isReference, withoutCv_kind, kind_of_equal equal]
        exact noRef
      have notRead : x.withoutCv.spells a.withoutCv = false := by
        by_contra reads
        rw [Bool.not_eq_false] at reads
        have isRef' : a.withoutCv.isReference = true := by
          rw [Ty.isReference, withoutCv_kind]
          exact isRef
        rw [isReference_of_form (form_of_spells reads), isRef'] at xNoRef
        cases xNoRef
      simp [notRead, isRef]
    · have aNoRef : a.isReference = false := by simpa using isRef
      rw [stripped_of_noRef aNoRef, withoutCv_unqualify] at reads
      simp [reads, aNoRef]

/-- What is deduced has the qualifiers it should gain, and apart from them it is read as the argument just
where it is kept. -/
theorem first_level (p : Ty) : p.built = true → deducible values p = true → declared p = true → p.isReference = false →
    ∀ {exact : Bool} {a : Ty} {b b' : Binding}, a.built = true → Bindable values b → deduceFirst exact p a b = some b' → ∀ c, Extends b' c →
      (substitute p c).cv = gains exact p a ∧ ((substitute p c).withoutCv.spells a.withoutCv = true ↔ keptFirst exact p a = true) := by
  induction p using Ty.withoutCv.induct with
  | case1 q t ih =>
    intro built forms written noRef exact a b b' built' all deduced c more
    by_cases dependent : isDependent t = true
    · have parts := built
      simp only [Ty.built, Bool.and_eq_true, Bool.not_eq_true'] at parts
      have whole := built_unqualify built'
      have inner : deduceFirst false t a.unqualify b = some b' := by
        rw [deduceFirst_eq (by rintro tp ⟨⟩)] at deduced
        unfold deduce at deduced
        rw [if_neg (by simp [isDependent, dependent])] at deduced
        exact deduced
      unfold deducible at forms
      unfold declared at written
      simp only [isDependent, dependent, Bool.not_true, Bool.false_or] at forms written
      obtain ⟨same, reads⟩ := ih parts.2 forms written parts.1.1.1.2 whole all inner c more
      obtain ⟨-, shape⟩ := qualified_bare (deducedFirst inner parts.2 forms written whole all) dependent built built' more
      rw [substitute_qualified built, qualify_cv q shape.isReference, qualify_withoutCv, shape.isFunc, same]
      rw [withoutCv_unqualify] at reads
      rw [gains_qualified dependent, keptFirst_qualified dependent]
      exact ⟨rfl, reads⟩
    · exact first_static (by simpa [isDependent] using dependent) exact a c
  | case2 e len inc dep ih =>
    intro built forms written noRef exact a b b' built' all deduced c more
    by_cases dependent : isDependent (.array e len inc dep) = true
    · have whole := (stripped_spec built').1
      rw [deduceFirst_eq (by rintro tp ⟨⟩)] at deduced
      have reduced := deduced
      unfold deduce at reduced
      rw [if_neg (by simp [dependent])] at reduced
      dsimp only at reduced
      split at reduced
      · rename_i e' len' inc' dep' is
        rw [is] at whole
        simp only [Ty.built] at whole
        obtain ⟨b₁, length, taken⟩ := Option.bind_eq_some_iff.1 reduced
        unfold deducible at forms
        unfold declared at written
        simp only [dependent, Bool.not_true, Bool.false_or, Bool.and_eq_true, Bool.or_eq_true, decide_eq_true_eq,
          Bool.not_eq_true'] at forms written
        obtain ⟨grows, bindable, bounds⟩ := array_bound (e := e) length all whole fun bound => forms.1.resolve_left bound
        have inner : deduceFirst true e e' b₁ = some b' := by
          rw [deduceFirst, if_pos rfl]
          exact taken
        obtain ⟨same, reads⟩ := ih built forms.2 written.2 written.1 whole bindable inner c more
        obtain ⟨len₁, inc₁, put, long⟩ := bounds c ((deducedFirst inner built forms.2 written.2 whole bindable).extends_.trans more)
        rw [put, gains_array dependent exact is, keptFirst_array dependent]
        refine ⟨same, ?_⟩
        by_cases isRef : a.isReference = true
        · obtain ⟨r, rfl | rfl⟩ := reference_cases built' isRef <;> simp [Ty.withoutCv, Ty.unqualify, Ty.spells, Ty.strict]
        · rw [stripped_of_noRef (by simpa using isRef)] at is
          rw [← withoutCv_unqualify a, is]
          simp only [Ty.withoutCv]
          rw [spells_array, long, Bool.and_eq_true, Bool.and_eq_true, reads]
          exact and_comm
      · cases reduced
    · exact first_static (by simpa using dependent) exact a c
  | case3 p noQuals noArray =>
    intro built forms written noRef exact a b b' built' all deduced c more
    by_cases dependent : isDependent p = true
    · by_cases isParam : ∃ tp, p = .templateParam tp
      · obtain ⟨tp, rfl⟩ := isParam
        exact first_param (deducedFirst deduced built forms written built' all) built' more
      · have compound : p.isCompound = true := by
          unfold deducible at forms
          rw [dependent] at forms
          cases p with
          | templateParam tp => exact absurd ⟨tp, rfl⟩ isParam
          | lvalueReference e | rvalueReference e => simp [Ty.isReference, Ty.kind] at noRef
          | qualified q t => exact absurd rfl (noQuals q t)
          | pointer _ | memberPointer _ _ | array _ _ _ _ | func _ _ _ _ _ _ | specialization _ _ _ => rfl
          | _ => cases forms
        have kind : p.kind ≠ .array := by
          cases p with
          | array e len inc dep => exact absurd rfl (noArray e len inc dep)
          | qualified q t => exact absurd rfl (noQuals q t)
          | pointer _ | memberPointer _ _ | func _ _ _ _ _ _ | specialization _ _ _ => simp [Ty.kind]
          | _ => cases compound
        rw [deduceFirst_eq fun tp is => isParam ⟨tp, is⟩] at deduced
        obtain ⟨noCv, same, reads⟩ := first_compound compound kind dependent deduced built forms written built' all more
        obtain ⟨gain, keeps⟩ := gains_compound compound kind dependent exact a
        rw [noCv, same, reads, gain, keeps]
        exact ⟨rfl, Iff.rfl⟩
    · exact first_static (by simpa using dependent) exact a c

/-! ### Classes and their bases -/

theorem not_derives {name : String} {as as' : List Arg} {of_ : TemplateHead} {a : Ty} (noAlias : of_ ≠ .alias)
    (dependent : isDependent (.specialization name as of_) = true) (deduced : deduce (.specialization name as of_) a b = some b')
    (bases : Nat → List Ty) : derives bases (.specialization name as' of_) a.stripped = false := by
  have noSpelling : isAliasSpelling (.specialization name as of_) = false := by
    cases of_ <;> first | rfl | exact absurd rfl noAlias
  unfold deduce at deduced
  rw [if_neg (by simp [dependent])] at deduced
  simp only [noSpelling, Bool.false_eq_true, if_false] at deduced
  split at deduced
  · cases deduced
  split at deduced
  · rename_i is
    rw [is]
    rfl
  · rename_i r name' args primary pattern is
    rw [is]
    unfold matchSpecialization at deduced
    obtain ⟨b₁, isTemplate, -⟩ := Option.bind_eq_some_iff.1 deduced
    unfold matchTemplate at isTemplate
    unfold derives
    split at isTemplate
    · -- a template template parameter is not replaced
      rw [Bool.and_eq_false_iff]
      right
      rw [List.any_eq_false]
      intro o _
      cases o <;> simp [Ty.recordId, Ty.spells, Ty.strict]
    · split at isTemplate
      · cases isTemplate
      · rename_i same
        simp only [ne_eq, Decidable.not_not] at same
        simp [same]
  · cases deduced

/-- A base is found of a template-id only. -/
theorem derives_specialization {bases : Nat → List Ty} {s a : Ty} (found : derives bases s a = true) :
    ∃ name as of_, s = .specialization name as of_ := by
  unfold derives at found
  split at found
  · exact ⟨_, _, _, rfl⟩
  · exact ⟨_, _, _, rfl⟩
  · cases found

theorem derives_noBases (s a : Ty) : derives noBases s a = false := by
  unfold derives noBases
  split <;> simp

theorem derives_class {bases : Nat → List Ty} {s a : Ty} (built : a.built = true) (found : derives bases s a.withoutCv = true) :
    a.isReference = false ∧ a.withoutCv = a.stripped := by
  have kind : a.kind = .record := by
    rw [← withoutCv_kind]
    unfold derives at found
    split at found
    · rename_i is
      rw [is]
      rfl
    · rename_i is
      rw [is]
      rfl
    · cases found
  have noRef : a.isReference = false := by simp [Ty.isReference, kind]
  have noArray : a.unqualify.kind ≠ .array := by simp [unqualify_kind, kind]
  refine ⟨noRef, ?_⟩
  rw [← withoutCv_unqualify, (plain_cv (bare_unqualify built) noArray).2, stripped_of_noRef noRef]

theorem derives_kept {bases : Nat → List Ty} {exact : Bool} {p a : Ty} {c : Binding} (noQuals : ∀ q t, p ≠ .qualified q t)
    (deduced : deduceFirst exact p a b = some b') (forms : deducible values p = true) (dependent : isDependent p = true)
    (noRef : p.isReference = false) (built : a.built = true) (found : derives bases (substitute p c).withoutCv a.withoutCv = true) :
    keptFirst exact p a = true := by
  obtain ⟨aNoRef, same⟩ := derives_class built found
  obtain ⟨name, as, of_, is⟩ := derives_specialization found
  have form : p.isCompound = true → p.form = .other := by
    intro compound
    rw [← substitute_form compound c, ← form_of_kind (withoutCv_kind _), is]
    rfl
  unfold deducible at forms
  rw [dependent] at forms
  cases p with
  | templateParam tp => simp [keptFirst, isDependent, aNoRef]
  | qualified q t => exact absurd rfl (noQuals q t)
  | lvalueReference e | rvalueReference e => simp [Ty.isReference, Ty.kind] at noRef
  | pointer e | array e len inc dep | func ret ps var q r n => cases form rfl
  | memberPointer k e =>
    rw [substitute_memberPointer] at is
    cases is
  | specialization name as of_ =>
    simp only [Bool.not_true, Bool.false_or, Bool.and_eq_true, decide_eq_true_eq] at forms
    rw [deduceFirst_eq (by rintro tp ⟨⟩)] at deduced
    rw [same, substitute_specialization] at found
    have found : derives bases (.specialization name (substituteArgs as c) of_) a.stripped = true := found
    rw [not_derives forms.1 dependent deduced] at found
    cases found
  | _ => cases forms

theorem first_derives {bases : Nat → List Ty} {p a : Ty} {c : Binding} (deduced : deduceFirst true p a b = some b')
    (built : p.built = true) (forms : deducible values p = true) (dependent : isDependent p = true) (noRef : p.isReference = false)
    (built' : a.built = true) (found : derives bases (substitute p c).withoutCv a.withoutCv = true) : keptFirst true p a = true := by
  by_cases isQualified : ∃ q t, p = .qualified q t
  · obtain ⟨q, t, rfl⟩ := isQualified
    have parts := built
    simp only [Ty.built, Bool.and_eq_true, Bool.not_eq_true'] at parts
    have noQuals : ∀ q₁ t₁, t ≠ .qualified q₁ t₁ := by
      rintro q₁ t₁ rfl
      exact absurd parts.1.2 (by simp)
    rw [deduceFirst_eq (by rintro tp ⟨⟩)] at deduced
    unfold deduce at deduced
    unfold deducible at forms
    rw [if_neg (by simp [dependent])] at deduced
    rw [dependent] at forms
    rw [substitute_qualified built, qualify_withoutCv, ← withoutCv_unqualify a] at found
    have inner : isDependent t = true := dependent
    rw [keptFirst_qualified inner]
    exact derives_kept noQuals (by simpa [deduceFirst] using deduced) forms inner parts.1.1.1.2 (built_unqualify built') found
  · exact derives_kept (fun q t is => isQualified ⟨q, t, is⟩) deduced forms dependent noRef built' found

theorem first_adjusts {exact : Bool} {p a : Ty} {c : Binding} (bases : Nat → List Ty) (besides : Qual)
    (deduced : deduceFirst exact p a b = some b') (built : p.built = true) (forms : deducible values p = true) (written : declared p = true)
    (noRef : p.isReference = false) (built' : a.built = true) (all : Bindable values b) (more : Extends b' c)
    (base : bases = noBases ∨ exact = true ∧ isDependent p = true) :
    moreQualified bases besides (substitute p c) a = true ↔ preservedFirst besides exact p a = true := by
  obtain ⟨same, reads⟩ := first_level p built forms written noRef built' all deduced c more
  have sameClass : sameOrBase bases (substitute p c).withoutCv a.withoutCv = true ↔ keptFirst exact p a = true := by
    unfold sameOrBase
    rw [Bool.or_eq_true, reads]
    refine ⟨fun either => either.elim id fun found => ?_, .inl⟩
    obtain rfl | ⟨rfl, dependent⟩ := base
    · rw [derives_noBases] at found
      cases found
    · exact first_derives deduced built forms dependent noRef built' found
  rw [moreQualified, preservedFirst, same, Bool.and_eq_true, Bool.and_eq_true, sameClass]

/-! ### What is no reference -/

theorem within_or (q q' : Qual) : within (q ||| q') q = within q' q := by
  have bits : ∀ i < 8, ((q ||| q') &&& q).getLsbD i = (q ||| q').getLsbD i ↔ (q' &&& q).getLsbD i = q'.getLsbD i := by
    intro i _
    simp only [BitVec.getLsbD_and, BitVec.getLsbD_or]
    cases q.getLsbD i <;> cases q'.getLsbD i <;> simp
  have same : (q ||| q') &&& q = q ||| q' ↔ q' &&& q = q' := by
    constructor
    · intro is
      exact BitVec.eq_of_getLsbD_eq fun i below => (bits i below).1 (by rw [is])
    · intro is
      exact BitVec.eq_of_getLsbD_eq fun i below => (bits i below).2 (by rw [is])
  exact decide_eq_decide.2 same

/-- A type that is equal to the argument's adjusts to it, but that an array may have qualifiers of its own. -/
theorem value_equal {x a : Ty} (bases : Nat → List Ty) (besides : Qual) (built : x.built = true) (built' : a.built = true)
    (bare : a.isBare = true) (equal : x.equal a = true) (tp : TemplateParam) :
    adjustsValue bases besides x a = preservedValue besides (.templateParam tp) a := by
  have xBare := bare_of_equal built bare equal
  have kind := kind_of_equal equal
  unfold adjustsValue
  split
  · rename_i e e'
    obtain ⟨same, reads⟩ := @cv_of_equal e e' built built' equal
    simp [moreQualified, same, within_or, sameOrBase, reads, preservedValue]
  · rename_i k e k' e'
    have parts : (k.equal k' && e.equal e') = true := equal
    simp only [Bool.and_eq_true] at parts
    simp only [Ty.built, Bool.and_eq_true] at built built'
    obtain ⟨same, reads⟩ := cv_of_equal e built.2 built'.2 parts.2
    simp [moreQualified, same, within, sameOrBase, reads, preservedValue, spells_of_equal k built.1 parts.1]
  · rename_i noPointer noMember
    have reads := spells_of_equal x built equal
    rw [sameOrBase, reads, Bool.true_or]
    unfold preservedValue
    cases a with
    | pointer e =>
      cases x with
      | pointer e' => exact absurd rfl (noPointer e' e rfl)
      | qualified q t => cases xBare
      | valueBound t v => cases built
      | _ => cases kind
    | _ => rfl

theorem sameOrBase_plain {bases : Nat → List Ty} {s a : Ty} (noClass : derives bases s a = false) : sameOrBase bases s a = s.spells a := by
  rw [sameOrBase, noClass, Bool.or_false]

theorem adjustsValue_other {s : Ty} (noPointer : ∀ e, s ≠ .pointer e) (noMember : ∀ k e, s ≠ .memberPointer k e) (bases : Nat → List Ty)
    (besides : Qual) (a : Ty) : adjustsValue bases besides s a = sameOrBase bases s a := by
  unfold adjustsValue
  split
  · exact absurd rfl (noPointer _)
  · exact absurd rfl (noMember _ _)
  · rfl

theorem value_compound {p a : Ty} (bases : Nat → List Ty) (besides : Qual) (compound : p.isCompound = true) (noPointer : ∀ e, p ≠ .pointer e)
    (noMember : ∀ k e, p ≠ .memberPointer k e) (deduced : deduce p a b = some b') (built : p.built = true)
    (forms : deducible values p = true) (written : declared p = true) (dependent : isDependent p = true) (built' : a.built = true)
    (all : Bindable values b) {c : Binding} (more : Extends b' c) :
    adjustsValue bases besides (substitute p c) a.stripped = kept p a.stripped := by
  have whole := (stripped_spec built').1
  have again : deduce p a.stripped b = some b' := by rw [deduce_stripped compound built', deduced]
  have spells := (deduce_type p built forms written whole all again).spells c more
  rw [Bool.false_and, Bool.false_or] at spells
  have form := substitute_form compound c
  have noClass : derives bases (substitute p c) a.stripped = false := by
    by_contra found
    rw [Bool.not_eq_false] at found
    obtain ⟨name', as', of', is⟩ := derives_specialization found
    rw [is] at form
    cases p with
    | pointer e => exact noPointer e rfl
    | memberPointer k e => exact noMember k e rfl
    | array e len inc dep | func ret ps var q r n => cases form
    | specialization name as of_ =>
      unfold deducible at forms
      simp only [dependent, Bool.not_true, Bool.false_or, Bool.and_eq_true, decide_eq_true_eq] at forms
      rw [substitute_specialization, not_derives forms.1 dependent deduced] at found
      cases found
    | _ => cases compound
  rw [adjustsValue_other, sameOrBase_plain noClass, Bool.eq_iff_iff.2 spells]
  · intro e is
    rw [is] at form
    cases p with
    | pointer e => exact noPointer e rfl
    | memberPointer k e => exact noMember k e rfl
    | array _ _ _ _ | func _ _ _ _ _ _ | specialization _ _ _ => cases form
    | _ => cases compound
  · intro k e is
    cases p with
    | pointer e => exact noPointer e rfl
    | memberPointer k e => exact noMember k e rfl
    | specialization name as of_ =>
      rw [substitute_specialization] at is
      cases is
    | array _ _ _ _ | func _ _ _ _ _ _ =>
      rw [is] at form
      cases form
    | _ => cases compound

/-- A parameter's type that is no reference and has no qualifiers. -/
theorem value_adjusts {p a : Ty} (bases : Nat → List Ty) (besides : Qual) (deduced : deduce p a b = some b') (built : p.built = true)
    (forms : deducible values p = true) (written : declared p = true) (dependent : isDependent p = true) (noRef : p.isReference = false)
    (noQuals : ∀ q t, p ≠ .qualified q t) (built' : a.built = true) (all : Bindable values b) {c : Binding} (more : Extends b' c) :
    adjustsValue bases besides (substitute p c) a.stripped = preservedValue besides p a.stripped := by
  have whole := (stripped_spec built').1
  have whole_deduced := deduce_type p built forms written built' all deduced
  have parts := forms
  have parts' := written
  unfold deducible at parts
  unfold declared at parts'
  rw [dependent] at parts parts'
  cases p with
  | qualified q t => exact absurd rfl (noQuals q t)
  | lvalueReference e | rvalueReference e => simp [Ty.isReference, Ty.kind] at noRef
  | templateParam tp =>
    obtain ⟨xBuilt, equal⟩ := whole_deduced.param tp rfl c more
    exact value_equal bases besides xBuilt whole (stripped_spec built').2.1 equal tp
  | pointer e =>
    have inner : isDependent e = true := dependent
    simp only [Bool.not_true, Bool.false_or, Bool.and_eq_true, Bool.not_eq_true'] at parts parts'
    unfold deduce at deduced
    rw [if_neg (by simp [dependent])] at deduced
    dsimp only at deduced
    rw [substitute_pointer]
    split at deduced
    · rename_i e' is
      rw [is] at whole ⊢
      have taken : deduceFirst true e e' b = some b' := by simpa [deduceFirst] using deduced
      exact Bool.eq_iff_iff.2 (first_adjusts bases besides taken built parts parts'.2 parts'.1 whole all more (.inr ⟨rfl, inner⟩))
    · rename_i e' len inc dep is
      rw [is]
      simp [adjustsValue, preservedValue, sameOrBase, Ty.spells, Ty.strict, derives]
    · cases deduced
  | memberPointer k e =>
    simp only [Bool.not_true, Bool.false_or, Bool.and_eq_true, Bool.not_eq_true'] at parts parts'
    have builtParts := built
    simp only [Ty.built, Bool.and_eq_true] at builtParts
    unfold deduce at deduced
    rw [if_neg (by simp [dependent])] at deduced
    dsimp only at deduced
    rw [substitute_memberPointer]
    split at deduced
    · rename_i k' e' is
      rw [is] at whole ⊢
      simp only [Ty.built, Bool.and_eq_true] at whole
      obtain ⟨b₁, isClass, deduced⟩ := Option.bind_eq_some_iff.1 deduced
      have class_ := deduce_type k builtParts.1 parts.1 parts'.1.1 whole.1 all isClass
      have member := deduce_type e builtParts.2 parts.2 parts'.2 whole.2 class_.bindable deduced
      have spells := class_.spells c (member.extends_.trans more)
      rw [Bool.false_and, Bool.false_or] at spells
      have taken : deduceFirst false e e' b₁ = some b' := by simpa [deduceFirst] using deduced
      have elem := first_adjusts noBases 0 taken builtParts.2 parts.2 parts'.2 parts'.1.2 whole.2 class_.bindable more (.inl rfl)
      simp only [adjustsValue, preservedValue]
      rw [Bool.eq_iff_iff.2 spells, Bool.eq_iff_iff.2 elem]
    · cases deduced
  | array e len inc dep =>
    exact value_compound bases besides rfl (by rintro e ⟨⟩) (by rintro k e ⟨⟩) deduced built forms written dependent built' all more
  | func ret ps var q r n =>
    exact value_compound bases besides rfl (by rintro e ⟨⟩) (by rintro k e ⟨⟩) deduced built forms written dependent built' all more
  | specialization name as of_ =>
    exact value_compound bases besides rfl (by rintro e ⟨⟩) (by rintro k e ⟨⟩) deduced built forms written dependent built' all more
  | _ => cases parts

/-! ### An argument -/

theorem built_decayed {a : Ty} (built : a.built = true) : (decayed a).built = true := by
  have whole := (stripped_spec built).1
  unfold decayed
  split
  · rename_i is
    rw [is] at whole
    exact whole
  · rename_i is
    rw [is] at whole
    exact whole
  · exact built

theorem adjusts_value {s : Ty} (noRef : s.isReference = false) (bases : Nat → List Ty) (a : Ty) :
    adjusts bases s a = adjustsValue bases (ownQuals a) s.unqualify (decayed a).stripped := by
  unfold adjusts
  cases s with
  | lvalueReference e | rvalueReference e => simp [Ty.isReference, Ty.kind] at noRef
  | _ => rfl

theorem unqualify_qualify {u : Ty} (bare : u.isBare = true) (q : Qual) : (u.qualify q).unqualify = u := by
  unfold Ty.qualify
  split
  · exact unqualify_bare bare
  split
  · exact unqualify_bare bare
  split
  · cases bare
  · rfl

/-- A parameter that is no reference takes what the argument decays to. -/
theorem adjusts_noReference {p a : Ty} (bases : Nat → List Ty) (deduced : deduce p (decayed a) b = some b') (built : p.built = true)
    (forms : deducible values p = true) (written : declared p = true) (dependent : isDependent p = true) (noRef : p.isReference = false)
    (built' : a.built = true) (all : Bindable values b) :
    adjusts bases (substitute p b') a = preservedValue (ownQuals a) p.unqualify (decayed a).stripped := by
  have whole := built_decayed built'
  have shape := (deduce_type p built forms written whole all deduced).shape dependent noRef (by simp) b' (.refl b')
  rw [adjusts_value shape.isReference]
  by_cases isQualified : ∃ q t, p = .qualified q t
  · obtain ⟨q, t, rfl⟩ := isQualified
    have parts := built
    simp only [Ty.built, Bool.and_eq_true, Bool.not_eq_true'] at parts
    have noQuals : ∀ q₁ t₁, t ≠ .qualified q₁ t₁ := by
      rintro q₁ t₁ rfl
      exact absurd parts.1.2 (by simp)
    have inner : isDependent t = true := dependent
    unfold deduce at deduced
    unfold deducible at forms
    unfold declared at written
    rw [if_neg (by simp [dependent])] at deduced
    rw [dependent] at forms written
    have unqualified := built_unqualify whole
    obtain ⟨bare, -⟩ := qualified_bare (deduce_type t parts.2 forms written unqualified all deduced) inner built whole (.refl b')
    rw [substitute_qualified built, unqualify_qualify bare, ← stripped_unqualify whole]
    exact value_adjusts bases (ownQuals a) deduced parts.2 forms written inner parts.1.1.1.2 noQuals unqualified all (.refl b')
  · have noQuals : ∀ q t, p ≠ .qualified q t := fun q t is => isQualified ⟨q, t, is⟩
    have bare : (substitute p b').isBare = true := by
      by_cases isParam : ∃ tp, p = .templateParam tp
      · obtain ⟨tp, rfl⟩ := isParam
        obtain ⟨xBuilt, equal⟩ := (deduce_type _ built forms written whole all deduced).param tp rfl b' (.refl b')
        rw [if_neg (by simp)] at equal
        exact bare_of_equal xBuilt (stripped_spec whole).2.1 equal
      · exact substitute_bare built (fun tp is => isParam ⟨tp, is⟩) noQuals noRef b'
    have same : p.unqualify = p := by
      cases p with
      | qualified q t => exact absurd rfl (noQuals q t)
      | _ => rfl
    rw [unqualify_bare bare, same]
    exact value_adjusts bases (ownQuals a) deduced built forms written dependent noRef noQuals whole all (.refl b')

theorem unqualify_of_void {u : Ty} (isVoid : u.isVoid = true) (bare : u.unqualify.isBare = true) : u.unqualify = .basic .void := by
  have kind : u.unqualify.kind = .basic .void := by
    rw [unqualify_kind]
    exact of_decide_eq_true isVoid
  generalize u.unqualify = t at bare kind
  cases t with
  | basic k =>
    have same : TypeKind.basic k = .basic .void := kind
    rw [TypeKind.basic.inj same]
  | qualified q t => cases bare
  | valueBound t v => cases bare
  | _ => cases kind

/-- What is put in place is bare without its qualifiers. -/
theorem put_bare {p a : Ty} (deduced : deduce p a b = some b' ∨ p.isParam = true) (built : p.built = true) (forms : deducible values p = true)
    (written : declared p = true) (dependent : isDependent p = true) (noRef : p.isReference = false) (built' : a.built = true)
    (all : Bindable values b) {c : Binding} (more : Extends b' c) (param : ∀ tp, p = .templateParam tp → (substitute p c).built = true) :
    (substitute p c).unqualify.isBare = true := by
  by_cases isParam : ∃ tp, p = .templateParam tp
  · obtain ⟨tp, rfl⟩ := isParam
    exact bare_unqualify (param tp rfl)
  by_cases isQualified : ∃ q t, p = .qualified q t
  · obtain ⟨q, t, rfl⟩ := isQualified
    have parts := built
    simp only [Ty.built, Bool.and_eq_true, Bool.not_eq_true'] at parts
    have deduced : deduce (.qualified q t) a b = some b' := deduced.resolve_right (by simp [Ty.isParam])
    unfold deduce at deduced
    unfold deducible at forms
    unfold declared at written
    rw [if_neg (by simp [dependent])] at deduced
    rw [dependent] at forms written
    have inner := deduce_type t parts.2 forms written (built_unqualify built') all deduced
    obtain ⟨bare, -⟩ := qualified_bare inner dependent built built' more
    rw [substitute_qualified built, unqualify_qualify bare]
    exact bare
  · have bare := substitute_bare built (fun tp is => isParam ⟨tp, is⟩) (fun q t is => isQualified ⟨q, t, is⟩) noRef c
    rwa [unqualify_bare bare]

/-- There is no reference to void: what is put in its place is void. -/
theorem adjusts_void {u a : Ty} (bases : Nat → List Ty) (isVoid : a.isVoid = true) (built : a.built = true)
    (same : u.unqualify = .basic .void) : adjusts bases u a = true := by
  have noRef : u.isReference = false := by
    rw [← unqualify_isReference, same]
    rfl
  have whole : a.stripped = .basic .void := by
    rw [stripped_of_noRef (noRef_of_void isVoid)]
    exact unqualify_of_void isVoid (bare_unqualify built)
  have undecayed : decayed a = a := by
    unfold decayed
    rw [whole]
  rw [adjusts_value noRef, undecayed, whole, same]
  simp [adjustsValue, sameOrBase, Ty.spells, Ty.equal, Ty.strict]

theorem adjusts_reference {e a : Ty} (bases : Nat → List Ty) (deduced : takes e a.removeReference b (deduce e a.removeReference b) = some b')
    (built : e.built = true) (forms : deducible values e = true) (written : declared e = true) (dependent : isDependent e = true)
    (noRef : e.isReference = false) (built' : a.built = true) (all : Bindable values b) {reference : Ty → Ty}
    (refers : (substitute e b').isReference = false ∧ (substitute e b').isVoid = false → reference (substitute e b') = .lvalueReference (substitute e b') ∨
      reference (substitute e b') = .rvalueReference (substitute e b'))
    (none : (substitute e b').isVoid = true → reference (substitute e b') = substitute e b') :
    adjusts bases (reference (substitute e b')) a = (a.isVoid || preservedFirst 0 true e a.removeReference) := by
  obtain ⟨whole, aNoRef⟩ := built_removeReference built'
  have taken : deduceFirst true e a.removeReference b = some b' := by rw [deduceFirst, if_pos rfl, deduced]
  have inner := deducedFirst taken built forms written whole all
  obtain ⟨putNoRef, isVoid⟩ := referred inner dependent noRef built' (.refl b')
  have first := first_adjusts bases 0 taken built forms written noRef whole all (.refl b') (.inr ⟨rfl, dependent⟩)
  by_cases void : a.isVoid = true
  · have bare : (substitute e b').unqualify.isBare = true := by
      apply put_bare _ built forms written dependent noRef whole all (.refl b') fun tp is => (inner.param tp is b' (.refl b')).1
      by_cases isParam : e.isParam = true
      · exact .inr isParam
      · left
        rw [← @deduceFirst_eq true, taken]
        rintro tp rfl
        exact isParam rfl
    rw [none (isVoid.trans void), adjusts_void bases void built' (unqualify_of_void (isVoid.trans void) bare), void, Bool.true_or]
  · have noVoid : a.isVoid = false := by simpa using void
    rw [noVoid, Bool.false_or, ← Bool.eq_iff_iff.2 first]
    obtain is | is := refers ⟨putNoRef, isVoid.trans noVoid⟩ <;> rw [is] <;> rfl

theorem adjusts_forwarded {tp : TemplateParam} {a : Ty} (bases : Nat → List Ty) (bound : bindType tp.name a.addLValueReference b = some b')
    (isType : values.contains tp.name = false) (built : a.built = true) (all : Bindable values b) :
    adjusts bases (substitute (.rvalueReference (.templateParam tp)) b') a = true := by
  obtain ⟨whole, noRef⟩ := built_removeReference built
  have refBuilt : a.addLValueReference.built = true := by
    unfold Ty.addLValueReference
    split
    · exact built
    · rename_i noVoid
      have elem : a.removeReference.isVoid = false := by
        rw [← isVoid_stripped whole, stripped_removeReference built, isVoid_stripped built]
        simpa using noVoid
      simp only [Ty.built, Bool.and_eq_true, Bool.not_eq_true']
      exact ⟨⟨noRef, elem⟩, whole⟩
  obtain ⟨-, -, x, xBuilt, equal, is⟩ := bound_param bound isType refBuilt all
  rw [substitute_rvalueReference rfl, is b' (.refl b')]
  have kind := kind_of_equal equal
  unfold Ty.addLValueReference at equal kind
  by_cases void : a.isVoid = true
  · rw [if_pos void] at equal kind
    have isVoid : x.isVoid = true := by
      rw [Ty.isVoid, kind]
      exact void
    rw [Ty.addRValueReference, if_pos (by simp [isVoid])]
    exact adjusts_void bases void built (unqualify_of_void isVoid (bare_unqualify xBuilt))
  · rw [if_neg void] at equal kind
    have isRef : x.isReference = true := by simp [Ty.isReference, kind, Ty.kind]
    rw [Ty.addRValueReference, if_pos (by simp [kind, Ty.kind])]
    obtain ⟨y, rfl | rfl⟩ := reference_cases xBuilt isRef
    · simp only [Ty.built, Bool.and_eq_true] at xBuilt
      obtain ⟨same, reads⟩ := @cv_of_equal y a.removeReference xBuilt.2 whole equal
      simp [adjusts, moreQualified, same, within, sameOrBase, reads]
    · cases kind

end first

/-- **What is deduced from a call's argument adjusts the parameter's type to the argument's where that is
preserved**, and only there: the parameter's type with what is bound put in place, its template-ids read as
the classes they name, is the argument's but for what a call may change. -/
theorem deduceArg_adjusts_iff {values : List String} {p a : Ty} {isLValue : Bool} {b b' : Binding} (bases : Nat → List Ty)
    (deduced : deduceArg p a isLValue b = some b') (forms : deducible values p = true) (written : declared p = true)
    (built : p.built = true) (built' : a.built = true) (all : Bindable values b) :
    adjusts bases (substitute p b') a = true ↔ preserved bases p a isLValue = true := by
  by_cases static : isDependent p = false
  · rw [substitute_static b' static]
    unfold preserved
    rw [if_pos (by simp [static])]
  have dependent : isDependent p = true := by simpa using static
  rw [← Bool.eq_iff_iff]
  unfold preserved
  rw [if_neg (by simp [dependent])]
  unfold deduceArg at deduced
  dsimp only at deduced
  by_cases isRef : p.isReference = true
  · rw [if_pos isRef] at deduced
    have parts := built
    have formsParts := forms
    have writtenParts := written
    unfold deducible at formsParts
    unfold declared at writtenParts
    rw [dependent] at formsParts writtenParts
    obtain ⟨e, rfl | rfl⟩ := reference_cases built isRef
    · have inner : isDependent e = true := dependent
      have elem := referenced built
      simp only [Ty.built, Bool.and_eq_true] at parts
      have taken : deduce (.lvalueReference e) a b = some b' := deduced
      unfold deduce at taken
      rw [if_neg (by simp [dependent])] at taken
      rw [substitute_lvalueReference built]
      exact adjusts_reference bases taken parts.2 formsParts writtenParts inner elem.1 built' all
        (fun plain => .inl (addLValueReference_eq plain)) (fun isVoid => by rw [Ty.addLValueReference, if_pos isVoid])
    · have inner : isDependent e = true := dependent
      have elem := referenced (e := e) built
      simp only [Ty.built, Bool.and_eq_true] at parts
      have referred_ : deduce (.rvalueReference e) a b = some b' →
          adjusts bases (substitute (.rvalueReference e) b') a = (a.isVoid || preservedFirst 0 true e a.removeReference) := by
        intro taken
        unfold deduce at taken
        rw [if_neg (by simp [dependent])] at taken
        rw [substitute_rvalueReference built]
        exact adjusts_reference bases taken parts.2 formsParts writtenParts inner elem.1 built' all
          (fun plain => .inr (addRValueReference_eq plain)) (fun isVoid => by rw [Ty.addRValueReference, if_pos (by simp [isVoid])])
      by_cases forwarding : isLValue = true ∧ e.isParam = true
      · obtain ⟨isLValue_, isParam⟩ := forwarding
        dsimp only
        rw [isLValue_, isParam, Bool.true_and, Bool.true_or, Bool.true_or]
        cases e with
        | templateParam tp =>
          dsimp only at deduced
          rw [isLValue_, Bool.true_and] at deduced
          split at deduced
          · rename_i named
            simp only [Bool.and_eq_true] at named
            have isType : values.contains tp.name = false := by
              unfold deducible at formsParts
              simpa [isDependent, named.1] using formsParts
            exact adjusts_forwarded bases deduced isType built' all
          · rename_i unnamed
            unfold deduce at deduced
            rw [if_neg (by simp [dependent])] at deduced
            obtain ⟨isType, isNamed, -⟩ := takes_param deduced
            exact absurd (by simp [isType, isNamed]) unnamed
        | _ => cases isParam
      · have noForward : (isLValue && e.isParam) = false := by
          rw [← Bool.not_eq_true, Bool.and_eq_true]
          exact forwarding
        dsimp only
        rw [noForward, Bool.false_or]
        apply referred_
        cases e with
        | templateParam tp =>
          have rvalue : isLValue = false := by simpa [Ty.isParam] using noForward
          simpa [rvalue] using deduced
        | _ => exact deduced
  · have noRef : p.isReference = false := by simpa using isRef
    rw [if_neg isRef] at deduced
    have plain : deduce p (decayed a) b = some b' := by
      cases p with
      | rvalueReference e => simp [Ty.isReference, Ty.kind] at noRef
      | _ => exact deduced
    rw [adjusts_noReference bases plain built forms written dependent noRef built' all]
    cases p with
    | lvalueReference e | rvalueReference e => simp [Ty.isReference, Ty.kind] at noRef
    | _ => rfl

/-- The parameter's type `Box<T>`. -/
def boxParameter : Ty := .specialization "Box" [.type (.templateParam { name := "T", index := 0 })] (.primary 0)

/-- The class that a `Box` of the type is. -/
def boxOf (t : Ty) : Ty := .specialized 1 "Box" [.type t] 0 false

theorem boxOfInt_adjusted : adjusts noBases (substitute boxParameter [("T", .basic .int)]) (boxOf (.basic .int)) = true := by
  have deduced : deduceArg boxParameter (boxOf (.basic .int)) true [] = some [("T", .basic .int)] := rfl
  exact (@deduceArg_adjusts_iff [] _ _ _ _ _ noBases deduced rfl rfl rfl rfl (.nil _)).2 rfl

/-- The qualifiers of a template argument are dropped: `Box<T>` against `Box<const int>` deduces `int`. -/
theorem boxOfConstInt_lost :
    deduceArg boxParameter (boxOf (.qualified Qual.const (.basic .int))) true [] = some [("T", .basic .int)] ∧
    deducible [] boxParameter = true ∧ declared boxParameter = true ∧ boxParameter.built = true ∧
    (boxOf (.qualified Qual.const (.basic .int))).built = true ∧
    adjusts noBases (substitute boxParameter [("T", .basic .int)]) (boxOf (.qualified Qual.const (.basic .int))) = false := by
  refine ⟨rfl, rfl, rfl, rfl, rfl, ?_⟩
  rfl

end Vcx.Template
