import Vcx.Template.Deduce
import Vcx.Template.Pattern

/-!
# What is deduced from a call

Whatever is bound later, what is deduced from an argument gives the argument's type back, but for what a
call may change, where the parameter's type is preserved, and nowhere else.
-/

namespace Vcx.Template
set_option autoImplicit false
open Vcx.Lib

/-! ### Types that are stripped -/

theorem built_removeReference {a : Ty} (built : a.built = true) : a.removeReference.built = true ∧ a.removeReference.isReference = false := by
  by_cases isRef : ∃ e, a = .lvalueReference e ∨ a = .rvalueReference e
  · obtain ⟨e, rfl | rfl⟩ := isRef
    all_goals
      simp only [Ty.built, Bool.and_eq_true, Bool.not_eq_true'] at built
      exact ⟨built.2, built.1.1⟩
  · cases a with
    | lvalueReference e => exact absurd ⟨e, .inl rfl⟩ isRef
    | rvalueReference e => exact absurd ⟨e, .inr rfl⟩ isRef
    | qualified q t =>
      have parts := built
      simp only [Ty.built, Bool.and_eq_true, Bool.not_eq_true'] at parts
      exact ⟨built, parts.1.1.1.2⟩
    | valueBound t v => cases built
    | _ => exact ⟨built, rfl⟩

theorem bare_unqualify {a : Ty} (built : a.built = true) : a.unqualify.isBare = true := by
  cases a with
  | qualified q t =>
    simp only [Ty.built, Bool.and_eq_true] at built
    cases t <;> first | rfl | simp_all [Ty.built]
  | valueBound t v => cases built
  | _ => rfl

theorem unqualify_isReference (a : Ty) : a.unqualify.isReference = a.isReference := by
  simp only [Ty.isReference, unqualify_kind]

theorem stripped_spec {a : Ty} (built : a.built = true) :
    a.stripped.built = true ∧ a.stripped.isBare = true ∧ a.stripped.isReference = false := by
  obtain ⟨whole, noRef⟩ := built_removeReference built
  refine ⟨built_unqualify whole, bare_unqualify whole, ?_⟩
  rw [Ty.stripped, unqualify_isReference, noRef]

theorem unqualify_bare {a : Ty} (bare : a.isBare = true) : a.unqualify = a := by
  cases a <;> first | rfl | cases bare

theorem stripped_eq {a : Ty} (bare : a.isBare = true) (noRef : a.isReference = false) : a.stripped = a := by
  rw [Ty.stripped, removeReference_eq noRef, unqualify_bare bare]

theorem stripped_of_noRef {a : Ty} (noRef : a.isReference = false) : a.stripped = a.unqualify := by
  rw [Ty.stripped, removeReference_eq noRef]

theorem stripped_stripped {a : Ty} (built : a.built = true) : a.stripped.stripped = a.stripped := by
  obtain ⟨-, bare, noRef⟩ := stripped_spec built
  exact stripped_eq bare noRef

theorem stripped_unqualify {a : Ty} (built : a.built = true) : a.unqualify.stripped = a.stripped := by
  cases a with
  | qualified q t =>
    have bare := bare_unqualify built
    simp only [Ty.built, Bool.and_eq_true, Bool.not_eq_true'] at built
    exact stripped_eq bare built.1.1.1.2
  | _ => rfl

theorem stripped_removeReference {a : Ty} (built : a.built = true) : a.removeReference.stripped = a.stripped := by
  obtain ⟨-, noRef⟩ := built_removeReference built
  rw [Ty.stripped, removeReference_eq noRef]
  rfl

theorem stripped_cases {a : Ty} (built : a.built = true) :
    (a.isReference = false ∧ a.isBare = true ∧ a.stripped = a) ∨ (∃ q t, a = .qualified q t ∧ q ≠ 0 ∧ a.stripped = t) ∨ a.isReference = true := by
  by_cases isRef : a.isReference = true
  · exact .inr (.inr isRef)
  have noRef : a.isReference = false := by simpa using isRef
  obtain bare | ⟨q, t, rfl, some_⟩ := bare_or built
  · exact .inl ⟨noRef, bare, stripped_eq bare noRef⟩
  · exact .inr (.inl ⟨q, t, rfl, some_, rfl⟩)

/-- What is read as another type is of its form. -/
theorem form_of_spells : ∀ {s o : Ty}, s.spells o = true → s.form = o.form
  | .qualified q t, o, spells => by
    unfold Ty.spells at spells
    split at spells
    · simp only [Bool.and_eq_true] at spells
      have inner : t.form = _ := form_of_spells spells.2
      exact inner
    · simp only [Bool.and_eq_true] at spells
      have inner : t.form = o.form := form_of_spells spells.2
      exact inner
  | .valueBound t v, o, spells => form_of_spells (s := t) spells
  | .basic _, o, spells | .record _ _, o, spells | .specialized _ _ _ _ _, o, spells | .enum _ _, o, spells | .interface _, o, spells
  | .templateParam _, o, spells | .dependent _, o, spells | .transform _ _, o, spells | .templateRef _ _ _, o, spells =>
    form_of_kind (kind_of_equal spells)
  | .pointer e, o, spells | .blockPointer e, o, spells | .lvalueReference e, o, spells | .rvalueReference e, o, spells
  | .memberPointer _ e, o, spells | .array e _ _ _, o, spells | .func e _ _ _ _ _, o, spells => by
    unfold Ty.spells at spells
    rw [← form_of_kind (strict_kind o)]
    split at spells
    · rename_i is
      rw [is]
      rfl
    · cases spells
  | .specialization _ _ _, o, spells => by
    unfold Ty.spells at spells
    rw [← form_of_kind (strict_kind o)]
    split at spells
    · rename_i is
      rw [is]
      rfl
    · rename_i is
      rw [is]
      rfl
    · cases spells
  | .pack es, o, spells => by
    unfold Ty.spells at spells
    split at spells
    · rfl
    · cases spells

/-- Qualifiers and references are not read into what has none. -/
theorem not_spells_dressed {s a : Ty} (bare : s.isBare = true) (noRef : s.isReference = false) (built : a.built = true)
    (dressed : a.stripped ≠ a) : s.spells a = false := by
  obtain ⟨-, -, same⟩ | ⟨q, t, rfl, some_, -⟩ | isRef := stripped_cases built
  · exact absurd same dressed
  · exact not_spells_qualified bare some_ t
  · by_contra spells
    rw [Bool.not_eq_false] at spells
    rw [isReference_of_form (form_of_spells spells), isRef] at noRef
    cases noRef

theorem reference_cases {a : Ty} (built : a.built = true) (isRef : a.isReference = true) :
    ∃ e, a = .lvalueReference e ∨ a = .rvalueReference e := by
  cases a with
  | lvalueReference e => exact ⟨e, .inl rfl⟩
  | rvalueReference e => exact ⟨e, .inr rfl⟩
  | qualified q t =>
    simp only [Ty.built, Bool.and_eq_true, Bool.not_eq_true'] at built
    have noRef : t.isReference = false := built.1.1.1.2
    rw [show (Ty.qualified q t).isReference = t.isReference from rfl, noRef] at isRef
    cases isRef
  | valueBound t v => cases built
  | _ => simp [Ty.isReference, Ty.kind] at isRef

theorem noRef_of_void {a : Ty} (isVoid : a.isVoid = true) : a.isReference = false := by
  have kind := of_decide_eq_true isVoid
  simp [Ty.isReference, kind]

/-- Nothing refers to void. -/
theorem isVoid_stripped {a : Ty} (built : a.built = true) : a.stripped.isVoid = a.isVoid := by
  by_cases isRef : a.isReference = true
  · have noVoid : a.isVoid = false := by
      by_contra isVoid
      rw [Bool.not_eq_false] at isVoid
      rw [noRef_of_void isVoid] at isRef
      cases isRef
    rw [noVoid]
    obtain ⟨e, rfl | rfl⟩ := reference_cases built isRef
    all_goals
      simp only [Ty.built, Bool.and_eq_true, Bool.not_eq_true'] at built
      rw [← built.1.2, Ty.isVoid, Ty.isVoid, Ty.stripped, unqualify_kind]
      rfl
  · rw [stripped_of_noRef (by simpa using isRef), Ty.isVoid, Ty.isVoid, unqualify_kind]

/-! ### What deduction leaves -/

/-- What is put in a parameter's place is no reference, and void or a function where the argument is. -/
structure Shaped (s a : Ty) : Prop where
  isReference : s.isReference = false
  isVoid : s.isVoid = a.stripped.isVoid
  isFunc : s.isFunc = a.stripped.isFunc

/-- What a bare form is put in place of. -/
theorem Shaped.of_form {s a : Ty} (noRef : s.isReference = false) (form : s.form = a.stripped.form) : Shaped s a :=
  ⟨noRef, isVoid_of_form form, isFunc_of_form form⟩

/-- Deduction has bound what it needs: whatever else is bound, the pattern is read as the argument just
where it is kept. A parameter that takes the argument exactly is always kept. -/
structure Deduced (values : List String) (exact : Bool) (p a : Ty) (b b' : Binding) : Prop where
  extends_ : Extends b b'
  bindable : Bindable values b'
  shape : isDependent p = true → p.isReference = false → (exact = true → a.isReference = false) → ∀ c, Extends b' c → Shaped (substitute p c) a
  param : ∀ tp, p = .templateParam tp → ∀ c, Extends b' c →
    (substitute p c).built = true ∧ (substitute p c).equal (if exact then a else a.stripped) = true
  spells : ∀ c, Extends b' c → ((substitute p c).spells a = true ↔ (exact && p.isParam || kept p a) = true)

section forms
variable {values : List String} {p a : Ty} {b b' : Binding}

theorem deduced_static {exact : Bool} (static : isDependent p = false) (all : Bindable values b) : Deduced values exact p a b b := by
  have noParam : p.isParam = false := by cases p <;> first | rfl | cases static
  refine ⟨.refl b, all, ?_, ?_, fun c _ => ?_⟩
  · intro dependent
    rw [static] at dependent
    cases dependent
  · rintro tp rfl
    cases static
  · rw [substitute_static c static, noParam]
    unfold kept
    simp [static]

/-- What a parameter is bound to is put in its place. -/
theorem bound_param {tp : TemplateParam} {t : Ty} (bound : bindType tp.name t b = some b') (isType : values.contains tp.name = false)
    (built : t.built = true) (all : Bindable values b) :
    Extends b b' ∧ Bindable values b' ∧ ∃ x, x.built = true ∧ x.equal t = true ∧ ∀ c, Extends b' c → substitute (.templateParam tp) c = x := by
  obtain ⟨grows, bindable, x, is, same⟩ := bindType_bound bound (bound_of_built values tp.name built) all
  have equal : x.equal t = true := by
    obtain rfl | equal := same
    · exact equal_self x built
    · exact equal
  have xBuilt : x.built = true := (bindable _ _ is).built isType built equal
  refine ⟨grows, bindable, x, xBuilt, equal, fun c more => ?_⟩
  apply substitute_templateParam (more _ _ is)
  rintro es rfl
  cases xBuilt

theorem bare_of_equal {x t : Ty} (built : x.built = true) (bare : t.isBare = true) (equal : x.equal t = true) : x.isBare = true := by
  obtain isBare | ⟨q, s, rfl, some_⟩ := bare_or built
  · exact isBare
  · have spells := spells_of_equal _ built equal
    rw [qualified_not_spells bare some_] at spells
    cases spells

/-- A parameter takes what its argument is stripped to. -/
theorem deduced_param {tp : TemplateParam} (bound : bindType tp.name a.stripped b = some b') (isType : values.contains tp.name = false)
    (built : a.built = true) (all : Bindable values b) : Deduced values false (.templateParam tp) a b b' := by
  obtain ⟨whole, bare, noRef⟩ := stripped_spec built
  obtain ⟨grows, bindable, x, xBuilt, equal, is⟩ := bound_param bound isType whole all
  have xBare := bare_of_equal xBuilt bare equal
  have form := form_of_kind (kind_of_equal equal)
  have xNoRef := (isReference_of_form form).trans noRef
  refine ⟨grows, bindable, fun _ _ _ c more => ?_, fun _ _ c more => ?_, fun c more => ?_⟩
  · rw [is c more]
    exact .of_form xNoRef form
  · rw [is c more]
    exact ⟨xBuilt, equal⟩
  · rw [is c more, Bool.false_and, Bool.false_or]
    obtain ⟨noRef, aBare, same⟩ | ⟨q, t, rfl, some_, -⟩ | isRef := stripped_cases built
    · rw [same] at equal
      have keeps : kept (.templateParam tp) a = true := by
        cases a <;> simp_all [kept, isDependent, Ty.isBare]
      simp [keeps, spells_of_equal x xBuilt equal]
    · simp [not_spells_qualified xBare some_, kept, isDependent]
    · have dressed : a.stripped ≠ a := by
        intro same
        rw [same, isRef] at noRef
        cases noRef
      have drops : kept (.templateParam tp) a = false := by
        cases a <;> simp_all [kept, isDependent]
      simp [not_spells_dressed xBare xNoRef built dressed, drops]

/-- A parameter that takes its argument as it is. -/
theorem deduced_exact {tp : TemplateParam} (bound : bindType tp.name a b = some b') (isType : values.contains tp.name = false)
    (built : a.built = true) (all : Bindable values b) : Deduced values true (.templateParam tp) a b b' := by
  obtain ⟨grows, bindable, x, xBuilt, equal, is⟩ := bound_param bound isType built all
  refine ⟨grows, bindable, fun _ _ noRef c more => ?_, fun _ _ c more => ?_, fun c more => ?_⟩
  · rw [is c more]
    have form : x.form = a.stripped.form := by
      rw [stripped_of_noRef (noRef rfl), form_of_kind (unqualify_kind a), form_of_kind (kind_of_equal equal)]
    exact .of_form ((isReference_of_form (form_of_kind (kind_of_equal equal))).trans (noRef rfl)) form
  · rw [is c more]
    exact ⟨xBuilt, equal⟩
  · simp [is c more, Ty.isParam, spells_of_equal x xBuilt equal]

theorem Deduced.toExact (inner : Deduced values false p a b b') (noParam : p.isParam = false) : Deduced values true p a b b' := by
  refine ⟨inner.extends_, inner.bindable, fun dependent noRef _ => inner.shape dependent noRef (by simp), ?_, fun c more => ?_⟩
  · rintro tp rfl
    cases noParam
  · rw [inner.spells c more, noParam]
    simp

theorem takes_param {tp : TemplateParam} (taken : takes (.templateParam tp) a b (deduce (.templateParam tp) a b) = some b') :
    tp.isType = true ∧ tp.name ≠ "" ∧ bindType tp.name a b = some b' := by
  unfold takes at taken
  dsimp only at taken
  split at taken
  · rename_i named
    simp only [Bool.and_eq_true, decide_eq_true_eq] at named
    exact ⟨named.1, named.2, taken⟩
  · rename_i unnamed
    unfold deduce at taken
    rw [if_neg (by simp [isDependent])] at taken
    dsimp only at taken
    split at taken
    · cases taken
    · rename_i named
      exact absurd (by simpa using named) unnamed

/-- What is under a pointer, under a reference or in an array. -/
theorem deduced_takes (taken : takes p a b (deduce p a b) = some b') (forms : deducible values p = true) (built : a.built = true)
    (all : Bindable values b) (inner : deduce p a b = some b' → Deduced values false p a b b') : Deduced values true p a b b' := by
  by_cases isParam : ∃ tp, p = .templateParam tp
  · obtain ⟨tp, rfl⟩ := isParam
    obtain ⟨isType, -, bound⟩ := takes_param taken
    unfold deducible at forms
    exact deduced_exact bound (by simpa [isDependent, isType] using forms) built all
  · have noParam : p.isParam = false := by cases p <;> first | rfl | exact absurd ⟨_, rfl⟩ isParam
    have taken : deduce p a b = some b' := by
      cases p <;> first | exact taken | exact absurd ⟨_, rfl⟩ isParam
    exact (inner taken).toExact noParam

end forms

/-- The forms that are the same whatever is put in them. -/
def Ty.isCompound : Ty → Bool
  | .pointer _ | .memberPointer _ _ | .array _ _ _ _ | .func _ _ _ _ _ _ | .specialization _ _ _ => true
  | _ => false

theorem substitute_form {p : Ty} (compound : p.isCompound = true) (c : Binding) : (substitute p c).form = p.form := by
  by_cases idle : c = [] ∨ isDependent p = false
  · rw [substitute_idle idle]
  · unfold substitute
    rw [if_neg (by simpa using substitute_active idle)]
    cases p with
    | array e len inc dep =>
      dsimp only
      split <;> rfl
    | pointer _ | memberPointer _ _ | func _ _ _ _ _ _ | specialization _ _ _ => rfl
    | _ => cases compound

theorem kept_dressed {p a : Ty} (compound : p.isCompound = true) (dependent : isDependent p = true) (built : a.built = true)
    (dressed : a.stripped ≠ a) : kept p a = false := by
  unfold kept
  rw [if_neg (by simp [dependent])]
  obtain ⟨-, -, same⟩ | ⟨q, t, rfl, some_, -⟩ | isRef := stripped_cases built
  · exact absurd same dressed
  · cases p <;> first | rfl | cases compound
  · cases p with
    | pointer _ | memberPointer _ _ | array _ _ _ _ | func _ _ _ _ _ _ | specialization _ _ _ =>
      cases a <;> first | rfl | simp [Ty.isReference, Ty.kind] at isRef
    | _ => cases compound

section forms
variable {values : List String} {p a : Ty} {b b' : Binding}

/-- A form that is the same whatever is put in it is read as the argument only where that is not dressed. -/
theorem deduced_compound {exact : Bool} (compound : p.isCompound = true) (dependent : isDependent p = true) (built : p.built = true)
    (built' : a.built = true) (grows : Extends b b') (bindable : Bindable values b') (isVoid : a.stripped.isVoid = false)
    (isFunc : p.isFunc = a.stripped.isFunc)
    (spells : a.stripped = a → ∀ c, Extends b' c → ((substitute p c).spells a = true ↔ kept p a = true)) :
    Deduced values exact p a b b' := by
  have noRef : p.isReference = false := by cases p <;> first | rfl | cases compound
  have noVoid : p.isVoid = false := by cases p <;> first | rfl | cases compound
  have noParam : p.isParam = false := by cases p <;> first | rfl | cases compound
  have bare : ∀ c, (substitute p c).isBare = true := by
    apply substitute_bare built
    · rintro tp rfl
      cases compound
    · rintro q t rfl
      cases compound
    · exact noRef
  have noRef' : ∀ c, (substitute p c).isReference = false := fun c => (isReference_of_form (substitute_form compound c)).trans noRef
  refine ⟨grows, bindable, fun _ _ _ c _ => ⟨noRef' c, ?_, ?_⟩, ?_, fun c more => ?_⟩
  · rw [isVoid_of_form (substitute_form compound c), noVoid, isVoid]
  · rw [isFunc_of_form (substitute_form compound c), isFunc]
  · rintro tp rfl
    cases compound
  · rw [noParam, Bool.and_false, Bool.false_or]
    by_cases same : a.stripped = a
    · exact spells same c more
    · simp [not_spells_dressed (bare c) (noRef' c) built' same, kept_dressed compound dependent built' same]

theorem deduced_pointer {e e' : Ty} (inner : Deduced values true e e' b b') (dependent : isDependent e = true)
    (built : (Ty.pointer e).built = true) (built' : a.built = true) (is : a.stripped = .pointer e') :
    Deduced values false (.pointer e) a b b' := by
  apply deduced_compound (p := .pointer e) rfl dependent built built' inner.extends_ inner.bindable (by rw [is]; rfl) (by rw [is]; rfl)
  intro same c more
  rw [same] at is
  subst is
  have spells := inner.spells c more
  simpa [Ty.spells, Ty.strict, kept, isDependent, dependent] using spells

theorem deduced_decayed {e e' : Ty} {len : Int} {inc : Bool} {dep : String} (inner : Deduced values false e e' b b')
    (dependent : isDependent e = true) (built : (Ty.pointer e).built = true) (built' : a.built = true)
    (is : a.stripped = .array e' len inc dep) : Deduced values false (.pointer e) a b b' := by
  apply deduced_compound (p := .pointer e) rfl dependent built built' inner.extends_ inner.bindable (by rw [is]; rfl) (by rw [is]; rfl)
  intro same c more
  rw [same] at is
  subst is
  simp [Ty.spells, Ty.strict, kept, isDependent, dependent]

theorem deduced_memberPointer {k k' e e' : Ty} {b₁ : Binding} (first : Deduced values false k k' b b₁)
    (second : Deduced values false e e' b₁ b') (dependent : isDependent (.memberPointer k e) = true)
    (built : (Ty.memberPointer k e).built = true) (built' : a.built = true) (is : a.stripped = .memberPointer k' e') :
    Deduced values false (.memberPointer k e) a b b' := by
  apply deduced_compound rfl dependent built built' (first.extends_.trans second.extends_) second.bindable (by rw [is]; rfl) (by rw [is]; rfl)
  intro same c more
  rw [same] at is
  subst is
  have spells := first.spells c (second.extends_.trans more)
  have spells' := second.spells c more
  simp only [Bool.false_and, Bool.false_or] at spells spells'
  simp only [substitute_memberPointer, Ty.spells, Ty.strict, Bool.and_eq_true, spells, spells', kept, dependent, Bool.not_true,
    Bool.false_eq_true, if_false]

/-- The bound that is put in place is the argument's, where that is no parameter. -/
theorem array_bound {e e' : Ty} {len len' : Int} {inc inc' : Bool} {dep dep' : String}
    (length : matchLength len inc dep e' len' inc' dep' b = some b') (all : Bindable values b) (built : e'.built = true)
    (isValue : dep ≠ "" → values.contains dep = true) :
    Extends b b' ∧ Bindable values b' ∧ ∀ c, Extends b' c → ∃ len₁ inc₁,
      substitute (.array e len inc dep) c = .array (substitute e c) len₁ inc₁ "" ∧
      (inc₁ = inc' && ("" = dep' && (inc₁ || "" ≠ "" || len₁ = len'))) = (dep ≠ "" || dep' = "") := by
  unfold matchLength at length
  split at length
  · -- the bound is a parameter
    rename_i written
    split at length
    · cases length
    rename_i whole
    obtain ⟨noInc, rfl⟩ : inc' = false ∧ dep' = "" := by simpa using whole
    obtain ⟨grows, bindable, type, bound⟩ := bindValue_bound length built (isValue written) all
    refine ⟨grows, bindable, fun c more => ⟨len', false, substitute_arrayBound written (more _ _ bound), ?_⟩⟩
    simp [noInc, written]
  · rename_i plain
    obtain rfl : dep = "" := by simpa using plain
    split at length
    · cases length
    rename_i same
    cases length
    obtain ⟨rfl, long⟩ : inc' = inc ∧ (inc = true ∨ len' = len) := by
      simpa [Classical.or_iff_not_imp_left] using same
    refine ⟨.refl b, all, fun c _ => ⟨len, inc', substitute_array e len inc' c, ?_⟩⟩
    have long : inc' = true ∨ len = len' := long.imp_right Eq.symm
    by_cases noDep : dep' = ""
    · simpa [noDep] using long
    · simp [noDep, Ne.symm noDep]

theorem kept_array {e e' : Ty} {len len' : Int} {inc inc' : Bool} {dep dep' : String} (dependent : isDependent (.array e len inc dep) = true) :
    kept (.array e len inc dep) (.array e' len' inc' dep') = ((dep ≠ "" || dep' = "") && (e.isParam || kept e e')) := by
  conv_lhs => unfold kept
  exact if_neg (by simp [dependent])

theorem spells_array (e e' : Ty) (len len' : Int) (inc inc' : Bool) (dep dep' : String) :
    (Ty.array e len inc dep).spells (.array e' len' inc' dep') =
      (e.spells e' && (inc = inc' && (dep = dep' && (inc || dep ≠ "" || len = len')))) := by
  rw [← Bool.and_assoc, ← Bool.and_assoc]
  rfl

/-- The bounds of the two arrays agree. -/
theorem deduced_array {e e' : Ty} {len len' : Int} {inc inc' : Bool} {dep dep' : String} {b₁ : Binding}
    (length : matchLength len inc dep e' len' inc' dep' b = some b₁) (all : Bindable values b)
    (inner : Bindable values b₁ → Deduced values true e e' b₁ b') (dependent : isDependent (.array e len inc dep) = true)
    (isValue : dep ≠ "" → values.contains dep = true) (built : (Ty.array e len inc dep).built = true) (built' : a.built = true)
    (is : a.stripped = .array e' len' inc' dep') : Deduced values false (.array e len inc dep) a b b' := by
  have elemBuilt : e'.built = true := by
    have whole := (stripped_spec built').1
    rw [is] at whole
    exact whole
  obtain ⟨grows, bindable, bounds⟩ := array_bound (e := e) length all elemBuilt isValue
  have inner := inner bindable
  apply deduced_compound (p := .array e len inc dep) rfl dependent built built' (grows.trans inner.extends_) inner.bindable
    (by rw [is]; rfl) (by rw [is]; rfl)
  intro same c more
  rw [same] at is
  subst is
  obtain ⟨len₁, inc₁, whole, long⟩ := bounds c (inner.extends_.trans more)
  have spells := inner.spells c more
  rw [whole, spells_array, long, kept_array dependent, Bool.and_eq_true, Bool.and_eq_true, spells, Bool.true_and]
  exact and_comm

/-- What a reference refers to once it is put in place. -/
theorem referred {e : Ty} (inner : Deduced values true e a.removeReference b b') (dependent : isDependent e = true)
    (noRef : e.isReference = false) (built : a.built = true) {c : Binding} (more : Extends b' c) :
    (substitute e c).isReference = false ∧ (substitute e c).isVoid = a.isVoid := by
  have shape := inner.shape dependent noRef (fun _ => (built_removeReference built).2) c more
  refine ⟨shape.isReference, ?_⟩
  rw [shape.isVoid, stripped_removeReference built, isVoid_stripped built]

theorem kept_lvalueReference {e : Ty} (dependent : isDependent e = true) (other : ∀ e', a ≠ .lvalueReference e') :
    kept (.lvalueReference e) a = (a.isVoid && (e.isParam || kept e a)) := by
  conv_lhs => unfold kept
  rw [if_neg (by simp [isDependent, dependent])]
  cases a with
  | lvalueReference e' => exact absurd rfl (other e')
  | _ => rfl

theorem kept_rvalueReference {e : Ty} (dependent : isDependent e = true) (other : ∀ e', a ≠ .rvalueReference e') :
    kept (.rvalueReference e) a = (a.isVoid && (e.isParam || kept e a)) := by
  conv_lhs => unfold kept
  rw [if_neg (by simp [isDependent, dependent])]
  cases a with
  | rvalueReference e' => exact absurd rfl (other e')
  | _ => rfl

theorem deduced_lvalueReference {e : Ty} (inner : Deduced values true e a.removeReference b b') (dependent : isDependent e = true)
    (built : (Ty.lvalueReference e).built = true) (built' : a.built = true) : Deduced values false (.lvalueReference e) a b b' := by
  refine ⟨inner.extends_, inner.bindable, ?_, ?_, fun c more => ?_⟩
  · intro _ noRef
    simp [Ty.isReference, Ty.kind] at noRef
  · rintro tp ⟨⟩
  obtain ⟨noRef, isVoid⟩ := referred inner dependent (referenced built).1 built' more
  have spells := inner.spells c more
  rw [substitute_lvalueReference built, Bool.false_and, Bool.false_or]
  by_cases isRef : ∃ e', a = .lvalueReference e'
  · obtain ⟨e', rfl⟩ := isRef
    rw [addLValueReference_eq ⟨noRef, isVoid⟩]
    simpa [Ty.spells, Ty.strict, kept, isDependent, dependent, Ty.removeReference] using spells
  have other : ∀ e', a ≠ .lvalueReference e' := fun e' is => isRef ⟨e', is⟩
  rw [kept_lvalueReference dependent other]
  by_cases void : a.isVoid = true
  · -- there is no reference to void
    rw [removeReference_eq (noRef_of_void void)] at spells
    rw [Ty.addLValueReference, if_pos (isVoid.trans void), spells, void]
    simp
  · have noVoid : a.isVoid = false := by simpa using void
    have notRead : (Ty.lvalueReference (substitute e c)).spells a = false := by
      by_contra reads
      rw [Bool.not_eq_false] at reads
      have kind : a.kind = .lvalueReference := (form_eq_iff (by decide) (by decide)).1 (form_of_spells reads).symm
      obtain ⟨e', rfl | rfl⟩ := reference_cases built' (by simp [Ty.isReference, kind])
      · exact other e' rfl
      · cases kind
    rw [addLValueReference_eq ⟨noRef, isVoid.trans noVoid⟩, notRead, noVoid]
    simp

theorem deduced_rvalueReference {e : Ty} (inner : Deduced values true e a.removeReference b b') (dependent : isDependent e = true)
    (built : (Ty.rvalueReference e).built = true) (built' : a.built = true) : Deduced values false (.rvalueReference e) a b b' := by
  refine ⟨inner.extends_, inner.bindable, ?_, ?_, fun c more => ?_⟩
  · intro _ noRef
    simp [Ty.isReference, Ty.kind] at noRef
  · rintro tp ⟨⟩
  obtain ⟨noRef, isVoid⟩ := referred inner dependent (referenced built).1 built' more
  have spells := inner.spells c more
  rw [substitute_rvalueReference built, Bool.false_and, Bool.false_or]
  by_cases isRef : ∃ e', a = .rvalueReference e'
  · obtain ⟨e', rfl⟩ := isRef
    rw [addRValueReference_eq ⟨noRef, isVoid⟩]
    simpa [Ty.spells, Ty.strict, kept, isDependent, dependent, Ty.removeReference] using spells
  have other : ∀ e', a ≠ .rvalueReference e' := fun e' is => isRef ⟨e', is⟩
  rw [kept_rvalueReference dependent other]
  by_cases void : a.isVoid = true
  · rw [removeReference_eq (noRef_of_void void)] at spells
    rw [Ty.addRValueReference, if_pos (by simp [isVoid.trans void]), spells, void]
    simp
  · have noVoid : a.isVoid = false := by simpa using void
    have notRead : (Ty.rvalueReference (substitute e c)).spells a = false := by
      by_contra reads
      rw [Bool.not_eq_false] at reads
      have kind : a.kind = .rvalueReference := (form_eq_iff (by decide) (by decide)).1 (form_of_spells reads).symm
      obtain ⟨e', rfl | rfl⟩ := reference_cases built' (by simp [Ty.isReference, kind])
      · cases kind
      · exact other e' rfl
    rw [addRValueReference_eq ⟨noRef, isVoid.trans noVoid⟩, notRead, noVoid]
    simp

/-- What is put in place under qualifiers is bare. -/
theorem qualified_bare {q : Qual} {t : Ty} (inner : Deduced values false t a.unqualify b b') (dependent : isDependent t = true)
    (built : (Ty.qualified q t).built = true) (built' : a.built = true) {c : Binding} (more : Extends b' c) :
    (substitute t c).isBare = true ∧ Shaped (substitute t c) a := by
  have parts := built
  simp only [Ty.built, Bool.and_eq_true, Bool.not_eq_true', decide_eq_true_eq] at parts
  obtain ⟨⟨⟨⟨-, noRef⟩, -⟩, bare⟩, tBuilt⟩ := parts
  have shape := inner.shape dependent noRef (by simp) c more
  have same := stripped_unqualify built'
  refine ⟨?_, shape.isReference, shape.isVoid.trans (by rw [same]), shape.isFunc.trans (by rw [same])⟩
  by_cases isParam : ∃ tp, t = .templateParam tp
  · obtain ⟨tp, rfl⟩ := isParam
    obtain ⟨xBuilt, equal⟩ := inner.param tp rfl c more
    rw [if_neg (by simp), same] at equal
    exact bare_of_equal xBuilt (stripped_spec built').2.1 equal
  · apply substitute_bare tBuilt (fun tp is => isParam ⟨tp, is⟩) _ noRef
    rintro q₁ t₁ rfl
    cases bare

theorem kept_qualified_bare {q : Qual} {t : Ty} (dependent : isDependent t = true) (noQuals : ∀ q' t', a ≠ .qualified q' t') :
    kept (.qualified q t) a = (a.isFunc && kept t a) := by
  conv_lhs => unfold kept
  rw [if_neg (by simp [isDependent, dependent])]
  cases a with
  | qualified q' t' => exact absurd rfl (noQuals q' t')
  | _ => rfl

/-- Qualifiers in the pattern drop those of the argument. -/
theorem deduced_qualified {q : Qual} {t : Ty} (inner : Deduced values false t a.unqualify b b') (dependent : isDependent t = true)
    (built : (Ty.qualified q t).built = true) (built' : a.built = true) : Deduced values false (.qualified q t) a b b' := by
  have some_ : q ≠ 0 := by
    simp only [Ty.built, Bool.and_eq_true, decide_eq_true_eq] at built
    exact built.1.1.1.1
  refine ⟨inner.extends_, inner.bindable, fun _ _ _ c more => ?_, ?_, fun c more => ?_⟩
  · obtain ⟨-, shape⟩ := qualified_bare inner dependent built built' more
    rw [substitute_qualified built]
    refine ⟨?_, ?_, ?_⟩
    · rw [Ty.isReference, qualify_kind]
      exact shape.isReference
    · rw [Ty.isVoid, qualify_kind]
      exact shape.isVoid
    · rw [Ty.isFunc, qualify_kind]
      exact shape.isFunc
  · rintro tp ⟨⟩
  obtain ⟨bare, shape⟩ := qualified_bare inner dependent built built' more
  have spells := inner.spells c more
  rw [Bool.false_and, Bool.false_or] at spells ⊢
  rw [substitute_qualified built]
  have noQuals : a.isBare = true → ∀ q' t', a ≠ .qualified q' t' := by
    rintro aBare q' t' rfl
    cases aBare
  by_cases isFunc : (substitute t c).isFunc = true
  · -- a function takes no qualifiers
    have whole : (substitute t c).qualify q = substitute t c := by
      unfold Ty.qualify
      rw [if_neg some_, if_pos (by simp [isFunc])]
    rw [whole]
    obtain ⟨noRef, aBare, same⟩ | ⟨q', t', rfl, some', same⟩ | isRef := stripped_cases built'
    · have func : a.isFunc = true := by rw [← same, ← shape.isFunc, isFunc]
      rw [unqualify_bare aBare] at spells
      rw [spells, kept_qualified_bare dependent (noQuals aBare), func, Bool.true_and]
    · have func : t'.isFunc = true := by rw [← same, ← shape.isFunc, isFunc]
      simp [Ty.built, func] at built'
    · have notRead : (substitute t c).spells a = false := by
        apply not_spells_dressed bare shape.isReference built'
        intro same
        rw [← same, (stripped_spec built').2.2] at isRef
        cases isRef
      obtain ⟨e', rfl | rfl⟩ := reference_cases built' isRef <;>
      · rw [notRead, kept_qualified_bare dependent (noQuals rfl)]
        simp [Ty.isFunc, Ty.kind]
  · have noFunc : (substitute t c).isFunc = false := by simpa using isFunc
    rw [qualify_bare bare shape.isReference noFunc some_]
    obtain aBare | ⟨q', t', rfl, some'⟩ := bare_or built'
    · have func : a.isFunc = false := by
        by_contra func
        rw [Bool.not_eq_false] at func
        have kind := of_decide_eq_true func
        have noRef : a.isReference = false := by simp [Ty.isReference, kind]
        rw [shape.isFunc, stripped_eq aBare noRef, func] at noFunc
        cases noFunc
      rw [qualified_not_spells aBare some_, kept_qualified_bare dependent (noQuals aBare), func, Bool.false_and]
    · unfold kept
      simp only [isDependent, dependent, Bool.not_true, Bool.false_eq_true, if_false, Ty.spells, Bool.and_eq_true]
      exact and_congr_right fun _ => spells

end forms

end Vcx.Template
