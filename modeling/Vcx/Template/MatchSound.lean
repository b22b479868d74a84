import Vcx.Template.Spells
import Vcx.Lib.Assoc

/-!
# A pattern that matches

Whatever is bound later, a pattern that has been matched with an argument gives that argument back
where it is faithful to it, and nowhere else.
-/

namespace Vcx.Template
set_option autoImplicit false
open Vcx.Lib

/-! ### Substitution, form by form -/

theorem substitute_idle {t : Ty} {c : Binding} (idle : c = [] ∨ isDependent t = false) : substitute t c = t := by
  unfold substitute
  rw [if_pos]
  obtain rfl | static := idle
  · rfl
  · simp [static]

theorem substitute_static {t : Ty} (c : Binding) (static : isDependent t = false) : substitute t c = t :=
  substitute_idle (.inr static)

theorem substitute_active {t : Ty} {c : Binding} (active : ¬ (c = [] ∨ isDependent t = false)) :
    (c.isEmpty || !isDependent t) = false := by
  cases c <;> simp_all

@[simp] theorem substitute_pointer (e : Ty) (c : Binding) : substitute (.pointer e) c = .pointer (substitute e c) := by
  by_cases idle : c = [] ∨ isDependent e = false
  · rw [substitute_idle (t := .pointer e) idle, substitute_idle idle]
  · rw [substitute, if_neg (by simpa [isDependent] using substitute_active idle)]

@[simp] theorem substitute_memberPointer (k e : Ty) (c : Binding) :
    substitute (.memberPointer k e) c = .memberPointer (substitute k c) (substitute e c) := by
  by_cases idle : c = [] ∨ isDependent (.memberPointer k e) = false
  · have parts : (c = [] ∨ isDependent k = false) ∧ (c = [] ∨ isDependent e = false) := by
      simp only [isDependent, Bool.or_eq_false_iff] at idle
      tauto
    rw [substitute_idle idle, substitute_idle parts.1, substitute_idle parts.2]
  · rw [substitute, if_neg (by simpa using substitute_active idle)]

theorem referenced {e : Ty} (built : (Ty.lvalueReference e).built = true) : e.isReference = false ∧ e.isVoid = false := by
  simp only [Ty.built, Bool.and_eq_true, Bool.not_eq_true'] at built
  exact built.1

theorem removeReference_eq {e : Ty} (noRef : e.isReference = false) : e.removeReference = e := by
  cases e <;> first | rfl | cases noRef

theorem addLValueReference_eq {e : Ty} (plain : e.isReference = false ∧ e.isVoid = false) : e.addLValueReference = .lvalueReference e := by
  rw [Ty.addLValueReference, if_neg (by simp [plain.2]), removeReference_eq plain.1]

theorem addRValueReference_eq {e : Ty} (plain : e.isReference = false ∧ e.isVoid = false) : e.addRValueReference = .rvalueReference e := by
  have noLvalue : e.kind ≠ .lvalueReference := by
    intro is
    simp [Ty.isReference, is] at plain
  rw [Ty.addRValueReference, if_neg (by simp [plain.2, noLvalue]), removeReference_eq plain.1]

theorem substitute_lvalueReference {e : Ty} (built : (Ty.lvalueReference e).built = true) (c : Binding) :
    substitute (.lvalueReference e) c = (substitute e c).addLValueReference := by
  by_cases idle : c = [] ∨ isDependent e = false
  · rw [substitute_idle (t := .lvalueReference e) idle, substitute_idle idle, addLValueReference_eq (referenced built)]
  · rw [substitute, if_neg (by simpa [isDependent] using substitute_active idle)]

theorem substitute_rvalueReference {e : Ty} (built : (Ty.rvalueReference e).built = true) (c : Binding) :
    substitute (.rvalueReference e) c = (substitute e c).addRValueReference := by
  by_cases idle : c = [] ∨ isDependent e = false
  · rw [substitute_idle (t := .rvalueReference e) idle, substitute_idle idle, addRValueReference_eq (referenced built)]
  · rw [substitute, if_neg (by simpa [isDependent] using substitute_active idle)]

theorem qualify_built {q : Qual} {t : Ty} (built : (Ty.qualified q t).built = true) : t.qualify q = .qualified q t := by
  simp only [Ty.built, Bool.and_eq_true, Bool.not_eq_true', decide_eq_true_eq] at built
  obtain ⟨⟨⟨⟨some_, noRef⟩, noFunc⟩, bare⟩, -⟩ := built
  unfold Ty.qualify
  rw [if_neg some_, if_neg (by simp [noRef, noFunc])]
  split
  · cases bare
  · rfl

theorem substitute_qualified {q : Qual} {t : Ty} (built : (Ty.qualified q t).built = true) (c : Binding) :
    substitute (.qualified q t) c = (substitute t c).qualify q := by
  by_cases idle : c = [] ∨ isDependent t = false
  · rw [substitute_idle (t := .qualified q t) idle, substitute_idle idle, qualify_built built]
  · rw [substitute, if_neg (by simpa [isDependent] using substitute_active idle)]

@[simp] theorem substitute_specialization (name : String) (as : List Arg) (of_ : TemplateHead) (c : Binding) :
    substitute (.specialization name as of_) c = .specialization name (substituteArgs as c) of_ := by
  have idleArgs : ∀ as : List Arg, c = [] ∨ anyDependentArg as = false → substituteArgs as c = as := by
    intro as idle
    induction as with
    | nil => rfl
    | cons a as ih =>
      cases a with
      | type t =>
        simp only [anyDependentArg, Bool.or_eq_false_iff] at idle
        rw [substituteArgs, substitute_idle (by tauto), ih (by tauto)]
      | value v t => rw [substituteArgs, ih idle]
  by_cases idle : c = [] ∨ anyDependentArg as = false
  · rw [substitute_idle (t := .specialization name as of_) idle, idleArgs as idle]
  · rw [substitute, if_neg (by simpa [isDependent] using substitute_active (t := .specialization name as of_) idle)]

theorem substitute_templateParam {p : TemplateParam} {c : Binding} {x : Ty} (bound : c.lookup p.name = some x)
    (noPack : ∀ es, x = .pack es → p.isPack = true) : substitute (.templateParam p) c = x := by
  have some_ : c ≠ [] := by
    rintro rfl
    cases bound
  rw [substitute, if_neg (by simp [isDependent, some_]), bound]
  cases x <;> simp_all

theorem substitute_array (e : Ty) (len : Int) (inc : Bool) (c : Binding) :
    substitute (.array e len inc "") c = .array (substitute e c) len inc "" := by
  by_cases idle : c = [] ∨ isDependent e = false
  · rw [substitute_idle (t := .array e len inc "") (by simpa [isDependent] using idle), substitute_idle idle]
  · rw [substitute, if_neg (by simpa [isDependent] using substitute_active idle)]
    rfl

theorem substitute_arrayBound {e type : Ty} {len v : Int} {inc : Bool} {dep : String} {c : Binding} (written : dep ≠ "")
    (bound : c.lookup dep = some (.valueBound type v)) : substitute (.array e len inc dep) c = .array (substitute e c) v false "" := by
  have some_ : c ≠ [] := by
    rintro rfl
    cases bound
  rw [substitute, if_neg (by simp [isDependent, some_, written])]
  simp [written, bound]

theorem substituteParams_append (ps qs : List Param) (c : Binding) :
    substituteParams (ps ++ qs) c = substituteParams ps c ++ substituteParams qs c := by
  induction ps with
  | nil => rfl
  | cons p ps ih =>
    cases p
    simp only [List.cons_append, substituteParams, ih, List.append_assoc]

theorem spellsParams_substituteParams_nil (ps os : List Param) : spellsParams (substituteParams ps []) os = spellsParams ps os := by
  induction ps generalizing os with
  | nil => rfl
  | cons p ps ih =>
    cases p
    cases os <;> simp [substituteParams, spellsParams, substitute_idle, ih]

/-- A function type that has been substituted is read part by part. -/
theorem spells_substitute_func {ret : Ty} {ps : List Param} {var : Bool} {q : Qual} {r : Types.RefQual} {n : Bool}
    (dependent : isDependent (.func ret ps var q r n) = true) (c : Binding) (o : Ty) :
    (substitute (.func ret ps var q r n) c).spells o = (Ty.func (substitute ret c) (substituteParams ps c) var q r n).spells o := by
  by_cases none : c = []
  · subst none
    rw [substitute_idle (.inl rfl), substitute_idle (.inl rfl)]
    unfold Ty.spells
    simp only [spellsParams_substituteParams_nil]
  · rw [substitute, if_neg (by simp [none, dependent])]

theorem equalParams_substituteParams_nil (ps os : List Param) : equalParams (substituteParams ps []) os = equalParams ps os := by
  induction ps generalizing os with
  | nil => rfl
  | cons p ps ih =>
    cases p
    cases os with
    | nil => simp [substituteParams, equalParams]
    | cons o os => cases o; simp [substituteParams, equalParams, substitute_idle, ih]

/-- And it is compared part by part. -/
theorem equal_substitute_func {ret : Ty} {ps : List Param} {var : Bool} {q : Qual} {r : Types.RefQual} {n : Bool}
    (dependent : isDependent (.func ret ps var q r n) = true) (c : Binding) (o : Ty) :
    (substitute (.func ret ps var q r n) c).equal o = (Ty.func (substitute ret c) (substituteParams ps c) var q r n).equal o := by
  by_cases none : c = []
  · subst none
    rw [substitute_idle (.inl rfl), substitute_idle (.inl rfl)]
    unfold Ty.equal
    simp only [equalParams_substituteParams_nil]
  · rw [substitute, if_neg (by simp [none, dependent])]

/-! ### Forms -/

/-- The kind of a type, a class being no other than a template-id. -/
def Ty.form (t : Ty) : TypeKind := if t.kind = .record then .other else t.kind

theorem form_of_kind {s t : Ty} (same : s.kind = t.kind) : s.form = t.form := by
  unfold Ty.form
  rw [same]

theorem form_eq_iff {t : Ty} {k : TypeKind} (noRecord : k ≠ .record) (noOther : k ≠ .other) : t.form = k ↔ t.kind = k := by
  unfold Ty.form
  split
  · rename_i is
    rw [is]
    exact ⟨fun same => absurd same.symm noOther, fun same => absurd same.symm noRecord⟩
  · rfl

theorem isReference_of_form {s t : Ty} (same : s.form = t.form) : s.isReference = t.isReference := by
  have lvalue : ∀ t : Ty, t.form = .lvalueReference ↔ t.kind = .lvalueReference := fun t => form_eq_iff (by decide) (by decide)
  have rvalue : ∀ t : Ty, t.form = .rvalueReference ↔ t.kind = .rvalueReference := fun t => form_eq_iff (by decide) (by decide)
  simp only [Ty.isReference, ← lvalue, ← rvalue, same]

theorem isVoid_of_form {s t : Ty} (same : s.form = t.form) : s.isVoid = t.isVoid := by
  have void : ∀ t : Ty, t.form = .basic .void ↔ t.kind = .basic .void := fun t => form_eq_iff (by decide) (by decide)
  simp only [Ty.isVoid, ← void, same]

theorem isFunc_of_form {s t : Ty} (same : s.form = t.form) : s.isFunc = t.isFunc := by
  have func : ∀ t : Ty, t.form = .func ↔ t.kind = .func := fun t => form_eq_iff (by decide) (by decide)
  simp only [Ty.isFunc, ← func, same]

theorem qualify_kind (t : Ty) (q : Qual) : (t.qualify q).kind = t.kind := by
  unfold Ty.qualify
  split
  · rfl
  split
  · rfl
  split <;> rfl

theorem unqualify_kind (t : Ty) : t.unqualify.kind = t.kind := by
  cases t <;> rfl

theorem kind_ne_pack {t : Ty} (built : t.built = true) : t.kind ≠ .pack := by
  induction t using Ty.kind.induct <;> simp_all [Ty.built, Ty.kind]

/-! ### Bindings -/

/-- What a parameter is bound to: a type, a pack of no packs, or a value of a type if the parameter is
a value. -/
def Bound (values : List String) (name : String) : Ty → Prop
  | .pack es => builtElems es = true
  | .valueBound t _ => t.built = true ∧ values.contains name = true
  | t => t.built = true

abbrev Bindable (values : List String) (b : Binding) : Prop := AllBound (Bound values) b

theorem bound_of_built {t : Ty} (values : List String) (name : String) (built : t.built = true) : Bound values name t := by
  cases t <;> first | exact built | cases built

theorem Bound.built {values : List String} {name : String} {x t : Ty} (bound : Bound values name x)
    (isType : values.contains name = false) (built : t.built = true) (equal : x.equal t = true) : x.built = true := by
  unfold Bound at bound
  split at bound
  · unfold Ty.equal at equal
    split at equal
    · cases built
    · cases equal
  · rw [isType] at bound
    cases bound.2
  · exact bound

section bindings
variable {values : List String} {b b' : Binding}

theorem bindType_bound {name : String} {t : Ty} (bound : bindType name t b = some b') (fits : Bound values name t)
    (all : Bindable values b) : Extends b b' ∧ Bindable values b' ∧ ∃ x, b'.lookup name = some x ∧ (x = t ∨ x.equal t = true) := by
  unfold bindType at bound
  split at bound
  · rename_i prev isPrev
    split at bound
    · rename_i equal
      cases bound
      exact ⟨.refl b, all, prev, isPrev, .inr equal⟩
    · cases bound
  · rename_i none
    cases bound
    exact ⟨.cons none t, all.cons fits, t, by simp, .inl rfl⟩

theorem bindValue_bound {name : String} {type : Ty} {val : Int} (bound : bindValue name type val b = some b')
    (built : type.built = true) (isValue : values.contains name = true) (all : Bindable values b) :
    Extends b b' ∧ Bindable values b' ∧ ∃ type', b'.lookup name = some (.valueBound type' val) := by
  unfold bindValue at bound
  split at bound
  · rename_i type' v isPrev
    split at bound
    · rename_i same
      cases bound
      exact ⟨.refl b, all, type', by rw [isPrev, same]⟩
    · cases bound
  · cases bound
  · rename_i none
    cases bound
    exact ⟨.cons none _, all.cons ⟨built, isValue⟩, type, by simp⟩

end bindings

/-! ### What a match leaves -/

/-- The match has bound what it needs: whatever else is bound, the pattern is equal to the argument
just where it is faithful to it. -/
structure Matched (values : List String) (p a : Ty) (b b' : Binding) : Prop where
  extends_ : Extends b b'
  bindable : Bindable values b'
  param : ∀ tp, p = .templateParam tp → ∀ c, Extends b' c → (substitute p c).built = true
  form : ∀ c, Extends b' c → (substitute p c).form = a.form
  equal : ∀ c, Extends b' c → ((substitute p c).equal a = true ↔ faithful p a = true)

theorem unqualify_cases {a t : Ty} (built : a.built = true) (is : a.unqualify = t) : a = t ∨ ∃ q, a = .qualified q t ∧ q ≠ 0 := by
  cases a with
  | qualified q t' =>
    simp only [Ty.built, Bool.and_eq_true, decide_eq_true_eq] at built
    exact .inr ⟨q, by rw [← is]; rfl, built.1.1.1.1⟩
  | _ => exact .inl is

theorem strict_qualified {q : Qual} (some_ : q ≠ 0) (t : Ty) : (Ty.qualified q t).strict = .qualified q t := if_neg some_

theorem form_of_unqualify {a t : Ty} (is : a.unqualify = t) : a.form = t.form := by
  rw [← is]
  exact form_of_kind (unqualify_kind a).symm

theorem quals_rest {q q' : Qual} (within : q' &&& q = q) : q' &&& ~~~q ||| q = q' := by
  apply BitVec.eq_of_getLsbD_eq
  intro i below
  have bit := congrArg (fun v => v.getLsbD i) within
  simp only [BitVec.getLsbD_and] at bit
  simp only [BitVec.getLsbD_or, BitVec.getLsbD_and, BitVec.getLsbD_not, below, decide_true, Bool.true_and]
  revert bit
  cases q'.getLsbD i <;> cases q.getLsbD i <;> simp

/-- A type with no qualifiers of its own and none that a parameter has. -/
def Ty.isBare : Ty → Bool
  | .qualified _ _ | .valueBound _ _ => false
  | _ => true

theorem bare_or {s : Ty} (built : s.built = true) : s.isBare = true ∨ ∃ q t, s = .qualified q t ∧ q ≠ 0 := by
  cases s with
  | qualified q t =>
    simp only [Ty.built, Bool.and_eq_true, decide_eq_true_eq] at built
    exact .inr ⟨q, t, rfl, built.1.1.1.1⟩
  | valueBound t v => cases built
  | _ => exact .inl rfl

theorem not_equal_qualified {s : Ty} (bare : s.isBare = true) {q : Qual} (some_ : q ≠ 0) (t : Ty) :
    s.equal (.qualified q t) = false := by
  cases s <;> first | exact absurd bare Bool.false_ne_true | simp [Ty.equal, strict_qualified some_, Ty.recordId]

theorem qualified_not_equal {t : Ty} (bare : t.isBare = true) {q : Qual} (some_ : q ≠ 0) (s : Ty) :
    (Ty.qualified q s).equal t = false := by
  unfold Ty.equal
  split
  · cases bare
  · rw [decide_eq_false some_, Bool.false_and]

theorem not_spells_qualified {s : Ty} (bare : s.isBare = true) {q : Qual} (some_ : q ≠ 0) (t : Ty) :
    s.spells (.qualified q t) = false := by
  cases s <;> first | exact absurd bare Bool.false_ne_true | simp [Ty.spells, Ty.equal, strict_qualified some_, Ty.recordId]

theorem qualified_not_spells {t : Ty} (bare : t.isBare = true) {q : Qual} (some_ : q ≠ 0) (s : Ty) :
    (Ty.qualified q s).spells t = false := by
  unfold Ty.spells
  split
  · cases bare
  · rw [decide_eq_false some_, Bool.false_and]

theorem qualify_bare {s : Ty} (bare : s.isBare = true) (noRef : s.isReference = false) (noFunc : s.isFunc = false) {q : Qual}
    (some_ : q ≠ 0) : s.qualify q = .qualified q s := by
  unfold Ty.qualify
  rw [if_neg some_, if_neg (by simp [noRef, noFunc])]
  cases s <;> first | exact absurd bare Bool.false_ne_true | rfl

/-- The forms that may be qualified give what is bare. -/
theorem substitute_bare {t : Ty} (built : t.built = true) (noParam : ∀ tp, t ≠ .templateParam tp) (noQuals : ∀ q t', t ≠ .qualified q t')
    (noRef : t.isReference = false) (c : Binding) : (substitute t c).isBare = true := by
  by_cases idle : c = [] ∨ isDependent t = false
  · rw [substitute_idle idle]
    cases t <;> first | rfl | cases built | exact absurd rfl (noQuals _ _)
  · unfold substitute
    rw [if_neg (by simpa using substitute_active idle)]
    cases t with
    | array e len inc dep =>
      dsimp only
      split <;> rfl
    | templateParam p => exact absurd rfl (noParam p)
    | qualified q t => exact absurd rfl (noQuals q t)
    | lvalueReference e => cases noRef
    | rvalueReference e => cases noRef
    | valueBound t v => cases built
    | transform op t => cases built
    | _ => rfl

section forms
variable {values : List String} {p a : Ty} {b b' : Binding}

theorem matched_static (static : isDependent p = false) (built : p.built = true) (equal : p.equal a = true) (all : Bindable values b) :
    Matched values p a b b := by
  refine ⟨.refl b, all, ?_, fun c _ => ?_, fun c _ => ?_⟩
  · rintro tp rfl
    cases static
  · rw [substitute_static c static]
    exact form_of_kind (kind_of_equal equal)
  · rw [substitute_static c static, equal]
    unfold faithful
    simp [static]

theorem matched_templateParam {tp : TemplateParam} (bound : bindType tp.name a b = some b') (isType : values.contains tp.name = false)
    (built : a.built = true) (all : Bindable values b) : Matched values (.templateParam tp) a b b' := by
  obtain ⟨grows, bindable, x, is, same⟩ := bindType_bound bound (bound_of_built values tp.name built) all
  have equal : x.equal a = true := by
    obtain rfl | equal := same
    · exact equal_self x built
    · exact equal
  have xBuilt : x.built = true := (bindable _ _ is).built isType built equal
  have whole : ∀ c, Extends b' c → substitute (.templateParam tp) c = x := by
    intro c more
    apply substitute_templateParam (more _ _ is)
    rintro es rfl
    cases xBuilt
  refine ⟨grows, bindable, fun _ _ c more => ?_, fun c more => ?_, fun c more => ?_⟩
  · rwa [whole c more]
  · rw [whole c more]
    exact form_of_kind (kind_of_equal equal)
  · rw [whole c more, equal]
    unfold faithful
    simp [isDependent]

theorem matched_pointer {e e' : Ty} (inner : Matched values e e' b b') (dependent : isDependent e = true) (built : a.built = true)
    (is : a.unqualify = .pointer e') : Matched values (.pointer e) a b b' := by
  refine ⟨inner.extends_, inner.bindable, (fun _ is => by cases is), fun c _ => ?_, fun c more => ?_⟩
  · rw [substitute_pointer, form_of_unqualify is]
    rfl
  · have equal := inner.equal c more
    rw [substitute_pointer]
    obtain rfl | ⟨q, rfl, some_⟩ := unqualify_cases built is
    · simpa [Ty.equal, Ty.strict, faithful, isDependent, dependent] using equal
    · simp [Ty.equal, strict_qualified some_, faithful, isDependent, dependent]

theorem matched_memberPointer {k k' e e' : Ty} {b₁ : Binding} (first : Matched values k k' b b₁) (second : Matched values e e' b₁ b')
    (dependent : isDependent (.memberPointer k e) = true) (built : a.built = true) (is : a.unqualify = .memberPointer k' e') :
    Matched values (.memberPointer k e) a b b' := by
  refine ⟨first.extends_.trans second.extends_, second.bindable, (fun _ is => by cases is), fun c _ => ?_, fun c more => ?_⟩
  · rw [substitute_memberPointer, form_of_unqualify is]
    rfl
  · have equal := first.equal c (second.extends_.trans more)
    have equal' := second.equal c more
    rw [substitute_memberPointer]
    obtain rfl | ⟨q, rfl, some_⟩ := unqualify_cases built is
    · simp only [Ty.equal, Ty.strict, Bool.and_eq_true, equal, equal', faithful, dependent, Bool.not_true, Bool.false_or]
    · simp [Ty.equal, strict_qualified some_, faithful, dependent]

theorem Matched.referenced {e e' : Ty} (inner : Matched values e e' b b') (built' : (Ty.lvalueReference e').built = true) {c : Binding}
    (more : Extends b' c) : (substitute e c).isReference = false ∧ (substitute e c).isVoid = false := by
  rw [isReference_of_form (inner.form c more), isVoid_of_form (inner.form c more)]
  exact Template.referenced built'

theorem matched_lvalueReference {e e' : Ty} (inner : Matched values e e' b b') (dependent : isDependent e = true)
    (built : (Ty.lvalueReference e).built = true) (built' : (Ty.lvalueReference e').built = true) :
    Matched values (.lvalueReference e) (.lvalueReference e') b b' := by
  have whole : ∀ c, Extends b' c → substitute (.lvalueReference e) c = .lvalueReference (substitute e c) := fun c more => by
    rw [substitute_lvalueReference built, addLValueReference_eq (inner.referenced built' more)]
  refine ⟨inner.extends_, inner.bindable, (fun _ is => by cases is), fun c more => ?_, fun c more => ?_⟩
  · rw [whole c more]
    rfl
  · rw [whole c more]
    simpa [Ty.equal, Ty.strict, faithful, isDependent, dependent] using inner.equal c more

theorem matched_rvalueReference {e e' : Ty} (inner : Matched values e e' b b') (dependent : isDependent e = true)
    (built : (Ty.rvalueReference e).built = true) (built' : (Ty.rvalueReference e').built = true) :
    Matched values (.rvalueReference e) (.rvalueReference e') b b' := by
  have whole : ∀ c, Extends b' c → substitute (.rvalueReference e) c = .rvalueReference (substitute e c) := fun c more => by
    rw [substitute_rvalueReference built, addRValueReference_eq (inner.referenced built' more)]
  refine ⟨inner.extends_, inner.bindable, (fun _ is => by cases is), fun c more => ?_, fun c more => ?_⟩
  · rw [whole c more]
    rfl
  · rw [whole c more]
    simpa [Ty.equal, Ty.strict, faithful, isDependent, dependent] using inner.equal c more

theorem matched_array {e e' : Ty} {len len' : Int} {inc inc' : Bool} {dep dep' : String} {b₁ : Binding}
    (length : matchLength len inc dep e' len' inc' dep' b = some b₁) (all : Bindable values b) (inner : Bindable values b₁ → Matched values e e' b₁ b')
    (dependent : isDependent (.array e len inc dep) = true) (isValue : dep ≠ "" → values.contains dep = true) (built : a.built = true)
    (is : a.unqualify = .array e' len' inc' dep') :
    Matched values (.array e len inc dep) a b b' := by
  have form : ∀ s len inc dep, (Ty.array s len inc dep).form = a.form := fun s len inc dep => (form_of_unqualify is).symm
  have built' : e'.built = true := by
    obtain rfl | ⟨q, rfl, -⟩ := unqualify_cases built is
    · exact built
    · simp only [Ty.built, Bool.and_eq_true] at built
      exact built.2
  unfold matchLength at length
  split at length
  · -- the bound is a parameter
    rename_i written
    split at length
    · cases length
    rename_i whole
    obtain ⟨noInc, rfl⟩ : inc' = false ∧ dep' = "" := by simpa using whole
    obtain ⟨grows, bindable, type, bound⟩ := bindValue_bound length built' (isValue written) all
    have inner := inner bindable
    have substituted : ∀ c, Extends b' c → substitute (.array e len inc dep) c = .array (substitute e c) len' false "" := fun c more =>
      substitute_arrayBound written (more _ _ (inner.extends_ _ _ bound))
    refine ⟨grows.trans inner.extends_, inner.bindable, (fun _ is => by cases is), fun c more => ?_, fun c more => ?_⟩
    · rw [substituted c more, form]
    · rw [substituted c more]
      obtain rfl | ⟨q, rfl, some_⟩ := unqualify_cases built is
      · simpa [Ty.equal, Ty.strict, faithful, dependent, written, noInc] using inner.equal c more
      · simp [Ty.equal, strict_qualified some_, faithful, dependent]
  · rename_i plain
    obtain rfl : dep = "" := by simpa using plain
    split at length
    · cases length
    rename_i same
    cases length
    have inner := inner all
    obtain ⟨rfl, long⟩ : inc' = inc ∧ (inc = true ∨ len' = len) := by
      simpa [Classical.or_iff_not_imp_left] using same
    refine ⟨inner.extends_, inner.bindable, (fun _ is => by cases is), fun c more => ?_, fun c more => ?_⟩
    · rw [substitute_array, form]
    · rw [substitute_array]
      obtain rfl | ⟨q, rfl, some_⟩ := unqualify_cases built is
      · have equal := inner.equal c more
        have long : inc' = true ∨ len = len' := long.imp_right Eq.symm
        by_cases written : dep' = ""
        · simp [Ty.equal, Ty.strict, faithful, dependent, equal, written, long]
        · simp [Ty.equal, Ty.strict, faithful, dependent, written, Ne.symm written]
      · simp [Ty.equal, strict_qualified some_, faithful, dependent]

/-- A qualified pattern: what the argument has besides is matched with what is under it. -/
theorem matched_qualified {q q' : Qual} {t t' : Ty}
    (inner : Matched values t (if q' &&& ~~~q ≠ 0 then t'.qualify (q' &&& ~~~q) else t') b b')
    (within : q' &&& q = q) (dependent : isDependent t = true) (built : (Ty.qualified q t).built = true)
    (built' : (Ty.qualified q' t').built = true) : Matched values (.qualified q t) (.qualified q' t') b b' := by
  have parts := built
  have parts' := built'
  simp only [Ty.built, Bool.and_eq_true, Bool.not_eq_true', decide_eq_true_eq] at parts parts'
  obtain ⟨⟨⟨⟨some_, noRef⟩, noFunc⟩, bare⟩, tBuilt⟩ := parts
  obtain ⟨⟨⟨⟨some', noRef'⟩, noFunc'⟩, bare'⟩, tBuilt'⟩ := parts'
  have noQuals : ∀ q₁ t₁, t ≠ .qualified q₁ t₁ := by
    rintro q₁ t₁ rfl
    cases bare
  have isBare' : t'.isBare = true := by
    obtain isBare | ⟨q₁, t₁, rfl, -⟩ := bare_or tBuilt'
    · exact isBare
    · cases bare'
  have kind : (if q' &&& ~~~q ≠ 0 then t'.qualify (q' &&& ~~~q) else t').kind = t'.kind := by
    split
    · exact qualify_kind _ _
    · rfl
  have form : ∀ c, Extends b' c → (substitute t c).form = t'.form := fun c more =>
    (inner.form c more).trans (form_of_kind kind)
  have plain : ∀ c, Extends b' c → (substitute t c).isReference = false ∧ (substitute t c).isFunc = false := fun c more =>
    ⟨(isReference_of_form (form c more)).trans noRef', (isFunc_of_form (form c more)).trans noFunc'⟩
  have faithful_eq : faithful (.qualified q t) (.qualified q' t') =
      faithful t (if q' &&& ~~~q ≠ 0 then t'.qualify (q' &&& ~~~q) else t') := by
    rw [faithful]
    simp [isDependent, dependent]
  refine ⟨inner.extends_, inner.bindable, (fun _ is => by cases is), fun c more => ?_, fun c more => ?_⟩
  · rw [substitute_qualified built]
    exact (form_of_kind (qualify_kind _ _)).trans (form c more)
  rw [substitute_qualified built, faithful_eq, ← inner.equal c more]
  obtain ⟨noRef₁, noFunc₁⟩ := plain c more
  by_cases isParam : ∃ tp, t = .templateParam tp
  · -- the parameter is bound to what is left, with the qualifiers that are left
    obtain ⟨tp, rfl⟩ := isParam
    have reads := (inner.equal c more).2 (by unfold faithful; simp)
    refine ⟨fun _ => reads, fun _ => ?_⟩
    obtain isBare | ⟨q₁, s₁, is, some₁⟩ := bare_or (inner.param tp rfl c more)
    · rw [qualify_bare isBare noRef₁ noFunc₁ some_]
      by_cases rest : q' &&& ~~~q = 0
      · have same := quals_rest within
        simp only [rest, ne_eq, not_true_eq_false, if_false] at reads
        simpa [rest, Ty.equal, reads] using same
      · rw [if_pos rest, qualify_bare isBare' noRef' noFunc' rest, not_equal_qualified isBare rest] at reads
        cases reads
    · rw [is] at reads noRef₁ noFunc₁ ⊢
      have qualified : (Ty.qualified q₁ s₁).qualify q = .qualified (q₁ ||| q) s₁ := by
        rw [Ty.qualify, if_neg some_, if_neg (by simp [noRef₁, noFunc₁])]
      rw [qualified]
      by_cases rest : q' &&& ~~~q = 0
      · simp only [rest, ne_eq, not_true_eq_false, if_false] at reads
        rw [qualified_not_equal isBare' some₁] at reads
        cases reads
      · rw [if_pos rest, qualify_bare isBare' noRef' noFunc' rest] at reads
        simp only [Ty.equal, Bool.and_eq_true, decide_eq_true_eq] at reads ⊢
        rw [reads.1]
        exact ⟨quals_rest within, reads.2⟩
  · have bare₁ : (substitute t c).isBare = true :=
      substitute_bare tBuilt (fun tp is => isParam ⟨tp, is⟩) noQuals noRef c
    rw [qualify_bare bare₁ noRef₁ noFunc₁ some_]
    by_cases rest : q' &&& ~~~q = 0
    · have same : q = q' := by
        have all := quals_rest within
        simpa [rest] using all
      simp [Ty.equal, same]
    · have ne : q ≠ q' := by
        rintro rfl
        simp at rest
      rw [if_pos rest, qualify_bare isBare' noRef' noFunc' rest, not_equal_qualified bare₁ rest]
      simp [Ty.equal, ne]

end forms

/-! ### Lists -/

/-- What an argument of the pattern is replaced by: what is equal to the argument just where the pattern
is faithful to it, or the argument's value. -/
def Replaced (c : Binding) : Arg → Arg → Prop
  | .type t, .type t' => (substitute t c).kind ≠ .pack ∧ t'.kind ≠ .pack ∧ ((substitute t c).equal t' = true ↔ faithful t t' = true)
  | .type t, .value v _ => ∃ type, substitute t c = .valueBound type v ∧ type.kind ≠ .pack
  | .value v _, .value v' _ => v = v'
  | .value _ _, .type _ => False

/-- The same for arguments, one by one. -/
structure MatchedArgs (values : List String) (ps as : List Arg) (b b' : Binding) : Prop where
  extends_ : Extends b b'
  bindable : Bindable values b'
  each : ∀ c, Extends b' c → List.Forall₂ (Replaced c) ps as

/-- The same for the parameters of a function: what follows them is compared on its own. -/
structure MatchedParams (values : List String) (ps as : List Param) (b b' : Binding) : Prop where
  extends_ : Extends b b'
  bindable : Bindable values b'
  equal : ∀ c, Extends b' c → ∀ rest more, equalParams (substituteParams ps c ++ rest) (as ++ more) = true ↔
    faithfulParams ps as = true ∧ equalParams rest more = true

section lists
variable {values : List String} {b b₁ b' : Binding}

theorem matchedArgs_nil (all : Bindable values b) : MatchedArgs values [] [] b b :=
  ⟨.refl b, all, fun _ _ => .nil⟩

theorem matchedParams_nil (all : Bindable values b) : MatchedParams values [] [] b b :=
  ⟨.refl b, all, fun c _ rest more => by simp [substituteParams, faithfulParams]⟩

theorem matchedArgs_type {t t' : Ty} {ps as : List Arg} (first : Matched values t t' b b₁) (built : t'.built = true)
    (others : MatchedArgs values ps as b₁ b') : MatchedArgs values (.type t :: ps) (.type t' :: as) b b' := by
  refine ⟨first.extends_.trans others.extends_, others.bindable, fun c more => .cons ?_ (others.each c more)⟩
  have more := others.extends_.trans more
  have noPack : (substitute t c).kind ≠ .pack := by
    intro is
    have form := first.form c more
    rw [(form_eq_iff (by decide) (by decide)).2 is] at form
    exact kind_ne_pack built ((form_eq_iff (by decide) (by decide)).1 form.symm)
  exact ⟨noPack, kind_ne_pack built, first.equal c more⟩

theorem matchedArgs_value {tp : TemplateParam} {v : Int} {type : Ty} {ps as : List Arg} (bound : bindValue tp.name type v b = some b₁)
    (isValue : values.contains tp.name = true) (built : type.built = true) (all : Bindable values b)
    (others : Bindable values b₁ → MatchedArgs values ps as b₁ b') :
    MatchedArgs values (.type (.templateParam tp) :: ps) (.value v type :: as) b b' := by
  obtain ⟨grows, bindable, type', is⟩ := bindValue_bound bound built isValue all
  have others := others bindable
  refine ⟨grows.trans others.extends_, others.bindable, fun c more => .cons ⟨type', ?_, ?_⟩ (others.each c more)⟩
  · apply substitute_templateParam (more _ _ (others.extends_ _ _ is))
    rintro es ⟨⟩
  · have held : type'.built = true ∧ values.contains tp.name = true := bindable _ _ is
    exact kind_ne_pack held.1

theorem matchedArgs_values {v : Int} {type type' : Ty} {ps as : List Arg} (others : MatchedArgs values ps as b b') :
    MatchedArgs values (.value v type :: ps) (.value v type' :: as) b b' :=
  ⟨others.extends_, others.bindable, fun c more => .cons rfl (others.each c more)⟩

theorem matchedParams_cons {name : String} {t : Ty} {hasDefault : Bool} {packOf : String} {p : Param} {ps as : List Param}
    (first : Matched values t p.type b b₁) (others : MatchedParams values ps as b₁ b') :
    MatchedParams values (.mk name t hasDefault false packOf :: ps) (p :: as) b b' := by
  refine ⟨first.extends_.trans others.extends_, others.bindable, fun c more rest tail => ?_⟩
  have equal := first.equal c (others.extends_.trans more)
  have equal' := others.equal c more rest tail
  obtain ⟨_, t', _, _, _⟩ := p
  rw [Param.type_mk] at equal
  simp [substituteParams, equalParams, equal, equal', faithfulParams, and_assoc]

end lists

/-! ### Arguments that have been replaced -/

theorem isPack_type {t : Ty} (noPack : t.kind ≠ .pack) : (Arg.type t).isPack = false := by
  cases t <;> first | rfl | exact absurd rfl noPack

theorem not_equal_of_isPack {t : Ty} (noPack : t.kind ≠ .pack) {o : Arg} (isPack : o.isPack = true) : (Arg.type t).equal o = false := by
  unfold Arg.isPack at isPack
  split at isPack
  · rename_i es
    rw [Arg.equal, Bool.eq_false_iff]
    exact fun equal => noPack (kind_of_equal equal)
  · cases isPack

theorem flattenPacks_cons {o : Arg} (noPack : o.isPack = false) (os : List Arg) : flattenPacks (o :: os) = o :: flattenPacks os := by
  rw [flattenPacks]
  rintro es rfl
  cases noPack

section replaced
variable {c : Binding} {p o : Arg}

/-- What a single argument is replaced by. -/
def substituteArg (c : Binding) : Arg → Arg
  | .type t => .type (substitute t c)
  | .value v type => .value v type

theorem substituteArgs_cons (p : Arg) (ps : List Arg) (c : Binding) :
    substituteArgs (p :: ps) c = substituteArg c p :: substituteArgs ps c := by
  cases p <;> rfl

theorem Replaced.isPack (replaced : Replaced c p o) : (substituteArg c p).isPack = false ∧ o.isPack = false := by
  cases p with
  | value v type =>
    cases o with
    | value v' type' => exact ⟨rfl, rfl⟩
    | type t => cases replaced
  | type t =>
    cases o with
    | value v' type' =>
      obtain ⟨type, is, -⟩ := replaced
      exact ⟨by rw [substituteArg, is]; rfl, rfl⟩
    | type t' => exact ⟨isPack_type replaced.1, isPack_type replaced.2.1⟩

/-- It is not equal to a pack. -/
theorem Replaced.not_equal (replaced : Replaced c p o) {o' : Arg} (isPack : o'.isPack = true) : (substituteArg c p).equal o' = false := by
  cases p with
  | value v type =>
    unfold Arg.isPack at isPack
    split at isPack
    · rfl
    · cases isPack
  | type t =>
    apply not_equal_of_isPack _ isPack
    cases o with
    | value v' type' =>
      obtain ⟨type, is, noPack⟩ := replaced
      rw [is]
      exact noPack
    | type t' => exact replaced.1

theorem Replaced.givesBack (replaced : Replaced c p o) : (substituteArg c p).givesBack o = true ↔ p.faithful o = true := by
  cases p with
  | value v type =>
    cases o with
    | value v' type' =>
      have same : v = v' := replaced
      simp [substituteArg, Arg.givesBack, Arg.equal, Arg.faithful, same]
    | type t => cases replaced
  | type t =>
    cases o with
    | value v' type' =>
      obtain ⟨type, is, -⟩ := replaced
      simp [substituteArg, is, Arg.givesBack, Arg.faithful]
    | type t' =>
      have same : (substituteArg c (.type t)).givesBack (.type t') = (substitute t c).equal t' := by
        rw [substituteArg]
        cases substitute t c <;> rfl
      rw [same, Arg.faithful]
      exact replaced.2.2

theorem Replaced.spelled (replaced : Replaced c p o) : (substituteArg c p).equal o = true ↔ p.spelled o = true := by
  cases p with
  | value v type =>
    cases o with
    | value v' type' => simp [substituteArg, Arg.equal, Arg.spelled]
    | type t => cases replaced
  | type t =>
    cases o with
    | value v' type' => simp [substituteArg, Arg.equal, Arg.spelled]
    | type t' =>
      rw [substituteArg, Arg.equal, Arg.spelled, isPack_type replaced.2.1]
      exact replaced.2.2

theorem givesBackArgs_replaced {ps os : List Arg} (each : List.Forall₂ (Replaced c) ps os) (rest more : List Arg) :
    givesBackArgs (substituteArgs ps c ++ rest) (os ++ more) = true ↔ faithfulArgs ps os = true ∧ givesBackArgs rest more = true := by
  induction each with
  | nil => simp [substituteArgs, faithfulArgs]
  | cons first _ ih =>
    rw [substituteArgs_cons, List.cons_append, List.cons_append, givesBackArgs, faithfulArgs, Bool.and_eq_true, Bool.and_eq_true, ih,
      first.givesBack, and_assoc]

theorem flattenPacks_replaced {ps os : List Arg} (each : List.Forall₂ (Replaced c) ps os) (rest : List Arg) :
    flattenPacks (substituteArgs ps c ++ rest) = substituteArgs ps c ++ flattenPacks rest := by
  induction each with
  | nil => rfl
  | cons first _ ih => rw [substituteArgs_cons, List.cons_append, flattenPacks_cons first.isPack.1, ih, List.cons_append]

/-- The first of the arguments of a template-id, when it is no pack that is the last: it stands against the
first of those that are not spread yet. -/
theorem spelledArgs_cons {ps os : List Arg} {qs : List Arg} (first : Replaced c p o) (single : (qs.isEmpty && isPackParam p) = false)
    (others : ∀ as, flattenPacks as = os → (equalArgs ps as = true ↔ spelledArgs qs as = true)) {as : List Arg}
    (flat : flattenPacks as = o :: os) :
    equalArgs (substituteArg c p :: ps) as = true ↔ spelledArgs (p :: qs) as = true := by
  cases as with
  | nil => cases flat
  | cons o' as =>
    rw [equalArgs, spelledArgs, single, if_neg Bool.false_ne_true, Bool.and_eq_true, Bool.and_eq_true]
    by_cases isPack : o'.isPack = true
    · have noSpelled : p.spelled o' = false := by
        unfold Arg.isPack at isPack
        split at isPack
        · cases p <;> rfl
        · cases isPack
      rw [first.not_equal isPack, noSpelled]
      simp
    · rw [flattenPacks_cons (by simpa using isPack)] at flat
      obtain ⟨rfl, rfl⟩ := List.cons.inj flat
      rw [first.spelled, others as rfl]

theorem equalArgs_replaced {ps os : List Arg} (each : List.Forall₂ (Replaced c) ps os) (noPack : lastIsPack ps = false) {as : List Arg}
    (flat : flattenPacks as = os) : equalArgs (substituteArgs ps c) as = true ↔ spelledArgs ps as = true := by
  induction each generalizing as with
  | nil => cases as <;> simp [substituteArgs, equalArgs, spelledArgs]
  | @cons p o ps os first each ih =>
    rw [substituteArgs_cons]
    cases ps with
    | nil => exact spelledArgs_cons first (by simpa [lastIsPack] using noPack) (fun as flat => ih rfl flat) flat
    | cons p' ps =>
      exact spelledArgs_cons first rfl (fun as flat => ih (by simpa [lastIsPack] using noPack) flat) flat

theorem equalArgs_packed {ps os es more : List Arg} {tp : TemplateParam} (isPack : tp.isPack = true)
    (each : List.Forall₂ (Replaced c) ps os) (equal : equalArgs es more = true) {as : List Arg} (flat : flattenPacks as = os ++ more) :
    equalArgs (substituteArgs ps c ++ [.type (.pack es)]) as = true ↔ spelledArgs (ps ++ [.type (.templateParam tp)]) as = true := by
  induction each generalizing as with
  | nil =>
    rw [substituteArgs, List.nil_append, List.nil_append]
    cases as with
    | nil => simp [equalArgs, spelledArgs]
    | cons o as =>
      rw [equalArgs, spelledArgs, show ([].isEmpty && isPackParam (.type (.templateParam tp))) = true from isPack, if_pos rfl]
      cases as with
      | cons _ _ => simp [equalArgs, spelledArgs]
      | nil =>
        by_cases pack : o.isPack = true
        · unfold Arg.isPack at pack
          split at pack
          · rename_i es'
            rw [flattenPacks_pack, flattenPacks, List.append_nil, List.nil_append] at flat
            subst flat
            simp [Arg.equal, Ty.equal, equal, equalArgs, Arg.isPack, spelledArgs]
          · cases pack
        · have no : (Arg.type (.pack es)).equal o = false := by
            cases o with
            | value v t => rfl
            | type t => cases t <;> first | rfl | exact absurd rfl pack
          simp [no, pack]
  | @cons p o ps os first each ih =>
    rw [substituteArgs_cons]
    exact spelledArgs_cons first (by simp) (fun as flat => ih flat) flat

end replaced

/-! ### Packs -/

/-- The elements of what is flattened are no packs. -/
theorem builtElems_append (es as : List Arg) : builtElems (es ++ as) = (builtElems es && builtElems as) := by
  induction es with
  | nil => rfl
  | cons e es ih => cases e <;> simp [builtElems, ih, Bool.and_assoc]

theorem builtElems_flattenPacks {as : List Arg} (built : builtArgs as = true) : builtElems (flattenPacks as) = true := by
  induction as with
  | nil => rfl
  | cons a as ih =>
    cases a with
    | type t =>
      obtain ⟨⟨es, rfl, elems⟩ | whole, rest⟩ := builtArgs_cons built
      · rw [flattenPacks_pack, builtElems_append, elems, ih rest]
        rfl
      · rw [flattenPacks_type (not_pack_of_built whole), builtElems, whole, ih rest]
        rfl
    | value v t =>
      simp only [builtArgs, Bool.and_eq_true] at built
      rw [flattenPacks_value, builtElems, built.1, ih built.2]
      rfl

theorem builtElems_take_drop {as : List Arg} (built : builtElems as = true) (n : Nat) :
    builtElems (as.take n) = true ∧ builtElems (as.drop n) = true := by
  rw [← Bool.and_eq_true, ← builtElems_append, List.take_append_drop]
  exact built

section packs
variable {values : List String} {b b₁ b' : Binding}

theorem bindRest_bound {name : String} {n : Nat} {args : List Arg} (bound : bindRest name n args b = some b')
    (built : builtElems (args.drop n) = true) (all : Bindable values b) :
    Extends b b' ∧ Bindable values b' ∧ ∃ es, b'.lookup name = some (.pack es) ∧ builtElems es = true ∧
      equalArgs es (args.drop n) = true := by
  obtain ⟨grows, bindable, x, is, same⟩ := bindType_bound bound built all
  refine ⟨grows, bindable, ?_⟩
  obtain rfl | equal := same
  · exact ⟨_, is, built, equalElems_self _ built⟩
  · have fits := bindable _ _ is
    unfold Bound at fits
    split at fits
    · rename_i es
      exact ⟨es, is, fits, equal⟩
    · rename_i t v
      have no : t.equal (.pack (args.drop n)) = true := equal
      rw [not_equal_pack fits.1] at no
      cases no
    · rw [not_equal_pack fits] at equal
      cases equal

theorem spellsArgs_packed {es os : List Arg} (built : builtElems es = true) (equal : equalArgs es os = true) :
    spellsArgs [.type (.pack es)] os = true := by
  have same := equalArgs_length equal
  rw [spellsArgs_pack, ← same, List.take_length, List.drop_length, spellsElems_of_equal es built equal]
  rfl

/-- An element of a pack replaces the pack alone. -/
theorem substitute_packElem {tp : TemplateParam} (isPack : tp.isPack = true) {s : Ty} (built : s.built = true) :
    substitute (.templateParam tp) [(packParamName (.templateParam tp), s)] = s := by
  apply substitute_templateParam (by simp [packParamName, isPack])
  rintro es rfl
  cases built

theorem spellsParams_expanded {tp : TemplateParam} (isPack : tp.isPack = true) (name : String) :
    ∀ {es : List Arg} {os : List Param}, builtElems es = true → equalArgs es (os.map fun p => .type p.type) = true →
      spellsParams (es.map (expanded name (.templateParam tp) fun s =>
        substitute (.templateParam tp) [(packParamName (.templateParam tp), s)])) os = true
  | [], [], _, _ => rfl
  | .value _ _ :: es, p :: os, _, equal => by
    cases equal
  | .type s :: es, p :: os, built, equal => by
    simp only [builtElems, Bool.and_eq_true] at built
    simp only [List.map_cons, equalArgs, Arg.equal, Bool.and_eq_true] at equal
    rw [List.map_cons, expanded, spellsParams, Bool.and_eq_true, substitute_packElem isPack built.1]
    exact ⟨spells_of_equal s built.1 equal.1, spellsParams_expanded isPack name built.2 equal.2⟩

theorem equalParams_expanded {tp : TemplateParam} (isPack : tp.isPack = true) (name : String) :
    ∀ {es : List Arg} {os : List Param}, builtElems es = true → equalArgs es (os.map fun p => .type p.type) = true →
      equalParams (es.map (expanded name (.templateParam tp) fun s =>
        substitute (.templateParam tp) [(packParamName (.templateParam tp), s)])) os = true
  | [], [], _, _ => rfl
  | .value _ _ :: es, p :: os, _, equal => by
    cases equal
  | .type s :: es, .mk _ t _ _ _ :: os, built, equal => by
    simp only [builtElems, Bool.and_eq_true] at built
    simp only [List.map_cons, equalArgs, Arg.equal, Param.type_mk, Bool.and_eq_true] at equal
    rw [List.map_cons, expanded, equalParams, Bool.and_eq_true, substitute_packElem isPack built.1]
    exact ⟨equal.1, equalParams_expanded isPack name built.2 equal.2⟩

theorem faithfulArgs_last {p : Arg} (isPack : isPackParam p = true) : ∀ (ps as : List Arg),
    faithfulArgs (ps ++ [p]) as = faithfulArgs ps (as.take ps.length)
  | [], [] => rfl
  | [], a :: as => by
    unfold isPackParam at isPack
    split at isPack
    · cases a <;> simp [faithfulArgs, Arg.faithful, faithful]
    · cases isPack
  | p' :: ps, [] => by simp [faithfulArgs]
  | p' :: ps, a :: as => by simp [faithfulArgs, faithfulArgs_last isPack ps as]

theorem faithfulParams_last (tp : TemplateParam) (name : String) (hasDefault pack : Bool) (packOf : String) : ∀ (ps as : List Param),
    faithfulParams (ps ++ [.mk name (.templateParam tp) hasDefault pack packOf]) as = faithfulParams ps (as.take ps.length)
  | [], [] => rfl
  | [], a :: as => by simp [faithfulParams, faithful]
  | .mk _ _ _ _ _ :: ps, [] => by simp [faithfulParams]
  | .mk _ _ _ _ _ :: ps, a :: as => by simp [faithfulParams, faithfulParams_last tp name hasDefault pack packOf ps as]

theorem substituteArgs_append (ps qs : List Arg) (c : Binding) :
    substituteArgs (ps ++ qs) c = substituteArgs ps c ++ substituteArgs qs c := by
  induction ps with
  | nil => rfl
  | cons p ps ih => cases p <;> simp [substituteArgs, ih]

/-- The parameters of a function, the last of them a pack. -/
theorem matchedParams_packed {tp : TemplateParam} (isPack : tp.isPack = true) {name packOf : String} {hasDefault : Bool}
    {ps os : List Param} (others : MatchedParams values ps (os.take ps.length) b b₁)
    (bound : bindRest tp.name ps.length (os.map fun p => .type p.type) b₁ = some b') (built : builtParams os = true) :
    Extends b₁ b' ∧ Bindable values b' ∧ ∀ c, Extends b' c →
      (equalParams (substituteParams (ps ++ [.mk name (.templateParam tp) hasDefault true packOf]) c) os = true ↔
        faithfulParams (ps ++ [.mk name (.templateParam tp) hasDefault true packOf]) os = true) := by
  have elems : ∀ os : List Param, builtParams os = true → builtElems (os.map fun p => .type p.type) = true := by
    intro os built
    induction os with
    | nil => rfl
    | cons o os ih =>
      obtain ⟨_, t, _, _, _⟩ := o
      simp only [builtParams, Bool.and_eq_true] at built
      simp [builtElems, built.1, ih built.2]
  obtain ⟨grows, bindable, es, is, esBuilt, same⟩ := bindRest_bound bound (builtElems_take_drop (elems os built) _).2 others.bindable
  refine ⟨grows, bindable, fun c more => ?_⟩
  rw [← List.map_drop] at same
  have whole : substituteParams [.mk name (.templateParam tp) hasDefault true packOf] c =
      es.map (expanded name (.templateParam tp) fun s => substitute (.templateParam tp) [(packParamName (.templateParam tp), s)]) := by
    have found : c.lookup (packParamName (.templateParam tp)) = some (.pack es) := by
      simpa [packParamName, isPack] using more _ _ is
    simp only [substituteParams, if_true, found, List.append_nil]
  have equal := others.equal c (grows.trans more) (substituteParams [.mk name (.templateParam tp) hasDefault true packOf] c)
    (os.drop ps.length)
  rw [List.take_append_drop] at equal
  rw [substituteParams_append, equal, whole, equalParams_expanded isPack name esBuilt same, faithfulParams_last]
  simp

end packs

end Vcx.Template
