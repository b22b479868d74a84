import Vcx.Template.Faithful

/-!
# Equal types and what is read

Equal types are of one kind, a type is equal to itself, and equal types are read as the same type.
-/

namespace Vcx.Template
set_option autoImplicit false

/-! ### Equal types -/

theorem strict_kind (t : Ty) : t.strict.kind = t.kind := by
  unfold Ty.strict
  split
  · split <;> rfl
  · rfl

theorem kind_of_recordId {t : Ty} {r : Nat} (is : t.recordId = some r) : t.kind = .record := by
  unfold Ty.recordId at is
  split at is
  · rfl
  · rfl
  · cases is

theorem kind_of_equal : ∀ {s o : Ty}, s.equal o = true → s.kind = o.kind
  | .qualified q t, o, equal => by
    unfold Ty.equal at equal
    split at equal
    · rename_i q' t'
      simp only [Bool.and_eq_true] at equal
      have inner : t.kind = t'.kind := kind_of_equal equal.2
      exact inner
    · simp only [Bool.and_eq_true] at equal
      have inner : t.kind = o.kind := kind_of_equal equal.2
      exact inner
  | .valueBound t v, o, equal => kind_of_equal (s := t) equal
  | .record r p, o, equal | .specialized r _ _ _ p, o, equal => by
    have is : o.strict.recordId = some r := by simpa [Ty.equal] using equal
    rw [← strict_kind o, kind_of_recordId is]
    rfl
  | .basic k, o, equal => by
    unfold Ty.equal at equal
    rw [← strict_kind o]
    split at equal
    · rename_i is
      simp only [decide_eq_true_eq] at equal
      rw [is, equal]
    · cases equal
  | .pointer e, o, equal | .blockPointer e, o, equal | .lvalueReference e, o, equal | .rvalueReference e, o, equal
  | .memberPointer _ e, o, equal | .array e _ _ _, o, equal | .func e _ _ _ _ _, o, equal | .enum i _, o, equal | .interface i, o, equal
  | .templateParam p, o, equal | .specialization _ _ _, o, equal | .dependent _, o, equal => by
    unfold Ty.equal at equal
    rw [← strict_kind o]
    split at equal
    · rename_i is
      rw [is]
      rfl
    · cases equal
  | .templateRef _ _ _, o, equal | .pack _, o, equal | .transform _ _, o, equal => by
    unfold Ty.equal at equal
    split at equal
    · rfl
    · cases equal

theorem builtArgs_cons {t : Ty} {as : List Arg} (built : builtArgs (.type t :: as) = true) :
    ((∃ es, t = .pack es ∧ builtElems es = true) ∨ t.built = true) ∧ builtArgs as = true := by
  cases t <;> simp_all [builtArgs]

mutual

theorem equal_self : ∀ (t : Ty), t.built = true → t.equal t = true
  | .qualified q t, built => by
    simp only [Ty.built, Bool.and_eq_true] at built
    simp [Ty.equal, equal_self t built.2]
  | .record r p, _ | .basic _, _ | .enum _ _, _ | .interface _, _ | .templateParam _, _ | .dependent _, _ | .templateRef _ _ _, _
  | .specialized r _ _ _ p, _ => by simp [Ty.equal, Ty.strict, Ty.recordId]
  | .pointer e, built | .blockPointer e, built | .array e _ _ _, built => by
    simp only [Ty.built] at built
    simp [Ty.equal, Ty.strict, equal_self e built]
  | .lvalueReference e, built | .rvalueReference e, built => by
    simp only [Ty.built, Bool.and_eq_true] at built
    simp [Ty.equal, Ty.strict, equal_self e built.2]
  | .memberPointer c e, built => by
    simp only [Ty.built, Bool.and_eq_true] at built
    simp [Ty.equal, Ty.strict, equal_self c built.1, equal_self e built.2]
  | .func ret ps _ _ _ _, built => by
    simp only [Ty.built, Bool.and_eq_true] at built
    simp [Ty.equal, Ty.strict, equal_self ret built.1, equalParams_self ps built.2]
  | .specialization _ as _, built => by
    simp only [Ty.built] at built
    simp [Ty.equal, Ty.strict, equalArgs_self as built]
termination_by t => sizeOf t
decreasing_by all_goals simp_wf <;> omega

theorem equalArgs_self : ∀ (as : List Arg), builtArgs as = true → equalArgs as as = true
  | [], _ => rfl
  | .type t :: as, built => by
    obtain ⟨⟨es, rfl, elems⟩ | whole, rest⟩ := builtArgs_cons built
    · simp [equalArgs, Arg.equal, Ty.equal, equalElems_self es elems, equalArgs_self as rest]
    · simp [equalArgs, Arg.equal, equal_self t whole, equalArgs_self as rest]
  | .value v _ :: as, built => by
    simp only [builtArgs, Bool.and_eq_true] at built
    simp [equalArgs, Arg.equal, equalArgs_self as built.2]
termination_by as => sizeOf as
decreasing_by all_goals subst_vars; simp_wf <;> omega

theorem equalElems_self : ∀ (as : List Arg), builtElems as = true → equalArgs as as = true
  | [], _ => rfl
  | .type t :: as, built => by
    simp only [builtElems, Bool.and_eq_true] at built
    simp [equalArgs, Arg.equal, equal_self t built.1, equalElems_self as built.2]
  | .value v _ :: as, built => by
    simp only [builtElems, Bool.and_eq_true] at built
    simp [equalArgs, Arg.equal, equalElems_self as built.2]
termination_by as => sizeOf as
decreasing_by all_goals simp_wf <;> omega

theorem equalParams_self : ∀ (ps : List Param), builtParams ps = true → equalParams ps ps = true
  | [], _ => rfl
  | .mk _ t _ _ _ :: ps, built => by
    simp only [builtParams, Bool.and_eq_true] at built
    simp [equalParams, equal_self t built.1, equalParams_self ps built.2]
termination_by ps => sizeOf ps
decreasing_by all_goals simp_wf <;> omega

end

theorem equalArgs_length : ∀ {as os : List Arg}, equalArgs as os = true → os.length = as.length
  | [], [], _ => rfl
  | a :: as, o :: os, equal => by
    simp only [equalArgs, Bool.and_eq_true] at equal
    simp [equalArgs_length equal.2]

theorem not_equal_pack {t : Ty} (built : t.built = true) (es : List Arg) : t.equal (.pack es) = false := by
  cases t <;> simp_all [Ty.built, Ty.equal, Ty.strict, Ty.recordId]

theorem flattenPacks_type {t : Ty} (noPack : ∀ es, t ≠ .pack es) (as : List Arg) :
    flattenPacks (.type t :: as) = .type t :: flattenPacks as := by
  cases t <;> simp_all [flattenPacks]

@[simp] theorem flattenPacks_pack (es as : List Arg) : flattenPacks (.type (.pack es) :: as) = es ++ flattenPacks as := rfl

@[simp] theorem flattenPacks_value (v : Int) (t : Ty) (as : List Arg) :
    flattenPacks (.value v t :: as) = .value v t :: flattenPacks as := rfl

theorem spellsArgs_pack (es as os : List Arg) :
    spellsArgs (.type (.pack es) :: as) os = (spellsElems es (os.take es.length) && spellsArgs as (os.drop es.length)) := rfl

/-- An argument that is no pack stands for one. -/
theorem spellsArgs_type {t : Ty} (noPack : ∀ es, t ≠ .pack es) (as : List Arg) (o : Arg) (os : List Arg) :
    spellsArgs (.type t :: as) (o :: os) = ((Arg.type t).spells o && spellsArgs as os) := by
  cases t <;> first | rfl | exact absurd rfl (noPack _)

@[simp] theorem spellsArgs_value (v : Int) (t : Ty) (as : List Arg) (o : Arg) (os : List Arg) :
    spellsArgs (.value v t :: as) (o :: os) = ((Arg.value v t).spells o && spellsArgs as os) := rfl

@[simp] theorem Arg.spells_type (t t' : Ty) : (Arg.type t).spells (.type t') = t.spells t' := by
  cases t <;> rfl

@[simp] theorem Arg.spells_value (v v' : Int) (t t' : Ty) : (Arg.value v t).spells (.value v' t') = decide (v = v') := rfl

theorem not_pack_of_built {t : Ty} (built : t.built = true) (es : List Arg) : t ≠ .pack es := by
  rintro rfl
  cases built

mutual

theorem spells_of_equal : ∀ (s : Ty) {o : Ty}, s.built = true → s.equal o = true → s.spells o = true
  | .qualified q t, o, built, equal => by
    simp only [Ty.built, Bool.and_eq_true] at built
    unfold Ty.equal at equal
    unfold Ty.spells
    cases o <;>
    · simp only [Bool.and_eq_true] at equal ⊢
      exact ⟨equal.1, spells_of_equal t built.2 equal.2⟩
  | .pointer e, o, built, equal | .blockPointer e, o, built, equal => by
    simp only [Ty.built] at built
    unfold Ty.equal at equal
    unfold Ty.spells
    generalize o.strict = o at equal ⊢
    cases o <;> first | exact spells_of_equal e built equal | exact absurd equal Bool.false_ne_true
  | .array e _ _ _, o, built, equal => by
    simp only [Ty.built] at built
    unfold Ty.equal at equal
    unfold Ty.spells
    generalize o.strict = o at equal ⊢
    cases o with
    | array e' _ _ _ =>
      simp only [Bool.and_eq_true] at equal ⊢
      exact ⟨⟨⟨spells_of_equal e built equal.1.1.1, equal.1.1.2⟩, equal.1.2⟩, equal.2⟩
    | _ => exact absurd equal Bool.false_ne_true
  | .lvalueReference e, o, built, equal | .rvalueReference e, o, built, equal => by
    simp only [Ty.built, Bool.and_eq_true] at built
    unfold Ty.equal at equal
    unfold Ty.spells
    generalize o.strict = o at equal ⊢
    cases o <;> first | exact spells_of_equal e built.2 equal | exact absurd equal Bool.false_ne_true
  | .memberPointer c e, o, built, equal => by
    simp only [Ty.built, Bool.and_eq_true] at built
    unfold Ty.equal at equal
    unfold Ty.spells
    generalize o.strict = o at equal ⊢
    cases o with
    | memberPointer c' e' =>
      simp only [Bool.and_eq_true] at equal ⊢
      exact ⟨spells_of_equal c built.1 equal.1, spells_of_equal e built.2 equal.2⟩
    | _ => exact absurd equal Bool.false_ne_true
  | .func ret ps _ _ _ _, o, built, equal => by
    simp only [Ty.built, Bool.and_eq_true] at built
    unfold Ty.equal at equal
    unfold Ty.spells
    generalize o.strict = o at equal ⊢
    cases o with
    | func ret' ps' _ _ _ _ =>
      simp only [Bool.and_eq_true] at equal ⊢
      exact ⟨⟨equal.1.1, spells_of_equal ret built.1 equal.1.2⟩, spellsParams_of_equal ps built.2 equal.2⟩
    | _ => exact absurd equal Bool.false_ne_true
  | .specialization _ as _, o, built, equal => by
    simp only [Ty.built] at built
    unfold Ty.equal at equal
    unfold Ty.spells
    generalize o.strict = o at equal ⊢
    cases o with
    | specialization n' as' of' =>
      simp only [Bool.and_eq_true] at equal ⊢
      exact ⟨equal.1, spellsArgs_of_equal as built equal.2⟩
    | _ => exact absurd equal Bool.false_ne_true
  | .basic _, o, _, equal | .record _ _, o, _, equal | .specialized _ _ _ _ _, o, _, equal | .enum _ _, o, _, equal
  | .interface _, o, _, equal | .templateParam _, o, _, equal | .dependent _, o, _, equal | .templateRef _ _ _, o, _, equal => equal
termination_by s => sizeOf s
decreasing_by all_goals simp_wf <;> omega

theorem spellsArgs_of_equal : ∀ (as : List Arg) {os : List Arg}, builtArgs as = true → equalArgs as os = true →
    spellsArgs as (flattenPacks os) = true
  | [], [], _, _ => rfl
  | .type t :: as, .type t' :: os, built, equal => by
    simp only [equalArgs, Arg.equal, Bool.and_eq_true] at equal
    obtain ⟨⟨es, rfl, elems⟩ | whole, rest⟩ := builtArgs_cons built
    · obtain ⟨first, equal⟩ := equal
      unfold Ty.equal at first
      split at first
      · rename_i es'
        have same : es'.length = es.length := equalArgs_length first
        rw [flattenPacks_pack, spellsArgs_pack, List.take_left' same, List.drop_left' same, Bool.and_eq_true]
        exact ⟨spellsElems_of_equal es elems first, spellsArgs_of_equal as rest equal⟩
      · cases first
    · have noPack : ∀ es, t' ≠ .pack es := by
        rintro es rfl
        rw [not_equal_pack whole] at equal
        cases equal.1
      rw [flattenPacks_type noPack, spellsArgs_type (not_pack_of_built whole), Arg.spells_type, Bool.and_eq_true]
      exact ⟨spells_of_equal t whole equal.1, spellsArgs_of_equal as rest equal.2⟩
  | .value v t :: as, .value v' t' :: os, built, equal => by
    simp only [builtArgs, Bool.and_eq_true] at built
    simp only [equalArgs, Arg.equal, Bool.and_eq_true] at equal
    rw [flattenPacks_value, spellsArgs_value, Arg.spells_value, Bool.and_eq_true]
    exact ⟨equal.1, spellsArgs_of_equal as built.2 equal.2⟩
termination_by as => sizeOf as
decreasing_by all_goals subst_vars; simp_wf <;> omega

theorem spellsElems_of_equal : ∀ (as : List Arg) {os : List Arg}, builtElems as = true → equalArgs as os = true →
    spellsElems as os = true
  | [], [], _, _ => rfl
  | .type t :: as, .type t' :: os, built, equal => by
    simp only [builtElems, Bool.and_eq_true] at built
    simp only [equalArgs, Arg.equal, Bool.and_eq_true] at equal
    simp [spellsElems, spells_of_equal t built.1 equal.1, spellsElems_of_equal as built.2 equal.2]
  | .value v t :: as, .value v' t' :: os, built, equal => by
    simp only [builtElems, Bool.and_eq_true] at built
    simp only [equalArgs, Arg.equal, Bool.and_eq_true] at equal
    rw [spellsElems, Arg.spells_value, Bool.and_eq_true]
    exact ⟨equal.1, spellsElems_of_equal as built.2 equal.2⟩
termination_by as => sizeOf as
decreasing_by all_goals simp_wf <;> omega

theorem spellsParams_of_equal : ∀ (ps : List Param) {os : List Param}, builtParams ps = true → equalParams ps os = true →
    spellsParams ps os = true
  | [], [], _, _ => rfl
  | .mk _ t _ _ _ :: ps, .mk _ t' _ _ _ :: os, built, equal => by
    simp only [builtParams, Bool.and_eq_true] at built
    simp only [equalParams, Bool.and_eq_true] at equal
    rw [spellsParams, Bool.and_eq_true]
    exact ⟨spells_of_equal t built.1 equal.1, spellsParams_of_equal ps built.2 equal.2⟩
termination_by ps => sizeOf ps
decreasing_by all_goals simp_wf <;> omega

end

end Vcx.Template
