import Vcx.Types.VTable

/-!
# Similar types

A type taken apart into its pointers, arrays and members with the qualifiers at each level, and the
type two such types have in common: what both convert to by adding qualifiers.
-/

namespace Vcx.Types
set_option autoImplicit false

/-! ### Qualifiers -/

def Qual.union (a b : Qual) : Qual := { const := a.const || b.const, volatile := a.volatile || b.volatile }

/-- `a` has no qualifier that `b` lacks. -/
def Qual.within (a b : Qual) : Bool := (!a.const || b.const) && (!a.volatile || b.volatile)

/-- One has every qualifier of the other. -/
def Qual.comparable (a b : Qual) : Bool := a.within b || b.within a

@[simp] theorem Qual.within_refl (a : Qual) : a.within a = true := by
  simp [Qual.within]

@[simp] theorem Qual.union_empty (a : Qual) : a.union {} = a := by
  simp [Qual.union]

@[simp] theorem Qual.empty_union (a : Qual) : ({} : Qual).union a = a := by
  simp [Qual.union]

@[simp] theorem Qual.union_self (a : Qual) : a.union a = a := by
  simp [Qual.union]

theorem Qual.union_comm (a b : Qual) : a.union b = b.union a := by
  simp [Qual.union, Bool.or_comm]

theorem Qual.eq_of_within {a b : Qual} (ab : a.within b = true) (ba : b.within a = true) : a = b := by
  revert a b
  rintro ⟨c, v⟩ ⟨c', v'⟩
  revert c v c' v'
  decide

theorem Qual.eq_empty_of_within {a : Qual} (within : a.within {} = true) : a = {} :=
  Qual.eq_of_within within (by simp [Qual.within])

theorem Qual.union_eq_left {a b : Qual} : a.union b = a ↔ b.within a = true := by
  revert a b
  rintro ⟨c, v⟩ ⟨c', v'⟩
  revert c v c' v'
  decide

theorem Qual.union_eq_right {a b : Qual} : a.union b = b ↔ a.within b = true := by
  rw [Qual.union_comm]
  exact Qual.union_eq_left

/-! ### Equal -/

mutual

@[simp] theorem Ty.equal_refl : ∀ t : Ty, t.equal t = true
  | .basic k => by simp [Ty.equal, Ty.strictOther]
  | .qualified q t => by simp [Ty.equal, Ty.equal_refl t]
  | .pointer e => by simp [Ty.equal, Ty.strictOther, Ty.equal_refl e]
  | .blockPointer e => by simp [Ty.equal, Ty.strictOther, Ty.equal_refl e]
  | .lvalueReference e => by simp [Ty.equal, Ty.strictOther, Ty.equal_refl e]
  | .rvalueReference e => by simp [Ty.equal, Ty.strictOther, Ty.equal_refl e]
  | .memberPointer c e => by simp [Ty.equal, Ty.strictOther, Ty.equal_refl c, Ty.equal_refl e]
  | .array e _ _ => by simp [Ty.equal, Ty.strictOther, Ty.equal_refl e]
  | .func r ps _ _ _ _ => by simp [Ty.equal, Ty.strictOther, Ty.equal_refl r, Ty.equalAll_refl ps]
  | .record _ => by simp [Ty.equal, Ty.strictOther]
  | .enum _ _ _ => by simp [Ty.equal, Ty.strictOther]
  | .dependent _ => by simp [Ty.equal, Ty.strictOther]

theorem Ty.equalAll_refl : ∀ ts : List Ty, Ty.equalAll ts ts = true
  | [] => by simp [Ty.equalAll]
  | t :: ts => by simp [Ty.equalAll, Ty.equal_refl t, Ty.equalAll_refl ts]

end

def Ty.isBare : Ty → Bool
  | .qualified _ _ => false
  | _ => true

mutual

/-- A type as `Qualify` writes it: no qualification is empty or of a qualified type. -/
def Ty.flat : Ty → Bool
  | .qualified q t => q ≠ {} && t.isBare && t.flat
  | .basic _ => true
  | .pointer elem => elem.flat
  | .blockPointer fn => fn.flat
  | .lvalueReference elem => elem.flat
  | .rvalueReference elem => elem.flat
  | .memberPointer cls elem => cls.flat && elem.flat
  | .array elem _ _ => elem.flat
  | .func ret params _ _ _ _ => ret.flat && Ty.flatAll params
  | .record _ => true
  | .enum _ _ _ => true
  | .dependent _ => true

def Ty.flatAll : List Ty → Bool
  | [] => true
  | t :: ts => t.flat && Ty.flatAll ts

end

theorem Ty.strictOther_flat {t : Ty} (flat : t.flat = true) : t.strictOther = t := by
  cases t with
  | qualified q u =>
    simp only [Ty.flat, Bool.and_eq_true, decide_eq_true_eq] at flat
    rw [Ty.strictOther, if_neg flat.1.1]
  | _ => rfl

mutual

theorem Ty.equal_symm : ∀ a b : Ty, a.flat = true → b.flat = true → a.equal b = true → b.equal a = true
  | .qualified q t, b, flatA, flatB, e => by
    simp only [Ty.flat, Bool.and_eq_true, decide_eq_true_eq] at flatA
    cases b with
    | qualified q' t' =>
      simp only [Ty.flat, Ty.equal, Bool.and_eq_true, decide_eq_true_eq] at flatB e ⊢
      exact ⟨e.1.symm, Ty.equal_symm t t' flatA.2 flatB.2 e.2⟩
    | _ =>
      simp only [Ty.equal, Bool.and_eq_true, decide_eq_true_eq] at e
      exact absurd e.1 flatA.1.1
  | .basic k, b, _, flatB, e => by
    rw [Ty.equal, Ty.strictOther_flat flatB] at e
    split at e <;> simp_all [Ty.equal, Ty.strictOther]
  | .pointer x, b, flatA, flatB, e => by
    rw [Ty.equal, Ty.strictOther_flat flatB] at e
    split at e
    · rw [Ty.flat] at flatA flatB
      simpa [Ty.equal, Ty.strictOther] using Ty.equal_symm _ _ flatA flatB e
    · cases e
  | .blockPointer x, b, flatA, flatB, e => by
    rw [Ty.equal, Ty.strictOther_flat flatB] at e
    split at e
    · rw [Ty.flat] at flatA flatB
      simpa [Ty.equal, Ty.strictOther] using Ty.equal_symm _ _ flatA flatB e
    · cases e
  | .lvalueReference x, b, flatA, flatB, e => by
    rw [Ty.equal, Ty.strictOther_flat flatB] at e
    split at e
    · rw [Ty.flat] at flatA flatB
      simpa [Ty.equal, Ty.strictOther] using Ty.equal_symm _ _ flatA flatB e
    · cases e
  | .rvalueReference x, b, flatA, flatB, e => by
    rw [Ty.equal, Ty.strictOther_flat flatB] at e
    split at e
    · rw [Ty.flat] at flatA flatB
      simpa [Ty.equal, Ty.strictOther] using Ty.equal_symm _ _ flatA flatB e
    · cases e
  | .memberPointer c x, b, flatA, flatB, e => by
    rw [Ty.equal, Ty.strictOther_flat flatB] at e
    split at e
    · rw [Ty.flat, Bool.and_eq_true] at flatA flatB
      rw [Bool.and_eq_true] at e
      simpa [Ty.equal, Ty.strictOther] using
        ⟨Ty.equal_symm _ _ flatA.1 flatB.1 e.1, Ty.equal_symm _ _ flatA.2 flatB.2 e.2⟩
    · cases e
  | .array x _ _, b, flatA, flatB, e => by
    rw [Ty.equal, Ty.strictOther_flat flatB] at e
    split at e
    · rw [Ty.flat] at flatA flatB
      simp only [Bool.and_eq_true, Bool.or_eq_true, beq_iff_eq] at e
      obtain ⟨⟨equal, rfl⟩, bound⟩ := e
      simp only [Ty.equal, Ty.strictOther, Ty.equal_symm _ _ flatA flatB equal, BEq.rfl, Bool.true_and, Bool.or_eq_true,
        beq_iff_eq]
      exact bound.imp_right Eq.symm
    · cases e
  | .func r ps _ _ _ _, b, flatA, flatB, e => by
    rw [Ty.equal, Ty.strictOther_flat flatB] at e
    split at e
    · rw [Ty.flat, Bool.and_eq_true] at flatA flatB
      simp only [Bool.and_eq_true, beq_iff_eq] at e
      obtain ⟨⟨⟨⟨⟨rfl, rfl⟩, rfl⟩, rfl⟩, ret⟩, params⟩ := e
      simpa [Ty.equal, Ty.strictOther] using
        ⟨Ty.equal_symm _ _ flatA.1 flatB.1 ret, Ty.equalAll_symm _ _ flatA.2 flatB.2 params⟩
    · cases e
  | .record _, b, _, flatB, e => by
    rw [Ty.equal, Ty.strictOther_flat flatB] at e
    split at e <;> simp_all [Ty.equal, Ty.strictOther]
  | .enum _ _ _, b, _, flatB, e => by
    rw [Ty.equal, Ty.strictOther_flat flatB] at e
    split at e <;> simp_all [Ty.equal, Ty.strictOther]
  | .dependent _, b, _, flatB, e => by
    rw [Ty.equal, Ty.strictOther_flat flatB] at e
    split at e <;> simp_all [Ty.equal, Ty.strictOther]

theorem Ty.equalAll_symm : ∀ as bs : List Ty, Ty.flatAll as = true → Ty.flatAll bs = true →
    Ty.equalAll as bs = true → Ty.equalAll bs as = true
  | [], [], _, _, _ => by simp [Ty.equalAll]
  | [], _ :: _, _, _, e => by simp [Ty.equalAll] at e
  | _ :: _, [], _, _, e => by simp [Ty.equalAll] at e
  | a :: as, b :: bs, flatA, flatB, e => by
    simp only [Ty.flatAll, Ty.equalAll, Bool.and_eq_true] at flatA flatB e ⊢
    exact ⟨Ty.equal_symm a b flatA.1 flatB.1 e.1, Ty.equalAll_symm as bs flatA.2 flatB.2 e.2⟩

end

theorem Ty.equal_comm {a b : Ty} (flatA : a.flat = true) (flatB : b.flat = true) : a.equal b = b.equal a := by
  rw [Bool.eq_iff_iff]
  exact ⟨Ty.equal_symm a b flatA flatB, Ty.equal_symm b a flatB flatA⟩

/-! ### Decomposition -/

/-- A type by its levels, outermost first: at each the qualifiers, and whether what follows is pointed
to, a member of a class or the element of an array. An array has the qualifiers of its elements. -/
inductive Decomposition where
  | base (q : Qual) (t : Ty)
  | pointer (q : Qual) (elem : Decomposition)
  | member (q : Qual) (cls : Ty) (elem : Decomposition)
  | array (bound : Option Nat) (elem : Decomposition)
  deriving Repr

namespace Decomposition

/-- The qualifiers at the outermost level. -/
def quals : Decomposition → Qual
  | .base q _ => q
  | .pointer q _ => q
  | .member q _ _ => q
  | .array _ elem => elem.quals

/-- Without the qualifiers at the outermost level. -/
def bare : Decomposition → Decomposition
  | .base _ t => .base {} t
  | .pointer _ elem => .pointer {} elem
  | .member _ cls elem => .member {} cls elem
  | .array bound elem => .array bound elem.bare

/-- The same type, up to the way it is written. -/
def same : Decomposition → Decomposition → Bool
  | .base q t, .base q' t' => q = q' && t.equal t'
  | .pointer q e, .pointer q' e' => q = q' && same e e'
  | .member q cls e, .member q' cls' e' => q = q' && cls.equal cls' && same e e'
  | .array bound e, .array bound' e' => bound = bound' && same e e'
  | _, _ => false

attribute [local simp] same

@[simp] theorem same_refl (d : Decomposition) : d.same d = true := by
  induction d with
  | base => simp [same]
  | pointer _ _ ih => simp [same, ih]
  | member _ _ _ ih => simp [same, ih]
  | array _ _ ih => simp [same, ih]

theorem same_iff (d d' : Decomposition) : d.same d' = true ↔ d.quals = d'.quals ∧ d.bare.same d'.bare = true := by
  induction d generalizing d' with
  | base q t => cases d' <;> simp [same, quals, bare]
  | pointer q e => cases d' <;> simp [same, quals, bare]
  | member q c e => cases d' <;> simp [same, quals, bare, and_assoc]
  | array b e ih =>
    cases d' with
    | array b' e' =>
      simp only [same, quals, bare, Bool.and_eq_true, decide_eq_true_eq, ih]
      tauto
    | _ => simp [same, bare]

/-- The const that a level gets when a deeper one changes. -/
def constIf (changed : Bool) : Qual := { const := changed }

/-- The type two similar types combine to, and whether it differs from one of them: the qualifiers of
both at each level, and const at each level above one that changes. -/
def combine : Decomposition → Decomposition → Option (Decomposition × Bool)
  | .base q t, .base q' t' => if t.equal t' then some (.base (q.union q') t, q ≠ q') else none
  | .pointer q e, .pointer q' e' => (combine e e').map fun (c, changed) =>
      (.pointer ((q.union q').union (constIf changed)) c, changed || q ≠ q')
  | .member q cls e, .member q' cls' e' =>
    if cls.equal cls' then (combine e e').map fun (c, changed) =>
      (.member ((q.union q').union (constIf changed)) cls c, changed || q ≠ q')
    else none
  | .array bound e, .array bound' e' => (combine e e').bind fun (c, changed) =>
      if bound = bound' then some (.array bound c, changed)
      else if bound = none ∨ bound' = none then some (.array none c, true)
      else none
  | _, _ => none

/-- A qualification conversion: no level loses a qualifier, and a level above one that changes is const
in the target. -/
def keeps : Decomposition → Decomposition → Bool
  | .base q t, .base q' t' => q.within q' && t'.equal t
  | .pointer q e, .pointer q' e' => q.within q' && (same e' e || q'.const) && keeps e e'
  | .member q cls e, .member q' cls' e' =>
    q.within q' && cls'.equal cls && (same e' e || q'.const) && keeps e e'
  | .array bound e, .array bound' e' => (bound = bound' || bound' = none) && keeps e e'
  | _, _ => false

attribute [local simp] combine keeps

/-- Nothing changes just if the two types are the same. -/
theorem combine_changed {a b c : Decomposition} {changed : Bool} (e : combine a b = some (c, changed)) :
    changed = false ↔ a.same b = true := by
  induction a generalizing b c changed with
  | base q t =>
    cases b <;> simp_all [combine, same]
  | pointer q x ih =>
    cases b with
    | pointer q' y =>
      simp only [combine, Option.map_eq_some_iff, Prod.mk.injEq, Prod.exists] at e
      obtain ⟨d, deep, eq, rfl, rfl⟩ := e
      simp [same, ← ih eq, and_comm]
    | _ => simp [combine] at e
  | member q cls x ih =>
    cases b with
    | member q' cls' y =>
      simp only [combine] at e
      split at e
      · rename_i equal
        simp only [Option.map_eq_some_iff, Prod.mk.injEq, Prod.exists] at e
        obtain ⟨d, deep, eq, rfl, rfl⟩ := e
        simp [same, ← ih eq, equal, and_comm]
      · cases e
    | _ => simp [combine] at e
  | array bound x ih =>
    cases b with
    | array bound' y =>
      simp only [combine, Option.bind_eq_some_iff] at e
      obtain ⟨⟨d, deep⟩, eq, rest⟩ := e
      split at rest
      · rename_i equal
        simp only [Option.some.injEq, Prod.mk.injEq] at rest
        obtain ⟨-, rfl⟩ := rest
        simp [same, equal, ih eq]
      · rename_i differ
        split at rest
        · simp only [Option.some.injEq, Prod.mk.injEq] at rest
          obtain ⟨-, rfl⟩ := rest
          simp [same, differ]
        · cases rest
    | _ => simp [combine] at e

/-- What a level gets is what it had just if it had the other's qualifiers, and const if a deeper level
changes. -/
theorem gained_eq_left {q q' : Qual} {changed : Bool} :
    q = (q.union q').union (constIf changed) ↔ q'.within q = true ∧ (changed = false ∨ q.const = true) := by
  revert q q' changed
  rintro ⟨c, v⟩ ⟨c', v'⟩ b
  revert c v c' v' b
  decide

/-- **The combined type is the first** just if the second converts to it. -/
theorem combine_eq_left {a b c : Decomposition} {changed : Bool} (e : combine a b = some (c, changed)) :
    a.same c = true ↔ keeps b a = true := by
  induction a generalizing b c changed with
  | base q t =>
    cases b with
    | base q' t' =>
      simp only [combine] at e
      split at e
      · rename_i equal
        simp only [Option.some.injEq, Prod.mk.injEq] at e
        obtain ⟨rfl, -⟩ := e
        simp only [same, keeps, equal, Ty.equal_refl, Bool.and_true, decide_eq_true_eq]
        rw [eq_comm, Qual.union_eq_left]
      · cases e
    | _ => simp [combine] at e
  | pointer q x ih =>
    cases b with
    | pointer q' y =>
      simp only [combine, Option.map_eq_some_iff, Prod.mk.injEq, Prod.exists] at e
      obtain ⟨d, deep, eq, rfl, -⟩ := e
      simp only [same, keeps, Bool.and_eq_true, Bool.or_eq_true, decide_eq_true_eq, gained_eq_left, ih eq, combine_changed eq]
    | _ => simp [combine] at e
  | member q cls x ih =>
    cases b with
    | member q' cls' y =>
      simp only [combine] at e
      split at e
      · rename_i equal
        simp only [Option.map_eq_some_iff, Prod.mk.injEq, Prod.exists] at e
        obtain ⟨d, deep, eq, rfl, -⟩ := e
        simp only [same, keeps, Bool.and_eq_true, Bool.or_eq_true, decide_eq_true_eq, gained_eq_left, ih eq, combine_changed eq,
          Ty.equal_refl, equal, and_true]
      · cases e
    | _ => simp [combine] at e
  | array bound x ih =>
    cases b with
    | array bound' y =>
      simp only [combine, Option.bind_eq_some_iff] at e
      obtain ⟨⟨d, deep⟩, eq, rest⟩ := e
      split at rest
      · rename_i equal
        simp only [Option.some.injEq, Prod.mk.injEq] at rest
        obtain ⟨rfl, -⟩ := rest
        simp [same, keeps, equal, ih eq]
      · rename_i differ
        split at rest
        · simp only [Option.some.injEq, Prod.mk.injEq] at rest
          obtain ⟨rfl, -⟩ := rest
          simp [same, keeps, ih eq, Ne.symm differ]
        · cases rest
    | _ => simp [combine] at e

/-- A type converts to itself. -/
theorem keeps_of_same {a b : Decomposition} (e : a.same b = true) : keeps b a = true := by
  induction a generalizing b with
  | base q t =>
    cases b with
    | base q' t' => simp_all [same, keeps]
    | _ => cases e
  | pointer q x ih =>
    cases b with
    | pointer q' y => simp_all [same, keeps]
    | _ => cases e
  | member q cls x ih =>
    cases b with
    | member q' cls' y => simp_all [same, keeps]
    | _ => cases e
  | array bound x ih =>
    cases b with
    | array bound' y => simp_all [same, keeps]
    | _ => cases e

end Decomposition

/-- A type decomposed, within qualifiers that apply to it. -/
def Ty.decomposeIn : Qual → Ty → Decomposition
  | q, .qualified q' t => t.decomposeIn (q.union q')
  | q, .pointer elem => .pointer q (elem.decomposeIn {})
  | q, .memberPointer cls elem => .member q cls (elem.decomposeIn {})
  | q, .array elem len incomplete => .array (if incomplete then none else some len) (elem.decomposeIn q)
  | q, t => .base q t

def Ty.decompose (t : Ty) : Decomposition := t.decomposeIn {}

attribute [local simp] Ty.decomposeIn

theorem Ty.decomposeIn_strictOther (q : Qual) (t : Ty) : t.strictOther.decomposeIn q = t.decomposeIn q := by
  cases t with
  | qualified q' t =>
    by_cases empty : q' = {}
    · simp [Ty.strictOther, Ty.decomposeIn, empty]
    · simp [Ty.strictOther, empty]
  | _ => rfl

/-- A type that no level is taken off is only `Equal` to such a type. -/
theorem Ty.same_of_base {t t' : Ty} {q : Qual} (e : t.equal t' = true) (bare : ∀ q' u, t ≠ .qualified q' u)
    (base : t.decomposeIn q = .base q t) : (t.decomposeIn q).same (t'.decomposeIn q) = true := by
  rw [← Ty.decomposeIn_strictOther q t']
  cases t with
  | qualified q' u => exact absurd rfl (bare q' u)
  | pointer | memberPointer | array => simp [Ty.decomposeIn] at base
  | _ =>
    unfold Ty.equal at e
    generalize t'.strictOther = other at e ⊢
    split at e
    · simpa [Ty.decomposeIn, Decomposition.same, Ty.equal, Ty.strictOther] using e
    · cases e

theorem Ty.same_of_equal : ∀ (t t' : Ty) (q : Qual), t.equal t' = true →
    (t.decomposeIn q).same (t'.decomposeIn q) = true
  | .qualified q' t, t', q, e => by
    cases t' with
    | qualified q'' t' =>
      simp only [Ty.equal, Bool.and_eq_true, decide_eq_true_eq] at e
      obtain ⟨rfl, e⟩ := e
      exact Ty.same_of_equal t t' (q.union q') e
    | _ =>
      simp only [Ty.equal, Bool.and_eq_true, decide_eq_true_eq] at e
      obtain ⟨rfl, e⟩ := e
      simpa [Ty.decomposeIn] using Ty.same_of_equal t _ q e
  | .pointer elem, t', q, e => by
    rw [← Ty.decomposeIn_strictOther q t']
    unfold Ty.equal at e
    split at e
    · rename_i elem' eq
      simpa [eq, Ty.decomposeIn, Decomposition.same] using Ty.same_of_equal elem elem' {} e
    · cases e
  | .memberPointer cls elem, t', q, e => by
    rw [← Ty.decomposeIn_strictOther q t']
    unfold Ty.equal at e
    split at e
    · rename_i cls' elem' eq
      rw [Bool.and_eq_true] at e
      simpa [eq, Ty.decomposeIn, Decomposition.same, e.1] using Ty.same_of_equal elem elem' {} e.2
    · cases e
  | .array elem len incomplete, t', q, e => by
    rw [← Ty.decomposeIn_strictOther q t']
    unfold Ty.equal at e
    split at e
    · rename_i elem' len' incomplete' eq
      simp only [Bool.and_eq_true, Bool.or_eq_true, beq_iff_eq] at e
      obtain ⟨⟨equal, rfl⟩, bound⟩ := e
      have elems := Ty.same_of_equal elem elem' q equal
      rcases bound with open_ | rfl
      · simp [eq, Ty.decomposeIn, Decomposition.same, elems, open_]
      · simp [eq, Ty.decomposeIn, Decomposition.same, elems]
    · cases e
  | .basic _, t', q, e => Ty.same_of_base e (by simp) rfl
  | .blockPointer _, t', q, e => Ty.same_of_base e (by simp) rfl
  | .lvalueReference _, t', q, e => Ty.same_of_base e (by simp) rfl
  | .rvalueReference _, t', q, e => Ty.same_of_base e (by simp) rfl
  | .func .., t', q, e => Ty.same_of_base e (by simp) rfl
  | .record _, t', q, e => Ty.same_of_base e (by simp) rfl
  | .enum .., t', q, e => Ty.same_of_base e (by simp) rfl
  | .dependent _, t', q, e => Ty.same_of_base e (by simp) rfl

end Vcx.Types
