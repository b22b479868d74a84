import Vcx.Template.Match

/-!
# Decay

`Decay` of `types/compat.go` and the `__decay` of `ApplyTransform`, beside the type that `std::decay` gives. The
qualifiers of an array are its elements' and may stand outside it or inside; and to a function type with qualifiers of
its own there is no pointer.
-/

namespace Vcx.Template
set_option autoImplicit false

/-- `Decay`. -/
def Ty.decay (t : Ty) : Ty :=
  match t.removeReference with
  | .array e _ _ _ => .pointer e
  | .func ret ps var q r n => .pointer (.func ret ps var q r n)
  | u => u.unqualify

/-- The type that an array's elements have, with the qualifiers that stand outside the array. -/
def Ty.arrayElem : Ty → Option Ty
  | .array e _ _ _ => some e
  | .qualified q (.array e _ _ _) => some (e.qualify q)
  | _ => none

/-- `std::decay`: an array is a pointer to its elements, a function one to itself where there is one, and any other type
loses its qualifiers. -/
def Ty.stdDecay (t : Ty) : Ty :=
  let u := t.removeReference
  match u.arrayElem, u.unqualify with
  | some e, _ => .pointer e
  | none, .func ret ps var q r n => if referenceable u then .pointer (.func ret ps var q r n) else .func ret ps var q r n
  | none, v => v

/-- No array with qualifiers outside it, and no function type with qualifiers. -/
def Ty.decaysPlainly : Ty → Bool
  | .qualified _ (.array ..) | .qualified _ (.func ..) => false
  | .func _ _ _ q r _ => q = 0 && r = .none
  | _ => true

/-- **Decay.** The two are the same type, and the one that `std::decay` gives, unless what is referred to is an array with
qualifiers outside it or a function type with qualifiers. -/
theorem decay_std_iff (t : Ty) :
    t.decay = t.stdDecay ∧ applyTransform "__decay" t false = some t.stdDecay ↔ t.removeReference.decaysPlainly = true := by
  have transform : applyTransform "__decay" t false = some (decay t) := rfl
  rw [transform, Option.some.injEq]
  generalize ref : t.removeReference = u
  rw [Ty.decay, decay, Ty.stdDecay, ref]
  cases u with
  | qualified q v =>
    cases v with
    | array e len incomplete dep => simp [Ty.unqualify, Ty.arrayElem, Ty.decaysPlainly]
    | func ret ps var cv r n =>
      have pointer : Ty.func ret ps var cv r n ≠ .pointer (.func ret ps var cv r n) := by simp
      simp only [Ty.unqualify, Ty.arrayElem, Ty.decaysPlainly, Bool.false_eq_true, iff_false, not_and]
      split
      · exact fun eq => absurd eq pointer
      · exact fun _ eq => absurd eq.symm pointer
    | _ => simp [Ty.unqualify, Ty.arrayElem, Ty.decaysPlainly]
  | func ret ps var q r n =>
    simp [Ty.unqualify, Ty.arrayElem, Ty.decaysPlainly, referenceable]
  | _ => simp [Ty.unqualify, Ty.arrayElem, Ty.decaysPlainly]

/-- `const A` where `A` is `int[3]`: `Decay` gives the array, `__decay` a pointer that has lost the `const`. -/
theorem constArray_undecayed : ¬ ∀ t : Ty, t.decay = t.stdDecay ∧ applyTransform "__decay" t false = some t.stdDecay := by
  intro all
  have eq := (all (.qualified Qual.const (.array (.basic .int) 3 false ""))).1
  simp [Ty.decay, Ty.stdDecay, Ty.removeReference, Ty.unqualify, Ty.arrayElem] at eq

end Vcx.Template
