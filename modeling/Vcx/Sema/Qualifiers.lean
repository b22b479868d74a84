import Vcx.Sema.Conversion
import Vcx.Types.Similar

/-!
# The qualifiers a conversion keeps

An implicit conversion may add qualifiers to what a pointer points to and to what a reference
binds to, and may drop none. `classifyConversion` and `IsConvertible` test const where they
compare two pointees or a class with its base, and volatile only where the types are the same
but for qualifiers. Which qualifiers a type has is read off its decomposition, where an array
has those of its elements.
-/

namespace Vcx.Types
set_option autoImplicit false

/-- At some level that both types have, the second lacks a qualifier of the first. -/
def Decomposition.drops : Decomposition → Decomposition → Bool
  | .pointer q e, .pointer q' e' => !q.within q' || drops e e'
  | .member q _ e, .member q' _ e' => !q.within q' || drops e e'
  | .array _ e, .array _ e' => drops e e'
  | d, d' => !d.quals.within d'.quals

namespace Decomposition

attribute [local simp] drops

/-- Types that are the same lose nothing. -/
theorem drops_of_same {d d' : Decomposition} (same_ : d.same d' = true) : drops d d' = false := by
  induction d generalizing d' with
  | base q t =>
    cases d' with
    | base q' t' =>
      have eq := ((same_iff (.base q t) (.base q' t')).1 same_).1
      change (!(base q t).quals.within (base q' t').quals) = false
      rw [eq, Qual.within_refl]
      rfl
    | _ => cases same_
  | pointer q e ih =>
    cases d' with
    | pointer q' e' =>
      obtain ⟨eq, bare_⟩ := (same_iff (.pointer q e) (.pointer q' e')).1 same_
      simp only [quals] at eq
      rw [drops, eq, Qual.within_refl, ih (by simpa [bare, same] using bare_)]
      rfl
    | _ => cases same_
  | member q cls e ih =>
    cases d' with
    | member q' cls' e' =>
      obtain ⟨eq, bare_⟩ := (same_iff (.member q cls e) (.member q' cls' e')).1 same_
      simp only [quals] at eq
      simp only [bare, same, Bool.and_eq_true] at bare_
      rw [drops, eq, Qual.within_refl, ih bare_.2]
      rfl
    | _ => cases same_
  | array b e ih =>
    cases d' with
    | array b' e' =>
      simp only [same, Bool.and_eq_true] at same_
      rw [drops, ih same_.2]
    | _ => cases same_

/-- Types that are the same but for the outermost qualifiers can lose those only. -/
theorem drops_of_bare {d d' : Decomposition} (same_ : d.bare.same d'.bare = true) :
    drops d d' = !d.quals.within d'.quals := by
  induction d generalizing d' with
  | base q t => cases d' <;> rfl
  | pointer q e =>
    cases d' with
    | pointer q' e' =>
      have inner : e.same e' = true := by simpa [bare, same] using same_
      rw [drops, drops_of_same inner, Bool.or_false]
      rfl
    | _ => rfl
  | member q cls e =>
    cases d' with
    | member q' cls' e' =>
      simp only [bare, same, Bool.and_eq_true] at same_
      rw [drops, drops_of_same same_.2, Bool.or_false]
      rfl
    | _ => rfl
  | array b e ih =>
    cases d' with
    | array b' e' =>
      simp only [bare, same, Bool.and_eq_true] at same_
      rw [drops, ih same_.2]
      rfl
    | _ => rfl

end Decomposition

/-- The cv-qualifiers of a type. -/
def Ty.cv (t : Ty) : Qual := t.decompose.quals

theorem Ty.bare_decomposeIn (q : Qual) (t : Ty) : (t.decomposeIn q).bare = t.decompose.bare := by
  suffices ∀ t : Ty, ∀ q q' : Qual, (t.decomposeIn q).bare = (t.decomposeIn q').bare from this t q {}
  intro t
  induction t using Ty.rec (motive_2 := fun _ => True) with
  | qualified q' t ih => exact fun q q'' => ih _ _
  | array e l i ih => exact fun q q' => by simp only [Ty.decomposeIn, Decomposition.bare, ih q q']
  | nil => trivial
  | cons => trivial
  | _ => exact fun q q' => rfl

theorem Qual.union_assoc (a b c : Qual) : (a.union b).union c = a.union (b.union c) := by
  simp [Qual.union, Bool.or_assoc]

theorem Qual.within_union {a b c : Qual} (within_ : a.within b = true) : (a.union c).within (b.union c) = true := by
  simp only [Qual.within, Qual.union, Bool.and_eq_true, Bool.or_eq_true, Bool.not_eq_true'] at within_ ⊢
  grind

theorem Ty.quals_decomposeIn (q : Qual) (t : Ty) : (t.decomposeIn q).quals = q.union t.cv := by
  suffices ∀ t : Ty, ∀ q q' : Qual, (t.decomposeIn (q.union q')).quals = q.union (t.decomposeIn q').quals by
    simpa [Ty.cv, Ty.decompose] using this t q {}
  intro t
  induction t using Ty.rec (motive_2 := fun _ => True) with
  | qualified q' t ih =>
    intro q q''
    rw [Ty.decomposeIn, Ty.decomposeIn, Qual.union_assoc, ih]
  | array e l i ih => exact fun q q' => ih q q'
  | nil => trivial
  | cons => trivial
  | _ => exact fun q q' => rfl

@[simp] theorem Ty.cv_qualified (q : Qual) (t : Ty) : (Ty.qualified q t).cv = q.union t.cv := by
  rw [← Ty.quals_decomposeIn]
  simp [Ty.cv, Ty.decompose, Ty.decomposeIn]

@[simp] theorem Ty.cv_array (e : Ty) (l : Nat) (i : Bool) : (Ty.array e l i).cv = e.cv := rfl

theorem Ty.cv_of_equal {t t' : Ty} (e : t.equal t' = true) : t.cv = t'.cv :=
  ((Decomposition.same_iff _ _).1 (Ty.same_of_equal t t' {} e)).1

theorem Ty.bare_unqualify (t : Ty) : t.unqualify.decompose.bare = t.decompose.bare := by
  cases t with
  | qualified q t =>
    rw [Ty.unqualify, Ty.decompose, Ty.decompose, Ty.decomposeIn]
    exact (Ty.bare_decomposeIn _ t).symm
  | _ => rfl

end Vcx.Types

namespace Vcx.Sema
set_option autoImplicit false
open Vcx.Types

/-! ### `IsConvertible` -/

/-- The pointers that convert to one another: to void, to a base class, and to the same pointee
with more qualifiers. -/
def pointeesRelated (h : Hierarchy) (f t : Ty) : Bool :=
  t.unqualify.equal (.basic .void) || isBaseOf h t f || f.unqualify.equal t.unqualify

/-- `IsConvertible` to a type that is no reference, with what an array or a function decays to
tried by `decayed`. -/
def convertible (h : Hierarchy) (decayed : Ty → Bool) (source target : Ty) : Bool :=
  let f := source.removeReference.unqualify
  let t := target.unqualify
  source.equal target || f.equal t || (isArithmetic f && isArithmetic t) ||
  (match f, t with
    | .pointer fElem, .pointer tElem => pointeesRelated h fElem tElem && !losesConst fElem tElem
    | _, _ => false) ||
  (match f with
    | .basic .nullptr => isPointerLike t && !(t.equal (.basic .nullptr)) || isBool t
    | _ => false) ||
  match source.unqualify with
    | .array .. | .func .. => decayed (decay source)
    | _ => isBool t && (isArithmetic f || isPointer f || f.equal (.basic .nullptr))

/-- `IsConvertible` to a type that is no reference. A qualified array is unqualified first and
then decays; what it decays to does not. -/
def isConvertibleValue (h : Hierarchy) (source target : Ty) : Bool :=
  convertible h (convertible h (convertible h (fun _ => false) · target) · target) source target

/-- `IsConvertible`. A qualification is never of a reference, so that `to` is one by its constructor. -/
def isConvertible (h : Hierarchy) (source target : Ty) : Bool :=
  source.equal target ||
  match target with
    | .lvalueReference toElem =>
      let fromElem := source.removeReference
      if fromElem.equal toElem || isBaseOf h toElem fromElem then (qualsOf toElem).const || !(qualsOf fromElem).const
      else (qualsOf toElem).const && isConvertibleValue h fromElem toElem
    | .rvalueReference toElem =>
      let fromElem := source.removeReference
      fromElem.equal toElem || isBaseOf h toElem fromElem || isConvertibleValue h fromElem toElem
    | target => isConvertibleValue h source target

/-! ### What a conversion drops -/

/-- What a value points to once an array has decayed, with the qualifiers of the array. -/
def pointed (v : Ty) : Option (Qual × Ty) :=
  match v.unqualify with
  | .array elem _ _ => some (qualsOf v, elem)
  | .pointer elem => some ({}, elem)
  | _ => none

/-- A pointer conversion drops a qualifier of a level of the pointee. -/
def DropsPointee (source target : Ty) : Prop :=
  ∃ q f t, pointed source = some (q, f) ∧ target.unqualify = .pointer t ∧ (f.decomposeIn q).drops t.decompose = true

/-- The type that is bound is the reference's but for qualifiers, or derived from it. -/
def referenceRelated (h : Hierarchy) (source target : Ty) : Bool :=
  source.equal target || (cvStrip source).1.equal (cvStrip target).1 || isBaseOf h target source ||
    isBaseOf h (cvStrip target).1 (cvStrip source).1

/-- A standard conversion drops a qualifier: a reference has fewer than what it binds to, or a
pointer conversion drops one, of the value or of the temporary that a reference binds to. -/
def Drops (h : Hierarchy) (source target : Ty) : Prop :=
  if target.isReference = true ∧ referenceRelated h source.removeReference target.removeReference = true then
    source.removeReference.cv.within target.removeReference.cv = false
  else DropsPointee source.removeReference target.removeReference

/-- The parameter of a constructor, with what the argument deduces put in. -/
def paramOf (an : Analysis) (source : Ty) (meth : Method) : Option Ty :=
  match meth.func with
  | some { params := [param], .. } => if meth.template then an.deduceParam param source else some param
  | _ => none

/-- A user-defined conversion drops a qualifier: in the argument of its constructor, or of the object
whose conversion operator it calls. -/
def UserDrops (an : Analysis) (h : Hierarchy) (source target : Ty) (r : Nat) (meth : Method) : Prop :=
  if target.asRecord = some r then ∃ param, paramOf an source meth = some param ∧ Drops h source param
  else ∃ fn, meth.func = some fn ∧ source.cv.within fn.quals = false

/-- A conversion sequence drops a qualifier. -/
def SequenceDrops (an : Analysis) (h : Hierarchy) (source target : Ty) (cs : ConversionSequence) : Prop :=
  match cs.userConv with
  | none => Drops h source target
  | some (r, meth) => UserDrops an h source target.removeReference r meth

/-! ### What the code leaves unchecked -/

/-- Between related pointees no const is lost that is the pointee's own, and yet volatile is, or the
const of an array's elements. -/
structure Unchecked (h : Hierarchy) (q : Qual) (f t : Ty) : Prop where
  related : pointeesRelated h f t = true
  own : losesConst f t = false
  lost : ((q.union f.cv).volatile = true ∧ t.cv.volatile = false) ∨ ((q.union f.cv).const = true ∧ t.cv.const = false)

/-- Whether a type decays, as `classifyConversion` asks. -/
def decays (source : Ty) : Bool :=
  match source.unqualify with
  | .array .. | .func .. => true
  | _ => false

/-- The type that standard conversions are looked for from. -/
def decayed (source : Ty) : Ty := if decays source then decay source else source.removeReference.unqualify

/-- `classifyConversion` compares the two pointees, of a pointer or of an array that is neither
qualified nor referred to; what Objective-C's rule converts it does not compare. -/
def UncheckedPointer (an : Analysis) (h : Hierarchy) (source target : Ty) : Prop :=
  (∃ f t, (source.removeReference.unqualify = .pointer f ∨ ∃ l i, source = .array f l i) ∧ target.unqualify = .pointer t ∧
    Unchecked h {} f t) ∨
  ((an.objcConversion (decayed source) target.unqualify).isSome = true ∧ DropsPointee source.removeReference target)

/-- A reference that is bound to an object of a derived class, without a look at volatile, nor at const
where it is an rvalue reference. -/
structure UncheckedBinding (h : Hierarchy) (source target : Ty) (lvalue : Bool) : Prop where
  base : isBaseOf h target.removeReference source.removeReference = true
  binds : if isLValueReference target then
      target.removeReference.cv.const = true ∨ (lvalue = true ∧ source.removeReference.cv.const = false)
    else lvalue = false
  lost : (source.removeReference.cv.volatile = true ∧ target.removeReference.cv.volatile = false) ∨
    (source.removeReference.cv.const = true ∧ target.removeReference.cv.const = false)

/-- A reference to `target` may bind to a temporary. -/
def bindsTemporary (target : Ty) : Bool :=
  isLValueReference target && (qualsOf target.removeReference).const || isRValueReference target

/-- What is unchecked without a user-defined conversion. -/
def UncheckedStandard (an : Analysis) (h : Hierarchy) (source target : Ty) (lvalue : Bool) : Prop :=
  if target.isReference = true then
    if referenceRelated h source.removeReference target.removeReference = true then UncheckedBinding h source target lvalue
    else bindsTemporary target = true ∧ UncheckedPointer an h source target.removeReference
  else UncheckedPointer an h source target

/-- A constructor that converts the argument, and its parameter. -/
def takes (an : Analysis) (h : Hierarchy) (r : Nat) (source : Ty) (meth : Method) : Option Ty :=
  if meth.name == (h.record r).name && !an.explicit r meth then
    (paramOf an source meth).filter fun param =>
      let sub := classifyWith an h (fun _ _ => none) source param false
      sub.valid && sub.rank.toNat ≤ ConvRank.conversion.toNat
  else none

/-- The first converting constructor of a class that takes the argument, by its parameter. -/
def converting (an : Analysis) (h : Hierarchy) (source : Ty) (r : Nat) : Option (Method × Ty) :=
  (h.record r).methods.findSome? fun meth => (takes an h r source meth).map fun param => (meth, param)

/-- The first conversion operator of a class to the type. -/
def returning (an : Analysis) (h : Hierarchy) (target : Ty) (r : Nat) : Option (Method × Func) :=
  (h.record r).methods.findSome? fun meth =>
    (meth.func.filter fun fn => !an.explicit r meth && fn.ret.equal target).map fun fn => (meth, fn)

/-- What is unchecked where the conversion is user-defined: in the argument of the constructor, or
the qualifiers of the operator. -/
def UncheckedUser (an : Analysis) (h : Hierarchy) (source target : Ty) : Prop :=
  match target.asRecord.bind (converting an h source) with
  | some (_, param) => UncheckedStandard an h source param false
  | none => ∃ r meth fn, source.asRecord = some r ∧ returning an h target r = some (meth, fn) ∧ source.cv.within fn.quals = false

/-- What `classifyConversion` leaves unchecked. -/
def UncheckedSequence (an : Analysis) (h : Hierarchy) (source target : Ty) (lvalue : Bool) : Prop :=
  UncheckedStandard an h source target lvalue ∨
    ((target.isReference = true → referenceRelated h source.removeReference target.removeReference = false ∧
        bindsTemporary target = true) ∧
      standardRank an h source target.removeReference = none ∧ UncheckedUser an h source target.removeReference)

/-- `IsConvertible` compares the pointees of a qualified array too. -/
def UncheckedPointed (h : Hierarchy) (v target : Ty) : Prop :=
  ∃ q f t, pointed v = some (q, f) ∧ target.unqualify = .pointer t ∧ Unchecked h q f t

/-- What `IsConvertible` leaves unchecked where it converts to a reference to `e`: besides what is
unchecked between pointers, a base class, and a temporary of the type that is bound. -/
def UncheckedReference (h : Hierarchy) (v target e : Ty) : Prop :=
  if isBaseOf h e v then
    (isLValueReference target = true → (qualsOf e).const = true ∨ (qualsOf v).const = false) ∧ v.cv.within e.cv = false
  else bindsTemporary target = true ∧
    if referenceRelated h v e then isConvertibleValue h v e = true ∧ v.cv.within e.cv = false else UncheckedPointed h v e

/-- What `IsConvertible` leaves unchecked. -/
def UncheckedConvertible (h : Hierarchy) (source target : Ty) : Prop :=
  match target with
  | .lvalueReference e => UncheckedReference h source.removeReference (.lvalueReference e) e
  | .rvalueReference e => UncheckedReference h source.removeReference (.rvalueReference e) e
  | target => UncheckedPointed h source target ∨
    ∃ f t, source.removeReference.unqualify = .pointer f ∧ target.unqualify = .pointer t ∧ Unchecked h {} f t

section

variable {an : Analysis} {h : Hierarchy} {source target f t : Ty} {q : Qual}

theorem within_eq_false {q q' : Qual} : q.within q' = false ↔
    (q.volatile = true ∧ q'.volatile = false) ∨ (q.const = true ∧ q'.const = false) := by
  obtain ⟨c, v⟩ := q
  obtain ⟨c', v'⟩ := q'
  simp only [Qual.within]
  revert c v c' v'
  decide

/-- A type that is `Equal` to a class's, or to void, has no level below. -/
theorem drops_of_base {d : Decomposition} {q : Qual} {u : Ty} :
    d.drops (.base q u) = !d.quals.within q := by
  cases d <;> rfl

theorem decompose_of_unqualify_record {r : Nat} (e : t.unqualify = .record r) : t.decompose = .base t.cv (.record r) := by
  cases t with
  | qualified q u => cases e; rfl
  | record => cases e; rfl
  | _ => cases e

/-- Of related pointees only the outermost qualifiers can be lost. -/
theorem drops_of_related (related : pointeesRelated h f t = true) :
    (f.decomposeIn q).drops t.decompose = !(q.union f.cv).within t.cv := by
  rw [← Ty.quals_decomposeIn]
  simp only [pointeesRelated, Bool.or_eq_true] at related
  rcases related with (void | base) | same
  · have void := Ty.same_of_equal _ _ {} void
    obtain ⟨q', u, eq⟩ : ∃ q' u, t.decompose = .base q' u := by
      have bare : ∀ q, ∃ q' u, (t.unqualify.decomposeIn q) = .base q' u := by
        intro q
        have bare := Ty.bare_decomposeIn q t.unqualify
        cases d : t.unqualify.decompose with
        | base q' u =>
          rw [d] at bare
          cases eq : t.unqualify.decomposeIn q with
          | base q'' u' => exact ⟨q'', u', rfl⟩
          | _ => simp [eq, Decomposition.bare] at bare
        | _ => rw [Ty.decompose] at d; rw [d] at void; simp [Ty.decomposeIn, Decomposition.same] at void
      cases t with
      | qualified q t => exact bare _
      | _ => exact bare {}
    rw [Ty.cv, eq]
    exact drops_of_base
  · have class_ : ∃ r, t.unqualify = .record r := by
      unfold isBaseOf at base
      split at base
      · exact ⟨_, by assumption⟩
      · cases base
    obtain ⟨r, class_⟩ := class_
    rw [decompose_of_unqualify_record class_]
    exact drops_of_base
  · refine Decomposition.drops_of_bare ?_
    rw [Ty.bare_decomposeIn, ← Ty.bare_unqualify f, ← Ty.bare_unqualify t]
    exact ((Decomposition.same_iff _ _).1 (Ty.same_of_equal _ _ {} same)).2

theorem unchecked_iff : Unchecked h q f t ↔
    (pointeesRelated h f t = true ∧ losesConst f t = false) ∧ (f.decomposeIn q).drops t.decompose = true := by
  constructor
  · rintro ⟨related, own, lost⟩
    refine ⟨⟨related, own⟩, ?_⟩
    rw [drops_of_related related, within_eq_false.2 lost]
    rfl
  · rintro ⟨⟨related, own⟩, drops⟩
    rw [drops_of_related related, Bool.not_eq_true'] at drops
    exact ⟨related, own, within_eq_false.1 drops⟩

theorem equal_pointee {f' t' : Ty} (e : f.equal t = true) (pf : f.unqualify = .pointer f') (pt : t.unqualify = .pointer t') :
    f'.equal t' = true := by
  have strict : ∀ {a b : Ty}, (Ty.pointer a).equal b = true → b.unqualify = .pointer t' → a.equal t' = true := by
    intro a b e pb
    unfold Ty.equal at e
    cases b with
    | qualified q u =>
      cases pb
      by_cases empty : q = {}
      · simpa [Ty.strictOther, empty] using e
      · simp [Ty.strictOther, empty] at e
    | pointer => cases pb; simpa [Ty.strictOther] using e
    | _ => cases pb
  cases f with
  | qualified q u =>
    cases pf
    cases t with
    | qualified q' u' =>
      cases pt
      simp only [Ty.equal, Bool.and_eq_true] at e
      simpa [Ty.strictOther] using e.2
    | _ =>
      simp only [Ty.equal, Bool.and_eq_true] at e
      exact strict (by simpa [Ty.equal] using e.2) pt
  | pointer => cases pf; exact strict e pt
  | _ => cases pf

theorem pointed_eq_some {v : Ty} (e : pointed v = some (q, f)) :
    (∃ l i, v = .array f l i ∧ q = {}) ∨ (∃ l i, v = .qualified q (.array f l i)) ∨ (v.unqualify = .pointer f ∧ q = {}) := by
  unfold pointed at e
  split at e
  · rename_i elem l i array
    cases e
    cases v with
    | qualified q u => cases array; exact .inr (.inl ⟨_, _, rfl⟩)
    | array => cases array; exact .inl ⟨_, _, rfl, rfl⟩
    | _ => cases array
  · rename_i elem pointer
    cases e
    exact .inr (.inr ⟨pointer, rfl⟩)
  · cases e

theorem strictOther_eq {u : Ty} (e : t.strictOther = u) (bare : u.isBare = true) : t = u ∨ t = .qualified {} u := by
  cases t with
  | qualified q v =>
    by_cases empty : q = {}
    · exact .inr (by simpa [Ty.strictOther, empty] using e)
    · rw [Ty.strictOther, if_neg empty] at e
      subst e
      cases bare
  | _ => exact .inl e

/-- Types that are `Equal` have the same qualifiers of their own, and are `Equal` without them. -/
theorem equal_unqualify (e : f.equal t = true) : f.unqualify.equal t.unqualify = true ∧ qualsOf f = qualsOf t := by
  cases f with
  | qualified q u =>
    cases t with
    | qualified =>
      simp only [Ty.equal, Bool.and_eq_true, decide_eq_true_eq] at e
      exact ⟨e.2, e.1⟩
    | _ =>
      simp only [Ty.equal, Bool.and_eq_true, decide_eq_true_eq] at e
      exact ⟨e.2, e.1⟩
  | _ =>
    unfold Ty.equal at e
    split at e
    · rename_i eq
      rcases strictOther_eq eq rfl with rfl | rfl <;> exact ⟨by simpa [Ty.unqualify, Ty.equal, Ty.strictOther] using e, rfl⟩
    · cases e

theorem related_of_equal (e : (Ty.pointer f).equal (.pointer t) = true) : pointeesRelated h f t = true ∧ losesConst f t = false := by
  obtain ⟨bare, quals⟩ := equal_unqualify (equal_pointee e rfl rfl)
  constructor
  · rw [pointeesRelated, bare, Bool.or_true]
  · rw [losesConst, quals]
    exact Bool.and_not_self _

theorem isStandardConversion_pointer :
    isStandardConversion h (.pointer f) (.pointer t) = (pointeesRelated h f t && !losesConst f t) := by
  simp [isStandardConversion, pointeesRelated, isArithmetic, isBool, Ty.unqualify]

theorem isPromotion_pointer : isPromotion f (.pointer t) = false := by
  unfold isPromotion
  split <;> simp_all

/-- The first of two ranks that there is. -/
def rankOr (a b : Option ConvRank) : Option ConvRank :=
  match a with
  | some rank => some rank
  | none => b

theorem standardRank_eq : standardRank an h source target =
    if source.removeReference.unqualify.equal target.unqualify then some .exactMatch
    else if decays source && (decay source).equal target.unqualify then some .exactMatch
    else rankOr (an.objcConversion (decayed source) target.unqualify)
      (if isPromotion (decayed source) target.unqualify then some .promotion
      else if isStandardConversion h (decayed source) target.unqualify then some .conversion
      else none) := by
  unfold rankOr
  rfl

theorem standardRank_isSome (quiet : an.objcConversion (decayed source) (.pointer t) = none) (pt : target.unqualify = .pointer t) :
    (standardRank an h source target).isSome =
      (source.removeReference.unqualify.equal (.pointer t) || (decays source && (decay source).equal (.pointer t)) ||
        isStandardConversion h (decayed source) (.pointer t)) := by
  rw [standardRank_eq, pt, quiet]
  simp only [rankOr, isPromotion_pointer, Bool.false_eq_true, if_false]
  split <;> rename_i same
  · rw [same]
    rfl
  · split <;> rename_i decayed
    · rw [decayed, Bool.or_true]
      rfl
    · simp only [Bool.not_eq_true] at same decayed
      rw [same, decayed, Bool.false_or, Bool.false_or]
      generalize isStandardConversion h _ _ = standard
      cases standard <;> rfl

/-- What Objective-C's rule converts has a rank. -/
theorem standardRank_objc (converts : (an.objcConversion (decayed source) target.unqualify).isSome = true) :
    (standardRank an h source target).isSome = true := by
  obtain ⟨rank, eq⟩ := Option.isSome_iff_exists.1 converts
  rw [standardRank_eq, eq]
  split
  · rfl
  · split <;> rfl

theorem standardRank_pointer (quiet : an.objcConversion (decayed source) (.pointer t) = none) (pf : source.removeReference.unqualify = .pointer f)
    (pt : target.unqualify = .pointer t) :
    (standardRank an h source target).isSome = true ↔ pointeesRelated h f t = true ∧ losesConst f t = false := by
  have plain : decays source = false := by
    cases source <;> simp_all [decays, Ty.unqualify, Ty.removeReference]
  have itself : decayed source = .pointer f := by rw [decayed, plain, pf]; rfl
  rw [standardRank_isSome quiet pt, plain, pf, itself]
  simp only [Bool.false_and, Bool.or_false, isStandardConversion_pointer, Bool.or_eq_true,
    Bool.and_eq_true, Bool.not_eq_true']
  exact or_iff_right_of_imp related_of_equal

theorem standardRank_array {l : Nat} {i : Bool} (quiet : an.objcConversion (decayed (.array f l i)) (.pointer t) = none)
    (pt : target.unqualify = .pointer t) :
    (standardRank an h (.array f l i) target).isSome = true ↔ pointeesRelated h f t = true ∧ losesConst f t = false := by
  have differ : (Ty.array f l i).equal (.pointer t) = false := rfl
  rw [standardRank_isSome quiet pt]
  simp only [decayed, decays, decay, Ty.removeReference, Ty.unqualify, differ, Bool.false_or, Bool.true_and, if_true,
    isStandardConversion_pointer, Bool.or_eq_true, Bool.and_eq_true, Bool.not_eq_true']
  exact or_iff_right_of_imp related_of_equal

/-- An array that is qualified or referred to stays one. -/
theorem standardRank_kept {l : Nat} {i : Bool} (quiet : an.objcConversion (decayed source) (.pointer t) = none)
    (arr : source.removeReference.unqualify = .array f l i)
    (other : ∀ l i, source ≠ .array f l i) (pt : target.unqualify = .pointer t) :
    (standardRank an h source target).isSome = false := by
  have differ : (Ty.array f l i).equal (.pointer t) = false := rfl
  have standard : isStandardConversion h (.array f l i) (.pointer t) = false := by
    simp [isStandardConversion, isArithmetic, isBool, Ty.unqualify]
  rw [standardRank_isSome quiet pt, decayed, arr, differ]
  cases source with
  | qualified q u =>
    cases arr
    simp [decays, decay, Ty.removeReference, Ty.unqualify, differ, standard]
  | array =>
    cases arr
    exact absurd rfl (other _ _)
  | lvalueReference | rvalueReference => simp [decays, Ty.unqualify, standard]
  | _ => cases arr

/-- **A standard conversion of a value drops a qualifier just where that is unchecked.** -/
theorem standardRank_drops (an : Analysis) (h : Hierarchy) (source target : Ty) :
    ((standardRank an h source target).isSome = true ∧ DropsPointee source.removeReference target) ↔
      UncheckedPointer an h source target := by
  unfold UncheckedPointer
  cases objc : an.objcConversion (decayed source) target.unqualify with
  | some rank =>
    rw [standardRank_objc (by rw [objc]; rfl)]
    simp only [true_and, Option.isSome_some]
    refine (or_iff_right_of_imp ?_).symm
    rintro ⟨f, t, pointer | ⟨l, i, rfl⟩, pt, unchecked⟩
    · exact ⟨{}, f, t, by rw [pointed, pointer], pt, (unchecked_iff.1 unchecked).2⟩
    · exact ⟨{}, f, t, rfl, pt, (unchecked_iff.1 unchecked).2⟩
  | none => ?_
  simp only [Option.isSome_none, Bool.false_eq_true, false_and, or_false]
  constructor
  · rintro ⟨rank, q, f, t, pf, pt, drops⟩
    have quiet : an.objcConversion (decayed source) (.pointer t) = none := by rw [← pt, objc]
    have kept : ∀ {l i}, source.removeReference.unqualify = .array f l i → ∃ l i, source = .array f l i := by
      intro l i arr
      by_contra other
      simp only [not_exists] at other
      rw [standardRank_kept quiet arr other pt] at rank
      cases rank
    rcases pointed_eq_some pf with ⟨l, i, eq, rfl⟩ | ⟨l, i, eq⟩ | ⟨pointer, rfl⟩
    · obtain ⟨l, i, rfl⟩ := kept (by rw [eq]; rfl)
      exact ⟨f, t, .inr ⟨l, i, rfl⟩, pt, unchecked_iff.2 ⟨(standardRank_array quiet pt).1 rank, drops⟩⟩
    · obtain ⟨l, i, rfl⟩ := kept (by rw [eq]; rfl)
      cases eq
    · exact ⟨f, t, .inl pointer, pt, unchecked_iff.2 ⟨(standardRank_pointer quiet pointer pt).1 rank, drops⟩⟩
  · rintro ⟨f, t, pf, pt, unchecked⟩
    have quiet : an.objcConversion (decayed source) (.pointer t) = none := by rw [← pt, objc]
    obtain ⟨checked, drops⟩ := unchecked_iff.1 unchecked
    rcases pf with pointer | ⟨l, i, rfl⟩
    · exact ⟨(standardRank_pointer quiet pointer pt).2 checked, {}, f, t, by rw [pointed, pointer], pt, drops⟩
    · exact ⟨(standardRank_array quiet pt).2 checked, {}, f, t, rfl, pt, drops⟩

/-! ### Values under `IsConvertible` -/

theorem convertible_pointer {dec : Ty → Bool} (pf : source.removeReference.unqualify = .pointer f)
    (pt : target.unqualify = .pointer t) :
    convertible h dec source target = true ↔ pointeesRelated h f t = true ∧ losesConst f t = false := by
  have shape : (match source.unqualify with
      | .array .. | .func .. => dec (decay source)
      | _ => isBool (Ty.pointer t) && (isArithmetic (Ty.pointer f) || isPointer (Ty.pointer f) ||
        (Ty.pointer f).equal (.basic .nullptr))) = false := by
    cases source <;> simp_all [Ty.unqualify, Ty.removeReference, isBool]
  have same : source.equal target = true → (Ty.pointer f).equal (.pointer t) = true := by
    intro e
    have plain : source.unqualify = .pointer f := by
      cases source with
      | lvalueReference | rvalueReference =>
        unfold Ty.equal at e
        split at e
        · rename_i eq
          rcases strictOther_eq eq rfl with rfl | rfl <;> cases pt
        · cases e
      | _ => exact pf
    simpa [Ty.equal, Ty.strictOther] using equal_pointee e plain pt
  unfold convertible
  simp only [pf, pt]
  rw [shape]
  simp only [Bool.or_false, Bool.or_eq_true, Bool.and_eq_true, Bool.not_eq_true']
  constructor
  · rintro (((e | e) | ⟨arith, -⟩) | checked)
    · exact related_of_equal (same e)
    · exact related_of_equal e
    · cases arith
    · exact checked
  · exact .inr

/-- An array is tried as what it decays to. -/
theorem convertible_array {dec : Ty → Bool} {l : Nat} {i : Bool} (pt : target.unqualify = .pointer t) :
    convertible h dec (.array f l i) target = dec (.pointer f) := by
  have differ : (Ty.array f l i).equal target = false := by
    cases e : (Ty.array f l i).equal target with
    | false => rfl
    | true =>
      have := (equal_unqualify e).1
      rw [pt] at this
      cases this
  have bare : (Ty.array f l i).equal (.pointer t) = false := rfl
  simp only [convertible, Ty.removeReference, pt, differ]
  simp [bare, Ty.unqualify, isArithmetic]
  rfl

theorem convertible_qualified_array {dec : Ty → Bool} {l : Nat} {i : Bool} (pt : target.unqualify = .pointer t) :
    convertible h dec (.qualified q (.array f l i)) target = dec (.array f l i) := by
  have differ : (Ty.qualified q (.array f l i)).equal target = false := by
    cases e : (Ty.qualified q (.array f l i)).equal target with
    | false => rfl
    | true =>
      have := (equal_unqualify e).1
      rw [pt] at this
      cases this
  have bare : (Ty.array f l i).equal (.pointer t) = false := rfl
  simp only [convertible, Ty.removeReference, pt, differ]
  simp [bare, Ty.unqualify, isArithmetic]
  rfl

theorem convertible_referred {dec : Ty → Bool} {v : Ty} {l : Nat} {i : Bool} (arr : v.unqualify = .array f l i)
    (ref : source = .lvalueReference v ∨ source = .rvalueReference v) (pt : target.unqualify = .pointer t) :
    convertible h dec source target = false := by
  have differ : source.equal target = false := by
    cases e : source.equal target with
    | false => rfl
    | true =>
      have := (equal_unqualify e).1
      rw [pt] at this
      rcases ref with rfl | rfl <;> cases this
  have bare : (Ty.array f l i).equal (.pointer t) = false := rfl
  rcases ref with rfl | rfl <;>
  · simp only [convertible, Ty.removeReference, pt, differ, arr]
    simp [bare, Ty.unqualify, isArithmetic, isBool]

theorem isConvertibleValue_pointed (pf : pointed source = some (q, f)) (pt : target.unqualify = .pointer t) :
    isConvertibleValue h source target = true ↔ pointeesRelated h f t = true ∧ losesConst f t = false := by
  unfold isConvertibleValue
  rcases pointed_eq_some pf with ⟨l, i, rfl, rfl⟩ | ⟨l, i, rfl⟩ | ⟨pointer, rfl⟩
  · rw [convertible_array pt]
    exact convertible_pointer rfl pt
  · rw [convertible_qualified_array pt, convertible_array pt]
    exact convertible_pointer rfl pt
  · refine convertible_pointer ?_ pt
    cases source <;> first | exact pointer | cases pointer

/-- **A value's conversion drops a qualifier of a pointee just where that is unchecked.** -/
theorem isConvertibleValue_drops :
    (isConvertibleValue h source target = true ∧ DropsPointee source target) ↔ UncheckedPointed h source target := by
  constructor
  · rintro ⟨is, q, f, t, pf, pt, drops⟩
    exact ⟨q, f, t, pf, pt, unchecked_iff.2 ⟨(isConvertibleValue_pointed pf pt).1 is, drops⟩⟩
  · rintro ⟨q, f, t, pf, pt, unchecked⟩
    obtain ⟨checked, drops⟩ := unchecked_iff.1 unchecked
    exact ⟨(isConvertibleValue_pointed pf pt).2 checked, q, f, t, pf, pt, drops⟩

theorem isConvertibleValue_referred {v : Ty} (ref : source = .lvalueReference v ∨ source = .rvalueReference v) :
    (isConvertibleValue h source target = true ∧ DropsPointee v target) ↔
      ∃ f t, v.unqualify = .pointer f ∧ target.unqualify = .pointer t ∧ Unchecked h {} f t := by
  have plain : source.removeReference = v := by rcases ref with rfl | rfl <;> rfl
  constructor
  · rintro ⟨is, q, f, t, pf, pt, drops⟩
    have kept : ∀ {l i}, v.unqualify ≠ .array f l i := by
      intro l i arr
      rw [isConvertibleValue, convertible_referred arr ref pt] at is
      cases is
    rcases pointed_eq_some pf with ⟨l, i, rfl, rfl⟩ | ⟨l, i, rfl⟩ | ⟨pointer, rfl⟩
    · exact absurd rfl kept
    · exact absurd rfl kept
    · exact ⟨f, t, pointer, pt, unchecked_iff.2 ⟨(convertible_pointer (by rw [plain, pointer]) pt).1 is, drops⟩⟩
  · rintro ⟨f, t, pointer, pt, unchecked⟩
    obtain ⟨checked, drops⟩ := unchecked_iff.1 unchecked
    exact ⟨(convertible_pointer (by rw [plain, pointer]) pt).2 checked, {}, f, t, by rw [pointed, pointer], pt, drops⟩

/-! ### Sequences -/

/-- `cvStrip` divides the qualifiers of a type. -/
theorem cv_cvStrip (t : Ty) : t.cv = (cvStrip t).2.union (cvStrip t).1.cv := by
  suffices ∀ n, ∀ t : Ty, sizeOf t = n → t.cv = (cvStrip t).2.union (cvStrip t).1.cv from this _ t rfl
  intro n
  induction n using Nat.strongRecOn with
  | ind n ih =>
    rintro t rfl
    cases t with
    | qualified q u =>
      cases u with
      | array e l i =>
        have := ih (sizeOf e) (by simp; omega) e rfl
        simp only [cvStrip, Ty.cv_qualified, Ty.cv_array]
        rw [this]
        exact (Qual.union_assoc ..).symm
      | _ => simp [cvStrip]
    | array e l i =>
      have := ih (sizeOf e) (by simp; omega) e rfl
      simpa only [cvStrip, Ty.cv_array] using this
    | _ => simp [cvStrip]

theorem cv_of_isBaseOf {base derived : Ty} (e : isBaseOf h base derived = true) :
    (cvStrip base).2 = base.cv ∧ (cvStrip derived).2 = derived.cv := by
  have record : ∀ t : Ty, ∀ r, t.unqualify = .record r → (cvStrip t).2 = t.cv := by
    intro t r eq
    cases t with
    | qualified q u =>
      cases eq
      simp only [cvStrip, Ty.cv_qualified]
      exact (Qual.union_empty q).symm
    | record => rfl
    | _ => cases eq
  unfold isBaseOf at e
  split at e
  · exact ⟨record _ _ (by assumption), record _ _ (by assumption)⟩
  · cases e

/-- What binds directly and still has more qualifiers is of a derived class. -/
theorem isBaseOf_of_lost (binds : bindsDirectly h source target = true) (lost : source.cv.within target.cv = false) :
    isBaseOf h target source = true := by
  simp only [bindsDirectly, Bool.or_eq_true, Bool.and_eq_true] at binds
  rcases binds with (⟨⟨same, const⟩, volatile⟩ | equal) | base
  · exfalso
    rw [cv_cvStrip source, cv_cvStrip target, ← Ty.cv_of_equal same] at lost
    have : (cvStrip source).2.within (cvStrip target).2 = true := by
      simpa only [Qual.within, Bool.and_eq_true, Bool.or_eq_true] using And.intro const volatile
    rw [Qual.within_union this] at lost
    cases lost
  · rw [Ty.cv_of_equal equal, Qual.within_refl] at lost
    cases lost
  · exact base

section

variable {user : Ty → Ty → Option ConversionSequence} {lvalue : Bool}

/-- Whether a reference of the same type or of a base is bound. -/
theorem classifyWith_related (user : Ty → Ty → Option ConversionSequence) (lvalue : Bool) (ref : target.isReference = true)
    (related : referenceRelated h source.removeReference target.removeReference = true) :
    (classifyWith an h user source target lvalue).userConv = none ∧
      ((classifyWith an h user source target lvalue).valid = true ↔
        bindsDirectly h source.removeReference target.removeReference = true ∧
        if isLValueReference target then
          (cvStrip target.removeReference).2.const = true ∨
            (lvalue = true ∧ (cvStrip source.removeReference).2.const = false)
        else lvalue = false) := by
  unfold classifyWith
  simp only [ref, Bool.not_true, Bool.false_eq_true, if_false]
  cases binds : bindsDirectly h source.removeReference target.removeReference with
  | false =>
    have stop : ((cvStrip source.removeReference).1.equal (cvStrip target.removeReference).1 ||
        isBaseOf h (cvStrip target.removeReference).1 (cvStrip source.removeReference).1) = true := by
      simp only [bindsDirectly, Bool.or_eq_false_iff] at binds
      simpa [referenceRelated, binds.1.2, binds.2] using related
    simp [stop, noConversion]
  | true =>
    cases isLValueReference target <;> cases lvalue <;> cases toConst : (cvStrip target.removeReference).2.const <;>
      cases fromConst : (cvStrip source.removeReference).2.const <;> simp [noConversion, *]

/-- A reference of another type is bound to a temporary. -/
theorem classifyWith_unrelated (user : Ty → Ty → Option ConversionSequence) (lvalue : Bool) (ref : target.isReference = true)
    (unrelated : referenceRelated h source.removeReference target.removeReference = false) :
    ((classifyWith an h user source target lvalue).valid = true ↔
      bindsTemporary target = true ∧ (classifyValue an h user source target.removeReference).valid = true) ∧
    ((classifyWith an h user source target lvalue).valid = true →
      (classifyWith an h user source target lvalue).userConv = (classifyValue an h user source target.removeReference).userConv) := by
  simp only [referenceRelated, Bool.or_eq_false_iff] at unrelated
  obtain ⟨⟨⟨equal, same⟩, base⟩, bare⟩ := unrelated
  have binds : bindsDirectly h source.removeReference target.removeReference = false := by
    simp [bindsDirectly, equal, same, base]
  unfold classifyWith bindsTemporary
  simp only [ref, binds, same, bare, Bool.not_true, Bool.false_eq_true, if_false, Bool.or_self]
  cases isLValueReference target && (qualsOf target.removeReference).const || isRValueReference target <;>
    cases valid : (classifyValue an h user source target.removeReference).valid <;> simp [noConversion]

theorem classifyValue_rank (user : Ty → Ty → Option ConversionSequence) {rank : ConvRank}
    (e : standardRank an h source target = some rank) :
    (classifyValue an h user source target).valid = true ∧ (classifyValue an h user source target).userConv = none := by
  rw [classifyValue, e]
  exact ⟨rfl, rfl⟩

theorem isReference_removeReference (plain : target.isReference = false) : target.removeReference = target := by
  cases target <;> first | rfl | cases plain

/-- A reference that is bound to a related object drops a qualifier just where that is unchecked. -/
theorem classifyWith_related_drops (ref : target.isReference = true)
    (related : referenceRelated h source.removeReference target.removeReference = true) :
    ((classifyWith an h user source target lvalue).valid = true ∧ Drops h source target) ↔
      UncheckedBinding h source target lvalue := by
  have drops : Drops h source target ↔ source.removeReference.cv.within target.removeReference.cv = false := by
    rw [Drops, if_pos ⟨ref, related⟩]
  rw [(classifyWith_related user lvalue ref related).2, drops]
  constructor
  · rintro ⟨⟨binds, allowed⟩, lost⟩
    have base := isBaseOf_of_lost binds lost
    rw [(cv_of_isBaseOf base).1, (cv_of_isBaseOf base).2] at allowed
    exact ⟨base, allowed, within_eq_false.1 lost⟩
  · rintro ⟨base, allowed, lost⟩
    rw [(cv_of_isBaseOf base).1, (cv_of_isBaseOf base).2]
    exact ⟨⟨by simp [bindsDirectly, base], allowed⟩, within_eq_false.2 lost⟩

theorem dropsPointee_iff (free : target.isReference = true → referenceRelated h source.removeReference target.removeReference = false) :
    Drops h source target ↔ DropsPointee source.removeReference target.removeReference := by
  rw [Drops, if_neg]
  rintro ⟨ref, related⟩
  rw [free ref] at related
  cases related

/-- **Without user-defined conversions a qualifier is dropped just where that is unchecked.** -/
theorem standard_drops :
    ((classifyWith an h (fun _ _ => none) source target lvalue).valid = true ∧ Drops h source target) ↔
      UncheckedStandard an h source target lvalue := by
  have value : ∀ t, ((classifyValue an h (fun _ _ => none) source t).valid = true ∧ DropsPointee source.removeReference t) ↔
      UncheckedPointer an h source t := by
    intro t
    rw [← standardRank_drops, classifyValue]
    cases standardRank an h source t <;> simp [noConversion]
  unfold UncheckedStandard
  cases ref : target.isReference with
  | false =>
    rw [if_neg (by simp), dropsPointee_iff (h := h) (by simp [ref]), isReference_removeReference ref, ← value]
    simp [classifyWith, ref]
  | true =>
    rw [if_pos rfl]
    cases related : referenceRelated h source.removeReference target.removeReference with
    | true => rw [if_pos rfl, classifyWith_related_drops ref related]
    | false =>
      rw [if_neg (by simp), dropsPointee_iff fun _ => related, (classifyWith_unrelated _ _ ref related).1, and_assoc, value]

/-! ### User-defined conversions -/

/-- The conversion sequence that a constructor or an operator makes. -/
def userSequence (source target : Ty) (r : Nat) (meth : Method) : ConversionSequence :=
  { source := some source, target := some target, rank := .userDefined, valid := true, userDefined := true
    userConv := some (r, meth) }

theorem findSome_map {α β γ : Type} {l : List α} {g : α → Option γ} (g' : α → Option β) (k : β → γ)
    (eq : ∀ a, g a = (g' a).map k) : l.findSome? g = (l.findSome? g').map k := by
  rw [List.map_findSome?]
  exact congrArg (l.findSome? ·) (funext eq)

theorem asRecord_bind {α : Type} (t : Ty) (k : Nat → Option α) : t.asRecord.bind k = match t.unqualify with
    | .record r => k r
    | _ => none := by
  unfold Ty.asRecord
  generalize t.unqualify = u
  cases u <;> rfl

/-- The constructor or the operator of a user-defined conversion, and its class. -/
def userChoice (an : Analysis) (h : Hierarchy) (source target : Ty) : Option (Nat × Method) :=
  (target.asRecord.bind fun r => (converting an h source r).map fun c => (r, c.1)).orElse fun _ =>
    source.asRecord.bind fun r => (returning an h target r).map fun c => (r, c.1)

/-- What an operator makes. -/
def operatorSequence (an : Analysis) (source target : Ty) (r : Nat) (meth : Method) : Option ConversionSequence :=
  match meth.func with
  | some fn => if !an.explicit r meth && fn.ret.equal target then some (userSequence source target r meth) else none
  | none => none

/-- What a constructor makes. -/
def constructorSequence (an : Analysis) (h : Hierarchy) (source target : Ty) (r : Nat) (meth : Method) : Option ConversionSequence :=
  match meth.func with
  | some { params := [param], .. } =>
    if meth.name == (h.record r).name && !an.explicit r meth then
      match if meth.template then an.deduceParam param source else some param with
      | some param =>
        let sub := classifyWith an h (fun _ _ => none) source param false
        if sub.valid && sub.rank.toNat ≤ ConvRank.conversion.toNat then some (userSequence source target r meth) else none
      | none => none
    else none
  | _ => none

/-- The first of two sequences that there is. -/
def sequenceOr (a b : Option ConversionSequence) : Option ConversionSequence :=
  match a with
  | some cs => some cs
  | none => b

theorem sequenceOr_eq (a b : Option ConversionSequence) : sequenceOr a b = a.orElse fun _ => b := by
  cases a <;> rfl

/-- The loop over the constructors, and the one over the operators. -/
theorem findUserDefinedConversion_eq : findUserDefinedConversion an h source target =
    (userChoice an h source target).map fun c => userSequence source target c.1 c.2 := by
  have operators : ∀ r, (h.record r).methods.findSome? (operatorSequence an source target r) =
      (returning an h target r).map fun c => userSequence source target r c.1 := by
    intro r
    refine findSome_map _ _ fun meth => ?_
    unfold operatorSequence
    cases meth.func with
    | none => rfl
    | some fn =>
      rw [Option.filter_some]
      split <;> simp_all
  have ctors : ∀ r, (h.record r).methods.findSome? (constructorSequence an h source target r) =
      (converting an h source r).map fun c => userSequence source target r c.1 := by
    intro r
    refine findSome_map _ _ fun meth => ?_
    unfold constructorSequence takes paramOf
    split
    · split
      · split <;> rename_i eq
        · rw [eq, Option.filter_some]
          split <;> simp_all
        · rw [eq]
          rfl
      · rfl
    · split <;> rfl
  have mapped : (userChoice an h source target).map (fun c => userSequence source target c.1 c.2) =
      (target.asRecord.bind fun r : Nat => (converting an h source r).map fun c => userSequence source target r c.1).orElse
        fun _ => source.asRecord.bind fun r : Nat => (returning an h target r).map fun c => userSequence source target r c.1 := by
    unfold userChoice
    cases source.asRecord <;> cases target.asRecord with
    | none => simp [Function.comp_def]
    | some r =>
      simp only [Option.bind_some]
      cases converting an h source r <;> simp [Function.comp_def]
  rw [mapped, asRecord_bind, asRecord_bind, ← sequenceOr_eq]
  simp only [← operators, ← ctors]
  unfold sequenceOr constructorSequence operatorSequence
  rfl

theorem standardRank_same_class {r : Nat} (from_ : source.asRecord = some r) (to_ : target.asRecord = some r) :
    standardRank an h source target ≠ none := by
  have class_ : ∀ {t : Ty}, t.asRecord = some r → t.unqualify = .record r := by
    intro t eq
    unfold Ty.asRecord at eq
    split at eq
    · cases eq
      assumption
    · cases eq
  have plain : source.removeReference.unqualify = .record r := by
    have := class_ from_
    cases source <;> first | exact this | cases this
  unfold standardRank
  rw [plain, class_ to_]
  simp

theorem converting_takes {r : Nat} {meth : Method} {param : Ty} (found : converting an h source r = some (meth, param)) :
    paramOf an source meth = some param ∧ (classifyWith an h (fun _ _ => none) source param false).valid = true := by
  obtain ⟨m, -, found⟩ := List.exists_of_findSome?_eq_some found
  obtain ⟨p, taken, eq⟩ := Option.map_eq_some_iff.1 found
  simp only [Prod.mk.injEq] at eq
  obtain ⟨rfl, rfl⟩ := eq
  unfold takes at taken
  split at taken
  · obtain ⟨param, valid⟩ := Option.filter_eq_some_iff.1 taken
    simp only [Bool.and_eq_true] at valid
    exact ⟨param, valid.1⟩
  · cases taken

theorem returning_func {r : Nat} {meth : Method} {fn : Func} (found : returning an h target r = some (meth, fn)) :
    meth.func = some fn := by
  obtain ⟨m, -, found⟩ := List.exists_of_findSome?_eq_some found
  obtain ⟨f, taken, eq⟩ := Option.map_eq_some_iff.1 found
  simp only [Prod.mk.injEq] at eq
  obtain ⟨rfl, rfl⟩ := eq
  exact (Option.filter_eq_some_iff.1 taken).1

/-- **A user-defined conversion drops a qualifier just where that is unchecked.** -/
theorem user_drops (none_ : standardRank an h source target = none) :
    (∃ r meth, userChoice an h source target = some (r, meth) ∧ UserDrops an h source target r meth) ↔
      UncheckedUser an h source target := by
  unfold UncheckedUser
  cases class_ : target.asRecord.bind (converting an h source) with
  | some c =>
    obtain ⟨meth, param⟩ := c
    obtain ⟨r, record, found⟩ := Option.bind_eq_some_iff.1 class_
    obtain ⟨is, valid⟩ := converting_takes found
    have choice : userChoice an h source target = some (r, meth) := by simp [userChoice, record, found]
    have drops : UserDrops an h source target r meth ↔ Drops h source param := by
      rw [UserDrops, if_pos record, is]
      simp
    have unchecked : _ ↔ UncheckedStandard an h source param false := standard_drops
    simp [choice, drops, ← unchecked, valid]
  | none =>
    have choice : userChoice an h source target =
        source.asRecord.bind fun r => (returning an h target r).map fun c => (r, c.1) := by
      unfold userChoice
      cases record : target.asRecord with
      | none => rfl
      | some r =>
        rw [record, Option.bind_some] at class_
        simp [class_]
    rw [choice]
    constructor
    · rintro ⟨r', meth', chosen, drops⟩
      obtain ⟨r, from_, chosen⟩ := Option.bind_eq_some_iff.1 chosen
      obtain ⟨⟨meth, fn⟩, found, eq⟩ := Option.map_eq_some_iff.1 chosen
      simp only [Prod.mk.injEq] at eq
      obtain ⟨rfl, rfl⟩ := eq
      rw [UserDrops, if_neg fun to_ => standardRank_same_class from_ to_ none_, returning_func found] at drops
      obtain ⟨fn', eq, lost⟩ := drops
      cases eq
      exact ⟨r, meth, fn, from_, found, lost⟩
    · rintro ⟨r, meth, fn, from_, found, lost⟩
      refine ⟨r, meth, by simp [from_, found], ?_⟩
      rw [UserDrops, if_neg fun to_ => standardRank_same_class from_ to_ none_]
      exact ⟨fn, returning_func found, lost⟩

/-- What the conversion to a type that is no reference drops. -/
theorem classifyValue_drops (an : Analysis) (h : Hierarchy) (source target : Ty) :
    let cs := classifyValue an h (findUserDefinedConversion an h) source target
    (cs.valid = true ∧ match cs.userConv with
      | none => DropsPointee source.removeReference target
      | some (r, meth) => UserDrops an h source target r meth) ↔
      UncheckedPointer an h source target ∨ (standardRank an h source target = none ∧ UncheckedUser an h source target) := by
  have standard := standardRank_drops an h source target
  cases rank : standardRank an h source target with
  | some rank_ =>
    obtain ⟨valid, conv⟩ := classifyValue_rank (findUserDefinedConversion an h) rank
    simpa [valid, conv, rank] using standard
  | none =>
    have user := user_drops (h := h) rank
    simp only [rank, Option.isSome_none, Bool.false_eq_true, false_and, false_iff] at standard
    simp only [standard, false_or, true_and, ← user, classifyValue, rank, findUserDefinedConversion_eq]
    cases userChoice an h source target with
    | none => simp [noConversion]
    | some c =>
      obtain ⟨r, meth⟩ := c
      simp [userSequence]

/-- **A conversion that is found drops a qualifier just where that is unchecked.** -/
theorem sequence_drops :
    ((classifyConversion an h (some source) (some target) lvalue).valid = true ∧
      SequenceDrops an h source target (classifyConversion an h (some source) (some target) lvalue)) ↔
      UncheckedSequence an h source target lvalue := by
  simp only [classifyConversion, SequenceDrops, UncheckedSequence, UncheckedStandard]
  cases ref : target.isReference with
  | false =>
    have value := classifyValue_drops an h source target
    have plain := isReference_removeReference ref
    have free : target.isReference = true → referenceRelated h source.removeReference target.removeReference = false := by simp [ref]
    simp only [classifyWith, ref, Bool.not_false, if_true, Bool.false_eq_true, if_false, false_imp_iff, true_and, plain, ← value,
      dropsPointee_iff free]
  | true =>
    cases related : referenceRelated h source.removeReference target.removeReference with
    | true =>
      have conv : (classifyWith an h (findUserDefinedConversion an h) source target lvalue).userConv = none :=
        (classifyWith_related _ _ ref related).1
      simp [conv, classifyWith_related_drops ref related]
    | false =>
      have value := classifyValue_drops an h source target.removeReference
      have free : target.isReference = true → referenceRelated h source.removeReference target.removeReference = false := fun _ => related
      obtain ⟨valid, conv⟩ :=
        classifyWith_unrelated (findUserDefinedConversion an h) lvalue ref related
      simp only [if_true, Bool.false_eq_true, if_false, true_imp_iff, ← and_or_left, true_and, ← value,
        dropsPointee_iff free]
      constructor
      · rintro ⟨is, drops⟩
        rw [conv is] at drops
        exact ⟨(valid.1 is).1, (valid.1 is).2, drops⟩
      · rintro ⟨temporary, is, drops⟩
        have is := valid.2 ⟨temporary, is⟩
        rw [conv is]
        exact ⟨is, drops⟩

/-! ### References under `IsConvertible` -/

/-- What binds to a reference and drops nothing of its own does not point, or has the type that is bound. -/
theorem not_drops {e : Ty} (plain : target.removeReference = e) (ref : target.isReference = true)
    (within_ : source.removeReference.cv.within e.cv = true)
    (same : source.removeReference.equal e = true ∨ pointed source.removeReference = none) : ¬Drops h source target := by
  subst plain
  unfold Drops
  split
  · simp [within_]
  · rename_i unrelated
    rintro ⟨q, f, t, pf, -⟩
    rcases same with equal | nowhere
    · exact unrelated ⟨ref, by simp [referenceRelated, equal]⟩
    · rw [nowhere] at pf
      cases pf

theorem not_drops_of_equal {e : Ty} (is : target = .lvalueReference e ∨ target = .rvalueReference e)
    (equal : source.equal target = true) : ¬Drops h source target := by
  have plain : target.removeReference = e := by rcases is with rfl | rfl <;> rfl
  have ref : target.isReference = true := by rcases is with rfl | rfl <;> rfl
  by_cases itself : source.removeReference = source
  · -- a reference under qualifications by nothing
    have nowhere : pointed source = none := by
      have bare := (equal_unqualify equal).1
      unfold pointed
      split <;> rename_i shape
      · rw [shape] at bare
        rcases is with rfl | rfl <;> cases bare
      · rw [shape] at bare
        rcases is with rfl | rfl <;> cases bare
      · rfl
    refine not_drops plain ref ?_ (.inr (by rw [itself, nowhere]))
    have none_ : target.cv = {} := by rcases is with rfl | rfl <;> rfl
    rw [itself, Ty.cv_of_equal equal, none_]
    rfl
  · have same : source.removeReference.equal e = true := by
      cases source with
      | lvalueReference v | rvalueReference v => rcases is with rfl | rfl <;> first
        | cases equal
        | simpa [Ty.equal, Ty.strictOther, Ty.removeReference] using equal
      | _ => exact absurd rfl itself
    exact not_drops plain ref (by rw [Ty.cv_of_equal same, Qual.within_refl]) (.inl same)

/-- **A conversion to a reference drops a qualifier just where that is unchecked.** -/
theorem reference_drops {e : Ty} (is : target = .lvalueReference e ∨ target = .rvalueReference e) :
    (isConvertible h source target = true ∧ Drops h source target) ↔ UncheckedReference h source.removeReference target e := by
  have plain : target.removeReference = e := by rcases is with rfl | rfl <;> rfl
  have ref : target.isReference = true := by rcases is with rfl | rfl <;> rfl
  have differ : isConvertible h source target = true ∧ Drops h source target ↔
      (if source.removeReference.equal e || isBaseOf h e source.removeReference then
          isLValueReference target = true → (qualsOf e).const = true ∨ (qualsOf source.removeReference).const = false
        else bindsTemporary target = true ∧ isConvertibleValue h source.removeReference e = true) ∧ Drops h source target := by
    refine and_congr_left fun drops => ?_
    have other : source.equal target = false := by
      cases equal : source.equal target with
      | false => rfl
      | true => exact absurd drops (not_drops_of_equal is equal)
    rcases is with rfl | rfl
    · simp only [isConvertible, other, Bool.false_or, bindsTemporary, isLValueReference, isRValueReference, plain]
      cases source.removeReference.equal e || isBaseOf h e source.removeReference <;> simp
    · simp only [isConvertible, other, Bool.false_or, bindsTemporary, isLValueReference, isRValueReference, plain]
      cases source.removeReference.equal e || isBaseOf h e source.removeReference <;> simp
  rw [differ]
  unfold UncheckedReference
  cases base : isBaseOf h e source.removeReference with
  | true =>
    have drops : Drops h source target ↔ source.removeReference.cv.within e.cv = false := by
      rw [Drops, plain, if_pos ⟨ref, by simp [referenceRelated, base]⟩]
    simp [drops]
  | false =>
    cases equal : source.removeReference.equal e with
    | true =>
      have related : referenceRelated h source.removeReference e = true := by simp [referenceRelated, equal]
      have kept : source.removeReference.cv.within e.cv = true := by rw [Ty.cv_of_equal equal, Qual.within_refl]
      have : ¬Drops h source target := not_drops plain ref kept (.inl equal)
      simp [this, related, kept]
    | false =>
      have drops : Drops h source target ↔ if referenceRelated h source.removeReference e = true
          then source.removeReference.cv.within e.cv = false else DropsPointee source.removeReference e := by
        rw [Drops, plain, ref]
        simp
      rw [drops]
      simp only [Bool.or_self, Bool.false_eq_true, if_false, and_assoc, ← isConvertibleValue_drops]
      cases referenceRelated h source.removeReference e <;> simp

/-- **`IsConvertible` drops a qualifier just where that is unchecked.** -/
theorem isConvertible_drops (bare : ∀ q t, target = .qualified q t → t.isReference = false) :
    (isConvertible h source target = true ∧ Drops h source target) ↔ UncheckedConvertible h source target := by
  unfold UncheckedConvertible
  split
  · exact reference_drops (.inl rfl)
  · exact reference_drops (.inr rfl)
  · rename_i noL noR
    have value : target.isReference = false := by
      cases target with
      | qualified q t => exact bare q t rfl
      | lvalueReference e => exact absurd rfl (noL e)
      | rvalueReference e => exact absurd rfl (noR e)
      | _ => rfl
    have kept := isReference_removeReference value
    have is : isConvertible h source target = isConvertibleValue h source target := by
      unfold isConvertible
      split
      · exact absurd rfl (noL _)
      · exact absurd rfl (noR _)
      · rw [isConvertibleValue, convertible]
        cases source.equal target <;> simp
    rw [is, dropsPointee_iff (h := h) (by simp [value]), kept]
    by_cases itself : source.removeReference = source
    · rw [itself, isConvertibleValue_drops]
      refine (or_iff_left_of_imp ?_).symm
      rintro ⟨f, t, pf, pt, unchecked⟩
      exact ⟨{}, f, t, by rw [pointed, pf], pt, unchecked⟩
    · obtain ⟨v, refers⟩ : ∃ v, source = .lvalueReference v ∨ source = .rvalueReference v := by
        cases source with
        | lvalueReference v => exact ⟨v, .inl rfl⟩
        | rvalueReference v => exact ⟨v, .inr rfl⟩
        | _ => exact absurd rfl itself
      have referred : source.removeReference = v := by rcases refers with rfl | rfl <;> rfl
      have nowhere : pointed source = none := by rcases refers with rfl | rfl <;> rfl
      rw [referred, isConvertibleValue_referred refers]
      refine (or_iff_right_of_imp ?_).symm
      rintro ⟨q, f, t, pf, -⟩
      rw [nowhere] at pf
      cases pf

end

end

/-- **No conversion sequence that is found and nothing that `IsConvertible` allows drops a qualifier**, just
if there is nothing in it that they leave unchecked. -/
theorem conversions_keep_iff (an : Analysis) (h : Hierarchy) (source target : Ty) (lvalue : Bool)
    (bare : ∀ q t, target = .qualified q t → t.isReference = false) :
    (((classifyConversion an h (some source) (some target) lvalue).valid = true →
        ¬SequenceDrops an h source target (classifyConversion an h (some source) (some target) lvalue)) ↔
      ¬UncheckedSequence an h source target lvalue) ∧
    ((isConvertible h source target = true → ¬Drops h source target) ↔ ¬UncheckedConvertible h source target) := by
  constructor
  · rw [← sequence_drops, not_and]
  · rw [← isConvertible_drops bare, not_and]

/-- A unit without Objective-C, templates in progress or explicit constructors. -/
def bareUnit : Analysis where
  isDependentType := fun _ => false
  hasDependentBase := fun _ => false
  objcConversion := fun _ _ => none
  deduceParam := fun _ _ => none
  explicit := fun _ _ => false

/-- No class is declared. -/
def classless : Hierarchy := .ofRecords [] (.refl true)

/-- `int *` and `volatile int *` -/
def intPointer : Ty := .pointer (.basic .int)
def volatilePointer : Ty := .pointer (.qualified { volatile := true } (.basic .int))

/-- `int *` converts to `volatile int *`, and drops nothing. -/
theorem conversions_keep_volatile :
    (classifyConversion bareUnit classless (some intPointer) (some volatilePointer) true).valid = true ∧
    ¬SequenceDrops bareUnit classless intPointer volatilePointer
      (classifyConversion bareUnit classless (some intPointer) (some volatilePointer) true) := by
  have found : (classifyConversion bareUnit classless (some intPointer) (some volatilePointer) true).valid = true := by decide
  have both := conversions_keep_iff bareUnit classless intPointer volatilePointer true (fun q t e => by cases e)
  refine ⟨found, both.1.2 ?_ found⟩
  rintro (standard | ⟨-, rank, -⟩)
  · rcases standard with ⟨f, t, pointer | ⟨l, i, eq⟩, pt, unchecked⟩ | ⟨objc, -⟩
    · cases pointer
      cases pt
      rcases unchecked.lost with ⟨lost, -⟩ | ⟨lost, -⟩ <;> cases lost
    · cases eq
    · cases objc
  · revert rank
    decide

/-- `volatile int *` converts to `int *`. -/
theorem volatile_dropped : ¬ ∀ (an : Analysis) (h : Hierarchy) (source target : Ty) (lvalue : Bool),
    (classifyConversion an h (some source) (some target) lvalue).valid = true →
    ¬SequenceDrops an h source target (classifyConversion an h (some source) (some target) lvalue) := by
  intro all
  refine all bareUnit classless volatilePointer intPointer true (by decide) ?_
  have standard : (classifyConversion bareUnit classless (some volatilePointer) (some intPointer) true).userConv = none := by decide
  rw [SequenceDrops, standard]
  change DropsPointee volatilePointer intPointer
  exact ⟨{}, _, _, rfl, rfl, rfl⟩

end Vcx.Sema
