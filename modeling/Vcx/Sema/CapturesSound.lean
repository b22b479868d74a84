import Mathlib.Data.List.Forall2
import Vcx.Sema.Captures

/-!
# When lambda captures are complete and minimal

What one name does to the lambdas around it, what a body does to them, and so what each lambda has captured when
its body is done: the variables the checker met (`Lambda.met`). These are the ones C++ says exactly on the bodies
whose lambdas are all `kept`.
-/

namespace Vcx.Captures
set_option autoImplicit false
open Vcx.Lib

variable {env inner : List Entry} {info info' : LambdaInfo} {st st' st'' outer outer' : List LambdaInfo}
  {met met' : List Nat} {v : Nat} {name : String} {e : Entry}

/-! ### Lookup -/

theorem name_of_lookup (found : lookup env name = some (v, e)) : e.name = name := by
  have passes : (e.name == name) = true := resolve_passes found
  exact beq_iff_eq.1 passes

theorem lookup_name_unique {name' : String} {e' : Entry} (found : lookup env name = some (v, e))
    (found' : lookup env name' = some (v, e')) : name = name' := by
  have same := (atLevel_of_resolve found).symm.trans (atLevel_of_resolve found')
  cases same
  rw [← name_of_lookup found, ← name_of_lookup found']

/-! ### The lambdas around -/

/-- The checker's lookups of names give variables outside a lambda for those it has captured, and no others. -/
def Fits (env : List Entry) (st : List LambdaInfo) : Prop :=
  ∀ info ∈ st, info.inner ≤ env.length ∧ ∀ name v e, lookup env name = some (v, e) → v < info.inner →
    ((∃ c ∈ info.captures, c.name = name) ↔ ∃ c ∈ info.captures, c.sym = some v)

theorem Fits.tail (fits : Fits env (info :: outer)) : Fits env outer :=
  fun info' mem => fits info' (List.mem_cons_of_mem info mem)

theorem Fits.extend (fits : Fits env st) : Fits (inner ++ env) st := by
  intro info mem
  obtain ⟨bound, names⟩ := fits info mem
  refine ⟨by rw [List.length_append]; exact Nat.le_trans bound (Nat.le_add_left ..), fun name v e found lt => ?_⟩
  exact names name v e (resolve_of_append found (Nat.lt_of_lt_of_le lt bound)) lt

/-- A lambda hands on what it meets, has not captured, and captures by default. -/
def passOn (info : LambdaInfo) (met : List Nat) : List Nat :=
  if info.default.isSome then met.filter fun v => v < info.inner && info.count v = 0 else []

theorem mem_passOn : v ∈ passOn info met ↔
    info.default.isSome = true ∧ v ∈ met ∧ v < info.inner ∧ info.count v = 0 := by
  unfold passOn
  split_ifs with default
  · simp [default]
  · simp [default]

/-- What the variables met in a lambda do to it. -/
structure Grows (env : List Entry) (met : List Nat) (info info' : LambdaInfo) : Prop where
  inner : info'.inner = info.inner
  default : info'.default = info.default
  added : ∃ new, info'.captures = info.captures ++ new ∧
    ∀ c ∈ new, ∃ v e, c.sym = some v ∧ v < info.inner ∧ lookup env c.name = some (v, e)
  count : ∀ v < info.inner, info'.count v =
    info.count v + if info.count v = 0 ∧ info.default.isSome = true ∧ v ∈ met then 1 else 0
  uncaptured : ∀ v < info.inner, v ∈ info'.uncaptured ↔
    v ∈ info.uncaptured ∨ info.count v = 0 ∧ info.default = none ∧ v ∈ met

/-- What the variables met under lambdas do to all of them. -/
inductive Grown (env : List Entry) : List Nat → List LambdaInfo → List LambdaInfo → Prop
  | nil {met : List Nat} : Grown env met [] []
  | cons {met : List Nat} {info info' : LambdaInfo} {outer outer' : List LambdaInfo}
      (first : Grows env met info info') (rest : Grown env (passOn info met) outer outer') :
      Grown env met (info :: outer) (info' :: outer')

theorem Grows.congr (same : ∀ v, v ∈ met ↔ v ∈ met') (grows : Grows env met info info') :
    Grows env met' info info' where
  inner := grows.inner
  default := grows.default
  added := grows.added
  count v lt := by simp only [grows.count v lt, same]
  uncaptured v lt := by simp only [grows.uncaptured v lt, same]

theorem Grown.congr (grown : Grown env met st st') (same : ∀ v, v ∈ met ↔ v ∈ met') : Grown env met' st st' := by
  induction grown generalizing met' with
  | nil => exact .nil
  | cons first rest ih =>
    refine .cons (first.congr same) (ih fun v => ?_)
    simp only [mem_passOn, same]

theorem Grows.of_unmet (unmet : ∀ v < info.inner, info.count v = 0 → v ∉ met) : Grows env met info info where
  inner := rfl
  default := rfl
  added := ⟨[], (List.append_nil _).symm, fun c mem => absurd mem List.not_mem_nil⟩
  count v lt := by
    rw [if_neg, Nat.add_zero]
    rintro ⟨zero, -, mem⟩
    exact unmet v lt zero mem
  uncaptured v lt := by
    refine ⟨.inl, ?_⟩
    rintro (had | ⟨zero, -, mem⟩)
    · exact had
    · exact absurd mem (unmet v lt zero)

theorem Grown.refl : Grown env [] st st := by
  induction st with
  | nil => exact .nil
  | cons info outer ih =>
    refine .cons (.of_unmet fun v _ _ => List.not_mem_nil) (ih.congr fun v => ?_)
    simp [mem_passOn]

/-- A lambda that has captured all it meets, or is around it all, leaves the others alone. -/
theorem Grown.stop (unmet : ∀ v < info.inner, info.count v = 0 → v ∉ met) :
    Grown env met (info :: outer) (info :: outer) := by
  refine .cons (.of_unmet unmet) (Grown.refl.congr fun v => ⟨fun mem => absurd mem List.not_mem_nil, fun mem => ?_⟩)
  obtain ⟨-, mem, lt, zero⟩ := mem_passOn.1 mem
  exact absurd mem (unmet v lt zero)

theorem Grows.trans {info'' : LambdaInfo} (first : Grows env met info info') (second : Grows env met' info' info'') :
    Grows env (met ++ met') info info'' where
  inner := second.inner.trans first.inner
  default := second.default.trans first.default
  added := by
    obtain ⟨new, eq, all⟩ := first.added
    obtain ⟨new', eq', all'⟩ := second.added
    refine ⟨new ++ new', by rw [eq', eq, List.append_assoc], fun c mem => ?_⟩
    obtain mem | mem := List.mem_append.1 mem
    · exact all c mem
    · rw [first.inner] at all'
      exact all' c mem
  count v lt := by
    rw [second.count v (first.inner ▸ lt), first.count v lt, first.default]
    simp only [List.mem_append]
    by_cases zero : info.count v = 0
    · by_cases mem : v ∈ met <;> cases info.default.isSome <;> simp [zero, mem]
    · simp [zero]
  uncaptured v lt := by
    rw [second.uncaptured v (first.inner ▸ lt), first.uncaptured v lt, first.count v lt, first.default]
    simp only [List.mem_append]
    cases info.default with
    | none =>
      simp only [Option.isSome_none, Bool.false_eq_true, false_and, and_false, if_false, Nat.add_zero, true_and]
      tauto
    | some byRef => simp

theorem Grown.trans (first : Grown env met st st') (second : Grown env met' st' st'') :
    Grown env (met ++ met') st st'' := by
  induction first generalizing met' st'' with
  | nil =>
    cases second
    exact .nil
  | @cons met info info' outer outer' grows rest ih =>
    cases second with
    | cons grows' rest' =>
      refine .cons (grows.trans grows') ((ih rest').congr fun v => ?_)
      simp only [List.mem_append, mem_passOn, grows.inner, grows.default]
      constructor
      · rintro (⟨some, mem, lt, zero⟩ | ⟨some, mem, lt, zero⟩)
        · exact ⟨some, .inl mem, lt, zero⟩
        · rw [grows.count v lt] at zero
          exact ⟨some, .inr mem, lt, (Nat.add_eq_zero_iff.1 zero).1⟩
      · rintro ⟨some, mem, lt, zero⟩
        by_cases met : v ∈ met
        · exact .inl ⟨some, met, lt, zero⟩
        · refine .inr ⟨some, mem.resolve_left met, lt, ?_⟩
          rw [grows.count v lt, zero, if_neg fun all => met all.2.2]

theorem count_pos_iff : 0 < info.count v ↔ ∃ c ∈ info.captures, c.sym = some v := by
  simp [LambdaInfo.count, List.countP_pos_iff]

theorem any_name_iff : info.captures.any (·.name == name) = true ↔ ∃ c ∈ info.captures, c.name = name := by
  simp [List.any_eq_true]

theorem count_append_single {c : Capture} (lambda : LambdaInfo) (captures : List Capture)
    (list : lambda.captures = captures ++ [c]) (v : Nat) :
    lambda.count v = captures.countP (·.sym = some v) + if c.sym = some v then 1 else 0 := by
  rw [LambdaInfo.count, list, List.countP_append]
  by_cases same : c.sym = some v <;> simp [same]

/-- A name met in lambdas does to them what its variable does. -/
theorem implicitCapture_grown (fits : Fits env st) (found : lookup env name = some (v, e)) :
    Grown env [v] st (implicitCapture v name st) := by
  induction st with
  | nil => exact .nil
  | cons info outer ih =>
    obtain ⟨-, names⟩ := fits info List.mem_cons_self
    rw [implicitCapture]
    split_ifs with inside captured
    · refine .stop fun w lt _ mem => ?_
      rw [List.mem_singleton.1 mem] at lt
      exact Nat.not_lt.2 inside lt
    · refine .stop fun w lt zero mem => ?_
      obtain rfl := List.mem_singleton.1 mem
      have pos := count_pos_iff.2 ((names name w e found lt).1 (any_name_iff.1 captured))
      omega
    · have lt : v < info.inner := Nat.not_le.1 inside
      have zero : info.count v = 0 := by
        by_contra some
        exact captured (any_name_iff.2 ((names name v e found lt).2 (count_pos_iff.1 (Nat.pos_of_ne_zero some))))
      cases default : info.default with
      | none =>
        refine .cons ⟨rfl, default.symm, ⟨[], (List.append_nil _).symm, fun c mem => absurd mem List.not_mem_nil⟩,
          fun w ltW => ?_, fun w ltW => ?_⟩ (Grown.refl.congr fun w => ?_)
        · simp [LambdaInfo.count, default]
        · simp only [List.mem_append, List.mem_singleton, default, true_and]
          refine or_congr_right ⟨fun same => ⟨same ▸ zero, same⟩, And.right⟩
        · simp [mem_passOn, default]
      | some byRef =>
        refine .cons ⟨rfl, default.symm, ⟨[_], rfl, fun c mem => ?_⟩, fun w ltW => ?_, fun w ltW => ?_⟩
          ((ih fits.tail).congr fun w => ?_)
        · rw [List.mem_singleton.1 mem]
          exact ⟨v, e, rfl, lt, found⟩
        · rw [count_append_single _ info.captures rfl w]
          simp only [LambdaInfo.count] at zero ⊢
          by_cases same : w = v
          · subst same
            simp [zero, default]
          · simp [same, Ne.symm same]
        · simp [default]
        · simp only [mem_passOn, List.mem_singleton, default, Option.isSome_some, true_and]
          exact ⟨fun same => ⟨same, same ▸ lt, same ▸ zero⟩, And.left⟩

/-- The lambdas still fit after what is met in them. -/
theorem Fits.grown (fits : Fits env st) (grown : Grown env met st st') : Fits env st' := by
  induction grown with
  | nil => exact fits
  | @cons met info info' outer outer' first rest ih =>
    intro info'' mem
    obtain rfl | mem := List.mem_cons.1 mem
    · obtain ⟨bound, names⟩ := fits info List.mem_cons_self
      refine ⟨first.inner ▸ bound, fun name v e found lt => ?_⟩
      rw [first.inner] at lt
      obtain ⟨new, eq, all⟩ := first.added
      have news : (∃ c ∈ new, c.name = name) ↔ ∃ c ∈ new, c.sym = some v := by
        refine exists_congr fun c => and_congr_right fun mem => ?_
        obtain ⟨w, f, sym, -, there⟩ := all c mem
        rw [sym, Option.some.injEq]
        constructor
        · rintro rfl
          rw [there] at found
          exact congrArg Prod.fst (Option.some.inj found)
        · rintro rfl
          exact lookup_name_unique there found
      simp only [eq, List.mem_append, or_and_right, exists_or]
      exact or_congr (names name v e found lt) news
    · exact ih fits.tail info'' mem

/-- Outside the scope it was met in, a variable has done the same. -/
theorem Grown.restrict {env' : List Entry} (longer : ∃ inner, env' = inner ++ env) (fits : Fits env st)
    (grown : Grown env' met st st') : Grown env met st st' := by
  obtain ⟨inner, rfl⟩ := longer
  induction grown with
  | nil => exact .nil
  | @cons met info info' outer outer' first rest ih =>
    obtain ⟨bound, -⟩ := fits info List.mem_cons_self
    refine .cons { first with added := ?_ } (ih fits.tail)
    obtain ⟨new, eq, all⟩ := first.added
    refine ⟨new, eq, fun c mem => ?_⟩
    obtain ⟨v, e, sym, lt, found⟩ := all c mem
    exact ⟨v, e, sym, lt, resolve_of_append found (Nat.lt_of_lt_of_le lt bound)⟩

/-! ### What a body does -/

/-- What a lambda has captured when its body is done. -/
structure Has (info : LambdaInfo) (k : Lambda) : Prop where
  count : ∀ v ∈ k.outside, info.count v =
    k.found.count v + if v ∉ k.found ∧ k.default.isSome = true ∧ v ∈ k.met then 1 else 0
  uncaptured : ∀ v ∈ k.outside, v ∈ info.uncaptured ↔ v ∉ k.found ∧ k.default = none ∧ v ∈ k.met

/-- From one state to another, variables are met and lambdas done. -/
structure Ran (met : List Nat) (lambdas : List Lambda) (s s' : State) : Prop where
  grown : Grown s.env met s.lambdas s'.lambdas
  done : ∃ new, s'.done = s.done ++ new ∧ List.Forall₂ Has new lambdas

theorem Ran.refl {s : State} {env : List Entry} : Ran [] [] s { s with env } :=
  ⟨.refl, [], (List.append_nil _).symm, .nil⟩

theorem Ran.trans {met met' : List Nat} {ks ks' : List Lambda} {s s' s'' : State} (fits : Fits s.env s.lambdas)
    (first : Ran met ks s s') (longer : ∃ inner, s'.env = inner ++ s.env) (second : Ran met' ks' s' s'') :
    Ran (met ++ met') (ks ++ ks') s s'' := by
  obtain ⟨new, done, all⟩ := first.done
  obtain ⟨new', done', all'⟩ := second.done
  refine ⟨first.grown.trans ?_, new ++ new', by rw [done', done, List.append_assoc], List.rel_append all all'⟩
  exact second.grown.restrict longer (fits.grown first.grown)

theorem declares_extends (item : Item) (env : List Entry) : ∃ inner, item.declares env = inner ++ env := by
  cases item with
  | declare name storage => exact ⟨[_], rfl⟩
  | use name odr => exact ⟨[], rfl⟩
  | block body => exact ⟨[], rfl⟩
  | lambda captures default params body => exact ⟨[], rfl⟩

/-- The captures written in a lambda-introducer. -/
def CaptureList.listed (outer : List Entry) : CaptureList → List Capture
  | .nil => []
  | .simple name byRef rest =>
    (match lookup outer name with
      | some (v, e) => if e.storage = .other then [] else [⟨name, some v, byRef⟩]
      | none => []) ++ rest.listed outer
  | .init name byRef _ rest => ⟨name, none, byRef⟩ :: rest.listed outer

theorem CaptureList.check_snd (captures : CaptureList) (outer : List Entry) (s : State) (list : List Capture) :
    (captures.check outer s list).2 = list ++ captures.listed outer := by
  cases captures with
  | nil => exact (List.append_nil _).symm
  | simple name byRef rest =>
    rw [CaptureList.check, CaptureList.listed]
    cases lookup outer name with
    | none => exact rest.check_snd outer s list
    | some found =>
      obtain ⟨v, e⟩ := found
      simp only
      split_ifs
      · exact rest.check_snd outer s list
      · rw [rest.check_snd, List.append_assoc]
  | init name byRef value rest =>
    rw [CaptureList.check, CaptureList.listed, rest.check_snd, List.append_assoc, List.singleton_append]

theorem CaptureList.listed_count (captures : CaptureList) (late : List Nat) (outer : List Entry) (v : Nat) :
    (captures.listed outer).countP (·.sym = some v) = (captures.explicit .checker late outer).count v := by
  cases captures with
  | nil => rfl
  | simple name byRef rest =>
    rw [CaptureList.explicit, CaptureList.listed, List.countP_append, List.count_append, rest.listed_count late outer v]
    congr 1
    rw [Reading.lookup]
    cases lookup outer name with
    | none => rfl
    | some found =>
      obtain ⟨w, e⟩ := found
      simp only
      split_ifs
      · rfl
      · by_cases same : w = v <;> simp [same]
  | init name byRef value rest =>
    rw [CaptureList.explicit, CaptureList.listed, ← rest.listed_count late outer v]
    simp

theorem CaptureList.declares_eq (captures : CaptureList) (outer env : List Entry) : ∃ inits,
    captures.declares env = inits ++ env ∧
      ∀ c ∈ captures.listed outer, (∃ v e, c.sym = some v ∧ lookup outer c.name = some (v, e)) ∨
        c.sym = none ∧ initEntry c.name ∈ inits := by
  cases captures with
  | nil => exact ⟨[], rfl, fun c mem => absurd mem List.not_mem_nil⟩
  | simple name byRef rest =>
    obtain ⟨inits, eq, all⟩ := rest.declares_eq outer env
    refine ⟨inits, eq, fun c mem => ?_⟩
    rw [CaptureList.listed] at mem
    obtain mem | mem := List.mem_append.1 mem
    · cases found : lookup outer name with
      | none => simp [found] at mem
      | some found' =>
        obtain ⟨v, e⟩ := found'
        simp only [found] at mem
        split_ifs at mem
        · cases mem
        · rw [List.mem_singleton.1 mem]
          exact .inl ⟨v, e, rfl, found⟩
    · exact all c mem
  | init name byRef value rest =>
    obtain ⟨inits, eq, all⟩ := rest.declares_eq outer (initEntry name :: env)
    refine ⟨inits ++ [initEntry name], ?_, fun c mem => ?_⟩
    · rw [CaptureList.declares, eq, List.append_assoc, List.singleton_append]
    · rw [CaptureList.listed] at mem
      obtain rfl | mem := List.mem_cons.1 mem
      · exact .inr ⟨rfl, List.mem_append_right _ List.mem_cons_self⟩
      · refine (all c mem).imp_right fun ⟨sym, there⟩ => ⟨sym, List.mem_append_left _ there⟩

theorem bodyScope_extends (captures : CaptureList) (params : List String) (env : List Entry) :
    ∃ inner, bodyScope captures params env = inner ++ env := by
  obtain ⟨inits, eq, -⟩ := captures.declares_eq env env
  exact ⟨_, by rw [bodyScope, eq, ← List.append_assoc]⟩

theorem Fits.open (fits : Fits env st) (captures : CaptureList) (params : List String) (default : Option Bool) :
    Fits (bodyScope captures params env)
      ({ inner := env.length, default, captures := captures.listed env } :: st) := by
  obtain ⟨inits, eq, all⟩ := captures.declares_eq env env
  unfold bodyScope
  rw [eq, ← List.append_assoc]
  intro info mem
  obtain rfl | mem := List.mem_cons.1 mem
  · refine ⟨by rw [List.length_append]; exact Nat.le_add_left .., fun name v e found lt => ?_⟩
    have there := resolve_of_append found lt
    constructor
    · rintro ⟨c, mem, rfl⟩
      obtain ⟨w, f, sym, found'⟩ | ⟨-, declared⟩ := all c mem
      · refine ⟨c, mem, ?_⟩
        have same := found'.symm.trans there
        rw [sym, (Prod.mk.inj (Option.some.inj same)).1]
      · obtain ⟨k, -, passes⟩ := not_passes_of_append found lt (List.mem_append_right _ declared)
        simp [initEntry] at passes
    · rintro ⟨c, mem, sym⟩
      obtain ⟨w, f, sym', found'⟩ | ⟨none, -⟩ := all c mem
      · rw [sym] at sym'
        cases sym'
        exact ⟨c, mem, lookup_name_unique found' there⟩
      · rw [sym] at none
        cases none
  · exact fits.extend info mem

theorem mem_automatics : v ∈ automatics env ↔ ∃ e, atLevel env v = some e ∧ e.storage = .automatic := by
  unfold automatics
  rw [List.mem_filter, List.mem_range, Option.any_eq_true]
  simp only [decide_eq_true_eq]
  refine ⟨And.right, fun there => ⟨?_, there⟩⟩
  obtain ⟨e, there, -⟩ := there
  rw [← List.length_reverse]
  exact (List.getElem?_eq_some_iff.1 there).1

theorem lt_of_automatic (mem : v ∈ automatics env) : v < env.length :=
  List.mem_range.1 (List.mem_filter.1 mem).1

theorem Ran.lambda {late : List Nat} {captures : CaptureList} {default : Option Bool} {params : List String}
    {body : Items} {metInits : List Nat} {ksInits ks : List Lambda} {s s₁ s₂ : State}
    (fits : Fits s.env s.lambdas) (introducer : Ran metInits ksInits s s₁)
    (inside : Ran (body.needs .checker late (bodyScope captures params s.env)) ks
      { s₁ with
        env := bodyScope captures params s.env
        lambdas := { inner := s.env.length, default, captures := captures.listed s.env } :: s₁.lambdas } s₂) :
    Ran (metInits ++ implicit default s.env (captures.explicit .checker late s.env)
        (body.needs .checker late (bodyScope captures params s.env)))
      (ksInits ++ ks ++ [lambdaAt late s.env captures default params body]) s (s₂.pop s.env) := by
  obtain ⟨newInits, doneInits, allInits⟩ := introducer.done
  obtain ⟨grown, new, done, all⟩ := inside
  have zero (v : Nat) : (captures.listed s.env).countP (·.sym = some v) = 0 ↔
      v ∉ captures.explicit .checker late s.env := by
    rw [captures.listed_count late, List.count_eq_zero]
  cases eq : s₂.lambdas with
  | nil =>
    rw [eq] at grown
    cases grown
  | cons info' outer' =>
    rw [eq] at grown
    cases grown with
    | cons first rest =>
      have popped : s₂.pop s.env = { env := s.env, lambdas := outer', done := s₂.done ++ [info'] } := by
        rw [State.pop, eq]
      rw [popped]
      refine ⟨introducer.grown.trans ?_, newInits ++ new ++ [info'], ?_, ?_⟩
      · have outside := rest.restrict (bodyScope_extends captures params s.env) (fits.grown introducer.grown)
        refine outside.congr fun v => ?_
        simp only [mem_passOn, LambdaInfo.count, zero, implicit]
        split_ifs with some
        · simp [some]
        · simp [some]
      · rw [done, doneInits, List.append_assoc, List.append_assoc, List.append_assoc]
      · refine List.rel_append (List.rel_append allInits all) (.cons ⟨fun v mem => ?_, fun v mem => ?_⟩ .nil)
        · rw [first.count v (lt_of_automatic mem)]
          simp only [LambdaInfo.count, zero]
          rw [captures.listed_count late]
          rfl
        · rw [first.uncaptured v (lt_of_automatic mem)]
          simp only [LambdaInfo.count, zero, List.not_mem_nil, false_or]
          rfl

theorem checkIdent_grown (fits : Fits env st) (late : List Nat) (name : String) (odr : Bool) :
    Grown env (Reading.checker.use late env name odr) st (checkIdent env name st) := by
  unfold Reading.use checkIdent Reading.lookup
  cases found : lookup env name with
  | none => exact .refl
  | some found' =>
    obtain ⟨v, e⟩ := found'
    simp only
    by_cases counted : Reading.checker.counts odr e = true
    · have checked : (decide (e.storage = .automatic) && !e.init) = true := counted
      rw [if_pos counted, if_pos checked]
      exact implicitCapture_grown fits found
    · have checked : ¬(decide (e.storage = .automatic) && !e.init) = true := counted
      rw [if_neg counted, if_neg checked]
      exact .refl

/-- Where the scope chain is put back, what was met was met in the scope it was met in. -/
theorem Ran.rescope {met : List Nat} {ks : List Lambda} {s s' : State} (ran : Ran met ks s s') (env : List Entry) :
    Ran met ks s { s' with env } := ⟨ran.grown, ran.done⟩

theorem Item.check_env (item : Item) (s : State) : (item.check s).env = item.declares s.env := by
  cases item with
  | declare name storage => rfl
  | use name odr => rfl
  | block body => rfl
  | lambda captures default params body =>
    unfold Item.check Item.declares
    simp only [State.pop]
    split <;> rfl

mutual

/-- **What the checker does to the lambdas of a body.** -/
theorem Item.check_ran (item : Item) (late : List Nat) {s : State} (fits : Fits s.env s.lambdas) :
    Ran (item.needs .checker late s.env) (item.lambdas late s.env) s (item.check s) := by
  cases item with
  | declare name storage => exact Ran.refl
  | use name odr =>
    refine ⟨checkIdent_grown fits late name odr, [], (List.append_nil _).symm, .nil⟩
  | block body => exact (body.check_ran late fits).rescope s.env
  | lambda captures default params body =>
    have introducer := captures.check_ran late s.env [] fits
    have around := fits.grown introducer.grown
    rw [Item.check, Item.needs, Item.lambdas]
    simp only [captures.check_snd, List.nil_append, reduceCtorEq, if_false, List.append_nil]
    have inside := body.check_ran late (s := ⟨bodyScope captures params s.env, _ :: _,
      (captures.check s.env s []).1.done⟩) (around.open captures params default)
    exact Ran.lambda fits introducer inside

theorem Items.check_ran (items : Items) (late : List Nat) {s : State} (fits : Fits s.env s.lambdas) :
    Ran (items.needs .checker late s.env) (items.lambdas late s.env) s (items.check s) := by
  cases items with
  | nil => exact Ran.refl
  | cons first rest =>
    have ran := first.check_ran late fits
    obtain ⟨inner, eq⟩ := declares_extends first s.env
    have longer : (first.check s).env = inner ++ s.env := (first.check_env s).trans eq
    have fits' : Fits (first.check s).env (first.check s).lambdas := by
      rw [longer]
      exact (fits.grown ran.grown).extend
    have second := rest.check_ran late fits'
    rw [first.check_env] at second
    rw [Items.check, Items.needs, Items.lambdas]
    exact ran.trans fits ⟨inner, longer⟩ second

theorem CaptureList.check_ran (captures : CaptureList) (late : List Nat) (outer : List Entry) (list : List Capture)
    {s : State} (fits : Fits s.env s.lambdas) :
    Ran (captures.needs .checker late outer s.env) (captures.lambdas late outer s.env) s
      (captures.check outer s list).1 := by
  cases captures with
  | nil => exact Ran.refl
  | simple name byRef rest =>
    rw [CaptureList.check, CaptureList.needs, CaptureList.lambdas]
    split
    · split_ifs
      · exact rest.check_ran late outer list fits
      · exact rest.check_ran late outer _ fits
    · exact rest.check_ran late outer list fits
  | init name byRef value rest =>
    have ran := (value.check_ran (lateIn late outer s.env) fits).rescope (initEntry name :: s.env)
    have fits' : Fits ([initEntry name] ++ s.env) (value.check s).lambdas := (fits.grown ran.grown).extend
    have second := rest.check_ran late outer (list ++ [⟨name, none, byRef⟩])
      (s := { value.check s with env := initEntry name :: s.env }) fits'
    rw [CaptureList.check, CaptureList.needs, CaptureList.lambdas]
    exact ran.trans fits ⟨[_], rfl⟩ second

end

/-! ### Visible variables -/

variable {r r' : Reading} {late : List Nat}

theorem Reading.lookup_eq : r.lookup late env name =
    resolve (fun l e => e.name == name && (r = .checker || !late.contains l)) env := by
  cases r with
  | standard => simp [Reading.lookup]
  | checker => simp [Reading.lookup, Captures.lookup]

theorem Reading.atLevel_of_lookup (found : r.lookup late env name = some (v, e)) : atLevel env v = some e := by
  rw [Reading.lookup_eq] at found
  exact atLevel_of_resolve found

theorem Reading.name_of_lookup (found : r.lookup late env name = some (v, e)) : e.name = name := by
  rw [Reading.lookup_eq] at found
  have passes := resolve_passes found
  rw [Bool.and_eq_true] at passes
  exact beq_iff_eq.1 passes.1

theorem Reading.lookup_of_append (found : r.lookup late (inner ++ env) name = some (v, e)) (lt : v < env.length) :
    r.lookup late env name = some (v, e) := by
  rw [Reading.lookup_eq] at found ⊢
  exact resolve_of_append found lt

/-- The levels late in an introducer are inside it. -/
theorem Reading.lookup_late {outer : List Entry} :
    r.lookup (lateIn late outer env) outer name = r.lookup late outer name := by
  rw [Reading.lookup_eq, Reading.lookup_eq]
  refine resolve_congr fun l lt e => ?_
  have outside : l ∉ List.range' outer.length (env.length - outer.length) := by
    rw [List.mem_range'_1]
    omega
  have same : (lateIn late outer env).contains l = late.contains l := by
    rw [Bool.eq_iff_iff, List.contains_iff_mem, List.contains_iff_mem, lateIn, List.mem_append]
    exact or_iff_left outside
  rw [same]

/-- A variable that some name finds. -/
def Visible (r : Reading) (late : List Nat) (env : List Entry) (v : Nat) : Prop :=
  ∃ name e, r.lookup late env name = some (v, e)

theorem Visible.of_append (visible : Visible r late (inner ++ env) v) (lt : v < env.length) : Visible r late env v := by
  obtain ⟨name, e, found⟩ := visible
  exact ⟨name, e, Reading.lookup_of_append found lt⟩

theorem visible_of_use {odr : Bool} (mem : v ∈ r.use late env name odr) : Visible r late env v := by
  unfold Reading.use at mem
  split at mem
  · rename_i w e found
    split_ifs at mem
    · rw [List.mem_singleton.1 mem]
      exact ⟨name, e, found⟩
    · cases mem
  · cases mem

theorem mem_explicit (captures : CaptureList) : v ∈ captures.explicit r late env → ∃ name e,
    r.lookup late env name = some (v, e) ∧ ∀ r', r'.lookup late env name = some (v, e) →
      v ∈ captures.explicit r' late env := by
  intro mem
  cases captures with
  | nil => cases mem
  | simple name byRef rest =>
    rw [CaptureList.explicit] at mem
    obtain mem | mem := List.mem_append.1 mem
    · split at mem
      · rename_i w e found
        split_ifs at mem with other
        · cases mem
        · rw [List.mem_singleton.1 mem]
          refine ⟨name, e, found, fun r' found' => ?_⟩
          rw [CaptureList.explicit, found']
          simp [other]
      · cases mem
    · obtain ⟨name', e, found, all⟩ := mem_explicit rest mem
      exact ⟨name', e, found, fun r' found' => List.mem_append_right _ (all r' found')⟩
  | init name byRef value rest => exact mem_explicit rest mem

/-- What one reading finds captured explicitly, another does that sees the variable. -/
theorem explicit_of_visible (captures : CaptureList) (mem : v ∈ captures.explicit r late env)
    (visible : Visible r' late env v) : v ∈ captures.explicit r' late env := by
  obtain ⟨name, e, found, all⟩ := mem_explicit captures mem
  obtain ⟨name', e', found'⟩ := visible
  have same : e = e' := Option.some.inj
    ((Reading.atLevel_of_lookup found).symm.trans (Reading.atLevel_of_lookup found'))
  subst same
  rw [← Reading.name_of_lookup found', Reading.name_of_lookup found] at found'
  exact all r' found'

theorem mem_implicit {default : Option Bool} {explicit needed : List Nat} : v ∈ implicit default env explicit needed ↔
    default.isSome = true ∧ v ∈ needed ∧ v < env.length ∧ v ∉ explicit := by
  unfold implicit
  split_ifs with some
  · simp [some]
  · simp [some]

mutual

theorem Item.visible (item : Item) {late : List Nat} {env : List Entry} (mem : v ∈ item.needs r late env)
    (lt : v < env.length) : Visible r late env v := by
  cases item with
  | declare name storage => cases mem
  | use name odr => exact visible_of_use mem
  | block body => exact body.visible mem lt
  | lambda captures default params body =>
    rw [Item.needs] at mem
    simp only [List.mem_append, mem_implicit] at mem
    obtain (inits | explicit) | ⟨-, needed, -, -⟩ := mem
    · exact captures.visible ⟨[], rfl⟩ inits lt
    · split_ifs at explicit
      · obtain ⟨name, e, found, -⟩ := mem_explicit captures explicit
        exact ⟨name, e, found⟩
      · cases explicit
    · obtain ⟨inner, eq⟩ := bodyScope_extends captures params env
      rw [eq] at needed
      refine (body.visible needed ?_).of_append lt
      rw [List.length_append]
      exact Nat.lt_add_left _ lt

theorem Items.visible (items : Items) {late : List Nat} {env : List Entry} (mem : v ∈ items.needs r late env)
    (lt : v < env.length) : Visible r late env v := by
  cases items with
  | nil => cases mem
  | cons first rest =>
    obtain mem | mem := List.mem_append.1 mem
    · exact first.visible mem lt
    · obtain ⟨inner, eq⟩ := declares_extends first env
      rw [eq] at mem
      refine (rest.visible mem ?_).of_append lt
      rw [List.length_append]
      exact Nat.lt_add_left _ lt

theorem CaptureList.visible (captures : CaptureList) {late : List Nat} {env outer : List Entry}
    (longer : ∃ inner, env = inner ++ outer) (mem : v ∈ captures.needs r late outer env) (lt : v < outer.length) :
    Visible r late outer v := by
  cases captures with
  | nil => cases mem
  | simple name byRef rest => exact rest.visible longer mem lt
  | init name byRef value rest =>
    obtain ⟨inner, rfl⟩ := longer
    obtain mem | mem := List.mem_append.1 mem
    · have within : v < (inner ++ outer).length := by
        rw [List.length_append]
        exact Nat.lt_add_left _ lt
      obtain ⟨name', e, found⟩ := (value.visible mem within).of_append lt
      exact ⟨name', e, Reading.lookup_late ▸ found⟩
    · exact rest.visible ⟨initEntry name :: inner, rfl⟩ mem lt

end

/-! ### Where the readings agree -/

/-- The checker finds the explicit captures, once each, and meets what C++ says is needed of the rest. -/
def Lambda.Same (k : Lambda) : Prop :=
  ∀ v ∈ k.outside, (k.found.count v = if v ∈ k.explicit then 1 else 0) ∧
    (v ∉ k.explicit → (v ∈ k.met ↔ v ∈ k.needed))

theorem automatics_append (mem : v ∈ automatics env) : v ∈ automatics (inner ++ env) := by
  obtain ⟨e, there, storage⟩ := mem_automatics.1 mem
  exact mem_automatics.2 ⟨e, (atLevel_append (lt_of_automatic mem)).trans there, storage⟩

/-- A lambda has the captures that C++ says where the checker meets what it needs. -/
theorem agrees_iff_same {captures : CaptureList} {default : Option Bool} {params : List String} {body : Items}
    (has : Has info (lambdaAt late env captures default params body)) :
    Agrees info (lambdaAt late env captures default params body) ↔
      (lambdaAt late env captures default params body).Same := by
  refine forall₂_congr fun v mem => ?_
  have lt : v < env.length := lt_of_automatic mem
  rw [has.count v mem, has.uncaptured v mem]
  -- neither reading needs what the other one captures explicitly and it does not
  obtain ⟨inner, eq⟩ := bodyScope_extends captures params env
  have seen {r : Reading} (needed : v ∈ body.needs r late (bodyScope captures params env)) : Visible r late env v := by
    rw [eq] at needed
    refine (body.visible needed ?_).of_append lt
    rw [List.length_append]
    exact Nat.lt_add_left _ lt
  have unmet : v ∈ captures.explicit .standard late env → v ∉ captures.explicit .checker late env →
      v ∉ body.needs .checker late (bodyScope captures params env) :=
    fun explicit other needed => other (explicit_of_visible captures explicit (seen needed))
  have unneeded : v ∈ captures.explicit .checker late env → v ∉ captures.explicit .standard late env →
      v ∉ body.needs .standard late (bodyScope captures params env) :=
    fun explicit other needed => other (explicit_of_visible captures explicit (seen needed))
  have count : (captures.explicit .checker late env).count v = 0 ↔ v ∉ captures.explicit .checker late env :=
    List.count_eq_zero
  simp only [lambdaAt]
  by_cases explicit : v ∈ captures.explicit .standard late env
  · by_cases found : v ∈ captures.explicit .checker late env
    · simp [explicit, found]
    · simp [explicit, found, unmet explicit found, count.2 found]
  · by_cases found : v ∈ captures.explicit .checker late env
    · have some := List.count_pos_iff.2 found
      simp [explicit, found, unneeded found explicit, Nat.pos_iff_ne_zero.1 some]
    · cases default with
      | none => simp [explicit, found, count.2 found]
      | some byRef =>
        by_cases met : v ∈ body.needs .checker late (bodyScope captures params env)
        · simp [explicit, found, count.2 found, met]
        · simp [explicit, found, count.2 found, met]

mutual

/-- Where the lambdas in a body are read alike, the checker meets what is named there itself and what they pass on. -/
theorem Item.met_iff (item : Item) {late : List Nat} {env : List Entry} (same : ∀ k ∈ item.lambdas late env, k.Same)
    (mem : v ∈ automatics env) :
    v ∈ item.needs .checker late env ↔ v ∈ item.named env ∨ v ∈ item.passed late env := by
  cases item with
  | declare name storage => exact ⟨.inl, fun either => either.elim id id⟩
  | use name odr => exact ⟨.inl, fun either => either.elim id fun none => absurd none List.not_mem_nil⟩
  | block body => exact body.met_iff same mem
  | lambda captures default params body =>
    rw [Item.lambdas] at same
    simp only [List.mem_append, List.mem_singleton, or_imp, forall_and, forall_eq] at same
    obtain ⟨⟨inits, -⟩, whole⟩ := same
    have lt := lt_of_automatic mem
    obtain ⟨count, alike⟩ := whole v mem
    simp only [lambdaAt] at count alike
    have found : v ∈ captures.explicit .checker late env ↔ v ∈ captures.explicit .standard late env := by
      rw [← List.count_pos_iff, count]
      split_ifs with explicit <;> simp [explicit]
    have handed : v ∈ implicit default env (captures.explicit .checker late env)
          (body.needs .checker late (bodyScope captures params env)) ↔
        v ∈ implicit default env (captures.explicit .standard late env)
          (body.needs .standard late (bodyScope captures params env)) := by
      simp only [mem_implicit, found]
      exact and_congr_right fun _ => ⟨fun ⟨met, lt, new⟩ => ⟨(alike new).1 met, lt, new⟩,
        fun ⟨needed, lt, new⟩ => ⟨(alike new).2 needed, lt, new⟩⟩
    rw [Item.needs, Item.named, Item.passed]
    simp only [reduceCtorEq, if_false, List.append_nil, List.mem_append, handed, captures.met_iff inits mem, or_assoc]

theorem Items.met_iff (items : Items) {late : List Nat} {env : List Entry}
    (same : ∀ k ∈ items.lambdas late env, k.Same) (mem : v ∈ automatics env) :
    v ∈ items.needs .checker late env ↔ v ∈ items.named env ∨ v ∈ items.passed late env := by
  cases items with
  | nil => exact ⟨.inl, fun either => either.elim id id⟩
  | cons first rest =>
    rw [Items.lambdas] at same
    simp only [List.mem_append, or_imp, forall_and] at same
    obtain ⟨inner, eq⟩ := declares_extends first env
    have later := rest.met_iff same.2 (eq ▸ automatics_append mem)
    rw [Items.needs, Items.named, Items.passed]
    simp only [List.mem_append, first.met_iff same.1 mem, later]
    exact or_or_or_comm

theorem CaptureList.met_iff (captures : CaptureList) {late : List Nat} {outer env : List Entry}
    (same : ∀ k ∈ captures.lambdas late outer env, k.Same) (mem : v ∈ automatics env) :
    v ∈ captures.needs .checker late outer env ↔ v ∈ captures.named env ∨ v ∈ captures.passed late outer env := by
  cases captures with
  | nil => exact ⟨.inl, fun either => either.elim id id⟩
  | simple name byRef rest => exact rest.met_iff same mem
  | init name byRef value rest =>
    rw [CaptureList.lambdas] at same
    simp only [List.mem_append, or_imp, forall_and] at same
    have declared : v ∈ automatics ([initEntry name] ++ env) := automatics_append mem
    have later := rest.met_iff same.2 declared
    rw [CaptureList.needs, CaptureList.named, CaptureList.passed]
    simp only [List.mem_append, value.met_iff same.1 mem, later]
    exact or_or_or_comm

end

mutual

theorem Item.needs_of_passed (item : Item) {late : List Nat} {env : List Entry} (mem : v ∈ item.passed late env) :
    v ∈ item.needs .standard late env := by
  cases item with
  | declare name storage => cases mem
  | use name odr => cases mem
  | block body => exact body.needs_of_passed mem
  | lambda captures default params body =>
    rw [Item.needs]
    obtain mem | mem := List.mem_append.1 mem
    · exact List.mem_append_left _ (List.mem_append_left _ (captures.needs_of_passed mem))
    · exact List.mem_append_right _ mem

theorem Items.needs_of_passed (items : Items) {late : List Nat} {env : List Entry} (mem : v ∈ items.passed late env) :
    v ∈ items.needs .standard late env := by
  cases items with
  | nil => cases mem
  | cons first rest =>
    obtain mem | mem := List.mem_append.1 mem
    · exact List.mem_append_left _ (first.needs_of_passed mem)
    · exact List.mem_append_right _ (rest.needs_of_passed mem)

theorem CaptureList.needs_of_passed (captures : CaptureList) {late : List Nat} {outer env : List Entry}
    (mem : v ∈ captures.passed late outer env) : v ∈ captures.needs .standard late outer env := by
  cases captures with
  | nil => cases mem
  | simple name byRef rest => exact rest.needs_of_passed mem
  | init name byRef value rest =>
    obtain mem | mem := List.mem_append.1 mem
    · exact List.mem_append_left _ (value.needs_of_passed mem)
    · exact List.mem_append_right _ (rest.needs_of_passed mem)

end

theorem same_iff_kept {captures : CaptureList} {default : Option Bool} {params : List String} {body : Items}
    (inside : ∀ k ∈ body.lambdas late (bodyScope captures params env), k.Same) :
    (lambdaAt late env captures default params body).Same ↔
      (lambdaAt late env captures default params body).kept = true := by
  obtain ⟨inner, eq⟩ := bodyScope_extends captures params env
  rw [Lambda.kept, List.all_eq_true]
  refine forall₂_congr fun v mem => ?_
  have met := body.met_iff inside (v := v) (eq ▸ automatics_append mem)
  have passed : v ∈ body.passed late (bodyScope captures params env) →
      v ∈ body.needs .standard late (bodyScope captures params env) := body.needs_of_passed
  simp only [lambdaAt, Bool.and_eq_true, Bool.or_eq_true, Bool.not_eq_true', beq_iff_eq, List.contains_iff_mem,
    ← Bool.not_eq_true, and_assoc]
  refine and_congr_right fun _ => ?_
  rw [met]
  clear met eq inside
  grind

mutual

theorem Item.same_iff_kept (item : Item) (late : List Nat) (env : List Entry) :
    (∀ k ∈ item.lambdas late env, k.Same) ↔ ∀ k ∈ item.lambdas late env, k.kept = true := by
  cases item with
  | declare name storage => simp [Item.lambdas]
  | use name odr => simp [Item.lambdas]
  | block body => exact body.same_iff_kept late env
  | lambda captures default params body =>
    rw [Item.lambdas]
    simp only [List.mem_append, List.mem_singleton, or_imp, forall_and, forall_eq]
    rw [captures.same_iff_kept late env env, ← body.same_iff_kept late (bodyScope captures params env)]
    exact and_congr_right fun ⟨_, inside⟩ => Captures.same_iff_kept inside

theorem Items.same_iff_kept (items : Items) (late : List Nat) (env : List Entry) :
    (∀ k ∈ items.lambdas late env, k.Same) ↔ ∀ k ∈ items.lambdas late env, k.kept = true := by
  cases items with
  | nil => simp [Items.lambdas]
  | cons first rest =>
    rw [Items.lambdas]
    simp only [List.mem_append, or_imp, forall_and]
    rw [first.same_iff_kept late env, rest.same_iff_kept late (first.declares env)]

theorem CaptureList.same_iff_kept (captures : CaptureList) (late : List Nat) (outer env : List Entry) :
    (∀ k ∈ captures.lambdas late outer env, k.Same) ↔ ∀ k ∈ captures.lambdas late outer env, k.kept = true := by
  cases captures with
  | nil => simp [CaptureList.lambdas]
  | simple name byRef rest => exact rest.same_iff_kept late outer env
  | init name byRef value rest =>
    rw [CaptureList.lambdas]
    simp only [List.mem_append, or_imp, forall_and]
    rw [value.same_iff_kept (lateIn late outer env) env, rest.same_iff_kept late outer (initEntry name :: env)]

end

/-- What is done to a list of lambdas, put together. -/
theorem forall₂_agrees_iff {infos : List LambdaInfo} {ks : List Lambda} (has : List.Forall₂ Has infos ks)
    (each : ∀ k ∈ ks, ∀ info, Has info k → (Agrees info k ↔ k.Same)) :
    List.Forall₂ Agrees infos ks ↔ ∀ k ∈ ks, k.Same := by
  induction has with
  | nil => simp
  | cons first rest ih =>
    rw [List.forall₂_cons, List.forall_mem_cons, each _ List.mem_cons_self _ first,
      ih fun k mem => each k (List.mem_cons_of_mem _ mem)]

mutual

theorem Item.lambdas_at (item : Item) {late : List Nat} {env : List Entry} {k : Lambda}
    (mem : k ∈ item.lambdas late env) : ∃ late env captures default params body,
      k = lambdaAt late env captures default params body := by
  cases item with
  | declare name storage => cases mem
  | use name odr => cases mem
  | block body => exact body.lambdas_at mem
  | lambda captures default params body =>
    rw [Item.lambdas] at mem
    simp only [List.mem_append, List.mem_singleton] at mem
    obtain (inits | inside) | rfl := mem
    · exact captures.lambdas_at inits
    · exact body.lambdas_at inside
    · exact ⟨_, _, _, _, _, _, rfl⟩

theorem Items.lambdas_at (items : Items) {late : List Nat} {env : List Entry} {k : Lambda}
    (mem : k ∈ items.lambdas late env) : ∃ late env captures default params body,
      k = lambdaAt late env captures default params body := by
  cases items with
  | nil => cases mem
  | cons first rest =>
    obtain mem | mem := List.mem_append.1 mem
    · exact first.lambdas_at mem
    · exact rest.lambdas_at mem

theorem CaptureList.lambdas_at (captures : CaptureList) {late : List Nat} {outer env : List Entry} {k : Lambda}
    (mem : k ∈ captures.lambdas late outer env) : ∃ late env captures default params body,
      k = lambdaAt late env captures default params body := by
  cases captures with
  | nil => cases mem
  | simple name byRef rest => exact rest.lambdas_at mem
  | init name byRef value rest =>
    obtain mem | mem := List.mem_append.1 mem
    · exact value.lambdas_at mem
    · exact rest.lambdas_at mem

end

/-- **Lambda captures.** When a function's body has been checked, every lambda in it has exactly the captures
that C++ says, and the errors, where every lambda is `kept`, and nowhere else. -/
theorem captures_right_iff (env : List Entry) (body : Items) :
    List.Forall₂ Agrees (body.check { env, lambdas := [], done := [] }).done (body.lambdas [] env) ↔
      ∀ k ∈ body.lambdas [] env, k.kept = true := by
  have fits : Fits env [] := fun info mem => absurd mem List.not_mem_nil
  obtain ⟨new, done, has⟩ := (body.check_ran [] (s := { env, lambdas := [], done := [] }) fits).done
  rw [done, List.nil_append, ← body.same_iff_kept [] env]
  refine forall₂_agrees_iff has fun k mem info has => ?_
  obtain ⟨late, env', captures, default, params, body', rfl⟩ := body.lambdas_at mem
  exact agrees_iff_same has

/-- `const int n = 3; [] { return n; };` -/
def constantNamed : Items :=
  .cons (.declare "n" .automatic) (.cons (.lambda .nil none [] (.cons (.use "n" false) .nil)) .nil)

/-- The value of a constant is read, and an error says that it is not captured. -/
theorem constantNamed_wrong :
    ¬List.Forall₂ Agrees (constantNamed.check { env := [], lambdas := [], done := [] }).done
      (constantNamed.lambdas [] []) := by
  intro all
  cases all with
  | cons first rest =>
    obtain ⟨-, error⟩ := first 0 (by decide)
    exact absurd (error.1 (by decide)) (by decide)

/-- `int x; [=] { [x] { x; }; };`: the inner lambda's explicit capture does not reach the outer one. -/
example : (Items.lambdas [] []
    (.cons (.declare "x" .automatic) (.cons (.lambda .nil (some false) [] (.cons
      (.lambda (.simple "x" false .nil) none [] (.cons (.use "x" true) .nil)) .nil)) .nil))).map (·.kept) =
    [true, false] := by decide

end Vcx.Captures
