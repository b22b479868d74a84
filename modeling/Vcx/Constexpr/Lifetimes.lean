import Vcx.Constexpr.Acts

/-!
# Scopes and lifetimes

What one step of the evaluator can do to its scopes and to the objects that there are. Objects are only added; one that
is dead stays so, and one that no scope has stays as it is, since only the end of a scope ends lifetimes.
-/

namespace Vcx.ConstEval
set_option autoImplicit false
open Vcx.Lib Vcx.Types
open Vcx.Constexpr (Error)

/-! ### Scopes -/

/-- The objects that scopes have. -/
def heldIn (scopes : List (List (String × Nat))) : List Nat := scopes.flatMap fun frame => frame.map Prod.snd

def State.held (s : State) : List Nat := heldIn s.scopes

/-- The objects of the scopes but the outermost one. -/
def State.inner (s : State) : List Nat := heldIn s.scopes.dropLast

@[simp] theorem heldIn_nil : heldIn [] = [] := rfl

@[simp] theorem heldIn_cons (frame : List (String × Nat)) (rest : List (List (String × Nat))) :
    heldIn (frame :: rest) = frame.map Prod.snd ++ heldIn rest := rfl

theorem heldIn_dropLast {scopes : List (List (String × Nat))} {x : Nat} (mem : x ∈ heldIn scopes.dropLast) : x ∈ heldIn scopes := by
  obtain ⟨frame, inner, held⟩ := List.mem_flatMap.1 mem
  exact List.mem_flatMap.2 ⟨frame, List.dropLast_subset scopes inner, held⟩

attribute [local simp] bindVar

theorem mem_bindVar {frame : List (String × Nat)} {name : String} {obj x : Nat} (mem : x ∈ (bindVar frame name obj).map Prod.snd) :
    x = obj ∨ x ∈ frame.map Prod.snd := by
  induction frame with
  | nil => exact .inl (by simpa [bindVar] using mem)
  | cons entry rest ih =>
    obtain ⟨k, y⟩ := entry
    rw [bindVar] at mem
    split at mem
    · rcases List.mem_cons.1 mem with rfl | mem
      · exact .inl rfl
      · exact .inr (List.mem_cons_of_mem _ mem)
    · rcases List.mem_cons.1 mem with rfl | mem
      · exact .inr List.mem_cons_self
      · exact (ih mem).imp_right (List.mem_cons_of_mem _)

theorem bindVar_self (frame : List (String × Nat)) (name : String) (obj : Nat) : obj ∈ (bindVar frame name obj).map Prod.snd := by
  induction frame with
  | nil => simp [bindVar]
  | cons entry rest ih =>
    rw [bindVar]
    split
    · exact List.mem_cons_self
    · exact List.mem_cons_of_mem _ ih

/-- A name that the scope does not have takes no one's place. -/
theorem bindVar_fresh {frame : List (String × Nat)} {name : String} (fresh : frame.lookup name = none) (obj : Nat) :
    bindVar frame name obj = frame ++ [(name, obj)] := by
  induction frame with
  | nil => rfl
  | cons entry rest ih =>
    obtain ⟨k, y⟩ := entry
    rw [List.lookup_cons] at fresh
    split at fresh
    · cases fresh
    · rename_i ne
      rw [bindVar, if_neg (beq_eq_false_iff_ne.1 ne).symm, ih fresh, List.cons_append]

theorem bindVar_nodup {frame : List (String × Nat)} {name : String} {obj : Nat} (nodup : (frame.map Prod.snd).Nodup)
    (new : obj ∉ frame.map Prod.snd) : ((bindVar frame name obj).map Prod.snd).Nodup := by
  induction frame with
  | nil => simp [bindVar]
  | cons entry rest ih =>
    obtain ⟨k, y⟩ := entry
    rw [List.map_cons, List.nodup_cons] at nodup
    rw [List.map_cons, List.mem_cons, not_or] at new
    rw [bindVar]
    split
    · exact List.nodup_cons.2 ⟨new.2, nodup.2⟩
    · refine List.nodup_cons.2 ⟨fun mem => ?_, ih nodup.2 new.2⟩
      rcases mem_bindVar mem with eq | mem
      · exact new.1 eq.symm
      · exact nodup.1 mem

theorem mem_of_lookup {frame : List (String × Nat)} {name : String} {x : Nat} (found : frame.lookup name = some x) :
    x ∈ frame.map Prod.snd := by
  induction frame with
  | nil => cases found
  | cons entry rest ih =>
    rw [List.lookup_cons] at found
    split at found
    · obtain rfl := Option.some.inj found
      exact List.mem_cons_self
    · exact List.mem_cons_of_mem _ (ih found)

/-- The object whose place is taken is in the scope no more. -/
theorem bindVar_taken {frame : List (String × Nat)} {name : String} {obj old : Nat} (taken : frame.lookup name = some old)
    (nodup : (frame.map Prod.snd).Nodup) (ne : old ≠ obj) : old ∉ (bindVar frame name obj).map Prod.snd := by
  induction frame with
  | nil => cases taken
  | cons entry rest ih =>
    obtain ⟨k, y⟩ := entry
    rw [List.map_cons, List.nodup_cons] at nodup
    rw [List.lookup_cons] at taken
    rw [bindVar]
    split at taken
    · rename_i eq
      obtain rfl := Option.some.inj taken
      rw [if_pos (by simpa using (beq_iff_eq.1 eq).symm), List.map_cons, List.mem_cons, not_or]
      exact ⟨ne, nodup.1⟩
    · rename_i other
      rw [if_neg (beq_eq_false_iff_ne.1 other).symm, List.map_cons, List.mem_cons, not_or]
      refine ⟨fun eq => ?_, ih taken nodup.2⟩
      exact nodup.1 (eq ▸ mem_of_lookup taken)

/-! ### Lifetimes -/

@[simp] theorem endLifetimes_length (frame : List (String × Nat)) (objects : List Object) :
    (endLifetimes frame objects).length = objects.length := by
  induction frame generalizing objects with
  | nil => rfl
  | cons entry rest ih =>
    rw [endLifetimes, List.foldl_cons]
    exact (ih _).trans (List.length_modify ..)

theorem object_end (s : State) (x y : Nat) :
    ({ s with objects := s.objects.modify y fun o => { o with isAlive := false } } : State).object x =
      if x = y then { s.object x with isAlive := false } else s.object x := by
  simp only [State.object, List.getD_eq_getElem?_getD, List.getElem?_modify]
  by_cases eq : y = x
  · subst eq
    cases s.objects[y]? <;> simp
  · simp [eq, Ne.symm eq]

theorem endLifetimes_other {frame : List (String × Nat)} {s : State} {x : Nat} (other : x ∉ frame.map Prod.snd) :
    ({ s with objects := endLifetimes frame s.objects } : State).object x = s.object x := by
  induction frame generalizing s with
  | nil => rfl
  | cons entry rest ih =>
    rw [List.map_cons, List.mem_cons, not_or] at other
    refine (ih (s := { s with objects := s.objects.modify entry.2 fun o => { o with isAlive := false } }) other.2).trans ?_
    rw [object_end, if_neg other.1]

/-- What is dead stays so, and what an object is stays. -/
theorem endLifetimes_flags (frame : List (String × Nat)) (s : State) (x : Nat) :
    ((s.object x).isAlive = false → (({ s with objects := endLifetimes frame s.objects } : State).object x).isAlive = false) ∧
      (({ s with objects := endLifetimes frame s.objects } : State).object x).isConst = (s.object x).isConst := by
  induction frame generalizing s with
  | nil => exact ⟨id, rfl⟩
  | cons entry rest ih =>
    obtain ⟨dead, const⟩ := ih { s with objects := s.objects.modify entry.2 fun o => { o with isAlive := false } }
    rw [object_end] at dead const
    refine ⟨fun before => dead ?_, const.trans ?_⟩
    · split
      · rfl
      · exact before
    · split <;> rfl

/-- The end of a scope ends what it has. -/
theorem endLifetimes_held {frame : List (String × Nat)} {s : State} {x : Nat} (held : x ∈ frame.map Prod.snd) :
    (({ s with objects := endLifetimes frame s.objects } : State).object x).isAlive = false := by
  induction frame generalizing s with
  | nil => cases held
  | cons entry rest ih =>
    by_cases inner : x ∈ rest.map Prod.snd
    · exact ih (s := { s with objects := s.objects.modify entry.2 fun o => { o with isAlive := false } }) inner
    · refine (endLifetimes_flags rest { s with objects := s.objects.modify entry.2 fun o => { o with isAlive := false } } x).1 ?_
      rw [object_end, if_pos ((List.mem_cons.1 held).resolve_right inner)]

theorem object_push (s : State) (o : Object) {x : Nat} (old : x < s.objects.length) :
    ({ s with objects := s.objects ++ [o] } : State).object x = s.object x := by
  simp only [State.object, List.getD_eq_getElem?_getD, List.getElem?_append_left old]

theorem object_new (s : State) (o : Object) : ({ s with objects := s.objects ++ [o] } : State).object s.objects.length = o := by
  simp [State.object]

theorem object_set (s : State) (o : Object) (y x : Nat) (old : x < s.objects.length) :
    ({ s with objects := s.objects.set y o } : State).object x = if x = y then o else s.object x := by
  simp only [State.object, List.getD_eq_getElem?_getD, List.getElem?_set]
  by_cases eq : y = x
  · subst eq
    simp [old]
  · simp [eq, Ne.symm eq]

theorem write_flags (h : Hierarchy) (H : Heap) (o : Object) (path : List Constexpr.PathStep) (offset : Int) (val : Option Value) :
    ((o.write h H path offset val).2.1).isAlive = o.isAlive ∧ ((o.write h H path offset val).2.1).isConst = o.isConst := by
  unfold Object.write
  split
  · exact ⟨rfl, rfl⟩
  · split
    · exact ⟨rfl, rfl⟩
    · split
      · exact ⟨rfl, rfl⟩
      · split <;> exact ⟨rfl, rfl⟩

variable {E : Env}

/-- What a step leaves that declares nothing: the scopes, and of the objects that there were what they are. -/
structure Steady (s t : State) : Prop where
  scopes : t.scopes = s.scopes
  unit : t.unit = s.unit
  callDepth : t.callDepth = s.callDepth
  names : t.names = s.names
  grows : s.objects.length ≤ t.objects.length
  alive : ∀ x < s.objects.length, (t.object x).isAlive = (s.object x).isAlive
  const : ∀ x < s.objects.length, (t.object x).isConst = (s.object x).isConst

theorem Steady.refl (s : State) : Steady s s := ⟨rfl, rfl, rfl, rfl, le_rfl, fun _ _ => rfl, fun _ _ => rfl⟩

/-- A primitive that leaves the objects. -/
theorem Steady.of_objects {s t : State} (scopes : t.scopes = s.scopes) (unit : t.unit = s.unit)
    (depth : t.callDepth = s.callDepth) (names : t.names = s.names) (objects : t.objects = s.objects) : Steady s t := by
  have same : ∀ x, t.object x = s.object x := fun x => by rw [State.object, State.object, objects]
  exact ⟨scopes, unit, depth, names, by rw [objects], fun x _ => by rw [same], fun x _ => by rw [same]⟩

theorem steady_prim {p : Prim} (quiet : p.quiet) (s : State) : Steady s (doPrim E p s).2 := by
  cases p with
  | declare | enterNames => exact quiet.elim
  | write p val =>
    have flags := write_flags E.hierarchy s.heap (s.object p.obj) p.path p.offset (some val)
    refine ⟨rfl, rfl, rfl, rfl, by simp [doPrim], fun x old => ?_, fun x old => ?_⟩
    all_goals
      simp only [doPrim]
      refine (congrArg _ (object_set { s with heap := _ } _ p.obj x old)).trans ?_
      split
      · subst_vars
        first | exact flags.1 | exact flags.2
      · rfl
  | temporary name typ val =>
    refine ⟨rfl, rfl, rfl, rfl, by simp [doPrim, State.addObject], fun x old => ?_, fun x old => ?_⟩
    all_goals exact congrArg _ (object_push s _ old)
  | step | text | lookup | resolvers | depth | object | read | hold | newArray | newElements | elements | members | setElement =>
    exact .of_objects rfl rfl rfl rfl rfl

/-! ### A run -/

/-- The scopes have objects that are alive, each of them once. -/
structure State.Sound (s : State) : Prop where
  range : ∀ x ∈ s.held, x < s.objects.length
  alive : ∀ x ∈ s.held, (s.object x).isAlive = true
  nodup : s.held.Nodup

/-- What a run leaves of the state that it began in. An object that no scope has is as it was and stays so, and one that
the outermost scope has, or none, stays alive. -/
structure Follows (s t : State) : Prop where
  grows : s.objects.length ≤ t.objects.length
  const : ∀ x < s.objects.length, (t.object x).isConst = (s.object x).isConst
  depth : t.callDepth = s.callDepth
  dead : ∀ x < s.objects.length, (s.object x).isAlive = false → (t.object x).isAlive = false
  lost : ∀ x < s.objects.length, x ∉ s.held → x ∉ t.held ∧ (t.object x).isAlive = (s.object x).isAlive
  pinned : ∀ x < s.objects.length, (s.object x).isAlive = true → x ∉ s.inner → (t.object x).isAlive = true ∧ x ∉ t.inner
  shape : s.scopes ≠ [] → t.scopes ≠ [] ∧ t.scopes.tail = s.scopes.tail
  sound : s.Sound → t.Sound

theorem Follows.refl (s : State) : Follows s s :=
  ⟨le_rfl, fun _ _ => rfl, rfl, fun _ _ => id, fun _ _ other => ⟨other, rfl⟩, fun _ _ alive other => ⟨alive, other⟩,
    fun some => ⟨some, rfl⟩, id⟩

theorem Follows.trans (s t u : State) (first : Follows s t) (second : Follows t u) : Follows s u where
  grows := first.grows.trans second.grows
  const x old := (second.const x (old.trans_le first.grows)).trans (first.const x old)
  depth := second.depth.trans first.depth
  dead x old before := second.dead x (old.trans_le first.grows) (first.dead x old before)
  lost x old other := by
    obtain ⟨other₁, same₁⟩ := first.lost x old other
    obtain ⟨other₂, same₂⟩ := second.lost x (old.trans_le first.grows) other₁
    exact ⟨other₂, same₂.trans same₁⟩
  pinned x old alive other := by
    obtain ⟨alive₁, other₁⟩ := first.pinned x old alive other
    exact second.pinned x (old.trans_le first.grows) alive₁ other₁
  shape some := by
    obtain ⟨some₁, tail₁⟩ := first.shape some
    obtain ⟨some₂, tail₂⟩ := second.shape some₁
    exact ⟨some₂, tail₂.trans tail₁⟩
  sound before := second.sound (first.sound before)

theorem Steady.follows {s t : State} (steady : Steady s t) : Follows s t := by
  have held : t.held = s.held := by rw [State.held, State.held, steady.scopes]
  have inner : t.inner = s.inner := by rw [State.inner, State.inner, steady.scopes]
  refine ⟨steady.grows, steady.const, steady.callDepth, fun x old dead => (steady.alive x old).trans dead,
    fun x old other => ⟨held ▸ other, steady.alive x old⟩,
    fun x old alive other => ⟨(steady.alive x old).trans alive, inner ▸ other⟩, fun some => ⟨?_, ?_⟩, fun before => ?_⟩
  · rwa [steady.scopes]
  · rw [steady.scopes]
  · refine ⟨fun x mem => ?_, fun x mem => ?_, held ▸ before.nodup⟩
    · exact (before.range x (held ▸ mem)).trans_le steady.grows
    · exact (steady.alive x (before.range x (held ▸ mem))).trans (before.alive x (held ▸ mem))

/-! Declarations -/

theorem declareVar_objects (s : State) (name : String) (typ : Option Ty) (val : Option Value) (isConst : Bool) :
    (s.declareVar name typ val isConst).2.objects = s.objects ++ [newObject name typ val isConst] := by
  unfold State.declareVar State.addObject
  cases s.scopes <;> rfl

theorem declareVar_scopes (s : State) (name : String) (typ : Option Ty) (val : Option Value) (isConst : Bool) :
    (s.declareVar name typ val isConst).2.scopes =
      match s.scopes with
      | [] => []
      | frame :: rest => bindVar frame name s.objects.length :: rest := by
  unfold State.declareVar State.addObject
  cases s.scopes <;> simp

theorem declareVar_depth (s : State) (name : String) (typ : Option Ty) (val : Option Value) (isConst : Bool) :
    (s.declareVar name typ val isConst).2.callDepth = s.callDepth := by
  unfold State.declareVar State.addObject
  cases s.scopes <;> rfl

section
variable (s : State) (name : String) (typ : Option Ty) (val : Option Value) (isConst : Bool)

theorem declareVar_old {x : Nat} (old : x < s.objects.length) :
    (s.declareVar name typ val isConst).2.object x = s.object x := by
  have eq := object_push s (newObject name typ val isConst) old
  rwa [State.object, ← declareVar_objects] at eq

theorem declareVar_new : (s.declareVar name typ val isConst).2.object s.objects.length = newObject name typ val isConst := by
  have eq := object_new s (newObject name typ val isConst)
  rwa [State.object, ← declareVar_objects] at eq

theorem declareVar_held {x : Nat} (mem : x ∈ (s.declareVar name typ val isConst).2.held) :
    x = s.objects.length ∨ x ∈ s.held := by
  rw [State.held, declareVar_scopes] at mem
  rw [State.held]
  cases eq : s.scopes with
  | nil => rw [eq] at mem; cases mem
  | cons frame rest =>
    rw [eq, heldIn_cons, List.mem_append] at mem
    rw [heldIn_cons, List.mem_append]
    rcases mem with mem | mem
    · exact (mem_bindVar mem).imp_right .inl
    · exact .inr (.inr mem)

theorem declareVar_inner {x : Nat} (mem : x ∈ (s.declareVar name typ val isConst).2.inner) :
    x = s.objects.length ∨ x ∈ s.inner := by
  rw [State.inner, declareVar_scopes] at mem
  rw [State.inner]
  rcases eq : s.scopes with - | ⟨frame, - | ⟨next, rest⟩⟩
  · rw [eq] at mem; cases mem
  · rw [eq] at mem; cases mem
  · rw [eq, List.dropLast_cons_cons, heldIn_cons, List.mem_append] at mem
    rw [List.dropLast_cons_cons, heldIn_cons, List.mem_append]
    rcases mem with mem | mem
    · exact (mem_bindVar mem).imp_right .inl
    · exact .inr (.inr mem)

theorem declareVar_follows : Follows s (s.declareVar name typ val isConst).2 := by
  have length : (s.declareVar name typ val isConst).2.objects.length = s.objects.length + 1 := by
    simp [declareVar_objects]
  refine ⟨by omega, fun x old => ?_, declareVar_depth .., fun x old dead => ?_, fun x old other => ⟨fun mem => ?_, ?_⟩,
    fun x old alive other => ⟨?_, fun mem => ?_⟩, fun some => ?_, fun before => ⟨fun x mem => ?_, fun x mem => ?_, ?_⟩⟩
  · rw [declareVar_old s name typ val isConst old]
  · rwa [declareVar_old s name typ val isConst old]
  · exact (declareVar_held s name typ val isConst mem).elim old.ne other
  · rw [declareVar_old s name typ val isConst old]
  · rwa [declareVar_old s name typ val isConst old]
  · exact (declareVar_inner s name typ val isConst mem).elim old.ne other
  · rw [declareVar_scopes]
    cases eq : s.scopes with
    | nil => exact absurd eq some
    | cons frame rest => exact ⟨List.cons_ne_nil _ _, rfl⟩
  · rcases declareVar_held s name typ val isConst mem with rfl | mem
    · omega
    · exact (before.range x mem).trans (by omega)
  · rcases declareVar_held s name typ val isConst mem with rfl | mem
    · rw [declareVar_new]; rfl
    · rw [declareVar_old s name typ val isConst (before.range x mem)]
      exact before.alive x mem
  · have nodup := before.nodup
    have new : s.objects.length ∉ s.held := fun mem => (before.range _ mem).false
    rw [State.held] at nodup new
    rw [State.held, declareVar_scopes]
    cases eq : s.scopes with
    | nil => exact List.nodup_nil
    | cons frame rest =>
      rw [eq, heldIn_cons, List.nodup_append'] at nodup
      rw [eq, heldIn_cons, List.mem_append, not_or] at new
      obtain ⟨top, below, apart⟩ := nodup
      refine List.nodup_append'.2 ⟨bindVar_nodup top new.1, below, fun x mem held => ?_⟩
      rcases mem_bindVar mem with rfl | mem
      · exact new.2 held
      · exact apart mem held

end

/-! Scopes of their own -/

theorem popScope_eq {t : State} {frame parent : List (String × Nat)} {rest : List (List (String × Nat))}
    (scopes : t.scopes = frame :: parent :: rest) :
    t.popScope = { t with objects := endLifetimes frame t.objects, scopes := parent :: rest } := by
  unfold State.popScope
  rw [scopes]

theorem popScope_outer {t : State} (outer : ∀ frame parent rest, t.scopes ≠ frame :: parent :: rest) : t.popScope = t := by
  unfold State.popScope
  split
  · rename_i eq
    exact absurd eq (outer _ _ _)
  · rfl

theorem Follows.pop {s t : State} (run : Follows s.pushScope t) : Follows s t.popScope := by
  obtain ⟨frame, below, eq⟩ := List.exists_cons_of_ne_nil (run.shape (List.cons_ne_nil _ _)).1
  have tail : below = s.scopes := by simpa [eq, State.pushScope] using (run.shape (List.cons_ne_nil _ _)).2
  subst tail
  have sound : s.Sound → t.Sound := fun before => run.sound ⟨before.range, before.alive, before.nodup⟩
  cases scopes : s.scopes with
  | nil =>
    rw [popScope_outer fun f p rest eq' => by rw [eq, scopes] at eq'; cases eq']
    refine ⟨run.grows, run.const, run.depth, run.dead, run.lost, fun x old alive other => run.pinned x old alive ?_,
      fun some => absurd scopes some, sound⟩
    simp [State.inner, State.pushScope, scopes]
  | cons parent rest =>
    rw [scopes] at eq
    rw [popScope_eq eq]
    refine ⟨(endLifetimes_length ..).symm ▸ run.grows, fun x old => ?_, run.depth, fun x old dead => ?_, fun x old other => ?_,
      fun x old alive other => ?_, fun _ => ⟨List.cons_ne_nil _ _, by simp [scopes]⟩, fun before => ?_⟩
    · exact (endLifetimes_flags frame t x).2.trans (run.const x old)
    · exact (endLifetimes_flags frame t x).1 (run.dead x old dead)
    · obtain ⟨gone, same⟩ := run.lost x old other
      rw [State.held, eq, heldIn_cons, List.mem_append, not_or] at gone
      exact ⟨gone.2, (congrArg _ (endLifetimes_other gone.1)).trans same⟩
    · have inner : x ∉ s.pushScope.inner := by
        rw [State.inner, State.pushScope, scopes, List.dropLast_cons_cons, heldIn_cons, List.map_nil, List.nil_append, ← scopes]
        exact other
      obtain ⟨alive', gone⟩ := run.pinned x old alive inner
      rw [State.inner, eq, List.dropLast_cons_cons, heldIn_cons, List.mem_append, not_or] at gone
      exact ⟨(congrArg _ (endLifetimes_other gone.1)).trans alive', gone.2⟩
    · have after := sound before
      have nodup := after.nodup
      rw [State.held, eq, heldIn_cons, List.nodup_append'] at nodup
      have held : ∀ x ∈ heldIn (parent :: rest), x ∈ t.held := fun x mem => by
        rw [State.held, eq, heldIn_cons]
        exact List.mem_append_right _ mem
      refine ⟨fun x mem => ?_, fun x mem => ?_, nodup.2.1⟩
      · exact (endLifetimes_length ..).symm ▸ after.range x (held x mem)
      · exact (congrArg _ (endLifetimes_other fun top => nodup.2.2 top mem)).trans (after.alive x (held x mem))

theorem Follows.call {s t : State} {fn : FuncInfo} {args : List Value} (run : Follows (enter (.callBody fn args) s) t) :
    Follows s (leave (.callBody fn args) s t) := by
  have none : ∀ x, x ∉ (enter (.callBody fn args) s).held := fun x mem => by cases mem
  refine ⟨run.grows, run.const, ?_, run.dead, fun x old other => ⟨other, (run.lost x old (none x)).2⟩,
    fun x old alive other => ⟨((run.lost x old (none x)).2).trans alive, other⟩, fun some => ⟨some, rfl⟩, fun before => ?_⟩
  · have depth := run.depth
    simp only [enter] at depth
    simp only [leave, depth, Nat.add_sub_cancel]
  · refine ⟨fun x mem => (before.range x mem).trans_le run.grows, fun x mem => ?_, before.nodup⟩
    exact ((run.lost x (before.range x mem) (none x)).2).trans (before.alive x mem)

theorem follows_prim (p : Prim) (s : State) : Follows s (doPrim E p s).2 := by
  by_cases quiet : p.quiet
  · exact (steady_prim quiet s).follows
  · cases p with
    | declare name typ val isConst => exact declareVar_follows s name typ val isConst
    | enterNames names =>
      exact ⟨le_rfl, fun _ _ => rfl, rfl, fun _ _ => id, fun _ _ other => ⟨other, rfl⟩, fun _ _ alive other => ⟨alive, other⟩,
        fun some => ⟨some, rfl⟩, fun before => ⟨before.range, before.alive, before.nodup⟩⟩
    | _ => exact absurd trivial quiet

theorem follows_around {q : Query} {s t : State} (run : Follows (enter q s) t) : Follows s (leave q s t) := by
  cases q with
  | block | inScope | iteration => exact run.pop
  | callBody => exact run.call
  | _ => exact run

/-- **What a run leaves.** -/
theorem follows_of_exec {n : Nat} {q : Query} {s s' : State} {r : Except Error (Result q)}
    (answered : (machine E).exec n (.ask q) s = some (r, s')) : Follows s s' :=
  Machine.exec_rel (G := fun _ _ => True) (C := fun _ _ => True) Follows.refl Follows.trans (fun p s _ => follows_prim p s)
    (fun _ _ _ _ _ _ _ run => follows_around run) answered (fun _ _ _ => trivial) fun _ _ _ => trivial

/-- What an action leaves. -/
theorem follows_of_act {n : Nat} {a : Act Prim Query} {s : State} {x : Answer Reply Result Error a × State}
    (answered : (machine E).exec n a s = some x) : Follows s x.2 := by
  cases a with
  | prim p =>
    have eq : (machine E).exec 0 (.prim p) s = some (doPrim E p s) := rfl
    rw [← Machine.exec_unique eq answered]
    exact follows_prim p s
  | ask q => exact follows_of_exec answered

theorem follows_of_run {α : Type} {p : Ev α} {n : Nat} {s s' : State} {r : Except Error α}
    (ran : p.run ((machine E).exec n) s = some (r, s')) : Follows s s' :=
  Program.run_rel Follows.refl Follows.trans ran fun _ _ _ _ answered => follows_of_act answered

end Vcx.ConstEval
