import Vcx.Constexpr.Calls

/-!
# Invariants of whole evaluations

What holds of every run of the evaluator, whatever it evaluates and whether it fails: the scopes have objects that are
alive, each of them once; and a constant is not assigned.
-/

namespace Vcx.ConstEval
set_option autoImplicit false
open Vcx.Lib Vcx.Types
open Vcx.Constexpr (Error)

variable {E : Env}

/-! ### Scopes and lifetimes -/

/-- **Scopes and lifetimes.** In a run from sound scopes the scopes are sound wherever an action is done and behind it. The
scopes around the innermost one and the call depth are then what they were, and so is the lifetime of an object that no scope
has; what was dead stays dead, and what was const const. -/
theorem run_sound {n : Nat} {q : Query} {s s' : State} {r : Except Error (Result q)}
    (answered : (machine E).exec n (.ask q) s = some (r, s')) (before : s.Sound) :
    s'.Sound ∧ (∀ a t, (machine E).Occurs q s a t → t.Sound) ∧ s'.callDepth = s.callDepth ∧
      (s.scopes ≠ [] → s'.scopes.tail = s.scopes.tail) ∧ s.objects.length ≤ s'.objects.length ∧
      ∀ x < s.objects.length, (s'.object x).isConst = (s.object x).isConst ∧
        ((s.object x).isAlive = false → (s'.object x).isAlive = false) ∧
        (x ∉ s.held → x ∉ s'.held ∧ (s'.object x).isAlive = (s.object x).isAlive) := by
  have run := follows_of_exec answered
  refine ⟨run.sound before, fun a t occurs => sound_of_occurs occurs (sound_enter q s before), run.depth,
    fun some_ => (run.shape some_).2, run.grows, fun x old => ⟨run.const x old, run.dead x old, run.lost x old⟩⟩

/-- `const bool k = true;`, in scope. -/
def constantK : State :=
  { initial with objects := [newObject "k" (some (.basic .bool)) (some (.bool true)) true], scopes := [[("k", 0)]] }

/-- The call of `f` leaves `k` alive and const, and the scopes sound wherever it comes. -/
theorem localX_sound : ∃ r s, (machine bare).exec 6 (.ask (.callBody localX [])) constantK = some (r, s) ∧ s.Sound ∧
    (∀ a t, (machine bare).Occurs (.callBody localX []) constantK a t → t.Sound) ∧ s.callDepth = 0 ∧ s.scopes.tail = [] ∧
    1 ≤ s.objects.length ∧ (s.object 0).isConst = true := by
  obtain ⟨r, s, ran⟩ : ∃ r s, (machine bare).exec 6 (.ask (.callBody localX [])) constantK = some (r, s) := ⟨_, _, rfl⟩
  have before : constantK.Sound := ⟨by decide, by decide, by decide⟩
  obtain ⟨sound, within, depth, tail, grows, kept⟩ := run_sound ran before
  exact ⟨r, s, ran, sound, within, depth, tail (by decide), grows, (kept 0 Nat.one_pos).1⟩

/-! ### Constants -/

/-- The value without the tag of a union, which is the one part of it that is not shared. -/
def Value.untagged : Value → Value
  | .record t m _ => .record t m ""
  | v => v

/-- What is written to a part of a value leaves the value, which shares its parts. -/
theorem updateSubobject_untagged {h : Hierarchy} {H H' : Heap} {cur new val : Option Value} {path : List Constexpr.PathStep}
    {offset : Int} (part : path ≠ [] ∨ offset ≠ 0) (updated : updateSubobject h H cur path offset val = (.ok new, H')) :
    new.map Value.untagged = cur.map Value.untagged := by
  cases path with
  | nil =>
    unfold updateSubobject at updated
    simp only [if_pos (part.resolve_left fun some_ => some_ rfl)] at updated
    split at updated
    · split at updated
      · cases updated
      · cases updated
        rfl
    · cases updated
  | cons step rest =>
    cases step with
    | index i =>
      unfold updateSubobject at updated
      split at updated
      · split at updated
        · cases updated
        · split at updated
          · cases updated
          · cases updated
            rfl
      · cases updated
    | field name | base name =>
      unfold updateSubobject at updated
      split at updated
      · split at updated
        · cases updated
        · cases updated
          rfl
      · cases updated

theorem write_untagged (h : Hierarchy) (H : Heap) {o : Object} (const : o.isConst = true) (some_ : o.val.isSome = true)
    (path : List Constexpr.PathStep) (offset : Int) (val : Option Value) :
    ((o.write h H path offset val).2.1).val.map Value.untagged = o.val.map Value.untagged := by
  unfold Object.write
  split
  · rfl
  · split
    · rfl
    · rename_i refused
      split
      · rename_i whole
        exact absurd ⟨const, whole.1, whole.2, some_⟩ refused
      · rename_i part
        split
        · rfl
        · rename_i new H' updated
          refine updateSubobject_untagged ?_ updated
          by_contra none_
          rw [not_or, not_not, not_not] at none_
          exact part none_

/-- A constant with a value keeps it, but for the tag of a union. -/
structure Constant (s t : State) : Prop where
  grows : s.objects.length ≤ t.objects.length
  const : ∀ x < s.objects.length, (t.object x).isConst = (s.object x).isConst
  kept : ∀ x < s.objects.length, (s.object x).isConst = true → (s.object x).val.isSome = true →
    (t.object x).val.map Value.untagged = (s.object x).val.map Value.untagged

theorem Constant.refl (s : State) : Constant s s := ⟨le_rfl, fun _ _ => rfl, fun _ _ _ _ => rfl⟩

theorem Constant.trans (s t u : State) (first : Constant s t) (second : Constant t u) : Constant s u := by
  refine ⟨first.grows.trans second.grows, fun x old => ?_, fun x old const some_ => ?_⟩
  · exact (second.const x (old.trans_le first.grows)).trans (first.const x old)
  · have same := first.kept x old const some_
    refine (second.kept x (old.trans_le first.grows) ((first.const x old).trans const) ?_).trans same
    rw [← Option.isSome_map (f := Value.untagged), same, Option.isSome_map, some_]

/-- What leaves the values of the objects there are. -/
theorem Constant.of_follows {s t : State} (run : Follows s t) (same : ∀ x < s.objects.length, (t.object x).val = (s.object x).val) :
    Constant s t :=
  ⟨run.grows, run.const, fun x old _ _ => by rw [same x old]⟩

theorem constant_prim (p : Prim) (s : State) : Constant s (doPrim E p s).2 := by
  cases p with
  | write p val =>
    have run := follows_prim (E := E) (.write p val) s
    refine ⟨run.grows, run.const, fun x old const some_ => ?_⟩
    have set := object_set s (((s.object p.obj).write E.hierarchy s.heap p.path p.offset (some val)).2.1) p.obj x old
    refine (congrArg (fun o : Object => o.val.map Value.untagged) set).trans ?_
    by_cases eq : x = p.obj
    · subst eq
      rw [if_pos rfl]
      exact write_untagged E.hierarchy s.heap const some_ p.path p.offset (some val)
    · rw [if_neg eq]
  | declare name typ val isConst =>
    exact .of_follows (follows_prim (E := E) (.declare name typ val isConst) s) fun x old =>
      congrArg _ (declareVar_old s name typ val isConst old)
  | temporary name typ val =>
    exact .of_follows (follows_prim (E := E) (.temporary name typ val) s) fun x old => congrArg _ (object_push s _ old)
  | _ => exact ⟨le_rfl, fun _ _ => rfl, fun _ _ _ _ => rfl⟩

theorem endLifetimes_val (frame : List (String × Nat)) (s : State) (x : Nat) :
    (({ s with objects := endLifetimes frame s.objects } : State).object x).val = (s.object x).val := by
  induction frame generalizing s with
  | nil => rfl
  | cons entry rest ih =>
    refine (ih { s with objects := s.objects.modify entry.2 fun o => { o with isAlive := false } }).trans ?_
    rw [object_end]
    split <;> rfl

theorem Constant.pop {s t : State} (run : Constant s t) : Constant s t.popScope := by
  have kept (x : Nat) : (t.popScope.object x).isConst = (t.object x).isConst ∧ (t.popScope.object x).val = (t.object x).val := by
    unfold State.popScope
    split
    · exact ⟨(endLifetimes_flags _ t x).2, endLifetimes_val _ t x⟩
    · exact ⟨rfl, rfl⟩
  refine ⟨(popScope_length t).symm ▸ run.grows, fun x old => (kept x).1.trans (run.const x old), fun x old const some_ => ?_⟩
  rw [(kept x).2, run.kept x old const some_]

theorem constant_around {q : Query} {s t : State} (run : Constant (enter q s) t) : Constant s (leave q s t) := by
  cases q with
  | block | inScope | iteration => exact Constant.pop ⟨run.grows, run.const, run.kept⟩
  | callBody => exact ⟨run.grows, run.const, run.kept⟩
  | _ => exact run

/-- **Constants.** Whatever is evaluated, an object that is const and has a value has it still: nothing assigns it, and of its
value only what copies of it share can have been written, and the tag of a union. -/
theorem run_constant {n : Nat} {q : Query} {s s' : State} {r : Except Error (Result q)}
    (answered : (machine E).exec n (.ask q) s = some (r, s')) {x : Nat} {v : Value} (old : x < s.objects.length)
    (const : (s.object x).isConst = true) (value : (s.object x).val = some v) :
    ∃ w, (s'.object x).val = some w ∧ w.untagged = v.untagged := by
  have run : Constant s s' :=
    Machine.exec_rel (R := Constant) (G := fun _ _ => True) (C := fun _ _ => True) Constant.refl Constant.trans
      (fun p s _ => constant_prim p s) (fun _ _ _ _ _ _ _ run => constant_around run) answered (fun _ _ _ => trivial)
      fun _ _ _ => trivial
  have same := run.kept x old const (by rw [value]; rfl)
  rw [value, Option.map_some] at same
  exact Option.map_eq_some_iff.1 same

theorem constantK_kept : ∃ r s, (machine bare).exec 6 (.ask (.callBody localX [])) constantK = some (r, s) ∧
    ∃ w, (s.object 0).val = some w ∧ w.untagged = .bool true := by
  obtain ⟨r, s, ran⟩ : ∃ r s, (machine bare).exec 6 (.ask (.callBody localX [])) constantK = some (r, s) := ⟨_, _, rfl⟩
  exact ⟨r, s, ran, run_constant ran (v := .bool true) Nat.one_pos rfl rfl⟩

end Vcx.ConstEval
