/-!
# Static objects of a block

`declareStaticLocal` of `lower/stmt.go`. A constant initializer becomes the image of a global; any
other runs behind a flag, the guard, that the code around it tests and sets. What an initializer does is up
to the program: it may call the function again, and it may leave by an exception, for which no landing pad
touches the guard. So a run is a script: what the initializer would do at each time that control comes to
the declaration.
-/

namespace Vcx.StaticLocal
set_option autoImplicit false

/-- What the lowering reads of a static object's declaration. -/
structure StaticLocal where
  value : Bool := false
  braced : Bool := false
  /-- The analysis recorded a constructor call. -/
  ctor : Bool := false
  isClass : Bool := false
  isReference : Bool := false
  isArray : Bool := false
  /-- The elements of an array are of a class. -/
  classElems : Bool := false
  /-- A `__shared__` object of a device pass. -/
  shared : Bool := false
  /-- What `evalInt` makes of the value. -/
  constant : Option Int := none
  /-- `constantInit` makes an image of the initializer. -/
  image : Bool := false

/-- The code of the block behind the guard. -/
inductive Instr where
  | setGuard | initializer | registerDtor
  deriving DecidableEq, Repr

/-- What is emitted for a declaration: nothing, an image, or a block that is passed over when the guard is set. -/
inductive Emitted where
  | nothing | image
  | guarded (code : List Instr)
  deriving DecidableEq, Repr

/-- `declareStaticLocal` -/
def declareStaticLocal (s : StaticLocal) : Emitted :=
  if s.shared then .nothing
  else if !s.value && !s.braced && !s.ctor && !s.isClass then .nothing
  else if s.value && !s.isClass && !s.isReference && !s.isArray && s.constant.isSome then .image
  else if !s.isReference && !s.ctor && (s.braced || s.value) && s.image then .image
  else .guarded [.setGuard, .initializer, .registerDtor]

/-- The initialization has something to run: it is not constant, and a class, or an array of one, has a
constructor to call where there is no initializer. -/
structure Dynamic (s : StaticLocal) : Prop where
  constant : s.constant = none
  image : s.image = false
  shared : s.shared = false
  some_ : s.value || s.braced || s.ctor || s.isClass || s.classElems

/-! ### Runs -/

/-- What the initializer does when it runs: it comes to the declaration again, so many times, and then it
leaves by an exception or completes. -/
inductive Attempt where
  | mk (again : List Attempt) (throws : Bool)

inductive Event where
  /-- Control comes to the declaration. -/
  | reach
  | start | finish
  /-- The initializer leaves by an exception, and the guard is as it is then. -/
  | fail (guard : Bool)
  | register
  /-- Control goes on behind the declaration, where the object may be used. -/
  | use
  deriving DecidableEq, Repr

/-- The code of the block: `again` is what happens while the initializer runs. -/
def exec (again : Bool → Bool × List Event) (throws : Bool) : List Instr → Bool → Bool × List Event
  | [], g => (g, [.use])
  | .setGuard :: code, _ => exec again throws code true
  | .initializer :: code, g =>
    let (g, inner) := again g
    if throws then (g, .start :: inner ++ [.fail g])
    else
      let (g, rest) := exec again throws code g
      (g, .start :: inner ++ .finish :: rest)
  | .registerDtor :: code, g =>
    let (g, rest) := exec again throws code g
    (g, .register :: rest)

mutual

/-- Control comes to the declaration. -/
def run (e : Emitted) (a : Attempt) (g : Bool) : Bool × List Event :=
  match a with
  | .mk again throws =>
    match e with
    | .guarded code =>
      if g then (g, [.reach, .use])
      else
        let (g, events) := exec (runs e again) throws code g
        (g, .reach :: events)
    | _ => (g, [.reach, .use])
termination_by structural a

/-- It comes there again and again. -/
def runs (e : Emitted) (as : List Attempt) (g : Bool) : Bool × List Event :=
  match as with
  | [] => (g, [])
  | a :: as =>
    let (g, events) := run e a g
    let (g, rest) := runs e as g
    (g, events ++ rest)
termination_by structural as

end

/-- All that happens, from an unset guard on. -/
def trace (s : StaticLocal) (script : List Attempt) : List Event := (runs (declareStaticLocal s) script false).2

/-- **A trace is right**, from where the initializer has completed or has not: it is started whenever control comes to
the declaration and it has not completed, and never after; the object is used only then; and an exception leaves the
guard unset. -/
def Right : Bool → List Event → Prop
  | _, [] => True
  | done, .reach :: events => (done = false → events.head? = some .start) ∧ Right done events
  | done, .start :: events => done = false ∧ Right done events
  | _, .finish :: events => Right true events
  | done, .fail guard :: events => guard = false ∧ Right done events
  | done, .register :: events => Right done events
  | done, .use :: events => done = true ∧ Right done events

/-- The first time that the initializer runs it completes, without coming to the declaration again. -/
def quiet : List Attempt → Bool
  | [] => true
  | .mk again throws :: _ => again.isEmpty && !throws

/-- The declaration has an initializer, or it is one of a class. -/
def StaticLocal.initialized (s : StaticLocal) : Bool := s.value || s.braced || s.ctor || s.isClass

/-! ### When a trace is right -/

theorem declareStaticLocal_dynamic {s : StaticLocal} (dynamic : Dynamic s) : declareStaticLocal s =
    if s.initialized then .guarded [.setGuard, .initializer, .registerDtor] else .nothing := by
  unfold declareStaticLocal StaticLocal.initialized
  rw [if_neg (by simp [dynamic.shared])]
  by_cases none : s.value || s.braced || s.ctor || s.isClass
  · rw [if_neg (by simp only [Bool.or_eq_true] at none; rcases none with ((h | h) | h) | h <;> simp [h]),
      if_neg (by simp [dynamic.constant]), if_neg (by simp [dynamic.image]), if_pos none]
  · rw [if_neg none, if_pos]
    simpa [and_assoc] using none

attribute [local simp] runs run exec Right quiet

/-- Where nothing is emitted the object is used from the first time on. -/
theorem right_nothing (script : List Attempt) (g : Bool) : Right false (runs .nothing script g).2 ↔ script = [] := by
  cases script with
  | nil => simp [runs, Right]
  | cons a as =>
    cases a
    simp [runs, run, Right]

/-- Behind a guard that is set the object is used, and nothing else happens. -/
theorem runs_set (code : List Instr) (script : List Attempt) : (runs (.guarded code) script true).1 = true ∧
    Right true (runs (.guarded code) script true).2 := by
  induction script with
  | nil => simp [runs, Right]
  | cons a as ih =>
    cases a
    simp [runs, run, Right, ih]

/-- **The initializer of a static object runs until it first completes, and never after, exactly when there is
one to run and it completes the first time.** -/
theorem static_right_iff {s : StaticLocal} (dynamic : Dynamic s) (script : List Attempt) :
    Right false (trace s script) ↔ script = [] ∨ s.initialized = true ∧ quiet script = true := by
  unfold trace
  rw [declareStaticLocal_dynamic dynamic]
  by_cases some_ : s.initialized
  · rw [if_pos some_]
    cases script with
    | nil => simp [runs, Right]
    | cons a as =>
      obtain ⟨again, throws⟩ := a
      obtain ⟨set, rest⟩ := runs_set [.setGuard, .initializer, .registerDtor] as
      cases again with
      | nil =>
        cases throws with
        | true => simp [runs, run, exec, Right, quiet]
        | false => simp [runs, run, exec, Right, quiet, some_, rest]
      | cons b bs =>
        -- control that comes back while the initializer runs finds the guard set, and uses the object
        cases b
        cases throws <;> simp [runs, run, exec, Right, quiet]
  · rw [if_neg some_, right_nothing]
    simp [some_]

/-- `static int n = f();` where `f` throws the second time only. -/
theorem thrower_right : Right false (trace { value := true } [.mk [] false, .mk [] true]) :=
  (static_right_iff ⟨rfl, rfl, rfl, rfl⟩ _).2 (.inr ⟨rfl, rfl⟩)

/-- `static int n = f();` where `f` throws the first time: the next call uses `n` as it is. -/
theorem thrower_used : ¬ Right false (trace { value := true } [.mk [] true, .mk [] false]) := by
  simp [trace, declareStaticLocal, runs, run, exec, Right]

end Vcx.StaticLocal
