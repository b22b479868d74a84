import Vcx.Preprocessor.Define

/-!
# What a name is bound to

The history of a name is what `#define`, `#undef`, `push_macro` and `pop_macro` did, the latest first. The
binding is read off it: the last definition, nothing after `#undef`, and after a `pop_macro` what was bound
before the `push_macro` that matches it. The table follows the history, and an identity is one name's through
the whole run.
-/

namespace Vcx.Preprocessor
set_option autoImplicit false
open Vcx.Token (Kind Std)

/-! ### Histories -/

/-- What an operation comes to when it is in order. -/
inductive Event where
  | define (m : Macro)
  | undef (name : String)
  | push (name : String)
  | pop (name : String)

/-- The definition without its identity. -/
def Macro.definitionOnly (m : Macro) : Macro := { m with id := 0 }

/-- The event of an operation: none where a directive is refused. -/
def Op.event (unquote : String → Option String) : Op → Option Event
  | .predefine m => some (.define m)
  | .undefText name => some (.undef name)
  | .define line _ =>
    match parseDefine line with
    | some (.ok m) => some (.define m)
    | _ => none
  | .undef line _ =>
    match line with
    | name :: _ => if name.isName && !reserved name.text then some (.undef name.text) else none
    | [] => none
  | .pushPop line _ =>
    match line with
    | word :: lp :: name :: rp :: _ =>
      if lp.kind ≠ .lparen || name.kind ≠ .stringLit || rp.kind ≠ .rparen then none
      else (unquote name.text).map fun name => if word.spells "push_macro" then .push name else .pop name
    | _ => none

/-- The history before the `push_macro` of `name` that a `pop_macro` matches, over `depth` pairs in between. -/
def beforePush (name : String) : List Event → Nat → Option (List Event)
  | [], _ => none
  | .push n :: past, depth =>
    if n = name then
      match depth with
      | 0 => some past
      | depth + 1 => beforePush name past depth
    else beforePush name past depth
  | .pop n :: past, depth => if n = name then beforePush name past (depth + 1) else beforePush name past depth
  | .define _ :: past, depth | .undef _ :: past, depth => beforePush name past depth

theorem beforePush_length {name : String} {past before : List Event} {depth : Nat}
    (found : beforePush name past depth = some before) : before.length < past.length := by
  induction past generalizing depth with
  | nil => cases found
  | cons event past ih =>
    have later {depth : Nat} (found : beforePush name past depth = some before) : before.length < (event :: past).length :=
      (ih found).trans (Nat.lt_succ_self _)
    cases event with
    | define m => exact later found
    | undef n => exact later found
    | push n =>
      cases depth with
      | zero =>
        rw [beforePush] at found
        split at found
        · obtain rfl := Option.some.inj found
          exact Nat.lt_succ_self _
        · exact later found
      | succ depth =>
        rw [beforePush] at found
        split at found
        · exact later found
        · exact later found
    | pop n =>
      rw [beforePush] at found
      split at found
      · exact later found
      · exact later found

/-- The definition of `name` after a history. -/
def binding (name : String) : List Event → Option Macro
  | [] => none
  | .define m :: past => if m.name = name then some m.definitionOnly else binding name past
  | .undef n :: past => if n = name then none else binding name past
  | .push _ :: past => binding name past
  | .pop n :: past =>
    if n = name then
      match _found : beforePush name past 0 with
      | some before => binding name before
      | none => binding name past
    else binding name past
termination_by past => past.length
decreasing_by
  all_goals simp_wf
  have := beforePush_length ‹_›
  omega

theorem binding_pop (name : String) (past : List Event) :
    binding name (.pop name :: past) = ((beforePush name past 0).map (binding name)).getD (binding name past) := by
  rw [binding, if_pos rfl]
  split
  · next before found => simp [found]
  · next found => simp [found]

/-! ### The table follows the history -/

/-- What an event does to the table and the saved definitions. -/
def Pre.event (p : Defs) : Event → Defs
  | .define m => p.define m
  | .undef name => p.undef name
  | .push name => p.pushMacro name
  | .pop name => p.popMacro name

/-- Two states that differ at most in what was reported. -/
structure SameDefs (p q : Defs) : Prop where
  macros : p.macros = q.macros
  rest : p.rest = q.rest

theorem SameDefs.report {p q : Defs} (same : SameDefs p q) (r : Report) : SameDefs (p.report r) q :=
  ⟨same.macros, same.rest⟩

theorem SameDefs.warn {p q : Defs} (same : SameDefs p q) (host : Host Definitions) (name : String) (site : Site)
    (msg : String) : SameDefs (p.warn host name site msg) q := by
  unfold Pre.warn
  split
  · exact same.report _
  · split
    · exact same.report _
    · split
      · exact same
      · exact ⟨same.macros, same.rest⟩

theorem SameDefs.note {p q : Defs} (same : SameDefs p q) (site : Site) (msg : String) : SameDefs (p.note site msg) q := by
  unfold Pre.note
  split
  · exact same
  · exact ⟨same.macros, same.rest⟩

theorem SameDefs.warnKeyword {p q : Defs} (same : SameDefs p q) (host : Host Definitions) (std : Std) (m : Macro) :
    SameDefs (p.warnKeyword host std m) q := by
  unfold Pre.warnKeyword
  split
  · exact same.warn host _ _ _
  · exact same

theorem SameDefs.warnRedefined {p q : Defs} (same : SameDefs p q) (host : Host Definitions) (m : Macro) :
    SameDefs (p.warnRedefined host m) q := by
  unfold Pre.warnRedefined
  split
  · exact same
  · split
    · exact same
    · dsimp only
      split
      · exact (same.warn host _ _ _).note _ _
      · exact same.warn host _ _ _

theorem SameDefs.expectEnd {p q : Defs} (same : SameDefs p q) (host : Host Definitions) (rest : List Token)
    (what : String) : SameDefs (expectEnd host p rest what) q := by
  cases rest with
  | nil => exact same
  | cons t _ => exact same.warn host _ _ _

theorem SameDefs.define {p q : Defs} (same : SameDefs p q) (m : Macro) : SameDefs (p.define m) (q.define m) := by
  obtain ⟨macros, rest⟩ := same
  unfold Pre.define
  rw [macros]
  split
  · exact ⟨rfl, rest⟩
  · exact ⟨by rw [rest], by rw [rest]⟩

theorem step_event (host : Host Definitions) (std : Std) (unquote : String → Option String) (p : Defs) (op : Op) :
    SameDefs (execute host std unquote p op) ((op.event unquote).elim p p.event) := by
  have refl (p : Defs) : SameDefs p p := ⟨rfl, rfl⟩
  cases op with
  | predefine m => exact refl _
  | undefText name => exact refl _
  | define line site =>
    simp only [execute, doDefine, Op.event]
    cases parseDefine line with
    | none => exact (refl p).report _
    | some parsed =>
      cases parsed with
      | error err => exact (refl p).report _
      | ok m => exact (((refl p).warnKeyword host std m).warnRedefined host m).define m
  | undef line site =>
    cases line with
    | nil => exact (refl p).report _
    | cons name rest =>
      simp only [execute, doUndef, Op.event]
      by_cases isName : name.isName = true
      · by_cases kept : reserved name.text = true
        · simp only [isName, kept]
          exact (refl p).report _
        · simp only [isName, kept]
          exact (refl _).expectEnd host rest _
      · simp only [isName]
        exact (refl p).report _
  | pushPop line site =>
    simp only [execute, Op.event]
    rcases line with _ | ⟨word, _ | ⟨lp, _ | ⟨name, _ | ⟨rp, rest⟩⟩⟩⟩
    · exact refl p
    · exact (refl p).warn host _ _ _
    · exact (refl p).warn host _ _ _
    · exact (refl p).warn host _ _ _
    · simp only [pushPopMacro]
      split
      · exact (refl p).warn host _ _ _
      · cases unquote name.text with
        | none => exact refl p
        | some name =>
          simp only [Option.map_some, Option.elim_some]
          split
          · exact refl _
          · exact refl _

/-- The table and the saved definitions are those of a history. -/
structure Follows (past : List Event) (p : Defs) : Prop where
  bound : ∀ name, (p.macros.lookup name).map Macro.definitionOnly = binding name past
  saved : ∀ name depth, (p.rest.pushed name)[depth]?.map (Option.map Macro.definitionOnly) =
    (beforePush name past depth).map (binding name)
  named : ∀ name m, some m ∈ p.rest.pushed name → m.name = name

theorem Follows.sameDefs {past : List Event} {p q : Defs} (same : SameDefs p q) (follows : Follows past q) :
    Follows past p :=
  ⟨by simpa [same.macros] using follows.bound, by simpa [same.rest] using follows.saved,
    by simpa [same.rest] using follows.named⟩

theorem lookup_define (p : Defs) (m : Macro) (name : String) :
    ((p.define m).macros.lookup name).map Macro.definitionOnly =
      if m.name = name then some m.definitionOnly else (p.macros.lookup name).map Macro.definitionOnly := by
  unfold Pre.define
  split <;> simp only [Table.lookup_bind] <;> split <;> rfl

theorem pushed_define (p : Defs) (m : Macro) : (p.define m).rest.pushed = p.rest.pushed := by
  unfold Pre.define
  split <;> rfl

theorem Follows.define {past : List Event} {p : Defs} (follows : Follows past p) (m : Macro) :
    Follows (.define m :: past) (p.define m) where
  bound name := by rw [lookup_define, binding, follows.bound]
  saved name depth := by rw [pushed_define, follows.saved, beforePush]
  named := by rw [pushed_define]; exact follows.named

theorem Follows.undef {past : List Event} {p : Defs} (follows : Follows past p) (gone : String) :
    Follows (.undef gone :: past) (p.undef gone) where
  bound name := by
    rw [binding, Pre.undef, Table.lookup_undef]
    split
    · rfl
    · exact follows.bound name
  saved name depth := (follows.saved name depth).trans (by rw [beforePush])
  named := follows.named

theorem Follows.push {past : List Event} {p : Defs} (follows : Follows past p) (pushed : String) :
    Follows (.push pushed :: past) (p.pushMacro pushed) where
  bound name := by rw [binding]; exact follows.bound name
  saved name depth := by
    by_cases same : name = pushed
    · subst same
      cases depth with
      | zero => simp [Pre.pushMacro, beforePush, follows.bound]
      | succ depth => simpa [Pre.pushMacro, beforePush] using follows.saved name depth
    · have other : beforePush name (.push pushed :: past) depth = beforePush name past depth := by
        cases depth <;> rw [beforePush, if_neg (Ne.symm same)]
      rw [other, ← follows.saved]
      simp [Pre.pushMacro, same]
  named name m mem := by
    simp only [Pre.pushMacro] at mem
    split at mem
    · next same =>
      rcases List.mem_cons.mp mem with head | mem
      · exact (Table.lookup_name head.symm).trans same.symm
      · exact (follows.named pushed m mem).trans same.symm
    · exact follows.named name m mem

/-- Taking a saved definition off. -/
theorem pushed_popMacro (p : Defs) (popped name : String) :
    (p.popMacro popped).rest.pushed name = if name = popped then (p.rest.pushed name).tail else p.rest.pushed name := by
  unfold Pre.popMacro
  split
  · next empty =>
    split
    · next same => simp [same, empty]
    · rfl
  · next saved stack top =>
    have shape : (if name = popped then stack else p.rest.pushed name) =
        if name = popped then (p.rest.pushed name).tail else p.rest.pushed name := by
      split
      · next same => simp [same, top]
      · rfl
    dsimp only
    cases saved <;> exact shape

/-- The name that is popped is bound to what was on top; the others are as they were. -/
theorem lookup_popMacro {p : Defs} (named : ∀ name m, some m ∈ p.rest.pushed name → m.name = name) (popped name : String) :
    (p.popMacro popped).macros.lookup name =
      if name = popped then (p.rest.pushed name)[0]?.getD (p.macros.lookup name) else p.macros.lookup name := by
  unfold Pre.popMacro
  split
  · next empty =>
    split
    · next same => simp [same, empty]
    · rfl
  · next saved stack top =>
    dsimp only
    cases saved with
    | none =>
      simp only [Pre.undef, Table.lookup_undef, @eq_comm _ popped]
      split
      · next same => simp [same, top]
      · rfl
    | some m =>
      have name_ : m.name = popped := named popped m (by simp [top])
      simp only [Pre.restore, Table.lookup_bind, name_, @eq_comm _ popped]
      split
      · next same => simp [same, top]
      · rfl

theorem Follows.pop {past : List Event} {p : Defs} (follows : Follows past p) (popped : String) :
    Follows (.pop popped :: past) (p.popMacro popped) where
  bound name := by
    rw [lookup_popMacro follows.named]
    by_cases same : name = popped
    · subst same
      rw [if_pos rfl, binding_pop, ← follows.saved, ← follows.bound]
      cases (p.rest.pushed name)[0]? <;> rfl
    · rw [if_neg same, binding, if_neg (Ne.symm same)]
      exact follows.bound name
  saved name depth := by
    rw [pushed_popMacro, beforePush]
    by_cases same : name = popped
    · rw [if_pos same, if_pos same.symm, ← follows.saved, List.getElem?_tail]
    · rw [if_neg same, if_neg (Ne.symm same)]
      exact follows.saved name depth
  named name m mem := by
    rw [pushed_popMacro] at mem
    split at mem
    · exact follows.named name m (List.mem_of_mem_tail mem)
    · exact follows.named name m mem

theorem Follows.event {past : List Event} {p : Defs} (follows : Follows past p) : ∀ event : Event,
    Follows (event :: past) (p.event event)
  | .define m => follows.define m
  | .undef name => follows.undef name
  | .push name => follows.push name
  | .pop name => follows.pop name

/-- The history of a sequence of operations. -/
def history (unquote : String → Option String) (ops : List Op) : List Event :=
  (ops.filterMap (Op.event unquote)).reverse

theorem history_append (unquote : String → Option String) (ops : List Op) (op : Op) :
    history unquote (ops ++ [op]) = (op.event unquote).toList ++ history unquote ops := by
  unfold history
  cases event : op.event unquote <;> simp [event]

section
variable (host : Host Definitions) (std : Std) (unquote : String → Option String)

theorem run_append (ops more : List Op) :
    run host std unquote (ops ++ more) = more.foldl (execute host std unquote) (run host std unquote ops) := by
  rw [run, List.foldl_append, run]

theorem run_follows (ops : List Op) : Follows (history unquote ops) (run host std unquote ops) := by
  induction ops using List.reverseRecOn with
  | nil => exact ⟨fun name => by simp [run, history, binding, Table.lookup], fun name depth => by simp [run, history, beforePush],
      fun name m mem => by simp [run] at mem⟩
  | append_singleton ops op ih =>
    rw [run_append, history_append]
    refine Follows.sameDefs (step_event host std unquote _ op) ?_
    cases op.event unquote with
    | none => exact ih
    | some event => exact ih.event event

end

/-! ### What was saved is restored -/

/-- While the history at a `push_macro` can still be matched, what was bound there is among the saved. -/
def Keeps (name : String) (before : List Event) (bound : Option Macro) (past : List Event) (p : Defs) : Prop :=
  ∀ depth, beforePush name past depth = some before → (p.rest.pushed name)[depth]? = some bound

theorem Keeps.sameDefs {name : String} {before past : List Event} {bound : Option Macro} {p q : Defs}
    (same : SameDefs p q) (keeps : Keeps name before bound past q) : Keeps name before bound past p := by
  unfold Keeps
  rw [same.rest]
  exact keeps

theorem Keeps.push {name : String} (past : List Event) (p : Defs) :
    Keeps name past (p.macros.lookup name) (.push name :: past) (p.pushMacro name) := by
  intro depth found
  cases depth with
  | zero => simp [Pre.pushMacro]
  | succ depth =>
    rw [beforePush, if_pos rfl] at found
    exact absurd (beforePush_length found) (Nat.lt_irrefl _)

theorem Keeps.event {name : String} {before past : List Event} {bound : Option Macro} {p : Defs}
    (keeps : Keeps name before bound past p) (longer : before.length < past.length) (event : Event) :
    Keeps name before bound (event :: past) (p.event event) := by
  intro depth found
  cases event with
  | define m =>
    rw [beforePush] at found
    exact (congrArg (·[depth]?) (congrFun (pushed_define p m) name)).trans (keeps depth found)
  | undef gone =>
    rw [beforePush] at found
    exact keeps depth found
  | push pushed =>
    by_cases same : pushed = name
    · subst same
      cases depth with
      | zero =>
        rw [beforePush, if_pos rfl] at found
        obtain rfl := Option.some.inj found
        exact absurd longer (Nat.lt_irrefl _)
      | succ depth =>
        rw [beforePush, if_pos rfl] at found
        simpa [Pre.event, Pre.pushMacro] using keeps depth found
    · have other : beforePush name (.push pushed :: past) depth = beforePush name past depth := by
        cases depth <;> rw [beforePush, if_neg same]
      rw [other] at found
      simpa [Pre.event, Pre.pushMacro, Ne.symm same] using keeps depth found
  | pop popped =>
    rw [Pre.event, pushed_popMacro]
    rw [beforePush] at found
    by_cases same : popped = name
    · rw [if_pos same] at found
      rw [if_pos same.symm, List.getElem?_tail]
      exact keeps (depth + 1) found
    · rw [if_neg same] at found
      rw [if_neg (Ne.symm same)]
      exact keeps depth found

section
variable (host : Host Definitions) (std : Std) (unquote : String → Option String)

theorem run_keeps {name : String} {before : List Op} {push : Op} (pushes : push.event unquote = some (.push name))
    (between : List Op) :
    Keeps name (history unquote before) ((run host std unquote before).macros.lookup name)
      (history unquote (before ++ [push] ++ between)) (run host std unquote (before ++ [push] ++ between)) ∧
    (history unquote before).length < (history unquote (before ++ [push] ++ between)).length := by
  induction between using List.reverseRecOn with
  | nil =>
    rw [List.append_nil, run_append, history_append, pushes]
    refine ⟨Keeps.sameDefs (step_event host std unquote _ push) ?_, Nat.lt_succ_self _⟩
    rw [pushes]
    exact Keeps.push _ _
  | append_singleton between op ih =>
    obtain ⟨keeps, longer⟩ := ih
    rw [← List.append_assoc, run_append, history_append]
    refine ⟨Keeps.sameDefs (step_event host std unquote _ op) ?_, by rw [List.length_append]; exact Nat.lt_add_left _ longer⟩
    cases op.event unquote with
    | none => exact keeps
    | some event => exact keeps.event longer event

/-- **`pop_macro` restores what the matching `push_macro` saved**, the identity with it. -/
theorem pop_restores {name : String} {before between : List Op} {push pop : Op}
    (pushes : push.event unquote = some (.push name)) (pops : pop.event unquote = some (.pop name))
    (matched : beforePush name (history unquote (before ++ [push] ++ between)) 0 = some (history unquote before)) :
    (run host std unquote (before ++ [push] ++ between ++ [pop])).macros.lookup name =
      (run host std unquote before).macros.lookup name := by
  have keeps := (run_keeps host std unquote pushes between).1 0 matched
  have same := step_event host std unquote (run host std unquote (before ++ [push] ++ between)) pop
  rw [pops] at same
  rw [run_append]
  refine (congrArg (Table.lookup · name) same.macros).trans ?_
  refine (lookup_popMacro (run_follows host std unquote _).named name name).trans ?_
  rw [if_pos rfl, keeps, Option.getD_some]

end

/-! ### Identities -/

/-- The identities given out, and the name each is of. -/
structure Owned (owner : Nat → String) (p : Defs) : Prop where
  table : ∀ name m, p.macros.lookup name = some m → m.id < p.rest.next ∧ owner m.id = name
  saved : ∀ name m, some m ∈ p.rest.pushed name → m.id < p.rest.next ∧ owner m.id = name

/-- What comes later, with the same owners of the identities there were. -/
structure Later (owner owner' : Nat → String) (p p' : Defs) : Prop where
  next : p.rest.next ≤ p'.rest.next
  owners : ∀ id < p.rest.next, owner' id = owner id

theorem Later.of_next (owner : Nat → String) {p p' : Defs} (next : p.rest.next ≤ p'.rest.next) : Later owner owner p p' :=
  ⟨next, fun _ _ => rfl⟩

theorem Later.trans {owner owner' owner'' : Nat → String} {p p' p'' : Defs} (first : Later owner owner' p p')
    (second : Later owner' owner'' p' p'') : Later owner owner'' p p'' :=
  ⟨first.next.trans second.next,
    fun id below => (second.owners id (Nat.lt_of_lt_of_le below first.next)).trans (first.owners id below)⟩

theorem Owned.define {owner : Nat → String} {p : Defs} (owned : Owned owner p) (m : Macro) :
    ∃ owner', Later owner owner' p (p.define m) ∧ Owned owner' (p.define m) := by
  unfold Pre.define
  split
  · next prev found =>
    refine ⟨owner, .of_next owner (Nat.le_refl _), fun name found' defined => ?_, owned.saved⟩
    rw [Table.lookup_bind] at defined
    split at defined
    · next same =>
      obtain rfl := Option.some.inj defined
      obtain ⟨below, owns⟩ := owned.table _ prev found
      exact ⟨below, owns.trans same⟩
    · exact owned.table name found' defined
  · next fresh =>
    let owner' := fun id => if id = p.rest.next then m.name else owner id
    have kept {id : Nat} {name : String} (old : id < p.rest.next ∧ owner id = name) :
        id < p.rest.next + 1 ∧ owner' id = name :=
      ⟨Nat.lt_succ_of_lt old.1, (if_neg (Nat.ne_of_lt old.1)).trans old.2⟩
    refine ⟨owner', ⟨Nat.le_succ _, fun id below => if_neg (Nat.ne_of_lt below)⟩, fun name found defined => ?_,
      fun name saved mem => kept (owned.saved name saved mem)⟩
    rw [Table.lookup_bind] at defined
    split at defined
    · next same =>
      obtain rfl := Option.some.inj defined
      exact ⟨Nat.lt_succ_self _, (if_pos rfl).trans same⟩
    · exact kept (owned.table name found defined)

theorem Owned.undef {owner : Nat → String} {p : Defs} (owned : Owned owner p) (gone : String) : Owned owner (p.undef gone) := by
  refine ⟨fun name m found => ?_, owned.saved⟩
  rw [Pre.undef, Table.lookup_undef] at found
  split at found
  · cases found
  · exact owned.table name m found

theorem Owned.push {owner : Nat → String} {p : Defs} (owned : Owned owner p) (pushed : String) :
    Owned owner (p.pushMacro pushed) := by
  refine ⟨owned.table, fun name m mem => ?_⟩
  simp only [Pre.pushMacro] at mem
  split at mem
  · next same =>
    subst same
    rcases List.mem_cons.mp mem with head | mem
    · exact owned.table name m head.symm
    · exact owned.saved name m mem
  · exact owned.saved name m mem

theorem next_popMacro (p : Defs) (popped : String) : (p.popMacro popped).rest.next = p.rest.next := by
  unfold Pre.popMacro
  split
  · rfl
  · dsimp only
    split <;> rfl

theorem Owned.pop {owner : Nat → String} {p : Defs} (owned : Owned owner p)
    (named : ∀ name m, some m ∈ p.rest.pushed name → m.name = name) (popped : String) : Owned owner (p.popMacro popped) := by
  refine ⟨fun name m found => ?_, fun name m mem => ?_⟩
  · rw [next_popMacro]
    rw [lookup_popMacro named] at found
    split at found
    · cases top : (p.rest.pushed name)[0]? with
      | none => exact owned.table name m (by simpa [top] using found)
      | some saved =>
        obtain rfl : saved = some m := by simpa [top] using found
        exact owned.saved name m (List.mem_of_getElem? top)
    · exact owned.table name m found
  · rw [next_popMacro]
    rw [pushed_popMacro] at mem
    split at mem
    · exact owned.saved name m (List.mem_of_mem_tail mem)
    · exact owned.saved name m mem

theorem Owned.event {owner : Nat → String} {p : Defs} (owned : Owned owner p)
    (named : ∀ name m, some m ∈ p.rest.pushed name → m.name = name) :
    ∀ event : Event, ∃ owner', Later owner owner' p (p.event event) ∧ Owned owner' (p.event event)
  | .define m => owned.define m
  | .undef name => ⟨owner, .of_next owner (Nat.le_refl _), owned.undef name⟩
  | .push name => ⟨owner, .of_next owner (Nat.le_refl _), owned.push name⟩
  | .pop name => ⟨owner, .of_next owner (next_popMacro p name).ge, owned.pop named name⟩

theorem Owned.sameDefs {owner : Nat → String} {p q : Defs} (same : SameDefs p q) (owned : Owned owner q) : Owned owner p :=
  ⟨by simpa [same.macros, same.rest] using owned.table, by simpa [same.rest] using owned.saved⟩

section
variable (host : Host Definitions) (std : Std) (unquote : String → Option String)

theorem run_owned (ops : List Op) : ∀ (more : List Op) (owner : Nat → String), Owned owner (run host std unquote ops) →
    ∃ owner', Later owner owner' (run host std unquote ops) (run host std unquote (ops ++ more)) ∧
      Owned owner' (run host std unquote (ops ++ more)) := by
  intro more owner owned
  induction more using List.reverseRecOn with
  | nil => exact ⟨owner, .of_next owner (by simp), by simpa using owned⟩
  | append_singleton more op ih =>
    obtain ⟨owner', later, owned'⟩ := ih
    have same := step_event host std unquote (run host std unquote (ops ++ more)) op
    rw [← List.append_assoc, run_append _ _ _ (ops ++ more)]
    cases comes : op.event unquote with
    | none =>
      rw [comes] at same
      exact ⟨owner', later.trans (.of_next owner' (congrArg Definitions.next same.rest).ge), owned'.sameDefs same⟩
    | some event =>
      rw [comes] at same
      obtain ⟨owner'', later', owned''⟩ := owned'.event (run_follows host std unquote _).named event
      refine ⟨owner'', later.trans ⟨?_, later'.owners⟩, owned''.sameDefs same⟩
      exact later'.next.trans (congrArg Definitions.next same.rest).ge

theorem run_nil_owned : Owned (fun _ => "") (run host std unquote []) :=
  ⟨fun name m found => by simp [run, Table.lookup] at found, fun name m mem => by simp [run] at mem⟩

/-- **An identity is one name's**, over all the tables of a run. -/
theorem id_owner {ops more : List Op} {name name' : String} {m m' : Macro}
    (early : (run host std unquote ops).macros.lookup name = some m)
    (late : (run host std unquote (ops ++ more)).macros.lookup name' = some m') (same : m.id = m'.id) : name = name' := by
  obtain ⟨owner, -, owned⟩ := run_owned host std unquote [] ops _ (run_nil_owned host std unquote)
  obtain ⟨owner', later, owned'⟩ := run_owned host std unquote ops more owner owned
  obtain ⟨below, owns⟩ := owned.table name m early
  calc name = owner m.id := owns.symm
    _ = owner' m.id := (later.owners m.id below).symm
    _ = owner' m'.id := by rw [same]
    _ = name' := (owned'.table name' m' late).2

end

/-! ### Hide sets -/

/-- A hide set by how it was built. -/
inductive Built where
  | none
  | add (h : Built) (id : Nat)
  | inter (a b : Built)
  | union (a b : Built)

def Built.set : Built → HideSet
  | .none => .none
  | .add h id => h.set.add id
  | .inter a b => a.set.inter b.set
  | .union a b => a.set.union b.set

/-- The identities in it. -/
def Built.members : Built → Finset Nat
  | .none => ∅
  | .add h id => insert id h.members
  | .inter a b => a.members ∩ b.members
  | .union a b => a.members ∪ b.members

theorem Built.toFinset_set (h : Built) : h.set.toFinset = h.members := by
  induction h with
  | none => rfl
  | add h id ih => rw [set, HideSet.toFinset_add, ih, members]
  | inter a b iha ihb => rw [set, HideSet.toFinset_inter, iha, ihb, members]
  | union a b iha ihb => rw [set, HideSet.toFinset_union, iha, ihb, members]

/-! ### The table over a run -/

section
variable (host : Host Definitions) (std : Std) (unquote : String → Option String)

/-- **Bindings, saved bindings, identities and hide sets.** A name is bound to what its history says;
`pop_macro` restores the binding at the matching `push_macro`; two names never have one identity, at whatever
times; and a hide set is strictly sorted and holds what was put into it. -/
theorem definitions_sound :
    (∀ ops name, ((run host std unquote ops).macros.lookup name).map Macro.definitionOnly =
      binding name (history unquote ops)) ∧
    (∀ name before push between pop, Op.event unquote push = some (.push name) → Op.event unquote pop = some (.pop name) →
      beforePush name (history unquote (before ++ [push] ++ between)) 0 = some (history unquote before) →
      (run host std unquote (before ++ [push] ++ between ++ [pop])).macros.lookup name =
        (run host std unquote before).macros.lookup name) ∧
    (∀ ops more name name' m m', (run host std unquote ops).macros.lookup name = some m →
      (run host std unquote (ops ++ more)).macros.lookup name' = some m' → m.id = m'.id → name = name') ∧
    ∀ h : Built, h.set.ids.Pairwise (· < ·) ∧ ∀ id, h.set.has id = true ↔ id ∈ h.members := by
  refine ⟨fun ops => (run_follows host std unquote ops).bound, fun _ _ _ _ _ => pop_restores host std unquote,
    fun _ _ _ _ _ _ => id_owner host std unquote, fun h => ⟨h.set.sorted, fun id => ?_⟩⟩
  rw [← h.toFinset_set, HideSet.mem_toFinset]

end

/-- A host with no files and no system headers. -/
def emptyHost : Host Definitions where
  vendor := false
  objC := false
  maxIncludeDepth := 0
  search := 0
  name _ := ""
  system _ _ := false
  origin _ _ _ _ _ := 0
  searchList _ _ _ _ := []
  read _ := none
  readError _ := ""
  addDep defs _ := defs
  expandClosed p ts := (ts, p)
  operator _ p _ _ := (none, p)
  headerName p _ _ := (none, p)
  directive _ p _ _ _ := (p, false)
  text _ p toks := { toks, pre := p }

/-- A name in quotes, without its quotes. -/
def plainQuotes (text : String) : Option String := some (String.ofList text.toList.tail.dropLast)

/-- `#pragma push_macro("min")`, or `pop_macro`. -/
def minPragma (word : String) : Op :=
  .pushPop [.mint .ident word, .mint .lparen "(", .mint .stringLit "\"min\"", .mint .rparen ")"] ⟨none, 0, 0⟩

/-- `#define name 1` -/
def defineOne (name : String) : Op := .define [.mint .ident name, .mint .intLit "1"] ⟨none, 0, 0⟩

/-- `min` is defined, saved, undefined and restored; `max`, which is defined in between, is another macro. -/
theorem min_restored :
    let ops := [defineOne "min", minPragma "push_macro", .undefText "min", minPragma "pop_macro"]
    (run emptyHost .cxx23 plainQuotes ops).macros.lookup "min" =
      (run emptyHost .cxx23 plainQuotes [defineOne "min"]).macros.lookup "min" ∧
    (∀ m m', (run emptyHost .cxx23 plainQuotes [defineOne "min"]).macros.lookup "min" = some m →
      (run emptyHost .cxx23 plainQuotes [defineOne "min", .undefText "min", defineOne "max"]).macros.lookup "max" = some m' →
      m.id ≠ m'.id) := by
  obtain ⟨-, restored, owner, -⟩ := definitions_sound emptyHost .cxx23 plainQuotes
  constructor
  · exact restored "min" [defineOne "min"] (minPragma "push_macro") [.undefText "min"] (minPragma "pop_macro") rfl rfl rfl
  · intro m m' early late same
    exact absurd (owner [defineOne "min"] [.undefText "min", defineOne "max"] "min" "max" m m' early late same) (by decide)

end Vcx.Preprocessor
