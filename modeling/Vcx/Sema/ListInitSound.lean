import Mathlib.Data.List.TakeWhile
import Vcx.Sema.ListInitRun

/-!
# When the braces are put back right

The program takes all the fields of a class for its elements. A class is `plain` when they
are: it has no unnamed bit-field and is no union of several members. `brace_right_iff` says
for which types that matters: every class the items of a list can get to without a brace has
to be plain, but of the class of the list itself, no field after its first missing element
may be an aggregate, since nothing else tells the fields from the elements.
-/

namespace Vcx.ListInit
set_option autoImplicit false
open Vcx.Lib Vcx.Types

variable (c : Classes)

/-- All the fields of a class are elements. -/
def plain (r : Nat) : Bool :=
  (aggregateFields c r).all isElement && ((c.h.record r).tag != .union || (aggregateFields c r).length ≤ 1)

/-- A class that is initialized element by element in a type. -/
inductive Inside : Ty → Nat → Prop where
  | here (t : Ty) (r : Nat) (is : t.unqualify = .record r) (aggregate : isAggregateType c t = true) : Inside t r
  | array (t elem : Ty) (len : Nat) (incomplete : Bool) (r : Nat) (is : t.unqualify = .array elem len incomplete)
    (some_ : incomplete = true ∨ len ≠ 0) (inside : Inside elem r) : Inside t r
  | member (t u : Ty) (d r : Nat) (is : t.unqualify = .record d) (aggregate : isAggregateType c t = true)
    (mem : u ∈ fieldTypes c d) (inside : Inside u r) : Inside t r

/-- Every class in a type is plain. -/
def Clean (t : Ty) : Prop := ∀ r, Inside c t r → plain c r = true

/-- The fields of a class up to the first that is not an element. -/
def shared (r : Nat) : List Field :=
  if (c.h.record r).tag = .union then ((aggregateFields c r).takeWhile isElement).take 1
  else (aggregateFields c r).takeWhile isElement

/-- Those from there on. -/
def others (r : Nat) : List Field := (aggregateFields c r).drop (shared c r).length

/-- What the braces of a list for a type depend on is kept: the classes that its items can get to are plain. -/
def Kept (t : Ty) : Prop :=
  match t.unqualify with
  | .array elem len incomplete => incomplete = true ∨ len ≠ 0 → Clean c elem
  | .record r => (∀ f ∈ shared c r, Clean c f.type) ∧ ∀ f ∈ others c r, isAggregateType c f.type = false
  | _ => True

/-- A type without arrays of unknown bound. -/
def bounded : Ty → Bool
  | .qualified _ t => bounded t
  | .array elem _ incomplete => !incomplete && bounded elem
  | _ => true

/-- The members of classes are of complete types. -/
def Sized : Prop := ∀ r, ∀ u ∈ fieldTypes c r, bounded u = true

variable {c : Classes} {E E' : Nat → List Ty} {todo : Todo} {items rest rest' : List Item} {nodes nodes' : List Node}
  {r n : Nat} {t u : Ty}

/-! ### Fields and elements -/

theorem filter_eq_takeWhile {α : Type} (p : α → Bool) (l : List α) :
    l.filter p = l.takeWhile p ++ (l.drop (l.takeWhile p).length).filter p := by
  induction l with
  | nil => rfl
  | cons a l ih => cases pa : p a <;> simp [pa, ih]

theorem drop_takeWhile {α : Type} (p : α → Bool) (l : List α) :
    l.drop (l.takeWhile p).length = [] ∨ ∃ a l', l.drop (l.takeWhile p).length = a :: l' ∧ p a = false := by
  induction l with
  | nil => exact .inl rfl
  | cons a l ih =>
    cases pa : p a with
    | true => simpa [pa] using ih
    | false => exact .inr ⟨a, l, by simp [pa], pa⟩

/-- Dropping what is not looked for finds it no later. -/
theorem filter_findIdx? {α : Type} {p q : α → Bool} {l : List α} (kept : ∀ a ∈ l, q a = true → p a = true) {i : Nat}
    (found : l.findIdx? q = some i) : ∃ j ≤ i, (l.filter p).findIdx? q = some j := by
  induction l generalizing i with
  | nil => cases found
  | cons a l ih =>
    rw [List.findIdx?_cons] at found
    cases qa : q a with
    | true =>
      rw [List.filter_cons_of_pos (kept a List.mem_cons_self qa), List.findIdx?_cons, qa]
      exact ⟨0, Nat.zero_le i, rfl⟩
    | false =>
      simp only [qa, Bool.false_eq_true, if_false, Option.map_eq_some_iff] at found
      obtain ⟨i, found, rfl⟩ := found
      obtain ⟨j, le, found⟩ := ih (fun b mem => kept b (List.mem_cons_of_mem a mem)) found
      cases pa : p a with
      | true =>
        rw [List.filter_cons_of_pos pa, List.findIdx?_cons, qa]
        exact ⟨j + 1, by omega, by simp [found]⟩
      | false =>
        rw [List.filter_cons_of_neg (by simp [pa])]
        exact ⟨j, by omega, found⟩

variable (c) in
/-- The elements from the first missing one on. -/
def otherElements (r : Nat) : List Field :=
  if (c.h.record r).tag = .union then
    if (shared c r).isEmpty then ((others c r).filter isElement).take 1 else []
  else (others c r).filter isElement

theorem fieldTypes_split : fieldTypes c r = (shared c r).map Field.type ++ (others c r).map Field.type := by
  have prefix_ : shared c r <+: aggregateFields c r := by
    unfold shared
    split
    · exact (List.take_prefix _ _).trans (List.takeWhile_prefix _)
    · exact List.takeWhile_prefix _
  rw [← List.map_append, others, List.prefix_iff_eq_append.1 prefix_, fieldTypes]

theorem elements_split : elements c r = (shared c r).map Field.type ++ (otherElements c r).map Field.type := by
  rw [← List.map_append]
  unfold elements otherElements others shared
  split
  · generalize aggregateFields c r = fields
    cases fields with
    | nil => rfl
    | cons f fields => cases element : isElement f <;> simp [element]
  · rw [← filter_eq_takeWhile]

theorem elements_sublist : (elements c r).Sublist (fieldTypes c r) := by
  unfold elements fieldTypes
  split
  · exact ((List.take_sublist _ _).trans List.filter_sublist).map _
  · exact List.filter_sublist.map _

theorem fieldTypes_eq_elements (plain_ : plain c r = true) : fieldTypes c r = elements c r := by
  simp only [plain, Bool.and_eq_true, Bool.or_eq_true, bne_iff_ne, decide_eq_true_eq, List.all_eq_true] at plain_
  have all := List.filter_eq_self.2 plain_.1
  unfold elements fieldTypes
  rw [all]
  split
  · rename_i union
    rw [List.take_of_length_le (plain_.2.resolve_left fun no => no union)]
  · rfl

theorem plain_of_length (le : (fieldTypes c r).length ≤ (elements c r).length) : plain c r = true := by
  have filter_le := List.length_filter_le isElement (aggregateFields c r)
  simp only [plain, Bool.and_eq_true, Bool.or_eq_true, bne_iff_ne, decide_eq_true_eq, List.all_eq_true]
  unfold elements fieldTypes at le
  split at le
  · rename_i union
    simp only [List.length_map, List.length_take] at le
    exact ⟨List.length_filter_eq_length_iff.1 (by omega), .inr (by omega)⟩
  · rename_i union
    simp only [List.length_map] at le
    exact ⟨List.length_filter_eq_length_iff.1 (by omega), .inl union⟩

theorem scalar_of_not_element {f : Field} (mem : f ∈ aggregateFields c r) (no : isElement f = false) :
    isAggregateType c f.type = false := by
  simp only [isElement, Bool.not_eq_false', Bool.and_eq_true] at no
  rcases List.mem_append.1 mem with base | field
  · obtain ⟨b, -, rfl⟩ := List.mem_map.1 base
    cases no.1
  · have integral := c.h.bitField_integral r f field no.1
    unfold Ty.isIntegral at integral
    unfold isAggregateType
    split at integral <;> simp_all

/-- An aggregate among the fields that the elements differ in is at another place among the elements. -/
theorem others_ne {i : Nat} (found : ((others c r).map Field.type).findIdx? (isAggregateType c) = some i) :
    ((otherElements c r).map Field.type).findIdx? (isAggregateType c) ≠ some i := by
  rw [List.findIdx?_map] at found ⊢
  have kept : ∀ f ∈ others c r, (isAggregateType c ∘ Field.type) f = true → isElement f = true := by
    intro f mem aggregate
    by_contra no
    rw [Function.comp_apply, scalar_of_not_element (List.mem_of_mem_drop mem) (by simpa using no)] at aggregate
    cases aggregate
  -- the first of the fields is left out, so that an element is found one place before
  have later : ∀ f fields, others c r = f :: fields → isElement f = false →
      ∃ j < i, ((others c r).filter isElement).findIdx? (isAggregateType c ∘ Field.type) = some j := by
    intro f fields e no
    have scalar : (isAggregateType c ∘ Field.type) f = false := by
      by_contra aggregate
      rw [kept f (by simp [e]) (by simpa using aggregate)] at no
      cases no
    rw [e, List.findIdx?_cons, scalar] at found
    simp only [Bool.false_eq_true, if_false, Option.map_eq_some_iff] at found
    obtain ⟨i, found, rfl⟩ := found
    obtain ⟨j, le, found⟩ := filter_findIdx? (fun g mem => kept g (by simp [e, mem])) found
    refine ⟨j, by omega, ?_⟩
    rw [e, List.filter_cons_of_neg (by simp [no]), found]
  unfold otherElements
  split
  · rename_i union
    split
    · rename_i empty
      have whole : others c r = aggregateFields c r := by
        rw [others, List.isEmpty_iff.1 empty, List.length_nil, List.drop_zero]
      cases e : aggregateFields c r with
      | nil => simp [whole, e] at found
      | cons f fields =>
        have no : isElement f = false := by
          by_contra yes
          simp only [Bool.not_eq_false] at yes
          simp [shared, union, e, yes] at empty
        obtain ⟨j, lt, found⟩ := later f fields (whole.trans e) no
        rw [List.findIdx?_take, found]
        simp [Option.guard]
        omega
    · simp
  · rename_i union
    rcases drop_takeWhile isElement (aggregateFields c r) with none | ⟨f, fields, e, no⟩
    · simp [others, shared, union, none] at found
    · obtain ⟨j, lt, found⟩ := later f fields (by simpa [others, shared, union] using e) no
      rw [found]
      simp
      omega

/-! ### One type after the other -/

theorem Braced.each_nil {ts : List Ty} (run : Braced c E (.each ts) [] nodes rest) : nodes = [] ∧ rest = [] := by
  cases run with
  | done | noMore => exact ⟨rfl, rfl⟩
  | member _ _ _ _ _ _ _ taken => exact absurd rfl taken.elem_ne_nil

theorem Braced.each_append {ts us : List Ty} : Braced c E (.each (ts ++ us)) items nodes rest ↔
    ∃ before after mid, nodes = before ++ after ∧ Braced c E (.each ts) items before mid ∧
      Braced c E (.each us) mid after rest := by
  induction ts generalizing items nodes with
  | nil =>
    constructor
    · intro run
      exact ⟨[], nodes, items, rfl, .done items, run⟩
    · rintro ⟨before, after, mid, rfl, run, run'⟩
      cases run
      exact run'
  | cons t ts ih =>
    constructor
    · intro run
      cases run with
      | noMore =>
        refine ⟨[], [], [], rfl, .noMore t ts, ?_⟩
        cases us with
        | nil => exact .done []
        | cons u us => exact .noMore u us
      | member _ _ _ mid _ node nodes taken more =>
        obtain ⟨before, after, mid', rfl, run, run'⟩ := ih.1 more
        refine ⟨node ++ before, after, mid', (List.append_assoc ..).symm, ?_, run'⟩
        exact .member t ts items mid mid' node before taken run
    · rintro ⟨before, after, mid, rfl, run, run'⟩
      cases run with
      | noMore =>
        obtain ⟨rfl, rfl⟩ := run'.each_nil
        exact .noMore t (ts ++ us)
      | member _ _ _ mid' _ node nodes taken more =>
        rw [List.append_assoc]
        exact .member t (ts ++ us) items mid' rest node (nodes ++ after) taken (ih.2 ⟨nodes, after, mid, rfl, more, run'⟩)

/-- A class takes one node for each type, or all the items. -/
theorem Braced.each_length {ts : List Ty} (run : Braced c E (.each ts) items nodes rest) :
    nodes.length = ts.length ∨ (nodes.length < ts.length ∧ rest = []) := by
  induction ts generalizing items nodes with
  | nil => cases run; exact .inl rfl
  | cons t ts ih =>
    cases run with
    | noMore => exact .inr ⟨Nat.succ_pos _, rfl⟩
    | member _ _ _ _ _ node nodes taken more =>
      obtain ⟨node, rfl⟩ := taken.elem_node
      rcases ih more with same | ⟨less, none⟩
      · exact .inl (by simp [same])
      · exact .inr ⟨by simp; omega, none⟩

theorem Braced.each_scalars {ts : List Ty} (scalars : ∀ t ∈ ts, isAggregateType c t = false)
    (run : Braced c E (.each ts) items nodes rest) : nodes ++ rest.map .given = items.map .given := by
  induction ts generalizing items nodes with
  | nil => cases run; rfl
  | cons t ts ih =>
    cases run with
    | noMore => rfl
    | member _ _ _ mid _ node nodes taken more =>
      have more := ih (fun u mem => scalars u (List.mem_cons_of_mem t mem)) more
      cases taken with
      | whole => simpa using more
      | opened _ item _ _ _ open_ =>
        have scalar := scalars t List.mem_cons_self
        unfold takenWhole at open_
        split at open_ <;> simp [scalar] at open_

/-! ### The condition is enough -/

variable (c) in
/-- Every class in what is to be initialized is plain. -/
def CleanTodo (todo : Todo) : Prop :=
  match todo with
  | .elem t => Clean c t
  | .array elem bound => bound ≠ some 0 → Clean c elem
  | .each ts => ∀ t ∈ ts, Clean c t

theorem aggregate_of_open {item : Item} (open_ : takenWhole c item t = false) : isAggregateType c t = true := by
  unfold takenWhole at open_
  split at open_ <;> simp_all

theorem todoOf_array {elem : Ty} {len : Nat} {incomplete : Bool} (is : t.unqualify = .array elem len incomplete) :
    todoOf E t = .array elem (if incomplete then none else some len) := by
  simp [todoOf, is]

theorem todoOf_record (is : t.unqualify = .record r) : todoOf E t = .each (E r) := by
  simp [todoOf, is]

theorem todoOf_clean (aggregate : isAggregateType c t = true) (clean : Clean c t) :
    todoOf (fieldTypes c) t = todoOf (elements c) t ∧ CleanTodo c (todoOf (fieldTypes c) t) := by
  unfold todoOf
  split
  · rename_i elem len incomplete is
    refine ⟨rfl, fun left r inside => clean r (.array t elem len incomplete r is ?_ inside)⟩
    cases incomplete with
    | true => exact .inl rfl
    | false => exact .inr fun zero => left (by simp [zero])
  · rename_i r is
    refine ⟨congrArg Todo.each (fieldTypes_eq_elements (clean r (.here t r is aggregate))), ?_⟩
    exact fun u mem d inside => clean d (.member t u r d is aggregate mem inside)
  · exact ⟨rfl, fun u mem => absurd mem List.not_mem_nil⟩

theorem Braced.clean (run : Braced c (fieldTypes c) todo items nodes rest) (clean : CleanTodo c todo) :
    Braced c (elements c) todo items nodes rest := by
  induction run with
  | whole t item rest taken => exact .whole t item rest taken
  | opened t item items rest nodes open_ inner ih =>
    obtain ⟨same, clean⟩ := todoOf_clean (aggregate_of_open open_) clean
    exact .opened t item items rest nodes open_ (same ▸ ih clean)
  | full elem items some_ => exact .full elem items some_
  | noItems elem bound => exact .noItems elem bound
  | idle elem bound items nodes left taken ih => exact .idle elem bound items nodes left (ih (clean left))
  | element elem bound items rest rest' nodes nodes' left taken less others ih ihOthers =>
    exact .element elem bound items rest rest' nodes nodes' left (ih (clean left)) less (ihOthers fun _ => clean left)
  | done items => exact .done items
  | noMore t ts => exact .noMore t ts
  | member t ts items rest rest' nodes nodes' taken others ih ihOthers =>
    exact .member t ts items rest rest' nodes nodes' (ih (clean t List.mem_cons_self))
      (ihOthers fun u mem => clean u (List.mem_cons_of_mem t mem))

theorem mem_otherElements {f : Field} (mem : f ∈ otherElements c r) : f ∈ others c r := by
  unfold otherElements at mem
  split at mem
  · split at mem
    · exact List.mem_of_mem_filter (List.mem_of_mem_take mem)
    · cases mem
  · exact List.mem_of_mem_filter mem

theorem elements_below : ∀ r, ∀ u ∈ elements c r, ∀ d, u.recordElem = some d → d < r :=
  fun r u mem => fieldTypes_below r u (elements_sublist.subset mem)

theorem form_of_kept (aggregate : isAggregateType c t = true) (kept : Kept c t) (run : Braced c (fieldTypes c) (todoOf (fieldTypes c) t) items nodes rest) :
    Form c (elements c) t items (nodes ++ rest.map .given) := by
  unfold Kept at kept
  unfold Form
  split at kept
  · rename_i elem len incomplete is
    rw [todoOf_array is] at run ⊢
    refine ⟨nodes, rest, run.clean fun left => kept ?_, rfl⟩
    cases incomplete with
    | true => exact .inl rfl
    | false => exact .inr fun zero => left (by simp [zero])
  · rename_i r is
    rw [todoOf_record is] at run ⊢
    obtain ⟨clean, scalars⟩ := kept
    rw [fieldTypes_split] at run
    obtain ⟨before, after, mid, rfl, run, run'⟩ := Braced.each_append.1 run
    have run := run.clean (by
      intro u mem
      obtain ⟨f, field, rfl⟩ := List.mem_map.1 mem
      exact clean f field)
    -- from the first missing element on, there are only scalars, by fields and by elements
    have one : ∀ u ∈ (otherElements c r).map Field.type, ∀ items, items ≠ [] →
        ∃ nodes rest, Braced c (elements c) (.elem u) items nodes rest := by
      intro u mem items some_
      obtain ⟨f, field, rfl⟩ := List.mem_map.1 mem
      obtain ⟨item, items, rfl⟩ := List.exists_cons_of_ne_nil some_
      refine ⟨_, _, .whole f.type item items ?_⟩
      by_contra open_
      have aggregate := aggregate_of_open (by simpa using open_)
      rw [scalars f (mem_otherElements field)] at aggregate
      cases aggregate
    obtain ⟨after', rest', run''⟩ := Braced.each_total one mid
    rw [elements_split]
    refine ⟨before ++ after', rest', Braced.each_append.2 ⟨before, after', mid, rfl, run, run''⟩, ?_⟩
    have flat := run'.each_scalars (by
      intro u mem
      obtain ⟨f, field, rfl⟩ := List.mem_map.1 mem
      exact scalars f field)
    have flat' := run''.each_scalars (by
      intro u mem
      obtain ⟨f, field, rfl⟩ := List.mem_map.1 mem
      exact scalars f (mem_otherElements field))
    rw [List.append_assoc, List.append_assoc, flat, flat']
  · rename_i array record
    unfold isAggregateType at aggregate
    split at aggregate
    · rename_i is
      exact absurd is (array _ _ _)
    · rename_i is
      exact absurd is (record _)
    · cases aggregate

theorem right_of_kept (aggregate : isAggregateType c t = true) (kept : Kept c t) : Right c t := by
  intro items
  obtain ⟨nodes, rest, run, found⟩ := brace_fieldTypes aggregate items
  refine ⟨_, found, ?_, form_of_kept aggregate kept run⟩
  have given : (rest.map Node.given).flatMap Node.items = rest := by simp [List.flatMap_map, Node.items]
  rw [List.flatMap_append, given, run.items_eq]

/-! ### The condition is necessary

A list of scalars gets into every aggregate that it reaches, and a list of braced lists gets
into none.
-/

/-- An expression that is no aggregate. -/
def scalar : Item := ⟨0, .value none false⟩

/-- A braced list. -/
def list : Item := ⟨0, .list⟩

def scalars (n : Nat) : List Item := List.replicate n scalar

def lists (n : Nat) : List Item := List.replicate n list

theorem takenWhole_scalar : takenWhole c scalar t = !isAggregateType c t := by
  have part : initializesWhole c scalar t = false := by
    unfold initializesWhole scalar
    split <;> simp_all
  show (!isAggregateType c t || initializesWhole c scalar t) = _
  rw [part, Bool.or_false]

theorem scalars_add (k n : Nat) : scalars (k + n) = scalars k ++ scalars n := by
  rw [scalars, List.replicate_add]
  rfl

theorem scalars_ne_nil (pos : 0 < n) : scalars n ≠ [] := by
  simp [scalars]
  omega

theorem Braced.scalars_opened (aggregate : isAggregateType c t = true) (pos : 0 < n) :
    Braced c E (.elem t) (scalars n) nodes rest ↔
      ∃ inner, nodes = [.put inner] ∧ Braced c E (todoOf E t) (scalars n) inner rest := by
  obtain ⟨n, rfl⟩ := Nat.exists_eq_add_of_le' pos
  have open_ : takenWhole c scalar t = false := by rw [takenWhole_scalar, aggregate]; rfl
  constructor
  · intro run
    cases run with
    | whole _ _ _ taken => exact absurd taken (by simp [open_])
    | opened _ _ _ _ inner _ run => exact ⟨inner, rfl, run⟩
  · rintro ⟨inner, rfl, run⟩
    exact .opened t scalar (scalars n) rest inner open_ run

variable (c) in
/-- A type takes the same of a list of scalars by fields and by elements. -/
def Agree (t : Ty) : Prop :=
  ∀ n nodes rest nodes' rest', Braced c (fieldTypes c) (.elem t) (scalars n) nodes rest →
    Braced c (elements c) (.elem t) (scalars n) nodes' rest' → nodes = nodes'

theorem Agree.inner (agree : Agree c t) (aggregate : isAggregateType c t = true) (pos : 0 < n)
    (run : Braced c (fieldTypes c) (todoOf (fieldTypes c) t) (scalars n) nodes rest)
    (run' : Braced c (elements c) (todoOf (elements c) t) (scalars n) nodes' rest') : nodes = nodes' := by
  have same := agree n _ _ _ _ ((Braced.scalars_opened aggregate pos).2 ⟨nodes, rfl, run⟩)
    ((Braced.scalars_opened aggregate pos).2 ⟨nodes', rfl, run'⟩)
  simpa using same

variable (c) in
/-- A type of bounded size is filled by some number of scalars. -/
def Filled (t : Ty) : Prop :=
  ∃ k, ∀ n > 0, ∃ nodes, Braced c (fieldTypes c) (.elem t) (scalars (k + n)) nodes (scalars n)

theorem each_filled {ts : List Ty} (one : ∀ t ∈ ts, Filled c t) : ∃ k, ∀ n > 0, ∃ nodes : List Node,
    nodes.length = ts.length ∧ Braced c (fieldTypes c) (.each ts) (scalars (k + n)) nodes (scalars n) := by
  induction ts with
  | nil => exact ⟨0, fun n _ => ⟨[], rfl, by rw [Nat.zero_add]; exact .done _⟩⟩
  | cons t ts ih =>
    obtain ⟨k, first⟩ := one t List.mem_cons_self
    obtain ⟨k', more⟩ := ih fun u mem => one u (List.mem_cons_of_mem t mem)
    refine ⟨k + k', fun n pos => ?_⟩
    obtain ⟨nodes', length, more⟩ := more n pos
    obtain ⟨nodes, first⟩ := first (k' + n) (by omega)
    obtain ⟨node, rfl⟩ := first.elem_node
    rw [← Nat.add_assoc] at first
    exact ⟨node :: nodes', by simp [length], .member t ts _ _ _ [node] nodes' first more⟩

theorem array_filled {elem : Ty} (one : Filled c elem) (len : Nat) : ∃ k, ∀ n > 0, ∃ nodes : List Node,
    Braced c (fieldTypes c) (.array elem (some len)) (scalars (k + n)) nodes (scalars n) := by
  obtain ⟨k, one⟩ := one
  by_cases none : k = 0
  · subst none
    refine ⟨0, fun n pos => ?_⟩
    obtain ⟨nodes, first⟩ := one n pos
    rw [Nat.zero_add] at first ⊢
    cases len with
    | zero => exact ⟨[], .full elem _ (scalars_ne_nil pos)⟩
    | succ len => exact ⟨nodes, .idle elem _ _ nodes (by simp) first⟩
  induction len with
  | zero => exact ⟨0, fun n pos => ⟨[], by rw [Nat.zero_add]; exact .full elem _ (scalars_ne_nil pos)⟩⟩
  | succ len ih =>
    obtain ⟨k', more⟩ := ih
    refine ⟨k + k', fun n pos => ?_⟩
    obtain ⟨nodes', more⟩ := more n pos
    obtain ⟨nodes, first⟩ := one (k' + n) (by omega)
    rw [← Nat.add_assoc] at first
    exact ⟨nodes ++ nodes', .element elem _ _ _ _ nodes nodes' (by simp) first (by simp [scalars]; omega) more⟩

theorem bounded_array {elem : Ty} {len : Nat} {incomplete : Bool} (is : t.unqualify = .array elem len incomplete)
    (size : bounded t = true) : incomplete = false ∧ bounded elem = true := by
  cases t with
  | qualified q t =>
    obtain rfl : t = .array elem len incomplete := is
    simpa [bounded] using size
  | array =>
    cases is
    simpa [bounded] using size
  | _ => cases is

theorem filled (members : Sized c) (t : Ty) (size : bounded t = true) :
    Filled c t := by
  induction t using partsOf_induction (fieldTypes_below (c := c)) with | _ t ih =>
  by_cases aggregate : isAggregateType c t = true
  · have opened : (∃ k, ∀ n > 0, ∃ nodes, Braced c (fieldTypes c) (todoOf (fieldTypes c) t) (scalars (k + n)) nodes
        (scalars n)) → Filled c t := by
      rintro ⟨k, inner⟩
      refine ⟨k, fun n pos => ?_⟩
      obtain ⟨nodes, inner⟩ := inner n pos
      exact ⟨_, (Braced.scalars_opened aggregate (by omega)).2 ⟨nodes, rfl, inner⟩⟩
    unfold isAggregateType at aggregate
    split at aggregate
    · rename_i elem len incomplete is
      obtain ⟨rfl, size⟩ := bounded_array is size
      obtain ⟨k, inner⟩ := array_filled (ih elem (by simp [partsOf, is]) size) len
      exact opened ⟨k, by simpa [todoOf_array is] using inner⟩
    · rename_i r is
      obtain ⟨k, inner⟩ := each_filled fun u mem => ih u (by simpa [partsOf, is] using mem) (members r u mem)
      refine opened ⟨k, fun n pos => ?_⟩
      obtain ⟨nodes, -, inner⟩ := inner n pos
      exact ⟨nodes, by rwa [todoOf_record is]⟩
    · cases aggregate
  · refine ⟨1, fun n pos => ⟨[.given scalar], ?_⟩⟩
    rw [scalars_add]
    exact .whole t scalar (scalars n) (by simp [takenWhole_scalar, aggregate])

/-- A class that is opened has to be plain. -/
theorem Agree.plain (members : Sized c) (agree : Agree c t)
    (aggregate : isAggregateType c t = true) (is : t.unqualify = .record r) : plain c r = true := by
  obtain ⟨k, fill⟩ := each_filled fun u mem => filled members u (members r u mem)
  obtain ⟨nodes, length, run⟩ := fill 1 Nat.one_pos
  obtain ⟨nodes', rest', run'⟩ := Braced.total elements_below t (scalars (k + 1))
  obtain rfl := agree.inner aggregate (Nat.succ_pos k) (by rwa [todoOf_record is]) run'
  rw [todoOf_record is] at run'
  apply plain_of_length
  rcases run'.each_length with same | ⟨less, -⟩ <;> omega

theorem Braced.each_at {ts us : List Ty} (run : Braced c E (.each (ts ++ u :: us)) items nodes rest) {before : List Node}
    {mid : List Item} (first : Braced c E (.each ts) items before mid) (some_ : mid ≠ []) :
    ∃ node after rest', nodes = before ++ node :: after ∧ Braced c E (.elem u) mid [node] rest' ∧
      Braced c E (.each us) rest' after rest := by
  obtain ⟨before', after, mid', rfl, first', more⟩ := each_append.1 run
  obtain ⟨rfl, rfl⟩ := first.unique first'
  cases more with
  | noMore => exact absurd rfl some_
  | member _ _ _ rest' _ node after taken more =>
    obtain ⟨node, rfl⟩ := taken.elem_node
    exact ⟨node, after, rest', rfl, taken, more⟩

theorem Agree.member (members : Sized c) (agree : Agree c t)
    (aggregate : isAggregateType c t = true) (is : t.unqualify = .record r) (mem : u ∈ fieldTypes c r) : Agree c u := by
  have same := fieldTypes_eq_elements (agree.plain members aggregate is)
  obtain ⟨ts, us, split_⟩ := List.append_of_mem mem
  have before_filled : ∀ v ∈ ts, Filled c v := by
    intro v mem
    have mem : v ∈ fieldTypes c r := by simp [split_, mem]
    exact filled members v (members r v mem)
  obtain ⟨k, fill⟩ := each_filled before_filled
  intro n node rest node' rest' taken taken'
  have pos : 0 < n := by
    by_contra none
    obtain rfl : n = 0 := by omega
    exact absurd rfl taken.elem_ne_nil
  obtain ⟨before, length, first⟩ := fill n pos
  obtain ⟨nodes, left, run⟩ := Braced.total fieldTypes_below t (scalars (k + n))
  obtain ⟨nodes', left', run'⟩ := Braced.total elements_below t (scalars (k + n))
  obtain rfl := agree.inner aggregate (by omega) run run'
  rw [todoOf_record is, split_] at run
  rw [todoOf_record is, ← same, split_] at run'
  obtain ⟨one, after, _, rfl, one_taken, -⟩ := run.each_at first (scalars_ne_nil pos)
  obtain ⟨rfl, rfl⟩ := taken.unique one_taken
  obtain ⟨before', after', mid', e, first', more'⟩ := Braced.each_append.1 run'
  have length' : before'.length = before.length := by
    rcases first'.each_length with same | ⟨less, none⟩
    · omega
    · subst none
      obtain ⟨rfl, -⟩ := more'.each_nil
      have := congrArg List.length e
      simp at this
      omega
  obtain ⟨rfl, -⟩ := List.append_inj e length'.symm
  obtain rfl := first.rest_eq first'
  obtain ⟨one', after', _, e, one_taken', -⟩ := run'.each_at first' (scalars_ne_nil pos)
  obtain ⟨rfl, rfl⟩ := taken'.unique one_taken'
  have heads := List.append_cancel_left e
  simp only [List.cons.injEq] at heads
  rw [heads.1]

theorem Braced.array_head {elem : Ty} {bound : Option Nat} (run : Braced c E (.array elem bound) items nodes rest)
    (some_ : items ≠ []) (left : bound ≠ some 0) :
    ∃ node after rest', nodes = node :: after ∧ Braced c E (.elem elem) items [node] rest' := by
  cases run with
  | full => exact absurd rfl left
  | noItems => exact absurd rfl some_
  | idle _ _ _ _ _ taken =>
    obtain ⟨node, rfl⟩ := taken.elem_node
    exact ⟨node, [], _, rfl, taken⟩
  | element _ _ _ rest' _ _ after _ taken =>
    obtain ⟨node, rfl⟩ := taken.elem_node
    exact ⟨node, after, rest', rfl, taken⟩

theorem bound_ne_zero {len : Nat} {incomplete : Bool} (some_ : incomplete = true ∨ len ≠ 0) :
    (if incomplete then none else some len) ≠ some 0 := by
  cases incomplete with
  | true => simp
  | false => simpa using some_

theorem Agree.array (agree : Agree c t) {elem : Ty} {len : Nat} {incomplete : Bool}
    (is : t.unqualify = .array elem len incomplete) (some_ : incomplete = true ∨ len ≠ 0) : Agree c elem := by
  have aggregate : isAggregateType c t = true := by simp [isAggregateType, is]
  have left := bound_ne_zero some_
  intro n node rest node' rest' taken taken'
  have pos : 0 < n := by
    by_contra none
    obtain rfl : n = 0 := by omega
    exact absurd rfl taken.elem_ne_nil
  obtain ⟨nodes, _, run⟩ := Braced.total fieldTypes_below t (scalars n)
  obtain ⟨nodes', _, run'⟩ := Braced.total elements_below t (scalars n)
  obtain rfl := agree.inner aggregate pos run run'
  rw [todoOf_array is] at run run'
  obtain ⟨one, after, _, rfl, one_taken⟩ := run.array_head (scalars_ne_nil pos) left
  obtain ⟨one', after', _, e, one_taken'⟩ := run'.array_head (scalars_ne_nil pos) left
  obtain ⟨rfl, -⟩ := taken.unique one_taken
  obtain ⟨rfl, -⟩ := taken'.unique one_taken'
  rw [(List.cons.inj e).1]

/-- Everything in a type that agrees is plain. -/
theorem Agree.clean (members : Sized c) (agree : Agree c t) : Clean c t := by
  intro r inside
  induction inside with
  | here t r is aggregate => exact agree.plain members aggregate is
  | array t elem len incomplete r is some_ inside ih => exact ih (agree.array is some_)
  | member t u d r is aggregate mem inside ih => exact ih (agree.member members aggregate is mem)

/-! ### The list itself -/

theorem lists_run (ts : List Ty) (more : List Item) :
    Braced c E (.each ts) (lists ts.length ++ more) ((lists ts.length).map .given) more := by
  induction ts with
  | nil => exact .done more
  | cons t ts ih => exact .member t ts _ _ more [.given list] _ (.whole t list _ rfl) ih

theorem Right.same (right : Right c t) (aggregate : isAggregateType c t = true)
    (run : Braced c (fieldTypes c) (todoOf (fieldTypes c) t) items nodes rest)
    (run' : Braced c (elements c) (todoOf (elements c) t) items nodes' rest') :
    nodes ++ rest.map .given = nodes' ++ rest'.map .given := by
  obtain ⟨out, ⟨enough, found⟩, -, nodes₁, rest₁, form, rfl⟩ := right items
  obtain ⟨nodes₂, rest₂, run₂, enough', found'⟩ := brace_fieldTypes aggregate items
  have e := (found (enough + enough') (by omega)).symm.trans (found' (enough + enough') (by omega))
  obtain ⟨rfl, rfl⟩ := run.unique run₂
  obtain ⟨rfl, rfl⟩ := run'.unique form
  exact (Option.some.inj e).symm

theorem Right.array (right : Right c t) {elem : Ty} {len : Nat} {incomplete : Bool}
    (is : t.unqualify = .array elem len incomplete) (some_ : incomplete = true ∨ len ≠ 0) : Agree c elem := by
  have aggregate : isAggregateType c t = true := by simp [isAggregateType, is]
  have left := bound_ne_zero some_
  intro n node rest node' rest' taken taken'
  have some_ := taken.elem_ne_nil
  obtain ⟨nodes, _, run⟩ := Braced.total fieldTypes_below t (scalars n)
  obtain ⟨nodes', _, run'⟩ := Braced.total elements_below t (scalars n)
  have same := right.same aggregate run run'
  rw [todoOf_array is] at run run'
  obtain ⟨one, after, _, rfl, one_taken⟩ := run.array_head some_ left
  obtain ⟨one', after', _, rfl, one_taken'⟩ := run'.array_head some_ left
  obtain ⟨rfl, -⟩ := taken.unique one_taken
  obtain ⟨rfl, -⟩ := taken'.unique one_taken'
  rw [(List.cons.inj same).1]

theorem Right.member (right : Right c t) (aggregate : isAggregateType c t = true) (is : t.unqualify = .record r)
    {f : Field} (mem : f ∈ shared c r) : Agree c f.type := by
  obtain ⟨ts, us, split_⟩ := List.append_of_mem (List.mem_map_of_mem (f := Field.type) mem)
  intro n node rest node' rest' taken taken'
  have some_ := taken.elem_ne_nil
  -- braced lists get to the field
  obtain ⟨nodes, left, run⟩ := Braced.total fieldTypes_below t (lists ts.length ++ scalars n)
  obtain ⟨nodes', left', run'⟩ := Braced.total elements_below t (lists ts.length ++ scalars n)
  have same := right.same aggregate run run'
  rw [todoOf_record is, fieldTypes_split, split_, List.append_assoc, List.cons_append] at run
  rw [todoOf_record is, elements_split, split_, List.append_assoc, List.cons_append] at run'
  obtain ⟨one, after, _, rfl, one_taken, -⟩ := run.each_at (lists_run ts (scalars n)) some_
  obtain ⟨one', after', _, rfl, one_taken', -⟩ := run'.each_at (lists_run ts (scalars n)) some_
  obtain ⟨rfl, -⟩ := taken.unique one_taken
  obtain ⟨rfl, -⟩ := taken'.unique one_taken'
  rw [List.append_assoc, List.append_assoc] at same
  rw [(List.cons.inj (List.append_cancel_left same)).1]

theorem findIdx?_put {ts : List Ty} (enough : ts.length < n) (run : Braced c E (.each ts) (scalars n) nodes rest) :
    (nodes ++ rest.map Node.given).findIdx? Node.isPut = ts.findIdx? (isAggregateType c) := by
  have given : ∀ items : List Item, (items.map Node.given).findIdx? Node.isPut = none := by
    simp [Node.isPut]
  induction ts generalizing n nodes with
  | nil =>
    cases run
    exact given _
  | cons t ts ih =>
    obtain ⟨n, rfl⟩ := Nat.exists_eq_add_of_le' (show 1 ≤ n by omega)
    cases run with
    | member _ _ _ mid _ _ after taken more =>
      rw [List.findIdx?_cons]
      cases aggregate : isAggregateType c t with
      | true =>
        obtain ⟨inner, rfl, -⟩ := (Braced.scalars_opened aggregate (Nat.succ_pos n)).1 taken
        rfl
      | false =>
        cases taken with
        | whole =>
          rw [List.append_assoc, List.singleton_append, List.findIdx?_cons, ih (by simpa using enough) more]
          rfl
        | opened _ _ _ _ _ open_ => simp [aggregate_of_open open_] at aggregate

theorem Right.rest_scalars (right : Right c t) (aggregate : isAggregateType c t = true) (is : t.unqualify = .record r)
    {f : Field} (mem : f ∈ others c r) : isAggregateType c f.type = false := by
  by_contra some_
  obtain ⟨i, found⟩ : ∃ i, ((others c r).map Field.type).findIdx? (isAggregateType c) = some i := by
    rw [← Option.isSome_iff_exists, List.findIdx?_isSome, List.any_map]
    exact List.any_eq_true.2 ⟨f, mem, by simpa using some_⟩
  -- braced lists for the fields before, and a scalar for each of these
  obtain ⟨nodes, left, run⟩ := Braced.total fieldTypes_below t
    (lists ((shared c r).map Field.type).length ++ scalars ((others c r).length + 1))
  obtain ⟨nodes', left', run'⟩ := Braced.total elements_below t
    (lists ((shared c r).map Field.type).length ++ scalars ((others c r).length + 1))
  have same := right.same aggregate run run'
  rw [todoOf_record is, fieldTypes_split] at run
  rw [todoOf_record is, elements_split] at run'
  obtain ⟨before, after, mid, rfl, first, more⟩ := Braced.each_append.1 run
  obtain ⟨before', after', mid', rfl, first', more'⟩ := Braced.each_append.1 run'
  obtain ⟨rfl, rfl⟩ := first.unique (lists_run _ _)
  obtain ⟨rfl, rfl⟩ := first'.unique (lists_run _ _)
  rw [List.append_assoc, List.append_assoc] at same
  have fewer : (otherElements c r).length ≤ (others c r).length := by
    unfold otherElements
    split
    · split
      · exact ((List.take_sublist _ _).trans List.filter_sublist).length_le
      · exact Nat.zero_le _
    · exact List.length_filter_le _ _
  have places := congrArg (List.findIdx? Node.isPut) (List.append_cancel_left same)
  rw [findIdx?_put (by simp) more, findIdx?_put (by simp; omega) more', found] at places
  exact others_ne found places.symm

theorem kept_of_right (aggregate : isAggregateType c t = true) (members : Sized c) (right : Right c t) : Kept c t := by
  unfold Kept
  split
  · rename_i elem len incomplete is
    intro some_
    exact (right.array is some_).clean members
  · rename_i r is
    refine ⟨fun f mem => ?_, fun f mem => right.rest_scalars aggregate is mem⟩
    exact (right.member aggregate is mem).clean members
  · trivial

theorem others_eq_nil (plain_ : plain c r = true) : others c r = [] := by
  simp only [plain, Bool.and_eq_true, Bool.or_eq_true, bne_iff_ne, decide_eq_true_eq, List.all_eq_true] at plain_
  have whole : (aggregateFields c r).takeWhile isElement = aggregateFields c r := List.takeWhile_eq_self_iff.2 plain_.1
  unfold others shared
  rw [whole, List.drop_eq_nil_iff]
  split
  · rename_i union
    exact (List.take_of_length_le (plain_.2.resolve_left fun no => no union)).symm ▸ Nat.le_refl _
  · exact Nat.le_refl _

/-- A program whose classes are all plain has nothing to go wrong. -/
theorem kept_of_plain (plain_ : ∀ r, plain c r = true) (t : Ty) : Kept c t := by
  unfold Kept
  split
  · exact fun _ r _ => plain_ r
  · rename_i r _
    refine ⟨fun _ _ r _ => plain_ r, ?_⟩
    simp [others_eq_nil (plain_ r)]
  · trivial

/-- `struct { int x; int y; }` and `struct { struct P p; int z[2]; }`. -/
def pairs : Classes where
  h := Hierarchy.ofRecords [
    { fields := [{ name := "x", type := .basic .int }, { name := "y", type := .basic .int }] },
    { fields := [{ name := "p", type := .record 0 }, { name := "z", type := .array (.basic .int) 2 false }] }] (by decide)
  inheritedCtors _ := []
  base_below r b mem := by rcases r with _ | _ | r <;> cases mem

/-- `union { int a; int b; }` and `struct { union U u; int c; }`. -/
def unionMember : Classes where
  h := Hierarchy.ofRecords [
    { tag := .union, fields := [{ name := "a", type := .basic .int }, { name := "b", type := .basic .int }] },
    { fields := [{ name := "u", type := .record 0 }, { name := "c", type := .basic .int }] }] (by decide)
  inheritedCtors _ := []
  base_below r b mem := by rcases r with _ | _ | r <;> cases mem

end Vcx.ListInit
