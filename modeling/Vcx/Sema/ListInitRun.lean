import Vcx.Sema.ListInit

/-!
# What `brace` makes of a list

`brace` follows the rules of the language for classes whose elements are all the fields
(`brace_fieldTypes`): for every list of items there is one way to put the braces, and the
program finds it once it may go deep enough. So it always comes to an end, and hands every
item on.
-/

namespace Vcx.ListInit
set_option autoImplicit false
open Vcx.Lib Vcx.Types

variable {c : Classes} {E : Nat → List Ty} {todo : Todo} {items rest rest' : List Item} {nodes nodes' : List Node}

/-- Whether a node is a list that was put in. -/
def Node.isPut : Node → Bool
  | .given _ => false
  | .put _ => true

/-! ### One way to put the braces -/

theorem Braced.elem_ne_nil {t : Ty} (run : Braced c E (.elem t) items nodes rest) : items ≠ [] := by
  cases run <;> simp

theorem Braced.elem_node {t : Ty} (run : Braced c E (.elem t) items nodes rest) : ∃ node, nodes = [node] := by
  cases run <;> simp

theorem Braced.unique (run : Braced c E todo items nodes rest) (other : Braced c E todo items nodes' rest') :
    nodes = nodes' ∧ rest = rest' := by
  induction run generalizing nodes' rest' with
  | whole t item rest taken =>
    cases other with
    | whole => exact ⟨rfl, rfl⟩
    | opened _ _ _ _ _ open_ => rw [taken] at open_; cases open_
  | opened t item items rest nodes open_ inner ih =>
    cases other with
    | whole _ _ _ taken => rw [taken] at open_; cases open_
    | opened _ _ _ _ _ _ inner' =>
      obtain ⟨rfl, rfl⟩ := ih inner'
      exact ⟨rfl, rfl⟩
  | full elem items some_ =>
    cases other with
    | full => exact ⟨rfl, rfl⟩
    | noItems => exact absurd rfl some_
    | idle _ _ _ _ left => exact absurd rfl left
    | element _ _ _ _ _ _ _ left => exact absurd rfl left
  | noItems elem bound =>
    cases other with
    | full _ _ some_ => exact absurd rfl some_
    | noItems => exact ⟨rfl, rfl⟩
    | idle _ _ _ _ _ taken => exact absurd rfl taken.elem_ne_nil
    | element _ _ _ _ _ _ _ _ taken => exact absurd rfl taken.elem_ne_nil
  | idle elem bound items nodes left taken ih =>
    cases other with
    | full => exact absurd rfl left
    | noItems => exact absurd rfl taken.elem_ne_nil
    | idle _ _ _ _ _ taken' => exact ih taken'
    | element _ _ _ _ _ _ _ _ taken' less =>
      obtain ⟨-, rfl⟩ := ih taken'
      exact absurd rfl less
  | element elem bound items rest rest' nodes nodes' left taken less others ih ihOthers =>
    cases other with
    | full => exact absurd rfl left
    | noItems => exact absurd rfl taken.elem_ne_nil
    | idle _ _ _ _ _ taken' =>
      obtain ⟨-, rfl⟩ := ih taken'
      exact absurd rfl less
    | element _ _ _ _ _ _ _ _ taken' _ others' =>
      obtain ⟨rfl, rfl⟩ := ih taken'
      obtain ⟨rfl, rfl⟩ := ihOthers others'
      exact ⟨rfl, rfl⟩
  | done items =>
    cases other
    exact ⟨rfl, rfl⟩
  | noMore t ts =>
    cases other with
    | noMore => exact ⟨rfl, rfl⟩
    | member _ _ _ _ _ _ _ taken => exact absurd rfl taken.elem_ne_nil
  | member t ts items rest rest' nodes nodes' taken others ih ihOthers =>
    cases other with
    | noMore => exact absurd rfl taken.elem_ne_nil
    | member _ _ _ _ _ _ _ taken' others' =>
      obtain ⟨rfl, rfl⟩ := ih taken'
      obtain ⟨rfl, rfl⟩ := ihOthers others'
      exact ⟨rfl, rfl⟩

/-- No item is lost, taken twice or moved. -/
theorem Braced.items_eq (run : Braced c E todo items nodes rest) : nodes.flatMap Node.items ++ rest = items := by
  induction run with
  | whole => simp [Node.items]
  | opened _ _ _ _ _ _ _ ih => simpa [Node.items] using ih
  | full | noItems | done | noMore => rfl
  | idle _ _ _ _ _ _ ih => exact ih
  | element _ _ _ _ _ _ _ _ _ _ _ ih ihOthers | member _ _ _ _ _ _ _ _ _ ih ihOthers =>
    rw [List.flatMap_append, List.append_assoc, ihOthers, ih]

/-- The same nodes leave the same items. -/
theorem Braced.rest_eq {E' : Nat → List Ty} {todo' : Todo} (run : Braced c E todo items nodes rest)
    (other : Braced c E' todo' items nodes rest') : rest = rest' :=
  List.append_cancel_left (run.items_eq.trans other.items_eq.symm)

theorem Braced.length_le (run : Braced c E todo items nodes rest) : rest.length ≤ items.length := by
  rw [← run.items_eq, List.length_append]
  exact Nat.le_add_left _ _

/-- What takes nothing leaves everything. -/
theorem Braced.idle_eq (run : Braced c E todo items nodes rest) (same : rest.length = items.length) : rest = items := by
  have flat : (nodes.flatMap Node.items).length = 0 := by
    have := congrArg List.length run.items_eq
    rw [List.length_append] at this
    omega
  rw [← run.items_eq, List.length_eq_zero_iff.1 flat, List.nil_append]

/-! ### There is always a way -/

/-- The types of the elements of an aggregate. -/
def partsOf (E : Nat → List Ty) (t : Ty) : List Ty :=
  match t.unqualify with
  | .array elem _ _ => [elem]
  | .record r => E r
  | _ => []

/-- What holds of a type when it holds of its elements holds of every type. -/
theorem partsOf_induction (below : ∀ r, ∀ u ∈ E r, ∀ d, u.recordElem = some d → d < r) {motive : Ty → Prop}
    (step : ∀ t, (∀ u ∈ partsOf E t, motive u) → motive t) (t : Ty) : motive t := by
  have classes : ∀ n t, (∀ d, t.recordElem = some d → d < n) → motive t := by
    intro n
    induction n using Nat.strongRecOn with | _ n ih =>
    intro t
    -- within a class number, the arrays around the class get smaller
    induction size : sizeOf t using Nat.strongRecOn generalizing t with | _ size' ihSize =>
    intro lt
    refine step t fun u part => ?_
    cases t with
    | record r => exact ih r (lt r rfl) u (below r u part)
    | array elem len incomplete =>
      obtain rfl : u = elem := by simpa [partsOf, Ty.unqualify] using part
      exact ihSize _ (by subst size; simp; omega) u rfl lt
    | qualified q t =>
      cases t with
      | record r => exact ih r (lt r rfl) u (below r u part)
      | array elem len incomplete =>
        obtain rfl : u = elem := by simpa [partsOf, Ty.unqualify] using part
        exact ihSize _ (by subst size; simp; omega) u rfl lt
      | _ => simp [partsOf, Ty.unqualify] at part
    | _ => simp [partsOf, Ty.unqualify] at part
  cases elem : t.recordElem with
  | none => exact classes 0 t (by simp [elem])
  | some d => exact classes (d + 1) t (by simp [elem])

/-- The elements of an array can be initialized when one can. -/
theorem Braced.array_total {elem : Ty}
    (one : ∀ items, items ≠ [] → ∃ nodes rest, Braced c E (.elem elem) items nodes rest) (bound : Option Nat)
    (items : List Item) : ∃ nodes rest, Braced c E (.array elem bound) items nodes rest := by
  induction length : items.length using Nat.strongRecOn generalizing items bound with | _ n ih =>
  by_cases none : items = []
  · subst none
    exact ⟨[], [], .noItems elem bound⟩
  by_cases left : bound = some 0
  · subst left
    exact ⟨[], items, .full elem items none⟩
  obtain ⟨nodes, rest, taken⟩ := one items none
  by_cases less : rest.length = items.length
  · rw [taken.idle_eq less] at taken
    exact ⟨nodes, items, .idle elem bound items nodes left taken⟩
  · obtain ⟨nodes', rest', others⟩ := ih rest.length (by have := taken.length_le; omega) (bound.map (· - 1)) rest rfl
    exact ⟨nodes ++ nodes', rest', .element elem bound items rest rest' nodes nodes' left taken less others⟩

/-- So can the elements of a class. -/
theorem Braced.each_total {ts : List Ty}
    (one : ∀ t ∈ ts, ∀ items, items ≠ [] → ∃ nodes rest, Braced c E (.elem t) items nodes rest) (items : List Item) :
    ∃ nodes rest, Braced c E (.each ts) items nodes rest := by
  induction ts generalizing items with
  | nil => exact ⟨[], items, .done items⟩
  | cons t ts ih =>
    by_cases none : items = []
    · subst none
      exact ⟨[], [], .noMore t ts⟩
    obtain ⟨nodes, rest, taken⟩ := one t List.mem_cons_self items none
    obtain ⟨nodes', rest', others⟩ := ih (fun u mem => one u (List.mem_cons_of_mem t mem)) rest
    exact ⟨nodes ++ nodes', rest', .member t ts items rest rest' nodes nodes' taken others⟩

theorem Braced.todo_total {t : Ty}
    (one : ∀ u ∈ partsOf E t, ∀ items, items ≠ [] → ∃ nodes rest, Braced c E (.elem u) items nodes rest)
    (items : List Item) : ∃ nodes rest, Braced c E (todoOf E t) items nodes rest := by
  unfold partsOf at one
  unfold todoOf
  split
  · rename_i e
    simp only [e] at one
    exact array_total (one _ List.mem_cons_self) _ items
  · rename_i e
    simp only [e] at one
    exact each_total one items
  · exact ⟨[], items, .done items⟩

/-- **Every type can be initialized from some items.** -/
theorem Braced.total (below : ∀ r, ∀ u ∈ E r, ∀ d, u.recordElem = some d → d < r) (t : Ty) (items : List Item) :
    ∃ nodes rest, Braced c E (todoOf E t) items nodes rest := by
  have one : ∀ t items, items ≠ [] → ∃ nodes rest, Braced c E (.elem t) items nodes rest := by
    refine partsOf_induction below fun t parts items some_ => ?_
    obtain ⟨item, items, rfl⟩ := List.exists_cons_of_ne_nil some_
    cases open_ : takenWhole c item t with
    | true => exact ⟨_, _, .whole t item items open_⟩
    | false =>
      obtain ⟨nodes, rest, inner⟩ := todo_total parts (item :: items)
      exact ⟨_, _, .opened t item items rest nodes open_ inner⟩
  exact todo_total (fun u _ => one u) items

/-! ### The program finds it -/

variable (c) in
/-- What the program makes of what is to be initialized. -/
def made (fuel : Nat) (todo : Todo) (items : List Item) : Made (List Node) :=
  match todo with
  | .elem t => (braceItem c fuel t items).map fun (node, rest, elided) => ([node], rest, elided)
  | .array elem bound => braceElements c fuel elem bound items
  | .each ts => braceFields c fuel ts items

variable (c) in
/-- With enough calls to go down, the program has an answer, which says whether a list was put in. -/
def Finds (todo : Todo) (items : List Item) (nodes : List Node) (rest : List Item) : Prop :=
  ∃ enough, ∀ fuel ≥ enough, made c fuel todo items = some (nodes, rest, nodes.any Node.isPut)

theorem Finds.elem {t : Ty} (found : Finds c (.elem t) items nodes rest) : ∃ enough, ∀ fuel ≥ enough,
    ∃ node, nodes = [node] ∧ braceItem c fuel t items = some (node, rest, node.isPut) := by
  obtain ⟨enough, found⟩ := found
  refine ⟨enough, fun fuel ge => ?_⟩
  have found := found fuel ge
  simp only [made, Option.map_eq_some_iff, Prod.mk.injEq, Prod.exists] at found
  obtain ⟨node, rest, elided, found, rfl, rfl, rfl⟩ := found
  exact ⟨node, rfl, by simpa using found⟩

attribute [local simp] braceElements braceFields

theorem Finds.into {t : Ty} (found : Finds c (todoOf (fieldTypes c) t) items nodes rest) : ∃ enough, ∀ fuel ≥ enough,
    braceInto c fuel t items = some (nodes, rest, nodes.any Node.isPut) := by
  obtain ⟨enough, found⟩ := found
  refine ⟨enough + 2, fun fuel ge => ?_⟩
  obtain ⟨fuel, rfl⟩ := Nat.exists_eq_add_of_le' (show 1 ≤ fuel by omega)
  have found := found fuel (by omega)
  unfold todoOf at found
  rw [braceInto]
  split at found
  · exact found
  · exact found
  · obtain ⟨fuel, rfl⟩ := Nat.exists_eq_add_of_le' (show 1 ≤ fuel by omega)
    simpa [made, braceFields] using found

theorem braceElements_step {fuel : Nat} {elem : Ty} {bound : Option Nat} (some_ : items ≠ []) (left : bound ≠ some 0) :
    braceElements c (fuel + 1) elem bound items = (braceItem c fuel elem items).bind fun (node, rest, elided) =>
      if rest.length = items.length then some ([node], rest, elided)
      else (braceElements c fuel elem (bound.map (· - 1)) rest).map fun (nodes, rest', elided') =>
        (node :: nodes, rest', elided || elided') := by
  obtain ⟨item, items, rfl⟩ := List.exists_cons_of_ne_nil some_
  match bound with
  | none | some (_ + 1) => rw [braceElements] <;> simp
  | some 0 => exact absurd rfl left

theorem braceFields_step {fuel : Nat} {t : Ty} {ts : List Ty} (some_ : items ≠ []) :
    braceFields c (fuel + 1) (t :: ts) items = (braceItem c fuel t items).bind fun (node, rest, elided) =>
      (braceFields c fuel ts rest).map fun (nodes, rest', elided') => (node :: nodes, rest', elided || elided') := by
  obtain ⟨item, items, rfl⟩ := List.exists_cons_of_ne_nil some_
  rw [braceFields]
  simp

theorem Braced.finds (run : Braced c (fieldTypes c) todo items nodes rest) : Finds c todo items nodes rest := by
  induction run with
  | whole t item rest taken =>
    refine ⟨1, fun fuel ge => ?_⟩
    obtain ⟨fuel, rfl⟩ := Nat.exists_eq_add_of_le' ge
    simp [made, braceItem, taken, Node.isPut]
  | opened t item items rest nodes open_ inner ih =>
    obtain ⟨enough, into⟩ := Finds.into ih
    refine ⟨enough + 1, fun fuel ge => ?_⟩
    obtain ⟨fuel, rfl⟩ := Nat.exists_eq_add_of_le' (show 1 ≤ fuel by omega)
    simp [made, braceItem, open_, into fuel (by omega), Node.isPut]
  | full elem items some_ =>
    refine ⟨1, fun fuel ge => ?_⟩
    obtain ⟨fuel, rfl⟩ := Nat.exists_eq_add_of_le' ge
    obtain ⟨item, items, rfl⟩ := List.exists_cons_of_ne_nil some_
    rfl
  | noItems elem bound =>
    refine ⟨1, fun fuel ge => ?_⟩
    obtain ⟨fuel, rfl⟩ := Nat.exists_eq_add_of_le' ge
    simp [made, braceElements]
  | idle elem bound items nodes left taken ih =>
    obtain ⟨enough, item⟩ := ih.elem
    refine ⟨enough + 1, fun fuel ge => ?_⟩
    obtain ⟨fuel, rfl⟩ := Nat.exists_eq_add_of_le' (show 1 ≤ fuel by omega)
    obtain ⟨node, rfl, found⟩ := item fuel (by omega)
    rw [made, braceElements_step taken.elem_ne_nil left, found]
    simp
  | element elem bound items rest rest' nodes nodes' left taken less others ih ihOthers =>
    obtain ⟨enough, item⟩ := ih.elem
    obtain ⟨enough', rest⟩ := ihOthers
    refine ⟨enough + enough' + 1, fun fuel ge => ?_⟩
    obtain ⟨fuel, rfl⟩ := Nat.exists_eq_add_of_le' (show 1 ≤ fuel by omega)
    obtain ⟨node, rfl, found⟩ := item fuel (by omega)
    have rest := rest fuel (by omega)
    rw [made] at rest
    rw [made, braceElements_step taken.elem_ne_nil left, found]
    simp [less, rest]
  | done items =>
    refine ⟨1, fun fuel ge => ?_⟩
    obtain ⟨fuel, rfl⟩ := Nat.exists_eq_add_of_le' ge
    simp [made, braceFields]
  | noMore t ts =>
    refine ⟨1, fun fuel ge => ?_⟩
    obtain ⟨fuel, rfl⟩ := Nat.exists_eq_add_of_le' ge
    simp [made, braceFields]
  | member t ts items rest rest' nodes nodes' taken others ih ihOthers =>
    obtain ⟨enough, item⟩ := ih.elem
    obtain ⟨enough', rest⟩ := ihOthers
    refine ⟨enough + enough' + 1, fun fuel ge => ?_⟩
    obtain ⟨fuel, rfl⟩ := Nat.exists_eq_add_of_le' (show 1 ≤ fuel by omega)
    obtain ⟨node, rfl, found⟩ := item fuel (by omega)
    have rest := rest fuel (by omega)
    rw [made] at rest
    rw [made, braceFields_step taken.elem_ne_nil, found]
    simp [rest]

theorem fieldTypes_below : ∀ r, ∀ u ∈ fieldTypes c r, ∀ d, u.recordElem = some d → d < r := by
  intro r u mem d elem
  simp only [fieldTypes, aggregateFields, List.map_append, List.map_map, List.mem_append, List.mem_map] at mem
  rcases mem with ⟨b, base, rfl⟩ | ⟨f, field, rfl⟩
  · exact c.base_below r b base d elem
  · exact c.h.member_lt r f field d elem

theorem nodes_eq_given (none : nodes.any Node.isPut = false) : nodes = (nodes.flatMap Node.items).map .given := by
  induction nodes with
  | nil => rfl
  | cons node nodes ih =>
    simp only [List.any_cons, Bool.or_eq_false_iff] at none
    cases node with
    | given item => simpa [Node.items] using ih none.2
    | put => cases none.1

/-- **`brace` comes to an end for every list**, with the braces that the rules put in for classes whose elements are all
the fields. -/
theorem brace_fieldTypes {t : Ty} (aggregate : isAggregateType c t = true) (items : List Item) :
    ∃ nodes rest, Braced c (fieldTypes c) (todoOf (fieldTypes c) t) items nodes rest ∧
      ∃ enough, ∀ fuel ≥ enough, brace c fuel t items = some (nodes ++ rest.map .given) := by
  obtain ⟨nodes, rest, run⟩ := Braced.total fieldTypes_below t items
  obtain ⟨enough, into⟩ := run.finds.into
  refine ⟨nodes, rest, run, enough, fun fuel ge => ?_⟩
  rw [brace, if_pos aggregate, into fuel ge, Option.map_some]
  cases elided : nodes.any Node.isPut with
  | true => simp
  | false =>
    have given := nodes_eq_given elided
    simp only [Bool.false_eq_true, if_false]
    conv_lhs => rw [← run.items_eq, List.map_append, ← given]

end Vcx.ListInit
