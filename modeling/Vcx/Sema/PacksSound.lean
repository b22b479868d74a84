import Vcx.Sema.Packs

/-!
# Pack expansions, proved

Checking a copy reads its scope through lookups alone. In the scope of a copy no identifier of the pattern is a
pack any more, so what is nested in the pattern finds none to expand: the copy means what it should exactly where
nothing nested mentions a pack.
-/

namespace Vcx.Packs
set_option autoImplicit false

variable {s t u : Scope} {e : Expr} {n : Nat} {m : String}

/-! ### Lengths -/

theorem measure_some_iff {k : Nat} {lens : List (Option Nat)} : measure (some k) lens = some n ↔ k = n ∧ ∀ l ∈ lens, l = some n := by
  induction lens generalizing k with
  | nil => simp [measure]
  | cons l rest ih =>
    cases l with
    | none => simp [measure]
    | some len =>
      rw [measure]
      split
      case isTrue same =>
        subst same
        simp only [ih, List.forall_mem_cons, Option.some.injEq]
        exact ⟨fun ⟨eq, all⟩ => ⟨eq, eq, all⟩, fun ⟨eq, _, all⟩ => ⟨eq, all⟩⟩
      case isFalse differ =>
        simp only [List.forall_mem_cons, Option.some.injEq, reduceCtorEq, false_iff]
        rintro ⟨eq, eq', _⟩
        exact differ (eq.trans eq'.symm)

theorem measure_none_iff {lens : List (Option Nat)} : measure none lens = some n ↔ (∃ l, l ∈ lens) ∧ ∀ l ∈ lens, l = some n := by
  cases lens with
  | nil => simp [measure]
  | cons l rest =>
    cases l with
    | none => simp [measure]
    | some len => simp [measure, measure_some_iff]

theorem isPack_iff : isPack s m = true ↔ (∃ es, s.lookup m = some (.typePack es)) ∨ ∃ es isOpen, s.lookup m = some (.valuePack es isOpen) := by
  unfold isPack
  rcases s.lookup m with _ | sym
  · simp
  · cases sym <;> simp [Sym.isPack]

theorem packLength_isPack (length : packLength s m = some n) : isPack s m = true := by
  unfold packLength at length
  rw [isPack_iff]
  split at length
  case h_1 es isOpen found => exact .inr ⟨_, _, found⟩
  case h_2 es found => exact .inl ⟨_, found⟩
  case h_3 => cases length

/-- **There are `n` copies** when a pack is mentioned and every one mentioned has `n` elements. -/
theorem copies_iff {names : List String} : copies s names = some n ↔
    (∃ m ∈ names, isPack s m = true) ∧ ∀ m ∈ names, isPack s m = true → packLength s m = some n := by
  have types : ∀ l, l ∈ (packsIn s names).map (fun p => some p.2.length) ↔
      ∃ m ∈ names, ∃ es, s.lookup m = some (.typePack es) ∧ l = some es.length := by
    intro l
    simp only [packsIn, List.mem_map, List.mem_filterMap, List.mem_dedup]
    constructor
    · rintro ⟨p, ⟨m, mem, found⟩, rfl⟩
      split at found
      case h_1 es bound =>
        cases found
        exact ⟨m, mem, es, bound, rfl⟩
      case h_2 => cases found
    · rintro ⟨m, mem, es, bound, rfl⟩
      exact ⟨(m, es), ⟨m, mem, by rw [bound]⟩, rfl⟩
  have values : ∀ l, l ∈ (valuePacksIn s names).map (fun p => if p.2.2 then none else some p.2.1.length) ↔
      ∃ m ∈ names, ∃ es isOpen, s.lookup m = some (.valuePack es isOpen) ∧ l = if isOpen then none else some es.length := by
    intro l
    simp only [valuePacksIn, List.mem_map, List.mem_filterMap, List.mem_dedup]
    constructor
    · rintro ⟨p, ⟨m, mem, found⟩, rfl⟩
      split at found
      case h_1 es isOpen bound =>
        cases found
        exact ⟨m, mem, es, isOpen, bound, rfl⟩
      case h_2 => cases found
    · rintro ⟨m, mem, es, isOpen, bound, rfl⟩
      exact ⟨(m, es, isOpen), ⟨m, mem, by rw [bound]⟩, rfl⟩
  have lengths : ∀ l, l ∈ (packsIn s names).map (fun p => some p.2.length) ++
      (valuePacksIn s names).map (fun p => if p.2.2 then none else some p.2.1.length) ↔
      ∃ m ∈ names, isPack s m = true ∧ l = packLength s m := by
    intro l
    rw [List.mem_append, types, values]
    constructor
    · rintro (⟨m, mem, es, bound, rfl⟩ | ⟨m, mem, es, isOpen, bound, rfl⟩)
      · exact ⟨m, mem, isPack_iff.2 (.inl ⟨es, bound⟩), by rw [packLength, bound]⟩
      · exact ⟨m, mem, isPack_iff.2 (.inr ⟨es, isOpen, bound⟩), by rw [packLength, bound]⟩
    · rintro ⟨m, mem, pack, rfl⟩
      rcases isPack_iff.1 pack with ⟨es, bound⟩ | ⟨es, isOpen, bound⟩
      · exact .inl ⟨m, mem, es, bound, by rw [packLength, bound]⟩
      · exact .inr ⟨m, mem, es, isOpen, bound, by rw [packLength, bound]⟩
  rw [copies, measure_none_iff]
  simp only [lengths]
  constructor
  · rintro ⟨⟨_, m, mem, pack, -⟩, all⟩
    exact ⟨⟨m, mem, pack⟩, fun m mem pack => all _ ⟨m, mem, pack, rfl⟩⟩
  · rintro ⟨⟨m, mem, pack⟩, all⟩
    refine ⟨⟨_, m, mem, pack, rfl⟩, ?_⟩
    rintro _ ⟨m, mem, pack, rfl⟩
    exact all m mem pack

theorem copies_eq_none {names : List String} (none_ : ∀ m ∈ names, isPack s m = false) : copies s names = none := by
  rw [Option.eq_none_iff_forall_ne_some]
  intro n eq
  obtain ⟨⟨m, mem, pack⟩, -⟩ := copies_iff.1 eq
  rw [none_ m mem] at pack
  cases pack

/-! ### The scope of a copy -/

/-- The element of a pack at an index. -/
def element (s : Scope) (i : Nat) (m : String) : Option Sym :=
  match s.lookup m with
  | some (.typePack es) => es[i]?.map Elem.sym
  | some (.valuePack es _) => es[i]?.map .param
  | _ => none

def typeElement (s : Scope) (i : Nat) (m : String) : Option Sym :=
  match s.lookup m with
  | some (.typePack es) => es[i]?.map Elem.sym
  | _ => none

def valueElement (s : Scope) (i : Nat) (m : String) : Option Sym :=
  match s.lookup m with
  | some (.valuePack es _) => es[i]?.map .param
  | _ => none

theorem lookup_filterMap {α : Type} (f : String → Option α) (names : List String) (m : String) :
    (names.filterMap fun n => (f n).map fun x => (n, x)).lookup m = if m ∈ names then f m else none := by
  induction names with
  | nil => rfl
  | cons n rest ih =>
    rw [List.filterMap_cons]
    by_cases here : m = n
    · subst here
      cases found : f m with
      | none =>
        simp only [Option.map_none, ih, List.mem_cons, true_or, ↓reduceIte]
        split <;> simp [found]
      | some x => simp
    · have ne : (m == n) = false := by simpa using here
      cases found : f n with
      | none => simp [ih, here]
      | some x => simp [List.lookup_cons, ne, ih, here]

/-- A name of the pattern is the pack's element in a copy, if it is a pack, and what it was else. -/
theorem lookup_bound {names : List String} (i : Nat) :
    (bound s names i).lookup m = if m ∈ names then (element s i m).or (s.lookup m) else s.lookup m := by
  have types : (packsIn s names).filterMap (fun p => p.2[i]?.map fun x => (p.1, x.sym)) =
      names.dedup.filterMap fun n => (typeElement s i n).map fun x => (n, x) := by
    rw [packsIn, List.filterMap_filterMap]
    congr 1
    funext n
    unfold typeElement
    rcases s.lookup n with _ | sym
    · rfl
    · cases sym with
      | typePack es => simp only [Option.bind_some, Option.map_map]; rfl
      | _ => rfl
  have values : (valuePacksIn s names).filterMap (fun p => p.2.1[i]?.map fun x => (p.1, Sym.param x)) =
      names.dedup.filterMap fun n => (valueElement s i n).map fun x => (n, x) := by
    rw [valuePacksIn, List.filterMap_filterMap]
    congr 1
    funext n
    unfold valueElement
    rcases s.lookup n with _ | sym
    · rfl
    · cases sym with
      | valuePack es isOpen => simp only [Option.bind_some, Option.map_map]; rfl
      | _ => rfl
  rw [bound, List.lookup_append, List.lookup_append, types, values, lookup_filterMap, lookup_filterMap]
  by_cases mem : m ∈ names
  · simp only [List.mem_dedup, mem, ↓reduceIte, element, typeElement, valueElement]
    rcases s.lookup m with _ | sym
    · rfl
    · cases sym with
      | typePack es => cases es[i]? <;> rfl
      | valuePack es isOpen => cases es[i]? <;> rfl
      | _ => rfl
  · simp [mem]

/-- In a copy no name of the pattern is a pack. -/
theorem isPack_bound {names : List String} {i : Nat} (eq : copies s names = some n) (lt : i < n) (mem : m ∈ names) :
    isPack (bound s names i) m = false := by
  rw [isPack, lookup_bound, if_pos mem, element]
  rcases bound : s.lookup m with _ | sym
  · rfl
  · have length := (copies_iff.1 eq).2 m mem
    rw [isPack, bound, packLength, bound] at length
    cases sym with
    | typePack es =>
      obtain rfl : es.length = n := by simpa using length rfl
      simp only [List.getElem?_eq_getElem lt]
      cases es[i] <;> rfl
    | valuePack es isOpen =>
      have some_ := length rfl
      cases isOpen with
      | true => cases some_
      | false =>
        obtain rfl : es.length = n := by simpa using some_
        simp only [List.getElem?_eq_getElem lt]
        rfl
    | _ => rfl

/-! ### Copies -/

mutual

theorem outer_subset : ∀ {e : Expr}, m ∈ outer e → m ∈ idents e
  | .name _, mem => mem
  | .label _, mem | .sizeofPack _, mem | .expansion _, mem => absurd mem List.not_mem_nil
  | .node _ es, mem => outerAll_subset (l := es) mem

theorem outerAll_subset : ∀ {l : List Expr}, m ∈ outerAll l → m ∈ identsAll l
  | [], mem => mem
  | _ :: _, mem => List.mem_append.2 ((List.mem_append.1 mem).imp outer_subset outerAll_subset)

end

mutual

theorem inner_subset : ∀ {e : Expr}, m ∈ inner e → m ∈ idents e
  | .name _, mem | .label _, mem => absurd mem List.not_mem_nil
  | .sizeofPack _, mem => mem
  | .expansion _, mem => (List.mem_append.1 mem).elim outer_subset inner_subset
  | .node _ es, mem => innerAll_subset (l := es) mem

theorem innerAll_subset : ∀ {l : List Expr}, m ∈ innerAll l → m ∈ identsAll l
  | [], mem => mem
  | _ :: _, mem => List.mem_append.2 ((List.mem_append.1 mem).imp inner_subset innerAll_subset)

end

mutual

theorem check_eq : ∀ {e : Expr} {t u : Scope}, (∀ m ∈ outer e, t.lookup m = u.lookup m) →
    (∀ m ∈ inner e, t.lookup m = s.lookup m ∧ isPack s m = false) → (∀ m ∈ idents e, isPack t m = false) → check e t = meaning s e u
  | .name n, t, u, same, _, _ => by rw [check, meaning, same n List.mem_cons_self]
  | .label _, _, _, _, _, _ => rfl
  | .sizeofPack n, t, u, _, nested, _ => by rw [check, meaning, packLength, (nested n List.mem_cons_self).1, packLength]
  | .expansion e, t, u, _, nested, elems => by
    have outside : ∀ m ∈ outer e, t.lookup m = s.lookup m ∧ isPack s m = false := fun m mem => nested m (List.mem_append_left _ mem)
    rw [check, meaning, copies_eq_none (show ∀ m ∈ idents e, isPack t m = false from elems), copies_eq_none fun m mem => (outside m mem).2]
    exact congrArg Term.unexpanded
      (check_eq (fun m mem => (outside m mem).1) (fun m mem => nested m (List.mem_append_right _ mem)) elems)
  | .node _ es, t, u, same, nested, elems => by rw [check, meaning, checkAll_eq (l := es) same nested elems]

theorem checkAll_eq : ∀ {l : List Expr} {t u : Scope}, (∀ m ∈ outerAll l, t.lookup m = u.lookup m) →
    (∀ m ∈ innerAll l, t.lookup m = s.lookup m ∧ isPack s m = false) → (∀ m ∈ identsAll l, isPack t m = false) →
    checkAll l t = meaningAll s l u
  | [], _, _, _, _, _ => rfl
  | e :: es, t, u, same, nested, elems => by
    rw [checkAll, meaningAll,
      check_eq (e := e) (fun m mem => same m (List.mem_append_left _ mem)) (fun m mem => nested m (List.mem_append_left _ mem))
        (fun m mem => elems m (List.mem_append_left _ mem)),
      checkAll_eq (l := es) (fun m mem => same m (List.mem_append_right _ mem)) (fun m mem => nested m (List.mem_append_right _ mem))
        (fun m mem => elems m (List.mem_append_right _ mem))]

end

mutual

/-- A pack that is still one in what is meant is none in the scope of the copy, and that can be seen. -/
theorem check_ne : ∀ {e : Expr} {t u : Scope}, (∀ m ∈ idents e, isPack s m = true → packLength s m ≠ none) →
    (∀ m ∈ idents e, isPack t m = false) → (∃ m ∈ outer e, isPack u m = true) ∨ (∃ m ∈ inner e, isPack s m = true) →
    check e t ≠ meaning s e u
  | .name n, t, u, _, elems, some_, eq => by
    rcases some_ with ⟨m, mem, pack⟩ | ⟨m, mem, -⟩
    · obtain rfl := List.mem_singleton.1 mem
      rw [check, meaning, Term.ref.injEq] at eq
      have elem := elems m List.mem_cons_self
      rw [isPack, eq, ← isPack, pack] at elem
      cases elem
    · cases mem
  | .label _, _, _, _, _, some_, _ => by rcases some_ with ⟨_, mem, -⟩ | ⟨_, mem, -⟩ <;> cases mem
  | .sizeofPack n, t, u, closed, elems, some_, eq => by
    rcases some_ with ⟨m, mem, -⟩ | ⟨m, mem, pack⟩
    · cases mem
    · obtain rfl := List.mem_singleton.1 mem
      rw [check, meaning, Term.count.injEq] at eq
      cases length : packLength t m with
      | none => exact closed m List.mem_cons_self pack (eq ▸ length)
      | some k =>
        have elem := elems m List.mem_cons_self
        rw [packLength_isPack length] at elem
        cases elem
  | .expansion e, t, u, closed, elems, some_, eq => by
    rw [check, meaning, copies_eq_none (show ∀ m ∈ idents e, isPack t m = false from elems)] at eq
    simp only at eq
    cases some' : copies s (outer e) with
    | some n =>
      rw [some'] at eq
      cases eq
    | none =>
      rw [some'] at eq
      rcases some_ with ⟨_, mem, -⟩ | ⟨m, mem, pack⟩
      · cases mem
      · have same : check e t = meaning s e s := Term.unexpanded.inj eq
        refine check_ne (e := e) closed elems ?_ same
        rcases List.mem_append.1 mem with outside | inside
        · exact .inl ⟨m, outside, pack⟩
        · exact .inr ⟨m, inside, pack⟩
  | .node _ es, t, u, closed, elems, some_, eq => by
    rw [check, meaning, Term.node.injEq] at eq
    exact checkAll_ne (l := es) closed elems some_ eq.2

theorem checkAll_ne : ∀ {l : List Expr} {t u : Scope}, (∀ m ∈ identsAll l, isPack s m = true → packLength s m ≠ none) →
    (∀ m ∈ identsAll l, isPack t m = false) → (∃ m ∈ outerAll l, isPack u m = true) ∨ (∃ m ∈ innerAll l, isPack s m = true) →
    checkAll l t ≠ meaningAll s l u
  | [], _, _, _, _, some_, _ => by rcases some_ with ⟨_, mem, -⟩ | ⟨_, mem, -⟩ <;> cases mem
  | e :: es, t, u, closed, elems, some_, eq => by
    rw [checkAll, meaningAll, List.cons.injEq] at eq
    have head := check_ne (e := e) (t := t) (u := u) (fun m mem => closed m (List.mem_append_left _ mem))
      (fun m mem => elems m (List.mem_append_left _ mem))
    have tail := checkAll_ne (l := es) (t := t) (u := u) (fun m mem => closed m (List.mem_append_right _ mem))
      (fun m mem => elems m (List.mem_append_right _ mem))
    rcases some_ with ⟨m, mem, pack⟩ | ⟨m, mem, pack⟩ <;> rcases List.mem_append.1 mem with here | there
    · exact head (.inl ⟨m, here, pack⟩) eq.1
    · exact tail (.inl ⟨m, there, pack⟩) eq.2
    · exact head (.inr ⟨m, here, pack⟩) eq.1
    · exact tail (.inr ⟨m, there, pack⟩) eq.2

end

/-! ### When an expansion is right -/

theorem kept_of_expansion (eq : expandOne s e = expansion s e) : Kept s e := by
  unfold expandOne expansion at eq
  have same : copies s (idents e) = copies s (outer e) := by
    have lengths := congrArg (Option.map List.length) eq
    simpa [Option.map_map, Function.comp_def] using lengths
  refine ⟨same, fun n some_ m mem => ?_⟩
  rw [same, some_] at eq
  have first : check e (bound s (idents e) 0) = meaning s e (bound s (outer e) 0) := by
    have := congrArg (fun l => l.getD [] |>.head?) eq
    simpa [List.range_succ_eq_map] using this
  by_contra pack
  have all := same.trans some_
  refine check_ne ?_ (fun m mem => isPack_bound all n.succ_pos mem) (.inr ⟨m, mem, by simpa using pack⟩) first
  intro m mem pack
  rw [(copies_iff.1 all).2 m mem pack]
  exact Option.some_ne_none _

theorem expandOne_of_kept (kept : Kept s e) : expandOne s e = expansion s e := by
  obtain ⟨same, nested⟩ := kept
  unfold expandOne expansion
  rw [same]
  cases some_ : copies s (outer e) with
  | none => rfl
  | some n =>
    have all := same.trans some_
    refine congrArg some (List.map_congr_left fun i inRange => ?_)
    have lt := List.mem_range.1 inRange
    refine check_eq ?_ ?_ fun m mem => isPack_bound all lt mem
    · intro m mem
      rw [lookup_bound, lookup_bound, if_pos mem, if_pos (outer_subset mem)]
    · intro m mem
      obtain ⟨k, rfl⟩ : ∃ k, n = k + 1 := ⟨n - 1, by omega⟩
      have plain := nested k some_ m mem
      refine ⟨?_, plain⟩
      rw [lookup_bound, if_pos (inner_subset mem), element]
      unfold isPack at plain
      cases found : s.lookup m with
      | none => rfl
      | some sym =>
        rw [found] at plain
        cases sym with
        | typePack | valuePack => cases plain
        | _ => rfl

/-- **A pattern is expanded rightly exactly when no pack is mentioned of another length than those it is expanded
over, and, unless there is nothing to copy, none in a nested expansion or `sizeof...`.** -/
theorem expandOne_iff (s : Scope) (e : Expr) : expandOne s e = expansion s e ↔ Kept s e :=
  ⟨kept_of_expansion, expandOne_of_kept⟩

/-- `(x + sizeof...(x))...` with two parameters in `x`: in the copies `sizeof...(x)` is none. -/
theorem sizeof_unknown : expandOne [("x", .valuePack [1, 2] false)] (.node "+" [.name "x", .sizeofPack "x"]) ≠
    expansion [("x", .valuePack [1, 2] false)] (.node "+" [.name "x", .sizeofPack "x"]) := by
  have both : copies [("x", .valuePack [1, 2] false)] ["x", "x"] = some 2 := by rfl
  have one : copies [("x", .valuePack [1, 2] false)] ["x"] = some 2 := by rfl
  have first : packLength (bound [("x", .valuePack [1, 2] false)] ["x", "x"] 0) "x" = none := by rfl
  have whole : packLength [("x", .valuePack [1, 2] false)] "x" = some 2 := by rfl
  simp [expandOne, expansion, idents, identsAll, outer, outerAll, both, one, check, checkAll, meaning, meaningAll, first, whole,
    List.range_succ]

end Vcx.Packs
