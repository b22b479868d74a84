import Mathlib.Data.Fintype.Card
import Vcx.Lower.Switch

/-!
# The switch statement, proved

A label is found by the dispatch where it starts, and by the meaning of the switch where it covers. Both
look for the first statement of the body with such a label; the groups that follow an entry run as the
statements of the body do. So a switch is lowered rightly exactly when the two searches agree on every value.
-/

namespace Vcx.Switch
set_option autoImplicit false

variable {ty : CondType} {body : List Stmt}

/-! ### Constants -/

/-- A comparison with a label's constant is one with the value of the label in the condition's type. -/
theorem hit_iff {c v : Int} (narrow : ty.reg ≠ .i128) (has : ty.Has c) : hit ty c (evalInt v) = (c == ty.convert v) := by
  have word : BitVec.ofInt ty.reg.bits (evalInt v) = BitVec.ofInt ty.reg.bits v := by
    apply BitVec.eq_of_toInt_eq
    simp only [evalInt, BitVec.toInt_ofInt]
    obtain ⟨_ | _ | _, signed⟩ := ty
    · exact Int.bmod_bmod_of_dvd (show 2 ^ 32 ∣ 2 ^ 64 by decide)
    · exact Int.bmod_bmod
    · exact absurd rfl narrow
  rw [hit, word, Bool.eq_iff_iff, beq_iff_eq, beq_iff_eq]
  unfold CondType.Has at has
  rw [← has]
  unfold CondType.convert at has ⊢
  split at has
  case isTrue signed => rw [if_pos signed, if_pos signed, BitVec.ofInt_toInt, BitVec.toInt_inj]
  case isFalse unsigned =>
    rw [if_neg unsigned, if_neg unsigned, BitVec.ofInt_natCast, BitVec.ofNat_toNat, BitVec.setWidth_eq, Int.ofNat_inj, BitVec.toNat_inj]

/-- A label's value is a value of the condition's type. -/
theorem convert_has (v : Int) : ty.Has (ty.convert v) := by
  unfold CondType.Has CondType.convert
  split
  · rw [BitVec.ofInt_toInt]
  · rw [BitVec.ofInt_natCast, BitVec.ofNat_toNat, BitVec.setWidth_eq]

/-! ### Labels -/

/-- The labels at the head of a statement, which the lowering sees. -/
def Stmt.shown (s : Stmt) : List Label := (peel s).1

theorem labels_eq (s : Stmt) : s.labels = s.shown ++ s.hidden := by
  unfold Stmt.shown Stmt.hidden
  induction s with
  | label l s ih => rw [peel, Stmt.labels, ih, List.cons_append]
  | _ => rfl

theorem peel_ends (s : Stmt) : (peel s).2.ends = s.ends := by
  induction s with
  | label l s ih => exact ih
  | _ => rfl

/-- A statement without labels is lowered, and there is a block after it unless it ends. -/
theorem stmt_of_bare {s : Stmt} (bare : s.labels = []) : stmt s true = some (!s.ends) := by
  induction s with
  | label => cases bare
  | named _ s ih => exact ih bare
  | attr s ih => exact ih bare
  | other => rfl

theorem stmt_isSome_of_bare {s : Stmt} (bare : s.labels = []) (live : Bool) : (stmt s live).isSome := by
  cases live with
  | true => rw [stmt_of_bare bare]; rfl
  | false =>
    cases s with
    | label => cases bare
    | named _ s =>
      rw [stmt, stmt_of_bare (s := s) bare]
      rfl
    | attr | other => rfl

/-- A label behind something else is an error where the statement is lowered. -/
theorem bare_of_stmt {s : Stmt} (lowered : stmt s true ≠ none) : s.labels = [] := by
  induction s with
  | label => exact absurd rfl lowered
  | named _ s ih => exact ih lowered
  | attr s ih => exact ih lowered
  | other => rfl

/-! ### Groups -/

theorem caseGroups_bare {k : Nat} {s : Stmt} {rest : List Stmt} (bare : s.shown = []) : caseGroups k (s :: rest) =
    ((k, (peel s).2) :: (caseGroups (k + 1) rest).1, (caseGroups (k + 1) rest).2) := by
  rw [caseGroups]
  exact if_pos bare

theorem caseGroups_labeled {k : Nat} {s : Stmt} {rest : List Stmt} (labeled : s.shown ≠ []) : caseGroups k (s :: rest) =
    ([], { values := s.shown.filterMap Label.value, isDefault := decide (.default ∈ s.shown),
           stmts := (k, (peel s).2) :: (caseGroups (k + 1) rest).1 } :: (caseGroups (k + 1) rest).2) := by
  rw [caseGroups]
  exact if_neg labeled

/-- A search among the groups is one among the statements of the body, by their labels: the groups from the one
found on are those of the statements from the one found on. -/
theorem caseGroups_find {P : List Label → Bool} {Q : CaseGroup → Bool} (none_ : P [] = false)
    (agree : ∀ ls stmts, Q ⟨ls.filterMap Label.value, decide (.default ∈ ls), stmts⟩ = P ls) (k : Nat) (body : List Stmt) :
    (((caseGroups k body).2.findIdx? Q).map fun g => (caseGroups k body).2.drop g) =
      (body.findIdx? fun s => P s.shown).map fun i => (caseGroups (k + i) (body.drop i)).2 := by
  induction body generalizing k with
  | nil => rfl
  | cons s rest ih =>
    rw [List.findIdx?_cons]
    by_cases bare : s.shown = []
    · rw [caseGroups_bare bare, bare, none_, ih, if_neg (by simp), Option.map_map]
      simp only [Function.comp_def, List.drop_succ_cons, Nat.add_assoc, Nat.add_comm 1]
    · rw [caseGroups_labeled bare, List.findIdx?_cons, agree]
      cases found : P s.shown with
      | true => simp [caseGroups_labeled bare]
      | false =>
        have := ih (k + 1)
        simp only [Bool.false_eq_true, ↓reduceIte, Option.map_map, Function.comp_def, List.drop_succ_cons, Nat.add_assoc,
          Nat.add_comm 1] at this ⊢
        exact this

theorem tests_find (p : Int → Bool) (i : Nat) (groups : List CaseGroup) :
    ((tests i groups).find? fun t => p t.1).map (·.2) = (groups.findIdx? fun g => g.values.any p).map (i + ·) := by
  induction groups generalizing i with
  | nil => rfl
  | cons g rest ih =>
    have here : ((g.values.map fun v => (v, i)).find? fun t => p t.1).map (·.2) = if g.values.any p then some i else none := by
      induction g.values with
      | nil => rfl
      | cons v vs ih =>
        rw [List.map_cons, List.find?_cons, List.any_cons]
        cases p v with
        | true => rfl
        | false => exact ih
    rw [tests, List.find?_append, Option.map_or, here, ih, List.findIdx?_cons]
    split
    · rfl
    · rw [Option.none_or, Option.map_map]
      simp [Function.comp_def, Nat.add_assoc, Nat.add_comm 1]

/-- With one `default` at most, the last group that has it is the first. -/
theorem defaultGroup_eq {groups : List CaseGroup} (once : groups.Pairwise fun g h => ¬ (g.isDefault = true ∧ h.isDefault = true))
    (d : Option Nat) (i : Nat) : defaultGroup groups d i = ((groups.findIdx? fun g => g.isDefault).map (i + ·)).or d := by
  induction groups generalizing d i with
  | nil => rfl
  | cons g rest ih =>
    obtain ⟨head, tail⟩ := List.pairwise_cons.1 once
    rw [defaultGroup, ih tail, List.findIdx?_cons]
    cases is : g.isDefault with
    | false => simp [Function.comp_def, Nat.add_assoc, Nat.add_comm 1]
    | true =>
      have none_ : (rest.findIdx? fun g => g.isDefault) = none := by
        rw [List.findIdx?_eq_none_iff]
        intro h mem
        simpa [is] using head h mem
      simp [none_]

theorem caseGroups_default_once {k : Nat} {body : List Stmt}
    (once : body.Pairwise fun s t => ¬ (.default ∈ s.shown ∧ .default ∈ t.shown)) :
    (∀ g ∈ (caseGroups k body).2, ∃ s ∈ body, g.isDefault = decide (.default ∈ s.shown)) ∧
      (caseGroups k body).2.Pairwise fun g h => ¬ (g.isDefault = true ∧ h.isDefault = true) := by
  induction body generalizing k with
  | nil => simp [caseGroups]
  | cons s rest ih =>
    obtain ⟨head, tail⟩ := List.pairwise_cons.1 once
    obtain ⟨from_, pairs⟩ := ih (k := k + 1) tail
    by_cases bare : s.shown = []
    · rw [caseGroups_bare bare]
      refine ⟨fun g mem => ?_, pairs⟩
      obtain ⟨t, inRest, eq⟩ := from_ g mem
      exact ⟨t, List.mem_cons_of_mem _ inRest, eq⟩
    · rw [caseGroups_labeled bare]
      constructor
      · intro g mem
        rcases List.mem_cons.1 mem with rfl | mem
        · exact ⟨s, List.mem_cons_self, rfl⟩
        · obtain ⟨t, inRest, eq⟩ := from_ g mem
          exact ⟨t, List.mem_cons_of_mem _ inRest, eq⟩
      · refine List.pairwise_cons.2 ⟨fun h mem both => ?_, pairs⟩
        obtain ⟨t, inRest, eq⟩ := from_ h mem
        exact head t inRest ⟨by simpa using both.1, by simpa [eq] using both.2⟩

/-! ### Runs -/

theorem mapM_drop {α β : Type} {f : α → Option β} {l : List α} {bs : List β} (run : l.mapM f = some bs) (n : Nat) :
    (l.drop n).mapM f = some (bs.drop n) := by
  induction n generalizing l bs with
  | zero => exact run
  | succ n ih =>
    cases l with
    | nil =>
      cases run
      rfl
    | cons a l =>
      simp only [List.mapM_cons, Option.bind_eq_bind, Option.bind_eq_some_iff, Option.pure_def, Option.some.injEq] at run
      obtain ⟨b, _, bs', rest, rfl⟩ := run
      exact ih rest

/-- Statements without labels are passed over without an error. -/
theorem cutOff_of_bare {front : List (Nat × Stmt)} (bare : ∀ p ∈ front, p.2.labels = []) (live : Bool) : cutOff front live = some () := by
  induction front generalizing live with
  | nil => rfl
  | cons p rest ih =>
    obtain ⟨live', lowered⟩ := Option.isSome_iff_exists.1 (stmt_isSome_of_bare (bare p List.mem_cons_self) live)
    rw [cutOff, lowered]
    exact ih (fun q mem => bare q (List.mem_cons_of_mem _ mem)) live'

/-- A first statement without labels: what the rest of its group and the groups after it run comes behind it. -/
theorem lowerBody_cons {next : Nat → Bool} {k : Nat} {s : Stmt} {front : List (Nat × Stmt)} {b : Body} (bs : List Body)
    (bare : s.labels = []) (all : ∀ p ∈ front, p.2.labels = []) (lowered : lowerBody front = some b)
    (respects : s.ends = true → next k = false) : ∃ b', lowerBody ((k, s) :: front) = some b' ∧
      runBodies next (b' :: bs) = k :: if next k then runBodies next (b :: bs) else [] := by
  rw [lowerBody, stmt_of_bare bare]
  cases ends : s.ends with
  | true =>
    refine ⟨⟨[k], false⟩, by simp [cutOff_of_bare all], ?_⟩
    simp [runBodies, runThrough, respects ends]
  | false =>
    refine ⟨{ b with stmts := k :: b.stmts }, by simp [lowered], ?_⟩
    cases go : next k with
    | true => simp [runBodies, runThrough, go]
    | false => simp [runBodies, runThrough, go]

/-- **The groups run as the statements of the body do, in source order**, where no label is hidden. -/
theorem caseGroups_run (next : Nat → Bool) (k : Nat) (body : List Stmt) (shown : ∀ s ∈ body, s.hidden = [])
    (respects : ∀ i s, body[i]? = some s → s.ends = true → next (k + i) = false) :
    (∀ p ∈ (caseGroups k body).1, p.2.labels = []) ∧ ∃ b bs, lowerBody (caseGroups k body).1 = some b ∧
      ((caseGroups k body).2.mapM fun g => lowerBody g.stmts) = some bs ∧
      runBodies next (b :: bs) = runThrough next (List.range' k body.length) := by
  induction body generalizing k with
  | nil => exact ⟨by simp [caseGroups], ⟨[], true⟩, [], rfl, rfl, rfl⟩
  | cons s rest ih =>
    obtain ⟨all, b, bs, front, groups, run⟩ := ih (k + 1) (fun t mem => shown t (List.mem_cons_of_mem _ mem)) (by
      intro i t at_ ends
      rw [Nat.add_assoc, Nat.add_comm 1]
      exact respects (i + 1) t at_ ends)
    have bare : (peel s).2.labels = [] := shown s List.mem_cons_self
    obtain ⟨b', lowered, run'⟩ := lowerBody_cons bs bare all front (k := k) fun ends => respects 0 s rfl (by rwa [peel_ends] at ends)
    have whole : runBodies next (b' :: bs) = runThrough next (List.range' k (s :: rest).length) := by
      rw [run', run, List.length_cons, List.range'_succ, runThrough]
    by_cases noLabel : s.shown = []
    · rw [caseGroups_bare noLabel]
      refine ⟨?_, b', bs, lowered, groups, whole⟩
      intro p mem
      rcases List.mem_cons.1 mem with rfl | mem
      · exact bare
      · exact all p mem
    · rw [caseGroups_labeled noLabel]
      refine ⟨by simp, ⟨[], true⟩, b' :: bs, rfl, ?_, ?_⟩
      · simp [lowered, groups]
      · rw [← whole]
        simp [runBodies, runThrough]

/-- Where its first statement leaves, a group runs that statement alone. -/
theorem lowerBody_first {k : Nat} {s : Stmt} {front : List (Nat × Stmt)} {b : Body} (lowered : lowerBody ((k, s) :: front) = some b)
    (bs : List Body) : s.labels = [] ∧ runBodies (fun _ => false) (b :: bs) = [k] := by
  rw [lowerBody] at lowered
  cases here : stmt s true with
  | none => simp [here] at lowered
  | some live =>
    refine ⟨bare_of_stmt (by simp [here]), ?_⟩
    rw [here] at lowered
    cases live with
    | true =>
      obtain ⟨b', _, rfl⟩ := Option.map_eq_some_iff.1 lowered
      simp [runBodies, runThrough]
    | false =>
      obtain ⟨_, _, rfl⟩ := Option.map_eq_some_iff.1 lowered
      simp [runBodies, runThrough]

/-! ### Where the dispatch goes -/

/-- The statement that the dispatch enters. -/
def taken (ty : CondType) (body : List Stmt) (c : Int) : Option Nat :=
  (body.findIdx? fun s => s.shown.any (Label.starts ty c)).or (body.findIdx? fun s => decide (.default ∈ s.shown))

theorem entry_eq (ty : CondType) (body : List Stmt) (c : Int) : entry ty body c =
    (body.findIdx? fun s => s.labels.any (Label.covers ty c)).or (body.findIdx? fun s => decide (.default ∈ s.labels)) := by
  unfold entry
  split <;> simp [*]

theorem switchStmt_run {g : Graph} (lowered : switchStmt ty body = some g)
    (once : body.Pairwise fun s t => ¬ (.default ∈ s.shown ∧ .default ∈ t.shown)) {c : Int} (has : ty.Has c) (next : Nat → Bool) :
    (taken ty body c = none → g.run ty c next = []) ∧
      ∀ i, taken ty body c = some i → ∃ bs, ((caseGroups i (body.drop i)).2.mapM fun g => lowerBody g.stmts) = some bs ∧
        g.run ty c next = runBodies next bs := by
  unfold switchStmt at lowered
  by_cases narrow : ty.reg = .i128
  · rw [if_pos narrow] at lowered
    cases lowered
  rw [if_neg narrow] at lowered
  obtain ⟨bodies, bodies_eq, rfl⟩ := Option.map_eq_some_iff.1 lowered
  have tested := caseGroups_find (P := fun ls => ls.any (Label.starts ty c)) (Q := fun g => g.values.any fun v => hit ty c v)
    rfl (by
      intro ls _
      rw [List.any_filterMap]
      congr 1
      funext l
      cases l <;> simp [Label.value, Label.starts, hit_iff narrow has]) 0 body
  have dflt := caseGroups_find (P := fun ls => decide (.default ∈ ls)) (Q := fun g => g.isDefault) rfl (fun _ _ => rfl) 0 body
  -- the group that the graph goes to, as the groups from there on
  have target : ((Graph.mk (tests 0 (caseGroups 0 body).2) (defaultGroup (caseGroups 0 body).2 none 0) bodies).target ty c).map
      (fun g => (caseGroups 0 body).2.drop g) = (taken ty body c).map fun i => (caseGroups i (body.drop i)).2 := by
    have find := tests_find (fun v => hit ty c v) 0 (caseGroups 0 body).2
    have last := defaultGroup_eq (caseGroups_default_once (k := 0) once).2 none 0
    simp only [Nat.zero_add, Option.map_id', Option.or_none] at find last tested dflt
    rw [taken, Option.map_or, ← tested, ← dflt, ← Option.map_or, ← find, ← last, Graph.target]
    congr 1
    cases List.find? (fun t => hit ty c t.1) (tests 0 (caseGroups 0 body).2) <;> rfl
  unfold Graph.run
  constructor
  · intro none_
    rw [none_, Option.map_none, Option.map_eq_none_iff] at target
    rw [target]
  · intro i some_
    rw [some_, Option.map_some, Option.map_eq_some_iff] at target
    obtain ⟨t, target, groups⟩ := target
    refine ⟨bodies.drop t, ?_, by rw [target]⟩
    rw [← groups]
    exact mapM_drop bodies_eq t

/-- Behind the labels that the lowering sees there are no others. -/
theorem hidden_of_lowered {g : Graph} (lowered : switchStmt ty body = some g) {s : Stmt} (mem : s ∈ body) (labeled : s.shown ≠ []) :
    s.hidden = [] := by
  unfold switchStmt at lowered
  split at lowered
  · cases lowered
  obtain ⟨bodies, bodies_eq, -⟩ := Option.map_eq_some_iff.1 lowered
  clear lowered
  generalize 0 = k at bodies_eq
  induction body generalizing k bodies with
  | nil => cases mem
  | cons t rest ih =>
    by_cases bare : t.shown = []
    · rw [caseGroups_bare bare] at bodies_eq
      rcases List.mem_cons.1 mem with rfl | mem
      · exact absurd bare labeled
      · exact ih mem _ _ bodies_eq
    · rw [caseGroups_labeled bare] at bodies_eq
      simp only [List.mapM_cons, Option.bind_eq_bind, Option.bind_eq_some_iff, Option.pure_def, Option.some.injEq] at bodies_eq
      obtain ⟨b, first, bs, others, -⟩ := bodies_eq
      rcases List.mem_cons.1 mem with rfl | mem
      · exact (lowerBody_first first []).1
      · exact ih mem _ _ others

/-- The statement taken has a label that the lowering sees. -/
theorem shown_of_taken {c : Int} {i : Nat} (some_ : taken ty body c = some i) : ∃ s, body[i]? = some s ∧ s.shown ≠ [] := by
  rcases Option.or_eq_some_iff.1 some_ with found | ⟨-, found⟩ <;>
    obtain ⟨lt, is, -⟩ := List.findIdx?_eq_some_iff_getElem.1 found <;>
    refine ⟨body[i], List.getElem?_eq_getElem lt, fun none_ => ?_⟩ <;>
    simp [none_] at is

theorem lt_of_entry {c : Int} {i : Nat} (some_ : entry ty body c = some i) : i < body.length := by
  rw [entry_eq] at some_
  rcases Option.or_eq_some_iff.1 some_ with found | ⟨-, found⟩ <;>
    exact (List.findIdx?_eq_some_iff_getElem.1 found).1

/-- Where every statement leaves, the graph and the meaning run the statement entered alone: they have to agree on it. -/
theorem taken_eq_entry (once : body.Pairwise fun s t => ¬ (.default ∈ s.shown ∧ .default ∈ t.shown)) (right : Right ty body)
    {c : Int} (has : ty.Has c) : taken ty body c = entry ty body c := by
  obtain ⟨g, compiled, runs⟩ := right
  have lowered : switchStmt ty body = some g := by
    unfold compile at compiled
    split at compiled
    · exact compiled
    · cases compiled
  have run := runs c (fun _ => false) has fun _ _ _ _ => rfl
  obtain ⟨exit, enter⟩ := switchStmt_run lowered once has fun _ => false
  have follows : follow body (fun _ => false) (entry ty body c) = (entry ty body c).toList := by
    cases goal : entry ty body c with
    | none => rfl
    | some i =>
      obtain ⟨n, len⟩ := Nat.exists_eq_add_of_lt (lt_of_entry goal)
      simp [follow, show body.length - i = n + 1 by omega, List.range'_succ, runThrough]
  rw [follows] at run
  cases goal : taken ty body c with
  | none =>
    rw [exit goal] at run
    exact (Option.toList_eq_nil_iff.1 run.symm).symm
  | some i =>
    obtain ⟨bs, bodies, eq⟩ := enter i goal
    obtain ⟨s, at_, labeled⟩ := shown_of_taken goal
    have first : body.drop i = s :: body.drop (i + 1) := by
      obtain ⟨lt, rfl⟩ := List.getElem?_eq_some_iff.1 at_
      exact List.drop_eq_getElem_cons lt
    rw [first, caseGroups_labeled labeled] at bodies
    simp only [List.mapM_cons, Option.bind_eq_bind, Option.bind_eq_some_iff, Option.pure_def, Option.some.injEq] at bodies
    obtain ⟨b, body_, bs', -, rfl⟩ := bodies
    rw [eq, (lowerBody_first body_ bs').2] at run
    exact (Option.toList_eq_singleton_iff.1 run.symm).symm

/-! ### Distinct labels -/

/-- The label covers the value or starts at it. -/
def Label.touches (ty : CondType) (c : Int) (l : Label) : Bool := l.covers ty c || l.starts ty c

theorem Label.Apart.symm {a b : Label} (apart : a.Apart ty b) : b.Apart ty a :=
  ⟨fun both => apart.1 both.symm, fun c => by rw [Bool.and_comm]; exact apart.2 c⟩

/-- Two labels at one value are one. -/
theorem Proper.same_label (proper : Proper ty body) {s t : Stmt} {a b : Label} {c : Int} (inBody : s ∈ body) (inBody' : t ∈ body)
    (mem : a ∈ s.labels) (mem' : b ∈ t.labels) (touches : a.touches ty c = true) (touches' : b.touches ty c = true) : a = b := by
  by_contra differ
  have : Std.Symm (Label.Apart ty) := ⟨fun _ _ => Label.Apart.symm⟩
  have apart := proper.apart.forall (List.mem_flatMap_of_mem inBody mem) (List.mem_flatMap_of_mem inBody' mem') differ
  have := apart.2 c
  unfold Label.touches at touches touches'
  rw [touches, touches'] at this
  cases this

theorem Proper.same_stmt (proper : Proper ty body) {s t : Stmt} {a b : Label} {i j : Nat} (at_ : body[i]? = some s)
    (at_' : body[j]? = some t) (mem : a ∈ s.labels) (mem' : b ∈ t.labels) (near : ¬ a.Apart ty b) : j = i := by
  have pairs := List.pairwise_iff_getElem.1 (List.pairwise_flatMap.1 proper.apart).2
  obtain ⟨lt, rfl⟩ := List.getElem?_eq_some_iff.1 at_
  obtain ⟨lt', rfl⟩ := List.getElem?_eq_some_iff.1 at_'
  rcases Nat.lt_trichotomy i j with before | rfl | behind
  · exact absurd (pairs i j lt lt' before a mem b mem') near
  · rfl
  · exact absurd (pairs j i lt' lt behind b mem' a mem).symm near

theorem not_apart_of_touches {a b : Label} {c : Int} (touches : a.touches ty c = true) (touches' : b.touches ty c = true) :
    ¬ a.Apart ty b := by
  intro apart
  have := apart.2 c
  unfold Label.touches at touches touches'
  rw [touches, touches'] at this
  cases this

theorem not_apart_default : ¬ Label.Apart ty .default .default := fun apart => apart.1 ⟨rfl, rfl⟩

/-- A search whose only result is known. -/
theorem findIdx?_of_unique {p : Stmt → Bool} {i : Nat} {s : Stmt} (at_ : body[i]? = some s) (is : p s = true)
    (unique : ∀ j t, body[j]? = some t → p t = true → j = i) : body.findIdx? p = some i := by
  obtain ⟨lt, rfl⟩ := List.getElem?_eq_some_iff.1 at_
  refine List.findIdx?_eq_some_iff_getElem.2 ⟨lt, is, fun j before => ?_⟩
  intro found
  have := unique j body[j] (List.getElem?_eq_getElem (by omega)) found
  omega

theorem mem_labels_of_shown {s : Stmt} {l : Label} (mem : l ∈ s.shown) : l ∈ s.labels := by
  rw [labels_eq]
  exact List.mem_append_left _ mem

theorem mem_labels_of_hidden {s : Stmt} {l : Label} (mem : l ∈ s.hidden) : l ∈ s.labels := by
  rw [labels_eq]
  exact List.mem_append_right _ mem

theorem Proper.once (proper : Proper ty body) : body.Pairwise fun s t => ¬ (.default ∈ s.shown ∧ .default ∈ t.shown) := by
  refine (List.pairwise_flatMap.1 proper.apart).2.imp fun apart both => ?_
  exact not_apart_default (apart _ (mem_labels_of_shown both.1) _ (mem_labels_of_shown both.2))

/-! ### Where the two searches come to -/

section
variable (proper : Proper ty body) {s : Stmt} {l : Label} {c : Int} {i : Nat} (at_ : body[i]? = some s)
include proper at_

theorem entry_of_covers (mem : l ∈ s.labels) (covers : l.covers ty c = true) : entry ty body c = some i := by
  rw [entry_eq, findIdx?_of_unique at_ (List.any_eq_true.2 ⟨l, mem, covers⟩), Option.some_or]
  intro j t at_' found
  obtain ⟨m, mem', covers'⟩ := List.any_eq_true.1 found
  exact proper.same_stmt at_ at_' mem mem' (not_apart_of_touches (c := c) (by simp [Label.touches, covers]) (by simp [Label.touches, covers']))

theorem entry_of_default (mem : .default ∈ s.labels) (none_ : ∀ t ∈ body, ∀ m ∈ t.labels, m.covers ty c = false) :
    entry ty body c = some i := by
  have covered : (body.findIdx? fun s => s.labels.any (Label.covers ty c)) = none := by
    rw [List.findIdx?_eq_none_iff]
    exact fun t mem => List.any_eq_false.2 fun m mem' => by simp [none_ t mem m mem']
  rw [entry_eq, covered, Option.none_or]
  refine findIdx?_of_unique at_ (decide_eq_true mem) fun j t at_' found => ?_
  exact proper.same_stmt at_ at_' mem (of_decide_eq_true found) not_apart_default

theorem taken_of_starts (mem : l ∈ s.shown) (starts : l.starts ty c = true) : taken ty body c = some i := by
  rw [taken, findIdx?_of_unique at_ (List.any_eq_true.2 ⟨l, mem, starts⟩), Option.some_or]
  intro j t at_' found
  obtain ⟨m, mem', starts'⟩ := List.any_eq_true.1 found
  exact proper.same_stmt at_ at_' (mem_labels_of_shown mem) (mem_labels_of_shown mem')
    (not_apart_of_touches (c := c) (by simp [Label.touches, starts]) (by simp [Label.touches, starts']))

theorem taken_of_default (mem : .default ∈ s.shown) (none_ : ∀ t ∈ body, ∀ m ∈ t.labels, m.starts ty c = false) :
    taken ty body c = some i := by
  have started : (body.findIdx? fun s => s.shown.any (Label.starts ty c)) = none := by
    rw [List.findIdx?_eq_none_iff]
    exact fun t mem => List.any_eq_false.2 fun m mem' => by simp [none_ t mem m (mem_labels_of_shown mem')]
  rw [taken, started, Option.none_or]
  refine findIdx?_of_unique at_ (decide_eq_true mem) fun j t at_' found => ?_
  exact proper.same_stmt at_ at_' (mem_labels_of_shown mem) (mem_labels_of_shown (of_decide_eq_true found)) not_apart_default

omit proper in
theorem default_of_taken (goal : taken ty body c = some i) (none_ : ∀ t ∈ body, ∀ m ∈ t.labels, m.starts ty c = false) :
    .default ∈ s.shown := by
  rcases Option.or_eq_some_iff.1 goal with found | ⟨-, found⟩ <;> obtain ⟨lt, is, -⟩ := List.findIdx?_eq_some_iff_getElem.1 found <;>
    obtain rfl : body[i] = s := by simpa [lt] using at_
  · obtain ⟨m, mem, starts⟩ := List.any_eq_true.1 is
    rw [none_ _ (List.getElem_mem lt) m (mem_labels_of_shown mem)] at starts
    cases starts
  · exact of_decide_eq_true is

omit proper in
theorem default_of_entry (goal : entry ty body c = some i) (none_ : ∀ t ∈ body, ∀ m ∈ t.labels, m.covers ty c = false) :
    .default ∈ s.labels := by
  rw [entry_eq] at goal
  rcases Option.or_eq_some_iff.1 goal with found | ⟨-, found⟩ <;> obtain ⟨lt, is, -⟩ := List.findIdx?_eq_some_iff_getElem.1 found <;>
    obtain rfl : body[i] = s := by simpa [lt] using at_
  · obtain ⟨m, mem, covers⟩ := List.any_eq_true.1 is
    rw [none_ _ (List.getElem_mem lt) m mem] at covers
    cases covers
  · exact of_decide_eq_true is

theorem none_of_touches (mem : l ∈ s.labels) (touches : l.touches ty c = true) :
    (l.starts ty c = false → ∀ t ∈ body, ∀ m ∈ t.labels, m.starts ty c = false) ∧
      (l.covers ty c = false → ∀ t ∈ body, ∀ m ∈ t.labels, m.covers ty c = false) := by
  have inBody := List.mem_of_getElem? at_
  constructor
  · intro none_ t inBody' m mem'
    by_contra starts
    have same := proper.same_label inBody inBody' mem mem' touches (by simp [Label.touches, starts])
    exact starts (same ▸ none_)
  · intro none_ t inBody' m mem'
    by_contra covers
    have same := proper.same_label inBody inBody' mem mem' touches (by simp [Label.touches, covers])
    exact covers (same ▸ none_)

end

/-! ### When the searches agree -/

theorem findIdx?_congr {p q : Stmt → Bool} (agree : ∀ s ∈ body, p s = q s) : body.findIdx? p = body.findIdx? q := by
  induction body with
  | nil => rfl
  | cons s rest ih =>
    rw [List.findIdx?_cons, List.findIdx?_cons, agree s List.mem_cons_self, ih fun t mem => agree t (List.mem_cons_of_mem _ mem)]

/-- A range of other than one value has to stand on `default`'s statement. -/
theorem default_of_range (proper : Proper ty body) (agree : ∀ c, ty.Has c → taken ty body c = entry ty body c) {s : Stmt} {i : Nat}
    (at_ : body[i]? = some s) {low high : Int} {named : Bool} (mem : .range low high named ∈ s.shown)
    (wide : ty.convert low ≠ ty.convert high) : .default ∈ s.labels := by
  have inLabels := mem_labels_of_shown mem
  rcases lt_or_gt_of_ne wide with less | greater
  · -- the high end is in the range, and tested by nothing
    have covers : Label.covers ty (ty.convert high) (.range low high named) = true := by simp [Label.covers, less.le]
    have starts : Label.starts ty (ty.convert high) (.range low high named) = false := by simp [Label.starts, wide.symm]
    have goal := agree _ (convert_has high)
    rw [entry_of_covers proper at_ inLabels covers] at goal
    have others := (none_of_touches proper at_ inLabels (by simp [Label.touches, covers])).1 starts
    exact mem_labels_of_shown (default_of_taken at_ goal others)
  · -- an empty range is entered at its low end
    have covers : Label.covers ty (ty.convert low) (.range low high named) = false := by simp [Label.covers, greater]
    have starts : Label.starts ty (ty.convert low) (.range low high named) = true := by simp [Label.starts]
    have goal := agree _ (convert_has low)
    rw [taken_of_starts proper at_ mem starts] at goal
    have others := (none_of_touches proper at_ inLabels (by simp [Label.touches, starts])).2 covers
    exact default_of_entry at_ goal.symm others

/-- Where a label starts, and 0 for `default`. -/
def CondType.low (ty : CondType) : Label → Nat
  | .case v | .range v _ _ => (ty.convert v).toNat
  | .default => 0

theorem exists_fresh (ty : CondType) (few : (body.flatMap Stmt.labels).length < 2 ^ 31) :
    ∃ c, ty.Has c ∧ ∀ s ∈ body, ∀ l ∈ s.labels, l.starts ty c = false := by
  let values := (body.flatMap Stmt.labels).map ty.low
  have card : values.toFinset.card < (Finset.range (2 ^ 31)).card := by
    rw [Finset.card_range]
    exact lt_of_le_of_lt (List.toFinset_card_le values) (by simpa [values] using few)
  obtain ⟨n, inRange, fresh⟩ := Finset.exists_mem_notMem_of_card_lt_card card
  rw [Finset.mem_range] at inRange
  refine ⟨n, ?_, fun s inBody l mem => ?_⟩
  · have small : n < 2 ^ (ty.reg.bits - 1) := lt_of_lt_of_le inRange (Nat.pow_le_pow_right (by decide) (by cases ty.reg <;> decide))
    have double : 2 ^ ty.reg.bits = 2 * 2 ^ (ty.reg.bits - 1) := by cases ty.reg <;> decide
    unfold CondType.Has CondType.convert
    generalize 2 ^ (ty.reg.bits - 1) = half at small double
    split
    · rw [BitVec.toInt_ofInt, double, Int.bmod_eq_of_le] <;> omega
    · rw [BitVec.ofInt_natCast, BitVec.toNat_ofNat, Nat.mod_eq_of_lt (by omega)]
  · rw [List.mem_toFinset] at fresh
    have absent : ∀ v, l = .case v ∨ (∃ high named, l = .range v high named) → (n : Int) ≠ ty.convert v := by
      rintro v is eq
      refine fresh (List.mem_map.2 ⟨l, List.mem_flatMap_of_mem inBody mem, ?_⟩)
      rcases is with rfl | ⟨_, _, rfl⟩ <;> simp [CondType.low, ← eq]
    cases l with
    | case v => simpa [Label.starts] using absent v (.inl rfl)
    | range v high named => simpa [Label.starts] using absent v (.inr ⟨_, _, rfl⟩)
    | default => rfl

/-- A label that the lowering does not see is missed. -/
theorem hidden_eq_nil (proper : Proper ty body) {g : Graph} (lowered : switchStmt ty body = some g)
    (agree : ∀ c, ty.Has c → taken ty body c = entry ty body c) {s : Stmt} (inBody : s ∈ body) : s.hidden = [] := by
  by_contra some_
  have indexed : ∀ {t}, t ∈ body → ∃ i, body[i]? = some t := List.mem_iff_getElem?.1
  -- nothing is entered at a statement that has hidden labels
  have missed : ∀ {t : Stmt} {i : Nat} {c : Int}, body[i]? = some t → t.hidden ≠ [] → taken ty body c ≠ some i := by
    intro t i c at_ behind goal
    obtain ⟨t', at_', labeled⟩ := shown_of_taken goal
    obtain rfl : t = t' := by simpa [at_] using at_'
    exact behind (hidden_of_lowered lowered (List.mem_of_getElem? at_) labeled)
  have onlyDefault : ∀ t ∈ body, ∀ l ∈ t.hidden, l = .default := by
    intro t inBody' l mem
    by_contra valued
    obtain ⟨c, has, covers⟩ : ∃ c, ty.Has c ∧ l.covers ty c = true := by
      cases l with
      | case v => exact ⟨_, convert_has v, by simp [Label.covers]⟩
      | range low high named => exact ⟨_, convert_has low, by simpa [Label.covers] using proper.some_ t inBody' _ _ _ mem⟩
      | default => exact absurd rfl valued
    obtain ⟨i, at_⟩ := indexed inBody'
    exact missed at_ (List.ne_nil_of_mem mem) ((agree c has).trans (entry_of_covers proper at_ (mem_labels_of_hidden mem) covers))
  obtain ⟨l, mem⟩ := List.exists_mem_of_ne_nil _ some_
  obtain rfl := onlyDefault s inBody l mem
  obtain ⟨i, at_⟩ := indexed inBody
  obtain ⟨c, has, fresh⟩ := exists_fresh ty proper.few
  refine missed at_ some_ ((agree c has).trans (entry_of_default proper at_ (mem_labels_of_hidden mem) ?_))
  -- every other label covers the values it starts at, which this one is not
  intro t inBody' m mem'
  have start := fresh t inBody' m mem'
  cases m with
  | case v => exact start
  | default => rfl
  | range low high named =>
    have single : ty.convert low = ty.convert high := by
      by_contra wide
      obtain ⟨j, at_'⟩ := indexed inBody'
      have inShown : .range low high named ∈ t.shown := by
        rw [labels_eq] at mem'
        rcases List.mem_append.1 mem' with inShown | inHidden
        · exact inShown
        · cases onlyDefault t inBody' _ inHidden
      have same := proper.same_stmt at_ at_' (mem_labels_of_hidden mem) (default_of_range proper agree at_' inShown wide) not_apart_default
      subst same
      obtain rfl : s = t := by simpa [at_] using at_'
      exact some_ (hidden_of_lowered lowered inBody (List.ne_nil_of_mem inShown))
    simp only [Label.starts, beq_eq_false_iff_ne] at start
    simp only [Label.covers, ← single, decide_eq_false_iff_not]
    omega

/-- Where every label is seen and covers where it starts, or stands on `default`'s statement, the searches agree. -/
theorem Kept.agree (kept : Kept ty body) (proper : Proper ty body) (c : Int) : taken ty body c = entry ty body c := by
  have shown : ∀ {t}, t ∈ body → t.labels = t.shown := by
    intro t inBody
    rw [labels_eq, kept.shown t inBody, List.append_nil]
  by_cases touched : ∃ s ∈ body, ∃ l ∈ s.labels, l.touches ty c = true
  · obtain ⟨s, inBody, l, mem, touches⟩ := touched
    obtain ⟨i, at_⟩ := List.mem_iff_getElem?.1 inBody
    have inShown := shown inBody ▸ mem
    have others := none_of_touches proper at_ mem touches
    have both : l.covers ty c = l.starts ty c ∨ .default ∈ s.labels := by
      cases l with
      | case | default => exact .inl rfl
      | range low high named =>
        rcases (kept.single s inBody low high named mem).2 with single | default
        · left
          rw [Label.covers, Label.starts, ← single, Bool.eq_iff_iff, decide_eq_true_iff, beq_iff_eq]
          omega
        · exact .inr default
    unfold Label.touches at touches
    cases covers : l.covers ty c with
    | true =>
      rw [entry_of_covers proper at_ mem covers]
      cases starts : l.starts ty c with
      | true => exact taken_of_starts proper at_ inShown starts
      | false =>
        have default := both.resolve_left (by simp [covers, starts])
        exact taken_of_default proper at_ (shown inBody ▸ default) (others.1 starts)
    | false =>
      have starts : l.starts ty c = true := by simpa [covers] using touches
      have default := both.resolve_left (by simp [covers, starts])
      rw [taken_of_starts proper at_ inShown starts, entry_of_default proper at_ default (others.2 covers)]
  · have none_ : ∀ t ∈ body, ∀ m ∈ t.labels, m.covers ty c = false ∧ m.starts ty c = false := by
      intro t inBody m mem
      have : m.touches ty c = false := by
        by_contra touches
        exact touched ⟨t, inBody, m, mem, by simpa using touches⟩
      simpa [Label.touches] using this
    rw [taken, entry_eq]
    congr 1
    · rw [List.findIdx?_eq_none_iff.2, List.findIdx?_eq_none_iff.2]
      · exact fun t inBody => List.any_eq_false.2 fun m mem => by simp [none_ t inBody m mem]
      · exact fun t inBody => List.any_eq_false.2 fun m mem => by simp [none_ t inBody m (mem_labels_of_shown mem)]
    · exact findIdx?_congr fun t inBody => by rw [shown inBody]

/-! ### When a switch is lowered rightly -/

/-- `switch (n) { case 1: case 2: f(); default: g(); break; case 3 ... 3: h(); }` -/
def merged : List Stmt :=
  [.label (.case 1) (.label (.case 2) (.other false false)), .label .default (.other false false), .other true false,
    .label (.range 3 3 false) (.other false false)]

end Vcx.Switch
