import Mathlib.Data.List.Basic

/-!
# Lexicographic comparison

Two things are compared by a list of questions: each has an answer, some have it turned
round, and the first that finds a difference decides. Two lists decide alike whatever the
answers are exactly when they put the same questions, in the same order and the same way
round, each counted only where it is put first (`lex_eq_iff`); and they find the same things
equal exactly when they put the same questions (`allEqual_eq_iff`).
-/

namespace Vcx.Lib
set_option autoImplicit false

/-- The outcome of a comparison. -/
inductive Order where
  | less | equal | greater | unordered
  deriving DecidableEq, Repr

/-- The outcome for the two sides exchanged. -/
def Order.swap : Order → Order
  | .less => .greater
  | .greater => .less
  | o => o

/-- An answer, turned round where the question has it so. -/
def Order.turn (turned : Bool) (o : Order) : Order := if turned then o.swap else o

@[simp] theorem Order.turn_eq_equal {turned : Bool} {o : Order} : o.turn turned = .equal ↔ o = .equal := by
  cases turned <;> cases o <;> decide

@[simp] theorem Order.turn_turn (turned : Bool) (o : Order) : (o.turn turned).turn turned = o := by
  cases turned <;> cases o <;> rfl

@[simp] theorem Order.turn_eq_unordered {turned : Bool} {o : Order} : o.turn turned = .unordered ↔ o = .unordered := by
  cases turned <;> cases o <;> decide

section

variable {κ : Type}

/-- The first difference, `equal` when there is none. -/
def lex (v : κ → Order) : List (κ × Bool) → Order
  | [] => .equal
  | (k, turned) :: rest => if v k = .equal then lex v rest else (v k).turn turned

/-- Whether no question finds a difference. -/
def allEqual (v : κ → Order) (l : List (κ × Bool)) : Bool := l.all fun q => v q.1 = .equal

variable {v v' : κ → Order} {l l' : List (κ × Bool)}

attribute [local simp] lex

theorem lex_append : lex v (l ++ l') = if lex v l = .equal then lex v l' else lex v l := by
  induction l with
  | nil => rfl
  | cons q rest ih =>
    rw [List.cons_append, lex, lex, ih]
    by_cases same : v q.1 = .equal
    · simp [same]
    · simp [same]

theorem lex_eq_equal_iff : lex v l = .equal ↔ ∀ q ∈ l, v q.1 = .equal := by
  induction l with
  | nil => simp [lex]
  | cons q rest ih =>
    rw [lex, List.forall_mem_cons, ← ih]
    split
    · rename_i same
      simp [same]
    · rename_i differs
      simp [differs]

theorem allEqual_iff : allEqual v l = true ↔ lex v l = .equal := by
  simp [allEqual, lex_eq_equal_iff]

theorem lex_congr (agree : ∀ q ∈ l, v q.1 = v' q.1) : lex v l = lex v' l := by
  induction l with
  | nil => rfl
  | cons q rest ih =>
    rw [List.forall_mem_cons] at agree
    rw [lex, lex, agree.1, ih agree.2]

/-- A question everybody answers with `equal` may be left out. -/
theorem lex_filter {p : κ × Bool → Bool} (idle : ∀ q ∈ l, p q = false → v q.1 = .equal) :
    lex v (l.filter p) = lex v l := by
  induction l with
  | nil => rfl
  | cons q rest ih =>
    rw [List.forall_mem_cons] at idle
    rw [List.filter_cons]
    split
    · rw [lex, lex, ih idle.2]
    · rename_i dropped
      rw [lex, if_pos (idle.1 (by simpa using dropped)), ih idle.2]

/-- Lists that put the same questions find the same things equal. -/
theorem allEqual_of_keys (same : ∀ k, k ∈ l.map Prod.fst ↔ k ∈ l'.map Prod.fst) : allEqual v l = allEqual v l' := by
  have all : ∀ l : List (κ × Bool), allEqual v l = true ↔ ∀ k ∈ l.map Prod.fst, v k = .equal := by
    intro l
    rw [allEqual_iff, lex_eq_equal_iff, List.forall_mem_map]
  rw [Bool.eq_iff_iff, all, all]
  exact forall_congr' fun k => imp_congr (same k) Iff.rfl

variable [DecidableEq κ]

/-- The questions that were not put before. -/
def firsts : List (κ × Bool) → List (κ × Bool)
  | [] => []
  | q :: rest => q :: (firsts rest).filter fun p => p.1 != q.1

theorem firsts_pairwise : (firsts l).Pairwise fun p q => p.1 ≠ q.1 := by
  induction l with
  | nil => exact .nil
  | cons q rest ih =>
    refine .cons (fun p mem => ?_) (ih.filter _)
    have := (List.mem_filter.1 mem).2
    rw [bne_iff_ne] at this
    exact Ne.symm this

/-- What is asked again changes nothing. -/
theorem lex_firsts : lex v (firsts l) = lex v l := by
  induction l with
  | nil => rfl
  | cons q rest ih =>
    rw [firsts, lex, lex]
    split
    · rename_i same
      rw [lex_filter, ih]
      intro p _ dropped
      rw [bne_eq_false_iff_eq] at dropped
      rw [dropped]
      exact same
    · rfl

/-- Lists that put the same questions first decide alike. -/
theorem lex_of_firsts (same : firsts l = firsts l') : lex v l = lex v l' := by
  rw [← lex_firsts, same, lex_firsts]

/-- `o` in answer to `k`, and `rest` to every other question. -/
def answer (k : κ) (o : Order) (rest : κ → Order) : κ → Order := fun j => if j = k then o else rest j

@[simp] theorem answer_self {k : κ} {o : Order} {rest : κ → Order} : answer k o rest k = o := if_pos rfl

theorem answer_of_ne {k j : κ} {o : Order} {rest : κ → Order} (ne : j ≠ k) : answer k o rest j = rest j := if_neg ne

theorem answer_total {k : κ} {o : Order} {rest : κ → Order} (decided : o ≠ .unordered) (total : ∀ j, rest j ≠ .unordered)
    (j : κ) : answer k o rest j ≠ .unordered := by
  unfold answer
  split
  · exact decided
  · exact total j

/-- One question answered with `less` alone. -/
theorem single_total {k : κ} (j : κ) : answer k .less (fun _ => .equal) j ≠ .unordered :=
  answer_total (by decide) (fun _ => by simp) j

/-- Lists without repetition that decide alike for all answers are the same. -/
theorem eq_of_lex_eq (once : l.Pairwise fun p q => p.1 ≠ q.1) (once' : l'.Pairwise fun p q => p.1 ≠ q.1)
    (alike : ∀ v : κ → Order, (∀ k, v k ≠ .unordered) → lex v l = lex v l') : l = l' := by
  induction l generalizing l' with
  | nil =>
    cases l' with
    | nil => rfl
    | cons q rest =>
      have := alike (answer q.1 .less fun _ => .equal) single_total
      rw [lex, lex, answer_self, if_neg (by decide)] at this
      cases turned : q.2 <;> simp [turned, Order.turn, Order.swap] at this
  | cons q rest ih =>
    cases l' with
    | nil =>
      have := alike (answer q.1 .less fun _ => .equal) single_total
      rw [lex, lex, answer_self, if_neg (by decide)] at this
      cases turned : q.2 <;> simp [turned, Order.turn, Order.swap] at this
    | cons q' rest' =>
      rw [List.pairwise_cons] at once once'
      -- the answers that have the first list say `less`, and the second `greater` if it can
      have decided := alike (answer q.1 (Order.turn q.2 .less) (answer q'.1 (Order.turn q'.2 .greater) fun _ => .equal))
        (answer_total (by simp) (answer_total (by simp) fun _ => by simp))
      have key : q'.1 = q.1 := by
        by_contra ne
        rw [lex, lex, answer_self, if_neg (by simp), answer_of_ne ne, answer_self, if_neg (by simp), Order.turn_turn,
          Order.turn_turn] at decided
        cases decided
      have way : q'.2 = q.2 := by
        rw [lex, lex, key, answer_self, if_neg (by simp), if_neg (by simp), Order.turn_turn] at decided
        cases one : q.2 <;> cases other : q'.2 <;> simp [one, other, Order.turn, Order.swap] at decided <;> rfl
      have same : q' = q := Prod.ext key way
      subst same
      congr 1
      refine ih once.2 once'.2 fun v total => ?_
      have := alike (answer q'.1 .equal v) (answer_total (by decide) total)
      rw [lex, lex, answer_self, if_pos rfl, if_pos rfl] at this
      have here : lex (answer q'.1 .equal v) rest = lex v rest :=
        lex_congr fun p mem => answer_of_ne (Ne.symm (once.1 p mem))
      have there : lex (answer q'.1 .equal v) rest' = lex v rest' :=
        lex_congr fun p mem => answer_of_ne (Ne.symm (once'.1 p mem))
      rw [← here, ← there]
      exact this

/-- **Lists decide alike for all answers exactly when they put the same questions first.** -/
theorem lex_eq_iff : (∀ v : κ → Order, (∀ k, v k ≠ .unordered) → lex v l = lex v l') ↔ firsts l = firsts l' := by
  constructor
  · intro alike
    refine eq_of_lex_eq firsts_pairwise firsts_pairwise fun v total => ?_
    rw [lex_firsts, lex_firsts]
    exact alike v total
  · intro same v _
    exact lex_of_firsts same

/-- A list finds a difference just where it asks for it. -/
theorem allEqual_answer {k : κ} : allEqual (answer k .less fun _ => .equal) l = false ↔ k ∈ l.map Prod.fst := by
  rw [← Bool.not_eq_true, allEqual_iff, lex_eq_equal_iff]
  simp only [answer, List.mem_map]
  constructor
  · intro differs
    push Not at differs
    obtain ⟨q, mem, found⟩ := differs
    refine ⟨q, mem, ?_⟩
    by_contra ne
    exact found (if_neg ne)
  · rintro ⟨q, mem, rfl⟩ same
    have := same q mem
    rw [if_pos rfl] at this
    cases this

/-- **Lists find the same things equal exactly when they put the same questions.** -/
theorem allEqual_eq_iff : (∀ v : κ → Order, (∀ k, v k ≠ .unordered) → allEqual v l = allEqual v l') ↔
    ∀ k, k ∈ l.map Prod.fst ↔ k ∈ l'.map Prod.fst := by
  constructor
  · intro alike k
    rw [← allEqual_answer, ← allEqual_answer, alike _ single_total]
  · intro same v _
    exact allEqual_of_keys same

end

end Vcx.Lib
