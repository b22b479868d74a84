import Mathlib.Data.List.Forall2
import Mathlib.Data.List.TakeWhile
import Vcx.Literal.Decode

/-!
# Concatenating string literals

Adjacent string literals are one string in the encoding that the prefixed ones have in common.
`Decode` learns that encoding as it goes and encodes every segment as its own prefix says, so an
unprefixed segment beside a prefixed one is right only where that makes no difference.
-/

namespace Vcx.Literal
set_option autoImplicit false
open Vcx.Lib

/-! ### Sequences of fallible steps -/

section
variable {ε α β γ : Type}

/-- The results of `f` along a list, or its first error. -/
def each (f : α → Except ε β) : List α → Except ε (List β)
  | [] => .ok []
  | x :: xs =>
    match f x with
    | .error e => .error e
    | .ok y => (each f xs).map (y :: ·)

theorem map_map {δ : Type} (f : α → β) (g : β → δ) (x : Except ε α) : (x.map f).map g = x.map (g ∘ f) := by
  cases x <;> rfl

theorem each_congr {f : α → Except ε β} {g : γ → Except ε β} {xs : List α} {ys : List γ}
    (same : List.Forall₂ (fun x y => f x = g y) xs ys) : each f xs = each g ys := by
  induction same with
  | nil => rfl
  | cons head _ ih => rw [each, each, head, ih]

theorem each_ok {f : α → Except ε β} {xs : List α} {ys : List β} (run : each f xs = .ok ys) :
    List.Forall₂ (fun x y => f x = .ok y) xs ys := by
  induction xs generalizing ys with
  | nil =>
    cases run
    exact .nil
  | cons x xs ih =>
    rw [each] at run
    split at run
    · cases run
    · rename_i y head
      cases tail : each f xs with
      | error e =>
        rw [tail] at run
        cases run
      | ok zs =>
        rw [tail] at run
        cases run
        exact .cons head (ih tail)

/-- What is related along two lists is related at a member. -/
theorem exists_of_forall₂ {R : α → β → Prop} {xs : List α} {ys : List β} (all : List.Forall₂ R xs ys) {x : α}
    (mem : x ∈ xs) : ∃ y ∈ ys, R x y := by
  induction all with
  | nil => cases mem
  | cons head _ ih =>
    cases mem with
    | head => exact ⟨_, List.mem_cons_self .., head⟩
    | tail _ mem =>
      obtain ⟨y, inside, rel⟩ := ih mem
      exact ⟨y, List.mem_cons_of_mem _ inside, rel⟩

theorem forall₂_imp {R S : α → β → Prop} {xs : List α} {ys : List β} (all : List.Forall₂ R xs ys)
    (imp : ∀ x y, x ∈ xs → y ∈ ys → R x y → S x y) : List.Forall₂ S xs ys := by
  induction all with
  | nil => exact .nil
  | cons head _ ih =>
    exact .cons (imp _ _ (List.mem_cons_self ..) (List.mem_cons_self ..) head)
      (ih fun x y inXs inYs => imp x y (List.mem_cons_of_mem _ inXs) (List.mem_cons_of_mem _ inYs))

end

/-! ### The characters of a segment -/

/-- The items of a body, whatever the encoding. -/
def items (body : List UInt8) : Except Fault (List Item) :=
  match body with
  | [] => .ok []
  | c :: rest =>
    if c ≠ backslash then
      (items ((c :: rest).drop (decodeRune (c :: rest)).2)).map (written c rest :: ·)
    else
      match _run : escape rest with
      | .error fault => .error fault
      | .ok (item, rest') => (items rest').map (item :: ·)
termination_by body.length
decreasing_by
  · exact drop_decodeRune_length c rest
  · exact Nat.lt_succ_of_lt (escape_length _run)

theorem unescape_eq (enc : Encoding) (body : List UInt8) :
    unescape enc body = (items body).map (·.flatMap (Item.units enc)) := by
  fun_induction items body with
  | case1 => rw [unescape]; rfl
  | case2 c rest plain ih =>
    rw [unescape, if_pos plain, ih]
    cases items ((c :: rest).drop (decodeRune (c :: rest)).2) <;> rfl
  | case3 c rest plain fault run =>
    rw [unescape, if_neg plain]
    split
    · rename_i fault' run'
      rw [run] at run'
      cases run'
      rfl
    · rename_i run'
      rw [run] at run'
      cases run'
  | case4 c rest plain item rest' run ih =>
    rw [unescape, if_neg plain]
    split
    · rename_i run'
      rw [run] at run'
      cases run'
    · rename_i run'
      rw [run] at run'
      cases run'
      rw [ih]
      cases items rest' <;> rfl

/-- The items of a segment: a raw one has no escapes. -/
def Parts.items (p : Parts) : Except Fault (List Item) :=
  if p.isRaw then .ok ((runes p.body).map .char) else Literal.items p.body

theorem Parts.units_eq (p : Parts) : p.units = p.items.map (·.flatMap (Item.units p.enc)) := by
  unfold Parts.units Parts.items
  split
  · rw [Except.map, List.flatMap_map]
    rfl
  · exact unescape_eq p.enc p.body

/-! ### The common encoding -/

/-- Of adjacent literals that have one encoding in common: every prefix is that encoding's or
none, and it is some literal's. -/
structure Compatible (enc : Encoding) (segs : List (List UInt8)) : Prop where
  spelled : ∀ raw ∈ segs, ∃ p, split raw = .ok p ∧ (p.enc = .narrow ∨ p.enc = enc)
  chosen : enc = .narrow ∨ ∃ raw ∈ segs, ∃ p, split raw = .ok p ∧ p.enc = enc

/-- The suffix of a string: the last one written. -/
def lastSuffix (first : List UInt8) (ps : List Parts) : List UInt8 :=
  ps.foldl (fun suffix p => if p.suffix ≠ [] then p.suffix else suffix) first

/-- Each segment's characters in the common encoding, one after another. -/
def concatenated (enc : Encoding) (segs : List (List UInt8)) : Except Fault Str :=
  match each split segs with
  | .error fault => .error fault
  | .ok ps => (each Parts.items ps).map fun iss => ⟨enc, iss.flatten.flatMap (Item.units enc), lastSuffix [] ps⟩

/-- A segment with the common prefix written. -/
def explicitly (enc : Encoding) (raw : List UInt8) : List UInt8 :=
  match split raw with
  | .ok p => if p.enc = .narrow then enc.spelling ++ raw else raw
  | .error _ => raw

def Str.append (s t : Str) : Str :=
  ⟨t.enc, s.units ++ t.units, if t.suffix ≠ [] then t.suffix else s.suffix⟩

/-- Each segment decoded on its own with the common prefix written, and appended. -/
def appended (enc : Encoding) (segs : List (List UInt8)) : Except Fault Str :=
  (each (fun raw => decode [explicitly enc raw]) segs).map (·.foldl Str.append ⟨enc, [], []⟩)

/-! ### Spellings -/

theorem encodingOf_eq_some {text : List UInt8} {enc : Encoding} : encodingOf text = some enc ↔ text = enc.spelling := by
  constructor
  · intro found
    have := List.find?_some found
    exact (of_decide_eq_true this).symm
  · rintro rfl
    cases enc <;> decide

/-- The `R` of a raw literal. -/
def rawMark (isRaw : Bool) : List UInt8 := if isRaw then ['R'.toUInt8] else []

/-- What is in front of the opening quote. -/
def lead (enc : Encoding) (isRaw : Bool) : List UInt8 := enc.spelling ++ rawMark isRaw

theorem quote_notMem_lead (enc : Encoding) (isRaw : Bool) : quote ∉ lead enc isRaw := by
  cases enc <;> cases isRaw <;> decide

theorem takeWhile_ne_quote {pre rest : List UInt8} (free : quote ∉ pre) :
    (pre ++ quote :: rest).takeWhile (· ≠ quote) = pre := by
  rw [List.takeWhile_append_of_pos]
  · simp
  · intro b mem
    exact decide_eq_true fun eq => free (eq ▸ mem)

theorem exists_quote {raw : List UInt8} (some_ : (raw.takeWhile (· ≠ quote)).length ≠ raw.length) :
    ∃ rest, raw = raw.takeWhile (· ≠ quote) ++ quote :: rest := by
  have whole := List.takeWhile_append_dropWhile (p := fun b : UInt8 => decide (b ≠ quote)) (l := raw)
  cases found : raw.dropWhile (· ≠ quote) with
  | nil =>
    rw [found, List.append_nil] at whole
    exact absurd (congrArg List.length whole) some_
  | cons b rest =>
    have head := List.head?_dropWhile_not (fun b : UInt8 => decide (b ≠ quote)) raw
    rw [found] at head
    have eq : b = quote := by simpa using head
    rw [found, eq] at whole
    exact ⟨rest, whole.symm⟩

/-- The `R` is read off the lead, and the rest is the encoding's. -/
theorem lead_mark (enc : Encoding) (isRaw : Bool) : ((lead enc isRaw).getLast? = some 'R'.toUInt8) = (isRaw = true) ∧
    encodingOf (if isRaw = true then (lead enc isRaw).dropLast else lead enc isRaw) = some enc := by
  cases enc <;> cases isRaw <;> decide

/-- The parts that `split` finds are those the spelling is made of. -/
theorem split_eq_ok_iff {raw : List UInt8} {p : Parts} :
    split raw = .ok p ↔ ∃ body, cutSuffix raw = (p.suffix, lead p.enc p.isRaw ++ quote :: body ++ [quote]) ∧
      if p.isRaw then rawBody body = some p.body else p.body = body := by
  constructor
  · intro run
    unfold split at run
    split at run
    rename_i suffix raw' cut
    simp only at run
    rw [cut]
    split at run
    · cases run
    rename_i shape
    simp only [Bool.or_eq_true, decide_eq_true_eq, not_or, not_not] at shape
    obtain ⟨some_, last⟩ := shape
    obtain ⟨rest, whole⟩ := exists_quote some_
    generalize raw'.takeWhile (· ≠ quote) = before at run whole some_
    subst whole
    split at run
    · cases run
    rename_i enc found
    split at run
    · cases run
    rename_i long
    obtain ⟨body, rfl⟩ : ∃ body, rest = body ++ [quote] := by
      rcases List.eq_nil_or_concat rest with rfl | ⟨body, b, rfl⟩
      · simp at long
      · rw [show before ++ quote :: body.concat b = (before ++ quote :: body) ++ [b] by simp,
          List.getLast?_concat] at last
        cases last
        exact ⟨body, List.concat_eq_append⟩
    have dropped : ((before ++ quote :: (body ++ [quote])).drop (before.length + 1)).dropLast = body := by
      rw [List.drop_append]
      simp
    rw [dropped] at run
    rw [encodingOf_eq_some] at found
    by_cases isRaw : before.getLast? = some 'R'.toUInt8
    · obtain ⟨front, rfl⟩ := List.getLast?_eq_some_iff.1 isRaw
      rw [if_pos isRaw, List.dropLast_concat] at found
      rw [if_pos isRaw] at run
      split at run
      · cases run
      · rename_i inner raw
        cases run
        refine ⟨body, ?_, by simpa using raw⟩
        simp [lead, rawMark, ← found]
    · rw [if_neg isRaw] at found run
      cases run
      refine ⟨body, ?_, by simp⟩
      simp [lead, rawMark, ← found]
  · rintro ⟨body, cut, inner⟩
    have before : (lead p.enc p.isRaw ++ quote :: body ++ [quote]).takeWhile (· ≠ quote) = lead p.enc p.isRaw := by
      rw [List.append_assoc, List.cons_append]
      exact takeWhile_ne_quote (quote_notMem_lead p.enc p.isRaw)
    have dropped : ((lead p.enc p.isRaw ++ quote :: body ++ [quote]).drop
        ((lead p.enc p.isRaw).length + 1)).dropLast = body := by
      rw [List.append_assoc, List.drop_append]
      simp
    have shape : ¬((lead p.enc p.isRaw).length = (lead p.enc p.isRaw ++ quote :: body ++ [quote]).length ||
        (lead p.enc p.isRaw ++ quote :: body ++ [quote]).getLast? ≠ some quote) = true := by
      rw [List.getLast?_concat]
      simp
    have long : ¬(lead p.enc p.isRaw ++ quote :: body ++ [quote]).length ≤ (lead p.enc p.isRaw).length + 1 := by
      simp
    obtain ⟨mark, found⟩ := lead_mark p.enc p.isRaw
    unfold split
    rw [cut]
    simp only [before, dropped]
    rw [if_neg shape]
    simp only [mark, found]
    rw [if_neg long]
    obtain ⟨enc, isRaw, inside, suffix⟩ := p
    cases isRaw
    · simp only [Bool.false_eq_true, if_false] at inner ⊢
      rw [inner]
    · simp only [if_true] at inner ⊢
      rw [inner]

theorem exists_last_quote {raw : List UInt8} (mem : quote ∈ raw) :
    ∃ front suffix, raw = front ++ quote :: suffix ∧ quote ∉ suffix := by
  obtain ⟨back, front, whole, free⟩ := List.eq_append_cons_of_mem (List.mem_reverse.2 mem)
  refine ⟨front.reverse, back.reverse, ?_, by simpa using free⟩
  rw [← List.reverse_reverse raw, whole]
  simp

/-- What follows the last quote is a suffix if it starts as an identifier does, and if that
quote is not the opening one. -/
def hasSuffix (front suffix : List UInt8) : Bool :=
  suffix.head?.any isIdentStart && front.contains quote

theorem cutSuffix_eq {front suffix : List UInt8} (free : quote ∉ suffix) :
    cutSuffix (front ++ quote :: suffix) =
      if hasSuffix front suffix then (suffix, front ++ [quote]) else ([], front ++ quote :: suffix) := by
  have reversed : (front ++ quote :: suffix).reverse = suffix.reverse ++ quote :: front.reverse := by simp
  have taken : ((front ++ quote :: suffix).reverse.takeWhile (· ≠ quote)).reverse = suffix := by
    rw [reversed, takeWhile_ne_quote (by simpa using free), List.reverse_reverse]
  have left : ((front ++ quote :: suffix).reverse.dropWhile (· ≠ quote)).reverse = front ++ [quote] := by
    rw [reversed, List.dropWhile_append_of_pos]
    · simp
    · intro b mem
      exact decide_eq_true fun eq => free (by simpa [eq] using mem)
  unfold cutSuffix
  rw [taken, left]
  cases suffix with
  | nil => simp [hasSuffix]
  | cons c suffix => simp [hasSuffix]

/-- A text without quotes in front of a spelling with one stays in front. -/
theorem cutSuffix_append {pre raw : List UInt8} (free : quote ∉ pre) (mem : quote ∈ raw) :
    cutSuffix (pre ++ raw) = ((cutSuffix raw).1, pre ++ (cutSuffix raw).2) := by
  obtain ⟨front, suffix, rfl, none_⟩ := exists_last_quote mem
  have same : hasSuffix (pre ++ front) suffix = hasSuffix front suffix := by
    simp [hasSuffix, free]
  rw [← List.append_assoc, cutSuffix_eq none_, cutSuffix_eq none_, same]
  split <;> simp

theorem quote_mem_of_split {raw : List UInt8} {p : Parts} (run : split raw = .ok p) : quote ∈ raw := by
  by_contra free
  obtain ⟨body, cut, -⟩ := split_eq_ok_iff.1 run
  have none_ : cutSuffix raw = ([], raw) := by
    have taken : raw.reverse.dropWhile (· ≠ quote) = [] := by
      rw [List.dropWhile_eq_nil_iff]
      intro b mem
      exact decide_eq_true fun eq => free (by simpa [eq] using mem)
    unfold cutSuffix
    simp only [taken]
    split <;> simp
  rw [none_, Prod.mk.injEq] at cut
  apply free
  rw [cut.2]
  simp

/-- A prefix written in front of an unprefixed literal is its encoding. -/
theorem split_spelling_append {raw : List UInt8} {p : Parts} (run : split raw = .ok p) (plain : p.enc = .narrow)
    (enc : Encoding) : split (enc.spelling ++ raw) = .ok { p with enc := enc } := by
  have mem := quote_mem_of_split run
  obtain ⟨body, cut, inner⟩ := split_eq_ok_iff.1 run
  rw [split_eq_ok_iff]
  refine ⟨body, ?_, inner⟩
  have free : quote ∉ enc.spelling := by cases enc <;> decide
  rw [cutSuffix_append free mem, cut]
  simp [lead, plain, Encoding.spelling]

/-! ### What `Decode` computes -/

theorem decodeFrom_eq {enc : Encoding} {segs : List (List UInt8)} {ps : List Parts}
    (spelled : List.Forall₂ (fun raw p => split raw = .ok p) segs ps) (agree : ∀ p ∈ ps, p.enc = .narrow ∨ p.enc = enc)
    (s : Str) (seen : Bool) (known : seen = true → s.enc = enc) :
    decodeFrom s seen segs = (each Parts.units ps).map fun us =>
      ⟨if ps.any (·.enc ≠ .narrow) then enc else s.enc, s.units ++ us.flatten, lastSuffix s.suffix ps⟩ := by
  induction spelled generalizing s seen with
  | nil => simp [decodeFrom, each, Except.map, lastSuffix]
  | @cons raw p segs ps head _ ih =>
    have own := agree p (List.mem_cons_self ..)
    have same : ¬(p.enc ≠ .narrow && seen && p.enc ≠ s.enc) = true := by
      cases seen with
      | false => simp
      | true =>
        rw [known rfl]
        cases own with
        | inl plain => simp [plain]
        | inr eq => simp [eq]
    have suffixed : ∃ t : Str, (if p.suffix ≠ [] then { s with suffix := p.suffix } else s) = t ∧ t.enc = s.enc ∧
        t.units = s.units ∧ t.suffix = if p.suffix ≠ [] then p.suffix else s.suffix := by
      refine ⟨_, rfl, ?_, ?_, ?_⟩ <;> split <;> rfl
    obtain ⟨t, eq, encKept, unitsKept, suffixSet⟩ := suffixed
    rw [decodeFrom, head]
    simp only [eq, encKept]
    rw [if_neg same, each]
    cases run : p.units with
    | error fault => rfl
    | ok units =>
      simp only
      rw [ih (fun q mem => agree q (List.mem_cons_of_mem _ mem))]
      · cases each Parts.units ps with
        | error fault => rfl
        | ok us =>
          simp only [Except.map, Except.ok.injEq, Str.mk.injEq, List.flatten_cons, List.any_cons, lastSuffix,
            List.foldl_cons]
          by_cases narrow : p.enc = .narrow
          · simp [narrow, encKept, unitsKept, suffixSet]
          · obtain rfl := own.resolve_left narrow
            simp [narrow, unitsKept, suffixSet]
      · intro now
        by_cases narrow : p.enc = .narrow
        · simp only [narrow, ne_eq, not_true_eq_false, decide_false, Bool.or_false] at now
          simp [narrow, encKept, known now]
        · obtain rfl := own.resolve_left narrow
          simp [narrow]

theorem Compatible.parts {enc : Encoding} {segs : List (List UInt8)} (compatible : Compatible enc segs) :
    ∃ ps, List.Forall₂ (fun raw p => split raw = .ok p) segs ps ∧ (∀ p ∈ ps, p.enc = .narrow ∨ p.enc = enc) ∧
      (enc = .narrow ∨ ∃ p ∈ ps, p.enc = enc) := by
  obtain ⟨spelled, chosen⟩ := compatible
  have all : ∃ ps, List.Forall₂ (fun raw p => split raw = .ok p) segs ps ∧ ∀ p ∈ ps, p.enc = .narrow ∨ p.enc = enc := by
    clear chosen
    induction segs with
    | nil => exact ⟨[], .nil, by simp⟩
    | cons raw segs ih =>
      obtain ⟨p, run, own⟩ := spelled raw (List.mem_cons_self ..)
      obtain ⟨ps, runs, others⟩ := ih fun raw mem => spelled raw (List.mem_cons_of_mem _ mem)
      exact ⟨p :: ps, .cons run runs, by simpa using ⟨own, others⟩⟩
  obtain ⟨ps, runs, agree⟩ := all
  refine ⟨ps, runs, agree, chosen.imp id ?_⟩
  rintro ⟨raw, mem, p, run, eq⟩
  obtain ⟨q, inside, run'⟩ := exists_of_forall₂ runs mem
  rw [run] at run'
  cases run'
  exact ⟨p, inside, eq⟩

theorem each_split {segs : List (List UInt8)} {ps : List Parts}
    (spelled : List.Forall₂ (fun raw p => split raw = .ok p) segs ps) : each split segs = .ok ps := by
  induction spelled with
  | nil => rfl
  | cons head _ ih =>
    rw [each, head, ih]
    rfl

/-- One segment with the common prefix written, decoded on its own. -/
theorem decode_explicitly {enc : Encoding} {raw : List UInt8} {p : Parts} (run : split raw = .ok p)
    (own : p.enc = .narrow ∨ p.enc = enc) : decode [explicitly enc raw] =
      p.items.map fun is => ⟨enc, is.flatMap (Item.units enc), p.suffix⟩ := by
  have shown : split (explicitly enc raw) = .ok { p with enc := enc } := by
    unfold explicitly
    rw [run]
    simp only
    split
    · rename_i plain
      exact split_spelling_append run plain enc
    · rename_i prefixed
      rw [run, ← own.resolve_left prefixed]
  have parts : List.Forall₂ (fun raw p => split raw = .ok p) [explicitly enc raw] [{ p with enc := enc }] :=
    .cons shown .nil
  rw [decode, @decodeFrom_eq enc _ _ parts (by simp) _ _ (by simp), each, Parts.units_eq]
  have same : Parts.items { p with enc := enc } = p.items := rfl
  rw [same]
  cases p.items with
  | error fault => rfl
  | ok is =>
    simp only [Except.map, each, Except.ok.injEq, Str.mk.injEq]
    refine ⟨?_, by simp, ?_⟩
    · cases enc <;> simp
    · by_cases empty : p.suffix = [] <;> simp [lastSuffix, empty]

/-- Both readings of the concatenation are one: the characters in the common encoding, and the
segments decoded on their own with the common prefix. -/
theorem appended_eq_concatenated {enc : Encoding} {segs : List (List UInt8)} (compatible : Compatible enc segs) :
    appended enc segs = concatenated enc segs := by
  obtain ⟨ps, spelled, agree, -⟩ := compatible.parts
  unfold appended concatenated
  rw [each_split spelled]
  have steps : each (fun raw => decode [explicitly enc raw]) segs =
      each (fun p => p.items.map fun is => (⟨enc, is.flatMap (Item.units enc), p.suffix⟩ : Str)) ps :=
    each_congr (forall₂_imp spelled fun raw p _ mem run => decode_explicitly run (agree p mem))
  rw [steps]
  simp only
  suffices sum : ∀ s : Str, s.enc = enc →
      (each (fun p : Parts => p.items.map fun is => (⟨enc, is.flatMap (Item.units enc), p.suffix⟩ : Str)) ps).map
        (·.foldl Str.append s) =
      (each Parts.items ps).map fun iss => ⟨enc, s.units ++ iss.flatten.flatMap (Item.units enc), lastSuffix s.suffix ps⟩ by
    simpa using sum ⟨enc, [], []⟩ rfl
  clear steps spelled agree
  induction ps with
  | nil =>
    intro s eq
    subst eq
    simp [each, Except.map, lastSuffix]
  | cons p ps ih =>
    intro s eq
    rw [each, each]
    cases p.items with
    | error fault => rfl
    | ok is =>
      have tail := ih (s.append ⟨enc, is.flatMap (Item.units enc), p.suffix⟩) rfl
      rw [Except.map, map_map, map_map]
      refine tail.trans ?_
      simp [Str.append, lastSuffix, Function.comp_def]

/-! ### Where the encoding makes no difference -/

/-- An item with one code unit in every encoding. -/
def Item.ascii : Item → Bool
  | .char r => r < 0x80
  | .unit _ => true

theorem Item.units_eq_of_ascii {item : Item} (ascii : item.ascii = true) (enc enc' : Encoding) :
    item.units enc = item.units enc' := by
  cases item with
  | unit n => rfl
  | char r =>
    have small : r < 0x80 := by simpa [Item.ascii] using ascii
    have single : ∀ enc : Encoding, encode r enc = [r] := by
      intro enc
      cases enc <;> simp [encode, small]
      omega
    exact (single enc).trans (single enc').symm

/-- Another encoding than UTF-8 takes fewer units for a character, but for those of ASCII. -/
theorem Item.length_units {enc : Encoding} (wide : enc ≠ .narrow ∧ enc ≠ .utf8) (item : Item) :
    (item.units enc).length ≤ (item.units .narrow).length ∧
      ((item.units enc).length = (item.units .narrow).length → item.ascii = true) := by
  cases item with
  | unit n => exact ⟨Nat.le_refl _, fun _ => rfl⟩
  | char r =>
    by_cases small : r < 0x80
    · have ascii : (Item.char r).ascii = true := by simpa [Item.ascii] using small
      rw [Item.units_eq_of_ascii ascii enc .narrow]
      exact ⟨Nat.le_refl _, fun _ => ascii⟩
    · have fewer : (encode r enc).length < (encode r .narrow).length := by
        have two : (encode r enc).length = if enc = .utf16 ∧ 0x10000 ≤ r then 2 else 1 := by
          cases enc <;> simp_all [encode]
          split <;> rfl
        have more : (if 0x10000 ≤ r then 3 else 2) ≤ (encode r .narrow).length := by
          simp only [encode, if_neg small, encodeRune]
          repeat' split
          all_goals simp
          all_goals omega
        rw [two]
        split at more <;> split <;> omega
      exact ⟨Nat.le_of_lt fewer, fun eq => absurd eq (Nat.ne_of_lt fewer)⟩

theorem length_flatMap_units {enc : Encoding} (wide : enc ≠ .narrow ∧ enc ≠ .utf8) (is : List Item) :
    (is.flatMap (Item.units enc)).length ≤ (is.flatMap (Item.units .narrow)).length ∧
      ((is.flatMap (Item.units enc)).length = (is.flatMap (Item.units .narrow)).length → ∀ i ∈ is, i.ascii = true) := by
  induction is with
  | nil => simp
  | cons i is ih =>
    have head := i.length_units wide
    simp only [List.flatMap_cons, List.length_append, List.mem_cons, forall_eq_or_imp]
    refine ⟨Nat.add_le_add head.1 ih.1, fun eq => ⟨head.2 ?_, ih.2 ?_⟩⟩ <;> omega

/-- A segment's units, in its own encoding. -/
def ownUnits (p : Parts) (is : List Item) : List Nat := is.flatMap (Item.units p.enc)

/-- The units in the segments' own encodings are those in the common one if and only if every
unprefixed segment is of ASCII, unless the common encoding is UTF-8 as well. -/
theorem flatten_ownUnits_eq_iff {enc : Encoding} {ps : List Parts} {iss : List (List Item)}
    (runs : List.Forall₂ (fun p is => p.items = .ok is) ps iss) (agree : ∀ p ∈ ps, p.enc = .narrow ∨ p.enc = enc)
    (wide : enc ≠ .narrow ∧ enc ≠ .utf8) :
    (List.zipWith ownUnits ps iss).flatten = iss.flatten.flatMap (Item.units enc) ↔
      ∀ p ∈ ps, p.enc = .narrow → ∀ is, p.items = .ok is → ∀ i ∈ is, i.ascii = true := by
  suffices both : (iss.flatten.flatMap (Item.units enc)).length ≤ (List.zipWith ownUnits ps iss).flatten.length ∧
      ((List.zipWith ownUnits ps iss).flatten = iss.flatten.flatMap (Item.units enc) ↔
        ∀ p ∈ ps, p.enc = .narrow → ∀ is, p.items = .ok is → ∀ i ∈ is, i.ascii = true) from both.2
  induction runs with
  | nil => simp
  | @cons p is ps iss head _ ih =>
    obtain ⟨shorter, tail⟩ := ih fun q mem => agree q (List.mem_cons_of_mem _ mem)
    have own : (is.flatMap (Item.units enc)).length ≤ (ownUnits p is).length ∧
        (ownUnits p is = is.flatMap (Item.units enc) ↔
          (p.enc = .narrow → ∀ is', p.items = .ok is' → ∀ i ∈ is', i.ascii = true)) := by
      cases agree p (List.mem_cons_self ..) with
      | inr eq =>
        rw [ownUnits, eq]
        exact ⟨Nat.le_refl _, fun _ plain => absurd plain wide.1, fun _ => rfl⟩
      | inl plain =>
        have lengths := length_flatMap_units wide is
        rw [ownUnits, plain, head]
        refine ⟨lengths.1, fun eq _ is' same => ?_, fun ascii => ?_⟩
        · cases same
          exact lengths.2 (congrArg List.length eq).symm
        · exact List.flatMap_congr fun i mem => Item.units_eq_of_ascii (ascii rfl is rfl i mem) _ _
    simp only [List.zipWith_cons_cons, List.flatten_cons, List.flatMap_append, List.length_append, List.mem_cons,
      forall_eq_or_imp]
    refine ⟨Nat.add_le_add own.1 shorter, fun eq => ?_, fun ascii => ?_⟩
    · have lengths := congrArg List.length eq
      simp only [List.length_append] at lengths
      obtain ⟨first, rest⟩ := List.append_inj eq (by omega)
      exact ⟨own.2.1 first, tail.1 rest⟩
    · rw [own.2.2 ascii.1, tail.2 ascii.2]

theorem each_units (ps : List Parts) : each Parts.units ps = (each Parts.items ps).map (List.zipWith ownUnits ps) := by
  induction ps with
  | nil => rfl
  | cons p ps ih =>
    rw [each, each, Parts.units_eq, ih]
    cases p.items with
    | error fault => rfl
    | ok is => cases each Parts.items ps <;> rfl

theorem each_error_iff {ps : List Parts} :
    (∃ fault, each Parts.items ps = .error fault) ↔ ∃ p ∈ ps, ∃ fault, p.items = .error fault := by
  induction ps with
  | nil => simp [each]
  | cons p ps ih =>
    rw [each]
    cases run : p.items with
    | error fault => simp [run]
    | ok is =>
      simp only [List.mem_cons, exists_eq_or_imp, run, reduceCtorEq, ← ih]
      cases each Parts.items ps <;> simp [Except.map]

/-- The segments' own encodings are no other than the common one when that is UTF-8. -/
theorem ownUnits_eq_of_narrow {enc : Encoding} {p : Parts} (narrow : enc = .narrow ∨ enc = .utf8)
    (agree : p.enc = .narrow ∨ p.enc = enc) (is : List Item) : ownUnits p is = is.flatMap (Item.units enc) := by
  have same : ∀ item : Item, item.units .narrow = item.units .utf8 := by
    intro item
    cases item <;> rfl
  apply List.flatMap_congr
  intro item _
  cases agree with
  | inr eq => rw [eq]
  | inl plain =>
    rw [plain]
    cases narrow with
    | inl eq => rw [eq]
    | inr eq => rw [eq, same]

theorem flatten_ownUnits_of_narrow {enc : Encoding} {ps : List Parts} {iss : List (List Item)}
    (runs : List.Forall₂ (fun p is => p.items = .ok is) ps iss) (agree : ∀ p ∈ ps, p.enc = .narrow ∨ p.enc = enc)
    (narrow : enc = .narrow ∨ enc = .utf8) :
    (List.zipWith ownUnits ps iss).flatten = iss.flatten.flatMap (Item.units enc) := by
  induction runs with
  | nil => rfl
  | @cons p is ps iss _ _ ih =>
    simp only [List.zipWith_cons_cons, List.flatten_cons, List.flatMap_append]
    rw [ih fun q mem => agree q (List.mem_cons_of_mem _ mem),
      ownUnits_eq_of_narrow narrow (agree p (List.mem_cons_self ..))]

/-- `Decode` of compatible literals: every segment in its own encoding. -/
theorem decode_eq {enc : Encoding} {segs : List (List UInt8)} {ps : List Parts}
    (spelled : List.Forall₂ (fun raw p => split raw = .ok p) segs ps) (agree : ∀ p ∈ ps, p.enc = .narrow ∨ p.enc = enc)
    (chosen : enc = .narrow ∨ ∃ p ∈ ps, p.enc = enc) :
    decode segs = (each Parts.items ps).map fun iss => ⟨enc, (List.zipWith ownUnits ps iss).flatten, lastSuffix [] ps⟩ := by
  have common : (if ps.any (·.enc ≠ .narrow) then enc else Encoding.narrow) = enc := by
    cases chosen with
    | inl narrow => simp [narrow]
    | inr some_ =>
      obtain ⟨p, mem, eq⟩ := some_
      by_cases narrow : enc = .narrow
      · simp [narrow]
      · rw [if_pos]
        rw [List.any_eq_true]
        exact ⟨p, mem, by simp [eq, narrow]⟩
  rw [decode, decodeFrom_eq spelled agree _ _ (by simp), each_units, map_map, common]
  rfl

/-- Every character of an unprefixed segment, written as it is or as a universal character name,
is one of ASCII. -/
def AsciiWhereUnprefixed (segs : List (List UInt8)) : Prop :=
  ∀ raw ∈ segs, ∀ p, split raw = .ok p → p.enc = .narrow → ∀ is, p.items = .ok is → ∀ i ∈ is, i.ascii = true

/-- A segment with an escape that is none. -/
def HasBadEscape (segs : List (List UInt8)) : Prop :=
  ∃ raw ∈ segs, ∃ p fault, split raw = .ok p ∧ p.items = .error fault

/-- The literals `L"a"` and `"é"`. -/
def wideBesidePlain : List (List UInt8) := [[0x4C, 0x22, 0x61, 0x22], [0x22, 0xC3, 0xA9, 0x22]]

/-- The parts of `wideBesidePlain`. -/
def wideBesidePlainParts : List Parts := [⟨.wide, false, [0x61], []⟩, ⟨.narrow, false, [0xC3, 0xA9], []⟩]

theorem wideBesidePlain_spelled :
    List.Forall₂ (fun raw p => split raw = .ok p) wideBesidePlain wideBesidePlainParts :=
  .cons rfl (.cons rfl .nil)

theorem items_letter : items [0x61] = .ok [.char 0x61] := by
  rw [items, if_pos (by decide)]
  change (items []).map _ = _
  rw [items]
  rfl

theorem wideBesidePlain_items : each Parts.items wideBesidePlainParts = .ok [[.char 0x61], [.char 0xE9]] := by
  have accent : items [0xC3, 0xA9] = .ok [.char 0xE9] := by
    rw [items, if_pos (by decide)]
    change (items []).map _ = _
    rw [items]
    rfl
  simp [each, wideBesidePlainParts, Parts.items, items_letter, accent, Except.map]

end Vcx.Literal
