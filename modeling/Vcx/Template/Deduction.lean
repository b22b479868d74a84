import Vcx.Template.DeduceSound

/-!
# Deduction from a call is sound

Every form of a parameter's type is deduced from, and what is deduced adjusts the type to the argument's
just where it is preserved.
-/

namespace Vcx.Template
set_option autoImplicit false
open Vcx.Lib

/-! ### Lists -/

/-- Each argument keeps what is deduced from. -/
abbrev EachKept (ps as : List Arg) : Prop := List.Forall₂ (fun p a => p.kept a = true) ps as

/-- Each parameter of a function keeps what is deduced from. -/
abbrev EachParamKept (ps as : List Param) : Prop := List.Forall₂ (fun p a => kept p.type a.type = true) ps as

/-- The same for arguments: what follows them is read on its own. -/
structure DeducedArgs (values : List String) (ps as : List Arg) (b b' : Binding) : Prop where
  extends_ : Extends b b'
  bindable : Bindable values b'
  spells : ∀ c, Extends b' c → ∀ rest more, spellsArgs (substituteArgs ps c ++ rest) (as ++ more) = true ↔
    EachKept ps as ∧ spellsArgs rest more = true

/-- The same for the parameters of a function, none of which is a pack. -/
structure DeducedParams (values : List String) (ps as : List Param) (b b' : Binding) : Prop where
  extends_ : Extends b b'
  bindable : Bindable values b'
  spells : (∀ p ∈ ps, p.pack = false) → ∀ c, Extends b' c → ∀ rest more,
    spellsParams (substituteParams ps c ++ rest) (as ++ more) = true ↔ EachParamKept ps as ∧ spellsParams rest more = true

theorem qualify_ne_pack (u : Ty) {q : Qual} (some_ : q ≠ 0) (es : List Arg) : u.qualify q ≠ .pack es := by
  intro is
  have kind : u.kind = .pack := by rw [← qualify_kind u q, is]; rfl
  unfold Ty.qualify at is
  rw [if_neg some_, if_neg (by simp [Ty.isReference, Ty.isFunc, kind])] at is
  split at is <;> cases is

/-- Only a pack is put in place as a pack. -/
theorem substitute_ne_pack {t : Ty} {c : Binding} (built : t.built = true)
    (param : ∀ tp, t = .templateParam tp → (substitute t c).built = true) (es : List Arg) : substitute t c ≠ .pack es := by
  by_cases idle : c = [] ∨ isDependent t = false
  · rw [substitute_idle idle]
    exact not_pack_of_built built es
  cases t with
  | templateParam tp => exact not_pack_of_built (param tp rfl) es
  | qualified q t =>
    rw [substitute_qualified built]
    simp only [Ty.built, Bool.and_eq_true, decide_eq_true_eq] at built
    exact qualify_ne_pack _ built.1.1.1.1 es
  | lvalueReference e =>
    rw [substitute_lvalueReference built, Ty.addLValueReference]
    split
    · rename_i void
      intro is
      rw [is] at void
      cases void
    · rintro ⟨⟩
  | rvalueReference e =>
    rw [substitute_rvalueReference built, Ty.addRValueReference]
    split
    · rename_i void
      intro is
      rw [is] at void
      cases void
    · rintro ⟨⟩
  | pack es => cases built
  | valueBound t v => cases built
  | transform op t => cases built
  | array e len inc dep =>
    unfold substitute
    rw [if_neg (by simpa using substitute_active idle)]
    dsimp only
    split <;> rintro ⟨⟩
  | _ =>
    unfold substitute
    rw [if_neg (by simpa using substitute_active idle)]
    rintro ⟨⟩

section lists
variable {values : List String} {b b₁ b' : Binding}

theorem deducedArgs_nil (all : Bindable values b) : DeducedArgs values [] [] b b :=
  ⟨.refl b, all, fun c _ rest more => by simp [substituteArgs]⟩

theorem deducedParams_nil (all : Bindable values b) : DeducedParams values [] [] b b :=
  ⟨.refl b, all, fun _ c _ rest more => by simp [substituteParams]⟩

theorem deducedArgs_type {t t' : Ty} {ps as : List Arg} (first : Deduced values false t t' b b₁) (built : t.built = true)
    (others : DeducedArgs values ps as b₁ b') : DeducedArgs values (.type t :: ps) (.type t' :: as) b b' := by
  refine ⟨first.extends_.trans others.extends_, others.bindable, fun c more rest tail => ?_⟩
  have noPack := substitute_ne_pack built fun tp is => (first.param tp is c (others.extends_.trans more)).1
  have spells := first.spells c (others.extends_.trans more)
  have spells' := others.spells c more rest tail
  simp only [Bool.false_and, Bool.false_or] at spells
  simp only [substituteArgs, List.cons_append, spellsArgs_type noPack, Arg.spells_type, Bool.and_eq_true, spells, spells',
    List.forall₂_cons, Arg.kept, and_assoc]

theorem deducedArgs_value {tp : TemplateParam} {v : Int} {type : Ty} {ps as : List Arg} (bound : bindValue tp.name type v b = some b₁)
    (isValue : values.contains tp.name = true) (built : type.built = true) (all : Bindable values b)
    (others : Bindable values b₁ → DeducedArgs values ps as b₁ b') :
    DeducedArgs values (.type (.templateParam tp) :: ps) (.value v type :: as) b b' := by
  obtain ⟨grows, bindable, type', is⟩ := bindValue_bound bound built isValue all
  have others := others bindable
  refine ⟨grows.trans others.extends_, others.bindable, fun c more rest tail => ?_⟩
  have whole : substitute (.templateParam tp) c = .valueBound type' v := by
    apply substitute_templateParam (more _ _ (others.extends_ _ _ is))
    rintro es ⟨⟩
  have spells' := others.spells c more rest tail
  rw [substituteArgs, whole, List.cons_append, List.cons_append, spellsArgs_type (by rintro es ⟨⟩)]
  simp [Arg.spells, spells', Arg.kept]

theorem deducedArgs_values {v : Int} {type type' : Ty} {ps as : List Arg} (others : DeducedArgs values ps as b b') :
    DeducedArgs values (.value v type :: ps) (.value v type' :: as) b b' := by
  refine ⟨others.extends_, others.bindable, fun c more rest tail => ?_⟩
  have spells' := others.spells c more rest tail
  simp [substituteArgs, spells', Arg.kept]

theorem deducedParams_cons {name packOf : String} {t : Ty} {hasDefault pack : Bool} {p : Param} {ps as : List Param}
    (first : Deduced values false t p.type b b₁) (others : DeducedParams values ps as b₁ b') :
    DeducedParams values (.mk name t hasDefault pack packOf :: ps) (p :: as) b b' := by
  refine ⟨first.extends_.trans others.extends_, others.bindable, fun noPack c more rest tail => ?_⟩
  obtain rfl : pack = false := noPack _ (List.mem_cons_self ..)
  have spells := first.spells c (others.extends_.trans more)
  have spells' := others.spells (fun p mem => noPack p (List.mem_cons_of_mem _ mem)) c more rest tail
  simp only [Bool.false_and, Bool.false_or] at spells
  simp [substituteParams, spellsParams, spells, spells', and_assoc]

end lists

/-! ### Packs -/

/-- Without a pack at the end each argument is kept. -/
theorem keptArgs_plain : ∀ {ps os : List Arg}, lastIsPack ps = false → os.length = ps.length → (keptArgs ps os = true ↔ EachKept ps os) := by
  intro ps
  induction ps with
  | nil =>
    intro os _ length
    obtain rfl := List.length_eq_zero_iff.1 length
    simp [keptArgs]
  | cons p ps ih =>
    intro os noPack length
    cases os with
    | nil => cases length
    | cons o os =>
      have more : (isPackParam p && ps.isEmpty) = false := by
        cases ps with
        | nil => simpa [lastIsPack] using noPack
        | cons _ _ => simp
      have others : lastIsPack ps = false := by
        cases ps with
        | nil => rfl
        | cons _ _ => simpa [lastIsPack] using noPack
      rw [keptArgs, if_neg (by simp [more]), Bool.and_eq_true, ih others (by simpa using length)]
      exact (List.forall₂_cons (R := fun p a => Arg.kept p a = true)).symm

/-- A pack at the end takes what the others leave. -/
theorem keptArgs_last {p : Arg} (isPack : isPackParam p = true) : ∀ {ps os : List Arg}, ps.length ≤ os.length →
    (keptArgs (ps ++ [p]) os = true ↔ EachKept ps (os.take ps.length)) := by
  intro ps
  induction ps with
  | nil =>
    intro os _
    simp [keptArgs, isPack]
  | cons p' ps ih =>
    intro os length
    cases os with
    | nil => cases length
    | cons o os =>
      rw [List.cons_append, keptArgs, if_neg (by simp), Bool.and_eq_true, ih (by simpa using length)]
      simp

theorem keptParams_plain : ∀ {ps os : List Param}, (ps.getLast?.any (·.pack)) = false → os.length = ps.length →
    (keptParams ps os = true ↔ EachParamKept ps os) := by
  intro ps
  induction ps with
  | nil =>
    intro os _ length
    obtain rfl := List.length_eq_zero_iff.1 length
    simp [keptParams]
  | cons p ps ih =>
    intro os noPack length
    obtain ⟨name, t, hasDefault, pack, packOf⟩ := p
    cases os with
    | nil => cases length
    | cons o os =>
      have more : (pack && ps.isEmpty) = false := by
        cases ps with
        | nil => simpa using noPack
        | cons _ _ => simp
      have others : (ps.getLast?.any (·.pack)) = false := by
        cases ps with
        | nil => rfl
        | cons _ _ => simpa using noPack
      rw [keptParams, if_neg (by simp [more]), Bool.and_eq_true, ih others (by simpa using length)]
      constructor
      · rintro ⟨first, others⟩
        exact .cons first others
      · intro all
        cases all with
        | cons first others => exact ⟨first, others⟩

theorem keptParams_last (name : String) (t : Ty) (hasDefault : Bool) (packOf : String) : ∀ {ps os : List Param}, ps.length ≤ os.length →
    (keptParams (ps ++ [.mk name t hasDefault true packOf]) os = true ↔ EachParamKept ps (os.take ps.length)) := by
  intro ps
  induction ps with
  | nil =>
    intro os _
    simp [keptParams]
  | cons p' ps ih =>
    intro os length
    obtain ⟨_, _, _, _, _⟩ := p'
    cases os with
    | nil => cases length
    | cons o os =>
      rw [List.cons_append, keptParams, if_neg (by simp), Bool.and_eq_true, ih (by simpa using length)]
      simp

section packs
variable {values : List String} {b b₁ b' : Binding}

theorem builtElems_types {os : List Param} (built : builtParams os = true) : builtElems (os.map fun p => .type p.type) = true := by
  induction os with
  | nil => rfl
  | cons o os ih =>
    obtain ⟨_, t, _, _, _⟩ := o
    simp only [builtParams, Bool.and_eq_true] at built
    simp [builtElems, built.1, ih built.2]

/-- The parameters of a function, the last of them a pack. -/
theorem deducedParams_packed {tp : TemplateParam} (isPack : tp.isPack = true) {name packOf : String} {hasDefault : Bool}
    {ps os : List Param} (others : DeducedParams values ps (os.take ps.length) b b₁) (plain : ∀ p ∈ ps, p.pack = false)
    (bound : bindRest tp.name ps.length (os.map fun p => .type p.type) b₁ = some b') (built : builtParams os = true)
    (length : ps.length ≤ os.length) :
    Extends b₁ b' ∧ Bindable values b' ∧ ∀ c, Extends b' c →
      (spellsParams (substituteParams (ps ++ [.mk name (.templateParam tp) hasDefault true packOf]) c) os = true ↔
        keptParams (ps ++ [.mk name (.templateParam tp) hasDefault true packOf]) os = true) := by
  obtain ⟨grows, bindable, es, is, esBuilt, equal⟩ :=
    bindRest_bound bound (builtElems_take_drop (builtElems_types built) _).2 others.bindable
  refine ⟨grows, bindable, fun c more => ?_⟩
  rw [← List.map_drop] at equal
  have whole : substituteParams [.mk name (.templateParam tp) hasDefault true packOf] c =
      es.map (expanded name (.templateParam tp) fun s => substitute (.templateParam tp) [(packParamName (.templateParam tp), s)]) := by
    have found : c.lookup (packParamName (.templateParam tp)) = some (.pack es) := by
      simpa [packParamName, isPack] using more _ _ is
    simp only [substituteParams, if_true, found, List.append_nil]
  have spells := others.spells plain c (grows.trans more) (substituteParams [.mk name (.templateParam tp) hasDefault true packOf] c)
    (os.drop ps.length)
  rw [List.take_append_drop] at spells
  rw [substituteParams_append, spells, whole, spellsParams_expanded isPack name esBuilt equal, keptParams_last _ _ _ _ length]
  simp

/-- The arguments of a template-id, the last of them a pack. -/
theorem packed_deduced {tp : TemplateParam} (isPack : tp.isPack = true) {ps os es : List Arg}
    (others : DeducedArgs values ps (os.take ps.length) b b') (is : b'.lookup tp.name = some (.pack es)) (built : builtElems es = true)
    (equal : equalArgs es (os.drop ps.length) = true) (length : ps.length ≤ os.length) {c : Binding} (more : Extends b' c) :
    spellsArgs (substituteArgs (ps ++ [.type (.templateParam tp)]) c) os = true ↔
      keptArgs (ps ++ [.type (.templateParam tp)]) os = true := by
  have whole : substitute (.templateParam tp) c = .pack es := substitute_templateParam (more _ _ is) fun _ _ => isPack
  have spells := others.spells c more [.type (.pack es)] (os.drop ps.length)
  rw [List.take_append_drop] at spells
  rw [substituteArgs_append, substituteArgs, whole, substituteArgs, spells, spellsArgs_packed built equal, keptArgs_last _ length]
  · simp
  · exact isPack

/-- What deducing from the arguments of a template-id, but for a pack that is the last, leaves. -/
abbrev DeducesArgs (values : List String) (as : List Arg) : Prop :=
  ∀ (packed : Bool) ⦃os : List Arg⦄ ⦃b b' : Binding⦄, builtElems os = true → Bindable values b → deduceArgs packed as os b = some b' →
    DeducedArgs values (if packed then as.dropLast else as) os b b'

theorem deduceArgs_length {ps os : List Arg} {b b' : Binding} (deduced : deduceArgs false ps os b = some b') : os.length = ps.length := by
  induction ps generalizing os b with
  | nil =>
    cases os with
    | nil => rfl
    | cons o os =>
      unfold deduceArgs at deduced
      cases deduced
  | cons p ps ih =>
    cases os with
    | nil =>
      unfold deduceArgs at deduced
      cases deduced
    | cons o os =>
      unfold deduceArgs at deduced
      obtain ⟨b₁, -, deduced⟩ := Option.bind_eq_some_iff.1 deduced
      rw [List.length_cons, List.length_cons, ih deduced]

theorem deduceSpecialization_spec {name name' : String} {as os : List Arg} {of_ : TemplateHead} {primary : Option Nat}
    (args : DeducesArgs values as) (deduced : matchSpecialization (fun packed => deduceArgs packed as) name as of_ name' os primary b = some b')
    (built : builtElems os = true) (all : Bindable values b) :
    Extends b b' ∧ Bindable values b' ∧ ∀ c, Extends b' c → (spellsArgs (substituteArgs as c) os = true ↔ keptArgs as os = true) := by
  unfold matchSpecialization at deduced
  obtain ⟨b₁, isTemplate, deduced⟩ := Option.bind_eq_some_iff.1 deduced
  obtain ⟨grows, bindable, -⟩ := matchTemplate_spec isTemplate all
  split at deduced
  · rename_i last
    obtain ⟨ps, tp, rfl, isPack⟩ := lastIsPack_eq last
    split at deduced
    · cases deduced
    · rename_i long
      obtain ⟨b₂, bound, deduced⟩ := Option.bind_eq_some_iff.1 deduced
      simp only [List.getLast?_concat, Option.elim_some, packName, List.length_append, List.length_singleton, Nat.add_sub_cancel,
        Nat.not_lt] at bound deduced long
      obtain ⟨grows', bindable', es, is, esBuilt, equal⟩ := bindRest_bound bound (builtElems_take_drop built _).2 bindable
      have others := args true (builtElems_take_drop built _).1 bindable' deduced
      rw [if_pos rfl, List.dropLast_concat] at others
      refine ⟨grows.trans (grows'.trans others.extends_), others.bindable, fun c more => ?_⟩
      exact packed_deduced isPack others (others.extends_ _ _ is) esBuilt equal long more
  · rename_i plain
    have others := args false built bindable deduced
    rw [if_neg Bool.false_ne_true] at others
    refine ⟨grows.trans others.extends_, others.bindable, fun c more => ?_⟩
    rw [keptArgs_plain (by simpa using plain) (deduceArgs_length deduced)]
    simpa [spellsArgs] using others.spells c more [] []

end packs

/-! ### Template-ids and functions -/

/-- Only the last parameter of a function may be a pack. -/
theorem packless_init {values : List String} {p : Param} {ps : List Param} (forms : deducibleParams values (ps ++ [p]) = true) :
    ∀ q ∈ ps, q.pack = false := by
  induction ps with
  | nil =>
    intro q mem
    cases mem
  | cons q' ps ih =>
    obtain ⟨_, t, _, pack, _⟩ := q'
    simp only [List.cons_append, deducibleParams, Bool.and_eq_true] at forms
    intro q mem
    obtain rfl | mem := List.mem_cons.1 mem
    · simpa using forms.1.1
    · exact ih forms.2 q mem

theorem packless {values : List String} {ps : List Param} (forms : deducibleParams values ps = true)
    (plain : ps.getLast?.any (·.pack) = false) : ∀ q ∈ ps, q.pack = false := by
  obtain rfl | ⟨init, last, rfl⟩ := List.eq_nil_or_concat ps
  · intro q mem
    cases mem
  · intro q mem
    rw [List.concat_eq_append] at forms plain mem
    obtain mem | mem := List.mem_append.1 mem
    · exact packless_init forms q mem
    · obtain rfl := List.mem_singleton.1 mem
      simpa using plain

/-- What deduction leaves of a type of deducible forms. -/
abbrev Deduces (values : List String) (t : Ty) : Prop :=
  ∀ ⦃a : Ty⦄ ⦃b b' : Binding⦄, a.built = true → Bindable values b → deduce t a b = some b' → Deduced values false t a b b'

/-- What deducing from the parameters of a function, but for a pack that is the last, leaves. -/
abbrev DeducesParams (values : List String) (ps : List Param) : Prop :=
  ∀ (packed : Bool) ⦃os : List Param⦄ ⦃b b' : Binding⦄, builtParams os = true → Bindable values b → deduceParams packed ps os b = some b' →
    DeducedParams values (if packed then ps.dropLast else ps) os b b'

theorem deduceParams_length {ps os : List Param} {b b' : Binding} (deduced : deduceParams false ps os b = some b') :
    os.length = ps.length := by
  induction ps generalizing os b with
  | nil =>
    cases os with
    | nil => rfl
    | cons o os =>
      unfold deduceParams at deduced
      cases deduced
  | cons p ps ih =>
    obtain ⟨_, _, _, _, _⟩ := p
    cases os with
    | nil =>
      unfold deduceParams at deduced
      cases deduced
    | cons o os =>
      unfold deduceParams at deduced
      obtain ⟨b₁, -, deduced⟩ := Option.bind_eq_some_iff.1 deduced
      rw [List.length_cons, List.length_cons, ih deduced]

section forms
variable {values : List String}

theorem deduces_specialization {name : String} {as : List Arg} {of_ : TemplateHead} (args : DeducesArgs values as) (noAlias : of_ ≠ .alias)
    (dependent : isDependent (.specialization name as of_) = true) (built : (Ty.specialization name as of_).built = true) :
    Deduces values (.specialization name as of_) := by
  intro a b b' built' all deduced
  have whole := (stripped_spec built').1
  have noSpelling : isAliasSpelling (.specialization name as of_) = false := by
    cases of_ <;> first | rfl | exact absurd rfl noAlias
  unfold deduce at deduced
  rw [if_neg (by simp [dependent])] at deduced
  simp only [noSpelling, Bool.false_eq_true, if_false] at deduced
  split at deduced
  · cases deduced
  split at deduced
  · rename_i name' as' of' is
    rw [is] at whole
    simp only [Ty.built] at whole
    obtain ⟨grows, bindable, reads⟩ := deduceSpecialization_spec args deduced (builtElems_flattenPacks whole) all
    apply deduced_compound (p := .specialization name as of_) rfl dependent built built' grows bindable (by rw [is]; rfl) (by rw [is]; rfl)
    intro same c more
    rw [same] at is
    subst is
    rw [substitute_specialization]
    simp [Ty.spells, Ty.strict, kept, dependent, reads c more]
  · rename_i r name' as' primary pattern is
    rw [is] at whole
    simp only [Ty.built] at whole
    obtain ⟨grows, bindable, reads⟩ := deduceSpecialization_spec args deduced (builtElems_flattenPacks whole) all
    apply deduced_compound (p := .specialization name as of_) rfl dependent built built' grows bindable (by rw [is]; rfl) (by rw [is]; rfl)
    intro same c more
    rw [same] at is
    subst is
    rw [substitute_specialization]
    simp [Ty.spells, Ty.strict, kept, dependent, reads c more]
  · cases deduced

/-- Function types are compared part by part. -/
theorem deduced_func {ret ret' : Ty} {ps ps' : List Param} {var var' : Bool} {q q' : Qual} {r r' : Types.RefQual} {n n' : Bool} {a : Ty}
    {b b₁ b' : Binding} (first : Deduced values false ret ret' b b₁) (grows : Extends b₁ b') (bindable : Bindable values b')
    (params : var = var' → ∀ c, Extends b' c → (spellsParams (substituteParams ps c) ps' = true ↔ keptParams ps ps' = true))
    (dependent : isDependent (.func ret ps var q r n) = true) (built : (Ty.func ret ps var q r n).built = true) (built' : a.built = true)
    (is : a.stripped = .func ret' ps' var' q' r' n') : Deduced values false (.func ret ps var q r n) a b b' := by
  apply deduced_compound (p := .func ret ps var q r n) rfl dependent built built' (first.extends_.trans grows) bindable
    (by rw [is]; rfl) (by rw [is]; rfl)
  intro same c more
  rw [same] at is
  subst is
  have spells := first.spells c (grows.trans more)
  simp only [Bool.false_and, Bool.false_or] at spells
  rw [spells_substitute_func dependent]
  by_cases ellipsis : var = var'
  · simp [Ty.spells, Ty.strict, kept, dependent, spells, params ellipsis c more]
  · simp [Ty.spells, Ty.strict, kept, dependent, ellipsis]

theorem deduces_func {ret : Ty} {ps : List Param} {var : Bool} {q : Qual} {r : Types.RefQual} {n : Bool} (first : Deduces values ret)
    (params : DeducesParams values ps) (forms : deducibleParams values ps = true) (dependent : isDependent (.func ret ps var q r n) = true)
    (built : (Ty.func ret ps var q r n).built = true) : Deduces values (.func ret ps var q r n) := by
  intro a b b' built' all deduced
  have whole := (stripped_spec built').1
  unfold deduce at deduced
  rw [if_neg (by simp [dependent])] at deduced
  dsimp only at deduced
  split at deduced
  · rename_i ret' ps' var' q' r' n' is
    rw [is] at whole
    simp only [Ty.built, Bool.and_eq_true] at whole
    split at deduced
    · -- the pack is what the others leave
      rename_i packed
      split at deduced
      · rename_i tp isLast
        split at deduced
        · cases deduced
        rename_i isPack
        obtain ⟨last, isLast, type⟩ := Option.map_eq_some_iff.1 isLast
        obtain ⟨init, rfl⟩ := List.getLast?_eq_some_iff.1 isLast
        obtain ⟨name, _, hasDefault, pack, packOf⟩ := last
        obtain rfl : _ = Ty.templateParam tp := type
        simp only [packs, List.getLast?_concat, Option.any_some, Param.pack_mk, Bool.and_eq_true, decide_eq_true_eq,
          List.length_append, List.length_singleton, Nat.add_sub_cancel] at packed
        obtain ⟨⟨rfl, long⟩, -⟩ := packed
        simp only [List.length_append, List.length_singleton, Nat.add_sub_cancel] at deduced
        obtain ⟨b₂, deduced, bound⟩ := Option.bind_eq_some_iff.1 deduced
        obtain ⟨b₁, isRet, deduced⟩ := Option.bind_eq_some_iff.1 deduced
        have returns := first whole.1 all isRet
        have others := params true (builtParams_take whole.2 _) returns.bindable deduced
        rw [if_pos rfl, List.dropLast_concat] at others
        obtain ⟨grows, bindable, reads⟩ :=
          deducedParams_packed (by simpa using isPack) others (packless_init forms) bound whole.2 long
        exact deduced_func returns (others.extends_.trans grows) bindable (fun _ => reads) dependent built built' is
      · cases deduced
    · rename_i unpacked
      obtain ⟨b₁, isRet, deduced⟩ := Option.bind_eq_some_iff.1 deduced
      have returns := first whole.1 all isRet
      have others := params false whole.2 returns.bindable deduced
      rw [if_neg Bool.false_ne_true] at others
      apply deduced_func returns others.extends_ others.bindable (fun ellipsis c more => ?_) dependent built built' is
      have noPack : ps.getLast?.any (·.pack) = false := by
        simpa [packs, deduceParams_length deduced, ellipsis] using unpacked
      rw [keptParams_plain noPack (deduceParams_length deduced)]
      simpa [spellsParams] using others.spells (packless forms noPack) c more [] []
  · cases deduced

/-! ### Deducible forms -/

theorem deduces_static {t : Ty} (static : isDependent t = false) : Deduces values t := by
  intro a b b' _ all deduced
  unfold deduce at deduced
  rw [if_pos (by simp [static])] at deduced
  cases deduced
  exact deduced_static static all

theorem deduces_of {t : Ty} (deduces : isDependent t = true → Deduces values t) : Deduces values t := by
  by_cases dependent : isDependent t = true
  · exact deduces dependent
  · exact deduces_static (by simpa using dependent)

theorem deduces_templateParam {tp : TemplateParam} (forms : deducible values (.templateParam tp) = true) :
    Deduces values (.templateParam tp) := by
  intro a b b' built all deduced
  unfold deducible at forms
  unfold deduce at deduced
  rw [if_neg (by simp [isDependent])] at deduced
  dsimp only at deduced
  split at deduced
  · cases deduced
  · rename_i named
    have isType : values.contains tp.name = false := by
      simp only [Bool.or_eq_true, not_or, Bool.not_eq_true, Bool.not_eq_false'] at named
      simpa [isDependent, named.1] using forms
    exact deduced_param deduced isType built all

theorem deduces_pointer {e : Ty} (inner : Deduces values e) (forms : deducible values e = true) (dependent : isDependent e = true)
    (built : (Ty.pointer e).built = true) : Deduces values (.pointer e) := by
  intro a b b' built' all deduced
  have whole := (stripped_spec built').1
  unfold deduce at deduced
  rw [if_neg (by simp [isDependent, dependent])] at deduced
  dsimp only at deduced
  split at deduced
  · rename_i e' is
    rw [is] at whole
    simp only [Ty.built] at whole
    have taken := deduced_takes deduced forms whole all fun deduced => inner whole all deduced
    exact deduced_pointer taken dependent built built' is
  · rename_i e' len inc dep is
    rw [is] at whole
    simp only [Ty.built] at whole
    exact deduced_decayed (inner whole all deduced) dependent built built' is
  · cases deduced

theorem deduces_memberPointer {k e : Ty} (first : Deduces values k) (second : Deduces values e)
    (dependent : isDependent (.memberPointer k e) = true) (built : (Ty.memberPointer k e).built = true) :
    Deduces values (.memberPointer k e) := by
  intro a b b' built' all deduced
  have whole := (stripped_spec built').1
  unfold deduce at deduced
  rw [if_neg (by simp [dependent])] at deduced
  dsimp only at deduced
  split at deduced
  · rename_i k' e' is
    rw [is] at whole
    simp only [Ty.built, Bool.and_eq_true] at whole
    obtain ⟨b₁, isClass, deduced⟩ := Option.bind_eq_some_iff.1 deduced
    have class_ := first whole.1 all isClass
    exact deduced_memberPointer class_ (second whole.2 class_.bindable deduced) dependent built built' is
  · cases deduced

theorem deduces_array {e : Ty} {len : Int} {inc : Bool} {dep : String} (inner : Deduces values e) (forms : deducible values e = true)
    (dependent : isDependent (.array e len inc dep) = true) (isValue : dep ≠ "" → values.contains dep = true)
    (built : (Ty.array e len inc dep).built = true) : Deduces values (.array e len inc dep) := by
  intro a b b' built' all deduced
  have whole := (stripped_spec built').1
  unfold deduce at deduced
  rw [if_neg (by simp [dependent])] at deduced
  dsimp only at deduced
  split at deduced
  · rename_i e' len' inc' dep' is
    rw [is] at whole
    simp only [Ty.built] at whole
    obtain ⟨b₁, length, deduced⟩ := Option.bind_eq_some_iff.1 deduced
    have taken : Bindable values b₁ → Deduced values true e e' b₁ b' := fun bindable =>
      deduced_takes deduced forms whole bindable fun deduced => inner whole bindable deduced
    exact deduced_array length all taken dependent isValue built built' is
  · cases deduced

theorem deduces_lvalueReference {e : Ty} (inner : Deduces values e) (forms : deducible values e = true) (dependent : isDependent e = true)
    (built : (Ty.lvalueReference e).built = true) : Deduces values (.lvalueReference e) := by
  intro a b b' built' all deduced
  have whole := (built_removeReference built').1
  unfold deduce at deduced
  rw [if_neg (by simp [isDependent, dependent])] at deduced
  have taken := deduced_takes deduced forms whole all fun deduced => inner whole all deduced
  exact deduced_lvalueReference taken dependent built built'

theorem deduces_rvalueReference {e : Ty} (inner : Deduces values e) (forms : deducible values e = true) (dependent : isDependent e = true)
    (built : (Ty.rvalueReference e).built = true) : Deduces values (.rvalueReference e) := by
  intro a b b' built' all deduced
  have whole := (built_removeReference built').1
  unfold deduce at deduced
  rw [if_neg (by simp [isDependent, dependent])] at deduced
  have taken := deduced_takes deduced forms whole all fun deduced => inner whole all deduced
  exact deduced_rvalueReference taken dependent built built'

theorem deduces_qualified {q : Qual} {t : Ty} (inner : Deduces values t) (dependent : isDependent t = true)
    (built : (Ty.qualified q t).built = true) : Deduces values (.qualified q t) := by
  intro a b b' built' all deduced
  unfold deduce at deduced
  rw [if_neg (by simp [isDependent, dependent])] at deduced
  exact deduced_qualified (inner (built_unqualify built') all deduced) dependent built built'

theorem deduceArgs_cons {packed : Bool} {p : Arg} {ps os : List Arg} {b b' : Binding} (deduced : deduceArgs packed (p :: ps) os b = some b') :
    (packed = true ∧ ps = [] ∧ os = [] ∧ b' = b) ∨
      (packed && ps.isEmpty) = false ∧ ∃ a os' b₁, os = a :: os' ∧ deduceNested p a b = some b₁ ∧ deduceArgs packed ps os' b₁ = some b' := by
  unfold deduceArgs at deduced
  split at deduced
  · rename_i last
    simp only [Bool.and_eq_true, List.isEmpty_iff] at last
    split at deduced
    · rename_i none
      cases deduced
      exact .inl ⟨last.1, last.2, by simpa using none, rfl⟩
    · cases deduced
  · rename_i more
    cases os with
    | nil => cases deduced
    | cons a os' =>
      obtain ⟨b₁, first, others⟩ := Option.bind_eq_some_iff.1 deduced
      exact .inr ⟨by simpa using more, a, os', b₁, rfl, first, others⟩

theorem deduceParams_cons {packed : Bool} {name packOf : String} {t : Ty} {hasDefault pack : Bool} {ps os : List Param} {b b' : Binding}
    (deduced : deduceParams packed (.mk name t hasDefault pack packOf :: ps) os b = some b') :
    (packed = true ∧ ps = [] ∧ os = [] ∧ b' = b) ∨
      (packed && ps.isEmpty) = false ∧ ∃ a os' b₁, os = a :: os' ∧ deduce t a.type b = some b₁ ∧ deduceParams packed ps os' b₁ = some b' := by
  unfold deduceParams at deduced
  split at deduced
  · rename_i last
    simp only [Bool.and_eq_true, List.isEmpty_iff] at last
    split at deduced
    · rename_i none
      cases deduced
      exact .inl ⟨last.1, last.2, by simpa using none, rfl⟩
    · cases deduced
  · rename_i more
    cases os with
    | nil => cases deduced
    | cons a os' =>
      obtain ⟨b₁, first, others⟩ := Option.bind_eq_some_iff.1 deduced
      exact .inr ⟨by simpa using more, a, os', b₁, rfl, first, others⟩

/-- An argument of a declared template-id is no pack. -/
theorem declaredArgs_cons {t : Ty} {as : List Arg} (built : builtArgs (.type t :: as) = true) (written : declaredArgs (.type t :: as) = true) :
    t.built = true ∧ declared t = true ∧ builtArgs as = true ∧ declaredArgs as = true := by
  obtain ⟨⟨es, rfl, -⟩ | whole, others⟩ := builtArgs_cons built
  · cases written
  · have parts : declared t = true ∧ declaredArgs as = true := by
      cases t with
      | pack es => cases whole
      | _ => simpa [declaredArgs] using written
    exact ⟨whole, parts.1, others, parts.2⟩

mutual

theorem deduce_type : ∀ (t : Ty), t.built = true → deducible values t = true → declared t = true → Deduces values t
  | .templateParam tp, _, forms, _ => deduces_templateParam forms
  | .qualified q t, built, forms, written => by
    apply deduces_of
    intro dependent
    have parts := built
    simp only [Ty.built, Bool.and_eq_true] at parts
    unfold deducible at forms
    unfold declared at written
    rw [dependent] at forms written
    exact deduces_qualified (deduce_type t parts.2 forms written) dependent built
  | .pointer e, built, forms, written => by
    apply deduces_of
    intro dependent
    have parts := built
    simp only [Ty.built] at parts
    unfold deducible at forms
    unfold declared at written
    simp only [dependent, Bool.not_true, Bool.false_or, Bool.and_eq_true] at forms written
    exact deduces_pointer (deduce_type e parts forms written.2) forms dependent built
  | .lvalueReference e, built, forms, written => by
    apply deduces_of
    intro dependent
    have parts := built
    simp only [Ty.built, Bool.and_eq_true] at parts
    unfold deducible at forms
    unfold declared at written
    rw [dependent] at forms written
    exact deduces_lvalueReference (deduce_type e parts.2 forms written) forms dependent built
  | .rvalueReference e, built, forms, written => by
    apply deduces_of
    intro dependent
    have parts := built
    simp only [Ty.built, Bool.and_eq_true] at parts
    unfold deducible at forms
    unfold declared at written
    rw [dependent] at forms written
    exact deduces_rvalueReference (deduce_type e parts.2 forms written) forms dependent built
  | .memberPointer k e, built, forms, written => by
    apply deduces_of
    intro dependent
    have parts := built
    simp only [Ty.built, Bool.and_eq_true] at parts
    unfold deducible at forms
    unfold declared at written
    simp only [dependent, Bool.not_true, Bool.false_or, Bool.and_eq_true] at forms written
    exact deduces_memberPointer (deduce_type k parts.1 forms.1 written.1.1) (deduce_type e parts.2 forms.2 written.2) dependent built
  | .array e len inc dep, built, forms, written => by
    apply deduces_of
    intro dependent
    have parts := built
    simp only [Ty.built] at parts
    unfold deducible at forms
    unfold declared at written
    simp only [dependent, Bool.not_true, Bool.false_or, Bool.and_eq_true, Bool.or_eq_true, decide_eq_true_eq] at forms written
    exact deduces_array (deduce_type e parts forms.2 written.2) forms.2 dependent (fun bound => forms.1.resolve_left bound) built
  | .func ret ps var q r n, built, forms, written => by
    apply deduces_of
    intro dependent
    have parts := built
    simp only [Ty.built, Bool.and_eq_true] at parts
    unfold deducible at forms
    unfold declared at written
    simp only [dependent, Bool.not_true, Bool.false_or, Bool.and_eq_true] at forms written
    exact deduces_func (deduce_type ret parts.1 forms.1 written.1) (deduce_params ps parts.2 forms.2 written.2) forms.2 dependent built
  | .specialization name as of_, built, forms, written => by
    apply deduces_of
    intro dependent
    have parts := built
    simp only [Ty.built] at parts
    unfold deducible at forms
    unfold declared at written
    simp only [dependent, Bool.not_true, Bool.false_or, Bool.and_eq_true, decide_eq_true_eq] at forms written
    exact deduces_specialization (deduce_args as parts forms.2 written) forms.1 dependent built
  | .record r pattern, _, forms, _ | .specialized r _ _ _ pattern, _, forms, _ | .dependent _, _, forms, _ => by
    apply deduces_of
    intro dependent
    unfold deducible at forms
    rw [dependent] at forms
    cases forms
  | .basic _, _, _, _ | .blockPointer _, _, _, _ | .enum _ _, _, _, _ | .interface _, _, _, _ | .templateRef _ _ _, _, _, _ =>
    deduces_static rfl

theorem deduce_args : ∀ (as : List Arg), builtArgs as = true → deducibleArgs values as = true → declaredArgs as = true → DeducesArgs values as
  | [], _, _, _ => by
    intro packed os b b' _ all deduced
    cases os with
    | nil =>
      unfold deduceArgs at deduced
      cases deduced
      cases packed <;> exact deducedArgs_nil all
    | cons o os =>
      unfold deduceArgs at deduced
      cases deduced
  | .value v type :: as, built, forms, written => by
    intro packed os b b' built' all deduced
    simp only [builtArgs, Bool.and_eq_true] at built
    rw [deducibleArgs] at forms
    rw [declaredArgs] at written
    obtain ⟨rfl, rfl, rfl, rfl⟩ | ⟨more, o, os, b₁, rfl, first, others⟩ := deduceArgs_cons deduced
    · exact deducedArgs_nil all
    rw [dropLast_more more]
    unfold deduceNested at first
    cases o with
    | type t' => cases first
    | value v' type' =>
      dsimp only at first
      split at first
      · rename_i same
        cases first
        subst same
        simp only [builtElems, Bool.and_eq_true] at built'
        exact deducedArgs_values (deduce_args as built.2 forms written packed built'.2 all others)
      · cases first
  | .type t :: as, built, forms, written => by
    intro packed os b b' built' all deduced
    simp only [deducibleArgs, Bool.and_eq_true] at forms
    obtain ⟨whole, isWritten, built, written⟩ := declaredArgs_cons built written
    obtain ⟨rfl, rfl, rfl, rfl⟩ | ⟨more, o, os, b₁, rfl, first, others⟩ := deduceArgs_cons deduced
    · exact deducedArgs_nil all
    rw [dropLast_more more]
    unfold deduceNested at first
    cases o with
    | type t' =>
      simp only [builtElems, Bool.and_eq_true] at built'
      have first := deduce_type t whole forms.1 isWritten built'.1 all first
      exact deducedArgs_type first whole (deduce_args as built forms.2 written packed built'.2 first.bindable others)
    | value v type =>
      simp only [builtElems, Bool.and_eq_true] at built'
      dsimp only at first
      split at first
      · rename_i tp
        split at first
        · cases first
        · rename_i isValue
          simp only [Bool.or_eq_true, not_or, Bool.not_eq_true] at isValue
          exact deducedArgs_value first (isValue_of_deducible forms.1 isValue.1) built'.1 all fun bindable =>
            deduce_args as built forms.2 written packed built'.2 bindable others
      · cases first

theorem deduce_params : ∀ (ps : List Param), builtParams ps = true → deducibleParams values ps = true → declaredParams ps = true →
    DeducesParams values ps
  | [], _, _, _ => by
    intro packed os b b' _ all deduced
    cases os with
    | nil =>
      unfold deduceParams at deduced
      cases deduced
      cases packed <;> exact deducedParams_nil all
    | cons o os =>
      unfold deduceParams at deduced
      cases deduced
  | .mk name t hasDefault pack packOf :: ps, built, forms, written => by
    intro packed os b b' built' all deduced
    simp only [builtParams, Bool.and_eq_true] at built
    simp only [deducibleParams, Bool.and_eq_true] at forms
    simp only [declaredParams, Bool.and_eq_true] at written
    obtain ⟨rfl, rfl, rfl, rfl⟩ | ⟨more, o, os, b₁, rfl, first, others⟩ := deduceParams_cons deduced
    · exact deducedParams_nil all
    rw [dropLast_more more]
    obtain ⟨name', t', _, _, _⟩ := o
    simp only [builtParams, Bool.and_eq_true] at built'
    have first := deduce_type t built.1 forms.1.2 written.1 built'.1 all first
    exact deducedParams_cons first (deduce_params ps built.2 forms.2 written.2 packed built'.2 first.bindable others)

end

end forms

end Vcx.Template
