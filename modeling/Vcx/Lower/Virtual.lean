import Vcx.Types.Itanium.VTable
import Vcx.Types.Microsoft.VTable

/-!
# Virtual calls

`isVirtualMember` and `vslot` of `lower/virtual.go`: whether a member call goes through a
table, and which slot of which table it reads. The first goes by the function's name alone
and the second by its name and its parameters, while an overload may differ from its siblings
in no more than the qualifiers behind them. `Overrides` is the rule both stand in for: name,
parameters, qualifiers and reference qualifier.
-/

namespace Vcx.Lower.Virtual
set_option autoImplicit false
open Vcx.Lib Vcx.Types

/-- `FuncSymbol`, as far as it says which member function a call names. Sema marks a function
virtual when it is declared so or found to override one. -/
structure FuncSymbol where
  symName : String
  inClass : Nat
  funcType : Option Func
  virtual : Bool := false
  deriving Repr

section

variable (h : Hierarchy)

/-- `isVirtualMember` at one class. The search of a base is for a function that is not marked. -/
def isVirtualMemberBody (symName : String) (self : Nat → Bool → Bool) (r : Nat) (virtual : Bool) : Bool :=
  virtual || (h.record r).methods.any (fun m => m.name == symName && m.virtual) ||
    (h.record r).bases.any fun b => match b.cls with
      | none => false
      | some br => self br false

/-- `isVirtualMember`. -/
def isVirtualMember (fn : FuncSymbol) : Bool :=
  fix (isVirtualMemberBody h fn.symName) (fun _ => false) fn.inClass fn.virtual

/-- The name a function's slot goes by. -/
def FuncSymbol.slotName (fn : FuncSymbol) : String := virtualNameOf fn.symName (h.record fn.inClass)

/-- `sameParams`. -/
def sameParams (a b : Func) : Bool := Ty.equalAll a.params b.params

/-- What `vslot` asks of a slot. -/
def suits (fn : FuncSymbol) (s : VSlot) : Bool :=
  s.name == fn.slotName h && match s.signature, fn.funcType with
    | some a, some b => sameParams a b
    | _, _ => true

/-- `VTables`. -/
def vtables (m : Model) (r : Nat) : List VTable :=
  if m.abi.isItanium then vtablesItanium m h (layoutInfo m h) r else vtablesMicrosoft m h (layoutInfo m h) r

/-- The search of `vslot`: the first slot that suits, and the table it is in. -/
def vslotSearch (m : Model) (fn : FuncSymbol) : Option (VTable × Nat) :=
  (vtables h m fn.inClass).findSome? fun table => (table.slots.findIdx? (suits h fn)).map fun i => (table, i)

/-- `vslot`: the offset of that table in the object, and the slot's index in it. -/
def vslot (m : Model) (fn : FuncSymbol) : Option (Nat × Nat) :=
  (vslotSearch h m fn).map fun (table, i) => (table.offset, i)

/-! ### Overriding -/

/-- The function overrides a virtual function of a base. -/
def Overrides (fn : FuncSymbol) : Prop :=
  ∃ base c, h.Base fn.inClass base ∧ h.Derives base c ∧ ∃ m ∈ (h.record c).methods,
    m.virtual = true ∧ virtualName m (h.record c) = fn.slotName h ∧ sameSignature m.func fn.funcType = true

/-- The slot is the one the function introduces, or the one of a function it overrides. -/
def Fills (fn : FuncSymbol) (s : VSlot) : Prop :=
  s.name = fn.slotName h ∧ (s.signature = none ∨ fn.funcType = none ∨ sameSignature s.signature fn.funcType = true)

/-- A call of `fn` is taken for virtual when it is, and reads `fn`'s own slot. -/
structure Dispatched (m : Model) (fn : FuncSymbol) : Prop where
  virtual : isVirtualMember h fn = true ↔ fn.virtual = true ∨ Overrides h fn
  slot : fn.virtual = true ∨ Overrides h fn → ∃ table i s,
    vslotSearch h m fn = some (table, i) ∧ table.slots[i]? = some s ∧ Fills h fn s

/-! ### Overloads that get in the way -/

/-- Some function of that very name, in the class or in a base of it, is virtual. -/
def Namesake (fn : FuncSymbol) : Prop :=
  ∃ c, h.Derives fn.inClass c ∧ ∃ m ∈ (h.record c).methods, m.name = fn.symName ∧ m.virtual = true

/-- The slot of an overload that has `fn`'s parameters, and differs in what stands behind them. -/
def Shadows (fn : FuncSymbol) (s : VSlot) : Prop :=
  s.name = fn.slotName h ∧ ∃ a b, s.signature = some a ∧ fn.funcType = some b ∧ sameParams a b = true ∧
    (a.variadic ≠ b.variadic ∨ a.quals ≠ b.quals ∨ a.refQual ≠ b.refQual)

/-- The slots of a group of tables in the order of the search. -/
def places (tables : List VTable) : List (VTable × Nat × VSlot) :=
  tables.flatMap fun table => table.slots.zipIdx.map fun (s, i) => (table, i, s)

/-- No overload gets in the way of `fn`: where it is not marked it has a virtual namesake exactly
when it overrides one, and in the tables its own slot comes before those of other overloads. -/
structure Distinct (m : Model) (fn : FuncSymbol) : Prop where
  namesake : fn.virtual = false → (Namesake h fn ↔ Overrides h fn)
  first : fn.virtual = true ∨ Overrides h fn → ∃ before own after,
    places (vtables h m fn.inClass) = before ++ own :: after ∧ Fills h fn own.2.2 ∧
      ∀ e ∈ before, ¬ Shadows h fn e.2.2

end

section

variable {h : Hierarchy} {m : Model} {fn : FuncSymbol}

/-- `isVirtualMember` goes by the mark, and by the name in the class and its bases. -/
theorem isVirtualMember_iff : isVirtualMember h fn = true ↔ fn.virtual = true ∨ Namesake h fn := by
  obtain ⟨name, r, func, marked⟩ := fn
  have body : ∀ r virtual, fix (isVirtualMemberBody h name) (fun _ => false) r virtual =
      isVirtualMemberBody h name (fix (isVirtualMemberBody h name) fun _ => false) r virtual := by
    intro r virtual
    refine congrFun (fix_unfold fun f g agree => ?_) virtual
    funext v
    unfold isVirtualMemberBody
    congr 1
    rw [Bool.eq_iff_iff, List.any_eq_true, List.any_eq_true]
    refine exists_congr fun b => and_congr_right fun mem => ?_
    cases cls : b.cls with
    | none => rfl
    | some c => simp only [agree c (h.base_lt r b mem c cls)]
  suffices all : ∀ r virtual, fix (isVirtualMemberBody h name) (fun _ => false) r virtual = true ↔
      virtual = true ∨ ∃ c, h.Derives r c ∧ ∃ m ∈ (h.record c).methods, m.name = name ∧ m.virtual = true from
    all r marked
  intro r
  induction r using Nat.strongRecOn with
  | ind r ih =>
    intro virtual
    rw [body]
    simp only [isVirtualMemberBody, Bool.or_eq_true, List.any_eq_true, Bool.and_eq_true, beq_iff_eq, or_assoc]
    refine or_congr_right ⟨?_, ?_⟩
    · rintro (⟨m, mem, is⟩ | ⟨b, mem, found⟩)
      · exact ⟨r, .refl, m, mem, is⟩
      · cases cls : b.cls with
        | none => simp [cls] at found
        | some d =>
          have step : h.Base r d := ⟨b, mem, cls⟩
          simp only [cls, ih d step.lt, Bool.false_eq_true, false_or] at found
          obtain ⟨c, path, is⟩ := found
          exact ⟨c, .head step path, is⟩
    · rintro ⟨c, path, is⟩
      rcases path.cases_base with rfl | ⟨d, step, rest⟩
      · exact .inl is
      · obtain ⟨b, mem, cls⟩ := step
        refine .inr ⟨b, mem, ?_⟩
        simp only [cls, ih d (Hierarchy.Base.lt ⟨b, mem, cls⟩), Bool.false_eq_true, false_or]
        exact ⟨c, rest, is⟩

/-- A slot suits when `fn` fills it, or when an overload of the same parameters does. -/
theorem suits_iff {s : VSlot} : suits h fn s = true ↔ Fills h fn s ∨ Shadows h fn s := by
  unfold suits Fills Shadows
  rw [Bool.and_eq_true, beq_iff_eq, ← and_or_left]
  refine and_congr_right fun _ => ?_
  cases s.signature with
  | none => simp
  | some a =>
    cases fn.funcType with
    | none => simp
    | some b =>
      simp only [sameSignature, sameParams, reduceCtorEq, false_or, Option.some.injEq, Bool.and_eq_true, beq_iff_eq,
        exists_and_left, exists_eq_left']
      tauto

theorem slot_of_mem_places {tables : List VTable} {e : VTable × Nat × VSlot} (mem : e ∈ places tables) :
    e.1.slots[e.2.1]? = some e.2.2 := by
  simp only [places, List.mem_flatMap, List.mem_map] at mem
  obtain ⟨table, -, ⟨s, i⟩, mem, rfl⟩ := mem
  exact List.mem_zipIdx_iff_getElem?.1 mem

/-- The two loops are one search through the slots in order. -/
theorem vslotSearch_eq : vslotSearch h m fn =
    ((places (vtables h m fn.inClass)).find? fun e => suits h fn e.2.2).map fun e => (e.1, e.2.1) := by
  simp only [vslotSearch, places, List.find?_flatMap, List.map_findSome?, List.find?_map]
  congr 1
  funext table
  rw [List.findIdx?_eq_fst_find?_zipIdx]
  simp [Function.comp_def]

theorem vslotSearch_fills : (∃ table i s, vslotSearch h m fn = some (table, i) ∧ table.slots[i]? = some s ∧ Fills h fn s) ↔
    ∃ before own after, places (vtables h m fn.inClass) = before ++ own :: after ∧ Fills h fn own.2.2 ∧
      ∀ e ∈ before, ¬ Shadows h fn e.2.2 := by
  rw [vslotSearch_eq]
  constructor
  · rintro ⟨table, i, s, found, at_, fills⟩
    obtain ⟨own, first, eq⟩ := Option.map_eq_some_iff.1 found
    obtain ⟨-, before, after, split_, none_⟩ := List.find?_eq_some_iff_append.1 first
    have here := slot_of_mem_places (List.mem_of_find?_eq_some first)
    simp only [Prod.mk.injEq] at eq
    obtain ⟨rfl, rfl⟩ := eq
    obtain rfl := Option.some.inj (here.symm.trans at_)
    refine ⟨before, own, after, split_, fills, fun e mem shadows => ?_⟩
    simpa [suits_iff.2 (.inr shadows)] using none_ e mem
  · rintro ⟨before, own, after, split_, fills, clear⟩
    -- the first slot that suits is `own`, or stands before it and is filled too
    obtain ⟨e, first, fills⟩ : ∃ e, (places (vtables h m fn.inClass)).find? (fun e => suits h fn e.2.2) = some e ∧
        Fills h fn e.2.2 := by
      have suit : (own :: after).find? (fun e => suits h fn e.2.2) = some own :=
        List.find?_cons_of_pos (suits_iff.2 (.inl fills))
      rw [split_, List.find?_append, suit]
      cases early : before.find? fun e => suits h fn e.2.2 with
      | none => exact ⟨own, rfl, fills⟩
      | some e =>
        have suit := List.find?_some early
        exact ⟨e, rfl, (suits_iff.1 suit).resolve_right (clear e (List.mem_of_find?_eq_some early))⟩
    exact ⟨e.1, e.2.1, e.2.2, by rw [first]; rfl, slot_of_mem_places (List.mem_of_find?_eq_some first), fills⟩

/-- **A call goes to the function it names exactly when no overload gets in the way.** -/
theorem dispatched_iff : Dispatched h m fn ↔ Distinct h m fn := by
  constructor
  · rintro ⟨virtual, slot⟩
    refine ⟨fun unmarked => ?_, fun is => vslotSearch_fills.1 (slot is)⟩
    simpa [isVirtualMember_iff, unmarked] using virtual
  · rintro ⟨namesake, first⟩
    refine ⟨?_, fun is => vslotSearch_fills.2 (first is)⟩
    rw [isVirtualMember_iff]
    cases marked : fn.virtual with
    | true => simp
    | false => simp [namesake marked]

end

/-- `struct S { virtual void f() const; void f(); };`. -/
def overloaded : Hierarchy := .ofRecords
  [{ name := "S"
     methods :=
      [{ name := "f", func := some { ret := .basic .void, params := [], quals := { const := true } }, virtual := true },
       { name := "f", func := some { ret := .basic .void, params := [] } }] }]
  (by decide)

/-- `s.f()` on an object that is not const. -/
def plainCall : FuncSymbol :=
  { symName := "f", inClass := 0, funcType := some { ret := .basic .void, params := [] } }

/-- A function that is not virtual is called through the slot of its const overload. -/
theorem sibling_called : ¬ ∀ (h : Hierarchy) (m : Model) (fn : FuncSymbol), Dispatched h m fn := by
  intro all
  have virtual := (all overloaded llp64 plainCall).virtual.1 (by decide)
  rcases virtual with marked | ⟨base, c, ⟨b, mem, -⟩, -⟩
  · exact absurd marked (by decide)
  · exact absurd mem (by simp [overloaded, plainCall, Hierarchy.ofRecords])

end Vcx.Lower.Virtual
