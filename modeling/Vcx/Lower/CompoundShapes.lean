import Mathlib.Tactic.FinCases
import Vcx.Lower.CompoundSound

/-!
# Where compound assignment is not C++'s

What is stored and what C++ has stored depend on few properties of the two types only, whatever the
model: their shapes. So one table over the shapes finds operands for every compound assignment outside
`kept`, and the ones inside it are all that are right.
-/

namespace Vcx.Compound
set_option autoImplicit false
open Vcx.Lib Vcx.Types Vcx.IntExpr
open Vcx.IntConvert (core_sizes)
open Vcx.Constexpr (signed bits lowest highest promote common fits Operand cxxBinary)

variable {m : Model} {a b : Kind} {x y z : Int}

/-! ### Shapes -/

/-- The properties: the width, the sign, the one it is taken to have, and whether it is `bool`. -/
structure Shape where
  width : Nat
  signed : Bool
  seen : Bool
  bool : Bool
  deriving DecidableEq, Repr

def shape (m : Model) (k : Kind) : Shape := ⟨bits m k, signed m k, isSigned k, k = .bool⟩

namespace Shape

def promote (a : Shape) : Nat × Bool := if a.width < 32 then (32, true) else (a.width, a.signed)

/-- The width and sign of the common type: it is unsigned if the wider one is, or either of one width. -/
def common (a b : Shape) : Nat × Bool :=
  let a := a.promote
  let b := b.promote
  (max a.1 b.1, (a.1 < b.1 || a.2) && (b.1 < a.1 || b.2))

def lowest (a : Shape) : Int := if a.signed then -2 ^ (a.width - 1) else 0

def highest (a : Shape) : Int :=
  if a.bool then 1 else if a.signed then 2 ^ (a.width - 1) - 1 else 2 ^ a.width - 1

/-- The C++ value of an operator, by the width and sign of the type it is done in. -/
def value (a : Shape) (op : Token.Kind) (b : Shape) (x y : Int) : Option Int :=
  let (w, s) := common a b
  let (w', s') := promote a
  let x' := wrap s w x
  let y' := wrap s w y
  let checked (v : Int) : Option Int := if s ∧ ¬ InRange true w v then none else some (wrap s w v)
  match op with
  | .add => checked (x' + y')
  | .sub => checked (x' - y')
  | .mul => checked (x' * y')
  | .quo => if y' = 0 then none else checked (x'.tdiv y')
  | .rem => if y' = 0 ∨ s ∧ ¬ InRange true w (x'.tdiv y') then none else some (x'.tmod y')
  | .and => some (wrap s w (x'.land y'))
  | .or => some (wrap s w (x'.lor y'))
  | .xor => some (wrap s w (x'.xor y'))
  | .shl => if y < 0 ∨ w' ≤ y then none else some (wrap s' w' (x * 2 ^ y.toNat))
  | .shr => if y < 0 ∨ w' ≤ y then none else some (x / 2 ^ y.toNat)
  | _ => none

end Shape

theorem promote_shape_table : ∀ c ∈ [true, false], ∀ w ∈ [Kind.int, .uInt, .uShort], ∀ l ∈ [4, 8], ∀ k ∈ intKinds,
    let core := { lp64 with charSigned := c, wCharKind := w, sizeLong := l }
    (bits core (promote core k), signed core (promote core k)) = (shape core k).promote := by
  decide

theorem common_shape_table : ∀ c ∈ [true, false], ∀ w ∈ [Kind.int, .uInt, .uShort], ∀ l ∈ [4, 8],
    ∀ a ∈ intKinds, ∀ b ∈ intKinds,
      let core := { lp64 with charSigned := c, wCharKind := w, sizeLong := l }
      (bits core (common core a b), signed core (common core a b)) = (shape core a).common (shape core b) := by
  -- The cores are checked apart.
  intro c memC w memW l memL
  fin_cases memC <;> fin_cases memW <;> fin_cases memL <;> decide +kernel

/-- The shapes of integer types. -/
def shapes : List Shape :=
  [⟨8, false, false, true⟩, ⟨8, true, true, false⟩, ⟨8, false, false, false⟩, ⟨8, false, true, false⟩,
    ⟨16, true, true, false⟩, ⟨16, false, false, false⟩, ⟨16, false, true, false⟩,
    ⟨32, true, true, false⟩, ⟨32, false, false, false⟩, ⟨32, false, true, false⟩,
    ⟨64, true, true, false⟩, ⟨64, false, false, false⟩]

theorem shapes_table : ∀ c ∈ [true, false], ∀ w ∈ [Kind.int, .uInt, .uShort], ∀ l ∈ [4, 8], ∀ k ∈ intKinds,
    let core := { lp64 with charSigned := c, wCharKind := w, sizeLong := l }
    shape core k ∈ shapes := by
  decide +kernel

theorem shape_core (sizes : m.Sizes) {k : Kind} (int : isInt k = true) : shape m k = shape (core m) k := by
  unfold shape
  rw [bits_core sizes int, signed_core]

theorem shape_mem (sizes : m.Sizes) {k : Kind} (int : isInt k = true) : shape m k ∈ shapes := by
  obtain ⟨c, memC, w, memW, l, memL, eq⟩ := core_eq sizes
  rw [shape_core sizes int, eq]
  exact shapes_table c memC w memW l memL k (mem_intKinds.2 int)

theorem promote_shape (sizes : m.Sizes) {k : Kind} (int : isInt k = true) :
    (bits m (promote m k), signed m (promote m k)) = (shape m k).promote := by
  obtain ⟨c, memC, w, memW, l, memL, eq⟩ := core_eq sizes
  rw [shape_core sizes int, promote_core sizes int, bits_core sizes (promote_int int), signed_core, eq]
  exact promote_shape_table c memC w memW l memL k (mem_intKinds.2 int)

theorem common_shape (sizes : m.Sizes) (intA : isInt a = true) (intB : isInt b = true) :
    (bits m (common m a b), signed m (common m a b)) = (shape m a).common (shape m b) := by
  obtain ⟨c, memC, w, memW, l, memL, eq⟩ := core_eq sizes
  rw [shape_core sizes intA, shape_core sizes intB, common_core sizes intA intB,
    bits_core sizes (common_int (core_sizes sizes) intA intB), signed_core, eq]
  exact common_shape_table c memC w memW l memL a (mem_intKinds.2 intA) b (mem_intKinds.2 intB)

theorem lowest_shape (k : Kind) : lowest m k = (shape m k).lowest := rfl

theorem highest_shape (k : Kind) : highest m k = (shape m k).highest := by
  unfold highest Shape.highest shape
  simp only [decide_eq_true_eq]

theorem bind_guarded {α β : Type} (c : Prop) [Decidable c] (r : Option α) (f : α → Option β) :
    (if c then none else r).bind f = if c then none else r.bind f := by
  split <;> rfl

theorem value_shape (sizes : m.Sizes) {op : Token.Kind} (intA : isInt a = true) (intB : isInt b = true)
    (arithmetic : op ∈ ringOps ∨ isQuotient op = true ∨ isShift op = true) :
    (cxxBinary m op a x b y).bind cxxValue = (shape m a).value op (shape m b) x y := by
  have commonEq := common_shape sizes intA intB
  have promoteEq := promote_shape sizes intA
  have mem : op ∈ [Token.Kind.add, .sub, .mul, .and, .or, .xor, .quo, .rem, .shl, .shr] := by
    simp only [ringOps, isQuotient, isShift, List.mem_cons, List.not_mem_nil, or_false, Bool.or_eq_true, decide_eq_true_eq] at arithmetic ⊢
    tauto
  have checked (v : Int) : (Constexpr.arith m (common m a b) v).bind cxxValue =
      if signed m (common m a b) ∧ ¬ InRange true (bits m (common m a b)) v then none
      else some (wrap (signed m (common m a b)) (bits m (common m a b)) v) := by
    unfold Constexpr.arith
    split <;> rfl
  unfold Shape.value
  rw [← commonEq, ← promoteEq]
  simp only [List.mem_cons, List.not_mem_nil, or_false] at mem
  obtain rfl | rfl | rfl | rfl | rfl | rfl | rfl | rfl | rfl | rfl := mem <;>
    simp only [cxxBinary, bind_guarded, checked, Option.bind_some, cxxValue] <;> rfl

/-- What the code stores. -/
def Shape.stored (a : Shape) (op : Token.Kind) (b : Shape) (x y : Int) : Option Nat :=
  let w := if a.width = 64 then 64 else 32
  let r := wrap b.seen b.width y
  let r := if a.bool then ofBool (r ≠ 0) else wrap a.seen a.width r
  (arithOp op (BitVec.ofInt w (wrap a.seen a.width x)) (.ofInt w r) a.seen).map fun v => v.toNat % 2 ^ a.width

def Shape.fits (a b : Shape) : Bool := b.lowest ≤ a.lowest && a.highest ≤ b.highest

def Shape.signKept (a : Shape) : Bool := a.seen = a.signed

def Shape.operandKept (a b : Shape) : Bool := b.signKept || a.width ≤ b.width

def Shape.kept (a : Shape) (op : Token.Kind) (b : Shape) : Bool :=
  if a.bool then
    op = .mulAssign || op = .orAssign || op = .shrAssign ||
      b.bool && (op = .quoAssign || op = .remAssign || op = .andAssign || op = .xorAssign)
  else match op with
    | .shlAssign => true
    | .shrAssign => a.signKept
    | .quoAssign | .remAssign =>
      b.bool || a.signKept && a.operandKept b && ((a.common b).1 = a.width && (a.common b).2 = a.signed || b.fits a)
    | _ => a.operandKept b

/-- Operands whose result is stored wrong where any are. -/
def Shape.stray (a : Shape) (op : Token.Kind) (b : Shape) : Int × Int :=
  if a.bool then
    match op with
    | .addAssign | .shlAssign => (1, 1)
    | .subAssign => (0, 1)
    | _ => (1, 2)
  else match op with
    | .mulAssign => (1, 2 ^ b.width - 1)
    | .andAssign => (2 ^ b.width, 2 ^ b.width - 1)
    | .shrAssign => (2 ^ a.width - 1, 1)
    | .quoAssign | .remAssign =>
      if !a.signKept then (2 ^ a.width - 1, 2)
      else if !a.operandKept b then (if a.signed && op = .remAssign then 1 else 2 ^ b.width - 1, 2 ^ b.width - 1)
      else if a.width < b.width then (1, 2 ^ a.width)
      else if a.width < 32 then (1, if b.signed then -1 else 2 ^ a.width - 1)
      else (-1, 2)
    | _ => (0, 2 ^ b.width - 1)

def Shape.straysAt (a : Shape) (op : Token.Kind) (b : Shape) (v : Int × Int) : Bool :=
  a.lowest ≤ v.1 && v.1 ≤ a.highest && b.lowest ≤ v.2 && v.2 ≤ b.highest &&
    match compoundOp op with
    | none => false
    | some op =>
      match a.value op b v.1 v.2 with
      | none => false
      | some z => a.stored op b v.1 v.2 ≠ some ((if a.bool then ofBool (z ≠ 0) else z) % (2 ^ a.width : Nat)).toNat

theorem stray_table : ∀ a ∈ shapes, ∀ b ∈ shapes, ∀ op ∈ operators,
    a.kept op b = false → a.straysAt op b (a.stray op b) = true := by
  intro a memA
  fin_cases memA <;> decide +kernel

theorem kept_shape (sizes : m.Sizes) (op : Token.Kind) (intA : isInt a = true) (intB : isInt b = true) :
    kept m op a b = (shape m a).kept op (shape m b) := by
  have commonEq := common_shape sizes intA intB
  have width : bits m (common m a b) = ((shape m a).common (shape m b)).1 := congrArg Prod.fst commonEq
  have sign : signed m (common m a b) = ((shape m a).common (shape m b)).2 := congrArg Prod.snd commonEq
  unfold kept Shape.kept operandKept Shape.operandKept quotientKept fits Shape.fits signKept Shape.signKept
  simp only [width, sign, lowest_shape, highest_shape]
  by_cases bool : a = .bool
  · simp only [shape, bool, if_true, decide_true]
  · simp only [shape, bool, if_false, decide_false, Bool.false_eq_true]
    cases op <;> rfl

/-! #### Where all is right -/

/-- Any two values may be in memory. -/
theorem exists_memory (sizes : m.Sizes) (intA : isInt a = true) (opA : Operand m a x) (opB : Operand m b y) :
    ∃ mem : Memory, Holds m a mem 0 x ∧ Holds m b mem 8 y := by
  have small : storeBytes m a ≤ 8 := by
    obtain ⟨n, -⟩ | ⟨n, -⟩ := storeBytes_cases sizes intA <;> omega
  let mem : Memory := Memory.store (fun _ => 0) (storeBytes m a) 0 (.ofInt _ x)
  refine ⟨mem.store (storeBytes m b) 8 (.ofInt _ y), ⟨opA, ?_⟩, ⟨opB, Memory.load_store ..⟩⟩
  have apart : (mem.store (storeBytes m b) 8 (.ofInt _ y)).load (storeBytes m a) 0 = mem.load (storeBytes m a) 0 :=
    Memory.load_congr fun p _ high => Memory.store_apart _ _ (.inl (by omega))
  rw [apart]
  exact Memory.load_store ..

theorem arith_none {op : Token.Kind}
    (result : arithOp op (.ofInt (regBits m a) x) (.ofInt (regBits m a) y) (isSigned a) = none) :
    arith op (held m a x) (held m a y) a = none := by
  revert result
  unfold regBits held
  cases inI64 m a
  · intro result
    exact congrArg (Option.map Reg.i32) result
  · intro result
    exact congrArg (Option.map Reg.i64) result

theorem low_of_right (sizes : m.Sizes) {op op' : Token.Kind} (intA : isInt a = true) (intB : isInt b = true)
    (operator : compoundOp op = some op') (right : Right m op a b) (opA : Operand m a x) (opB : Operand m b y)
    (value : cxxAssign m op a b x y = some z) :
    ∃ u, arithOp op' (.ofInt (regBits m a) (loaded m a x)) (.ofInt (regBits m a) (arrives m a b y)) (isSigned a) = some u ∧
      (u.toNat : Int) % 2 ^ bits m a = z % 2 ^ bits m a := by
  obtain ⟨mem, holdsX, holdsY⟩ := exists_memory sizes intA opA opB
  obtain ⟨v, result⟩ := right (fun mem => some (0, mem)) (fun mem => some (8, mem)) mem mem mem 0 8 x y z rfl rfl holdsX
    holdsY value
  rw [assign_eq rfl rfl, loadAt_holds sizes intA holdsX, loadAt_holds sizes intB holdsY, stored, operator, Option.bind_some,
    convert_load sizes intA intB opB, load_wrap sizes intA] at result
  cases code : arithOp op' (.ofInt (regBits m a) (loaded m a x)) (.ofInt (regBits m a) (arrives m a b y)) (isSigned a) with
  | none =>
    rw [arith_none code] at result
    cases result
  | some u =>
    refine ⟨u, rfl, ?_⟩
    have word : u = .ofInt _ u.toInt := by simp
    rw [word] at code
    rw [arith_held code, Option.map_some, convert_self sizes intA, Option.map_some, storeAt_fits sizes intA (fits_held a _),
      lowBits_held sizes intA, Option.some.injEq, Prod.mk.injEq] at result
    have bytes := congrArg (fun mem : Memory => mem.load (storeBytes m a) 0) result.2
    simp only [Memory.load_store, ofInt_eq_iff, storeBytes_bits sizes intA] at bytes
    have unsigned : u.toInt % 2 ^ regBits m a = u.toNat % 2 ^ regBits m a := by
      rw [BitVec.toInt_eq_toNat_bmod]
      exact_mod_cast Int.bmod_emod
    rw [← bytes, wrap_emod, emod_of_le (bits_le_regBits sizes intA) unsigned]

theorem stored_shape (sizes : m.Sizes) (intA : isInt a = true) (op : Token.Kind) :
    (shape m a).stored op (shape m b) x y =
      (arithOp op (.ofInt (regBits m a) (loaded m a x)) (.ofInt (regBits m a) (arrives m a b y)) (isSigned a)).map
        fun v => v.toNat % 2 ^ bits m a := by
  have width : regBits m a = if bits m a = 64 then 64 else 32 := by
    have large := inI64_iff sizes intA
    unfold regBits
    split <;> split <;> tauto
  rw [width]
  unfold Shape.stored arrives converted loaded shape
  simp only [decide_eq_true_eq]

theorem kept_of_right (sizes : m.Sizes) {op : Token.Kind} (mem : op ∈ operators) (intA : isInt a = true)
    (intB : isInt b = true) (right : Right m op a b) : kept m op a b = true := by
  by_contra lost
  rw [kept_shape sizes op intA intB] at lost
  have strays := stray_table _ (shape_mem sizes intA) _ (shape_mem sizes intB) op mem (Bool.eq_false_iff.2 lost)
  generalize (shape m a).stray op (shape m b) = operands at strays
  obtain ⟨x, y⟩ := operands
  obtain ⟨op', operator, arithmetic⟩ : ∃ op', compoundOp op = some op' ∧
      (op' ∈ ringOps ∨ isQuotient op' = true ∨ isShift op' = true) := by
    simp only [operators, List.mem_cons, List.not_mem_nil, or_false] at mem
    obtain rfl | rfl | rfl | rfl | rfl | rfl | rfl | rfl | rfl | rfl := mem <;> exact ⟨_, rfl, by decide⟩
  simp only [Shape.straysAt, operator, Bool.and_eq_true, decide_eq_true_eq, and_assoc] at strays
  obtain ⟨lowX, highX, lowY, highY, wrong⟩ := strays
  rw [← highest_shape] at highX highY
  have opX : Operand m a x := ⟨isInteger_of_isInt intA, lowX, highX⟩
  have opY : Operand m b y := ⟨isInteger_of_isInt intB, lowY, highY⟩
  rw [← value_shape sizes intA intB arithmetic] at wrong
  split at wrong
  · cases wrong
  · rename_i v value
    have assigned : cxxAssign m op a b x y = some (cxxConvert m a v) := by
      rw [cxxAssign, operator, Option.bind_some, value, Option.map_some]
    obtain ⟨u, code, same⟩ := low_of_right sizes intA intB operator right opX opY assigned
    have low : (if (shape m a).bool = true then ofBool (v ≠ 0) else v) % ((2 ^ (shape m a).width : Nat) : Int) =
        u.toNat % 2 ^ bits m a := by
      rw [same]
      by_cases bool : a = .bool
      · simp [shape, bool, cxxConvert]
      · rw [cxxConvert_emod bool]
        simp [shape, bool]
    refine of_decide_eq_true wrong ?_
    rw [stored_shape sizes intA, code, Option.map_some, low]
    norm_cast

end Vcx.Compound
