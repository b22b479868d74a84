import Mathlib.Logic.Function.Basic
import Vcx.Constexpr.IntBinary

/-!
# Objects of the constant evaluator

`constexpr/object.go`. A value of Go is copied with what it points at shared: the elements of an array value are a
slice and the members of a record value are maps, and every copy of the value reads and writes the same ones. They are
in a heap, and a value has their address. The tag of a union is in the record value, and not shared.
-/

namespace Vcx.ConstEval
set_option autoImplicit false
open Vcx.Lib Vcx.Types
open Vcx.Constexpr (IntValue newBigInt PathStep Error isSigned)

/-- A `Value`; a value that is missing is Go's `nil`. A floating value is its bits, and an object is its number. -/
inductive Value where
  | void
  | int (v : IntValue)
  | float (bits : BitVec 64) (typ : Option Ty)
  | bool (b : Bool)
  | nullptr
  | pointer (target : Option Nat) (offset : Int) (path : List PathStep) (typ : Option Ty)
  | reference (target : Option Nat) (path : List PathStep) (typ : Option Ty)
  | array (elements : Nat) (elemType typ : Option Ty)
  | record (recordType : Option Nat) (maps : Nat) (activeUnionField : String)
  | string (val : List UInt8) (typ : Ty)

/-- The maps of a record value. -/
structure Maps where
  fields : List (String × Option Value)
  bases : List (String × Option Value)

/-- What values share: the slice and the maps at each address. Those that have been made are below the next one. -/
structure Heap where
  elements : Nat → List (Option Value)
  members : Nat → Maps
  nextElements : Nat
  nextMembers : Nat

def Heap.empty : Heap := ⟨fun _ => [], fun _ => ⟨[], []⟩, 0, 0⟩

def Heap.setElement (H : Heap) (a i : Nat) (v : Option Value) : Heap :=
  { H with elements := Function.update H.elements a ((H.elements a).set i v) }

/-- A map's entry; a missing key and a nil value are read alike. -/
def entry (m : List (String × Option Value)) (name : String) : Option Value := (m.lookup name).join

def setEntry (m : List (String × Option Value)) (name : String) (v : Option Value) : List (String × Option Value) :=
  match m with
  | [] => [(name, v)]
  | (k, x) :: rest => if k = name then (k, v) :: rest else (k, x) :: setEntry rest name v

def Heap.setField (H : Heap) (r : Nat) (name : String) (v : Option Value) : Heap :=
  { H with members := Function.update H.members r { H.members r with fields := setEntry (H.members r).fields name v } }

def Heap.setBase (H : Heap) (r : Nat) (name : String) (v : Option Value) : Heap :=
  { H with members := Function.update H.members r { H.members r with bases := setEntry (H.members r).bases name v } }

/-- An `Object`: its number is its place among the objects. -/
structure Object where
  name : String
  typ : Option Ty
  val : Option Value
  isConst : Bool
  isAlive : Bool

/-- `NewObject`. -/
def newObject (name : String) (typ : Option Ty) (val : Option Value) (isConst : Bool) : Object :=
  { name, typ, val, isConst, isAlive := true }

/-! ### Errors -/

/-- `%T` of a value. -/
def goType : Option Value → String
  | none => "<nil>"
  | some .void => "constexpr.VoidValue"
  | some (.int _) => "constexpr.IntValue"
  | some (.float ..) => "constexpr.FloatValue"
  | some (.bool _) => "constexpr.BoolValue"
  | some .nullptr => "constexpr.NullptrValue"
  | some (.pointer ..) => "constexpr.PointerValue"
  | some (.reference ..) => "constexpr.ReferenceValue"
  | some (.array ..) => "constexpr.ArrayValue"
  | some (.record ..) => "constexpr.RecordValue"
  | some (.string ..) => "constexpr.StringValue"

/-- `%q` of a name, which has nothing to escape. -/
def quoted (name : String) : String := "\"" ++ name ++ "\""

/-- An index or an offset that is not below a length. -/
def outOfBounds (what : String) (i : Int) (len : Nat) : Error :=
  .arrayOutOfBounds (what ++ " " ++ toString i ++ " out of bounds [0, " ++ toString len ++ ")")

def notAlive (o : Object) : Error := .danglingPointer ("object " ++ quoted o.name ++ " is no longer alive")

/-! ### Reading -/

/-- The record is a union. -/
def isUnion (h : Hierarchy) (recordType : Option Nat) : Bool :=
  match recordType with
  | some r => (h.record r).tag = .union
  | none => false

/-- The byte of a string literal at an index, the null at its end among them. -/
def charAt (s : List UInt8) (i : Nat) : Int := (s.getD i 0).toNat

/-- An element of a string literal as a path reads it: a signed `char`. -/
def charElement (s : List UInt8) (i : Nat) : Value :=
  .int { val := charAt s i, bitWidth := 8, isSigned := true, typ := some (.basic .char) }

/-- One step of a path. -/
def readStep (h : Hierarchy) (H : Heap) (cur : Option Value) : PathStep → Except Error (Option Value)
  | .index i =>
    match cur with
    | some (.string s _) =>
      if i < 0 ∨ (s.length : Int) < i then .error (outOfBounds "index" i (s.length + 1))
      else .ok (some (charElement s i.toNat))
    | some (.array a _ _) =>
      if i < 0 ∨ ((H.elements a).length : Int) ≤ i then .error (outOfBounds "index" i (H.elements a).length)
      else .ok ((H.elements a).getD i.toNat none)
    | _ => .error (.ub ("index into non-array " ++ goType cur))
  | .field name =>
    match cur with
    | some (.record t r active) =>
      if isUnion h t ∧ active ≠ "" ∧ active ≠ name then
        .error (.inactiveUnionMember ("union field " ++ quoted name ++ " accessed while " ++ quoted active ++ " is active"))
      else
        match entry (H.members r).fields name with
        | some v => .ok (some v)
        | none => .error (.uninitializedMemory ("field " ++ quoted name ++ " uninitialized"))
    | _ => .error (.ub ("field access on non-record " ++ goType cur))
  | .base name =>
    match cur with
    | some (.record _ r _) =>
      match entry (H.members r).bases name with
      | some v => .ok (some v)
      | none => .error (.ub ("base class " ++ quoted name ++ " not found or uninitialized"))
    | _ => .error (.ub ("base class access on non-record " ++ goType cur))

/-- The loop over the path. -/
def readPath (h : Hierarchy) (H : Heap) : Option Value → List PathStep → Except Error (Option Value)
  | cur, [] => .ok cur
  | cur, step :: rest => (readStep h H cur step).bind fun next => readPath h H next rest

/-- The element at an offset. An element of a string is a `char` here, and a nil element is no error. -/
def readOffset (m : Model) (h : Hierarchy) (H : Heap) (cur : Option Value) (offset : Int) : Except Error (Option Value) :=
  match cur with
  | some (.array a _ _) =>
    if offset < 0 ∨ ((H.elements a).length : Int) ≤ offset then .error (outOfBounds "offset" offset (H.elements a).length)
    else .ok ((H.elements a).getD offset.toNat none)
  | some (.string s _) =>
    if offset < 0 ∨ (s.length : Int) < offset then
      .error (.arrayOutOfBounds ("string offset " ++ toString offset ++ " out of bounds [0, " ++ toString s.length ++ "]"))
    else .ok (some (.int (newBigInt m h (charAt s offset.toNat) (some (.basic .char)))))
  | _ => .error (.ub ("non-zero offset " ++ toString offset ++ " on scalar value"))

/-- `Read`. The model of a `NewInt` in it is `LP64`, whatever the target's. -/
def Object.read (h : Hierarchy) (H : Heap) (o : Object) (path : List PathStep) (offset : Int) :
    Except Error (Option Value) :=
  if !o.isAlive then .error (notAlive o)
  else if o.val.isNone then .error (.uninitializedMemory ("object " ++ quoted o.name ++ " has no value"))
  else (readPath h H o.val path).bind fun cur =>
    if offset ≠ 0 then readOffset lp64 h H cur offset
    else if cur.isNone then .error (.uninitializedMemory "subobject at path uninitialized")
    else .ok cur

/-! ### Writing -/

/-- `updateSubobject`: the value that takes the place of `cur`, and the heap. What it stores in a slice or a map is
seen by every value that shares it. -/
def updateSubobject (h : Hierarchy) (H : Heap) (cur : Option Value) (path : List PathStep) (offset : Int)
    (newVal : Option Value) : Except Error (Option Value) × Heap :=
  match path with
  | [] =>
    if offset ≠ 0 then
      match cur with
      | some (.array a _ _) =>
        if offset < 0 ∨ ((H.elements a).length : Int) ≤ offset then
          (.error (outOfBounds "offset" offset (H.elements a).length), H)
        else (.ok cur, H.setElement a offset.toNat newVal)
      | _ => (.error (.ub "non-zero offset on non-array"), H)
    else (.ok newVal, H)
  | .index i :: rest =>
    match cur with
    | some (.array a _ _) =>
      if i < 0 ∨ ((H.elements a).length : Int) ≤ i then (.error (outOfBounds "index" i (H.elements a).length), H)
      else
        match updateSubobject h H ((H.elements a).getD i.toNat none) rest offset newVal with
        | (.error e, H') => (.error e, H')
        | (.ok updatedElem, H') => (.ok cur, H'.setElement a i.toNat updatedElem)
    | _ => (.error (.ub ("index step on non-array " ++ goType cur)), H)
  | .field name :: rest =>
    match cur with
    | some (.record t r active) =>
      match updateSubobject h H (entry (H.members r).fields name) rest offset newVal with
      | (.error e, H') => (.error e, H')
      | (.ok updatedField, H') =>
        (.ok (some (.record t r (if isUnion h t then name else active))), H'.setField r name updatedField)
    | _ => (.error (.ub ("field step on non-record " ++ goType cur)), H)
  | .base name :: rest =>
    match cur with
    | some (.record _ r _) =>
      match updateSubobject h H (entry (H.members r).bases name) rest offset newVal with
      | (.error e, H') => (.error e, H')
      | (.ok updatedBase, H') => (.ok cur, H'.setBase r name updatedBase)
    | _ => (.error (.ub ("base step on non-record " ++ goType cur)), H)

/-- `Write`: the object and the heap after it, also when it fails. -/
def Object.write (h : Hierarchy) (H : Heap) (o : Object) (path : List PathStep) (offset : Int) (val : Option Value) :
    Except Error Unit × Object × Heap :=
  if !o.isAlive then (.error (notAlive o), o, H)
  else if o.isConst ∧ path = [] ∧ offset = 0 ∧ o.val.isSome then
    (.error (.constMutation ("cannot modify const object " ++ quoted o.name)), o, H)
  else if path = [] ∧ offset = 0 then (.ok (), { o with val }, H)
  else
    match updateSubobject h H o.val path offset val with
    | (.error e, H') => (.error e, o, H')
    | (.ok newVal, H') => (.ok (), { o with val := newVal }, H')

/-- Pointer arithmetic in `evalBinaryOp`: the offset is advanced, and the path stays. -/
def advance (offset k : Int) : Int := wrap true 64 (offset + k)

end Vcx.ConstEval
