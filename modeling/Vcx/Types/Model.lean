import Vcx.Types.Type

/-!
# Target data models

`types/model.go`: the sizes and alignments of a target's fundamental types and the C++ ABI
its classes follow. A unit is compiled with the model `modelForTarget` names for its
architecture and system, or with `forDevice` of one in a device pass; `Supported` is that
set, and what the layout relies on about sizes is proved of it here once.
-/

namespace Vcx.Types
set_option autoImplicit false

/-- The C++ ABI kinds. -/
inductive CXXABI where
  | itaniumGeneric | itaniumAArch64 | itaniumAppleARM64 | microsoft
  deriving DecidableEq, Repr

def CXXABI.isMicrosoft (a : CXXABI) : Bool := a == .microsoft

def CXXABI.isItanium (a : CXXABI) : Bool := a != .microsoft

/-- Whether tail padding is reused unless the class is a POD in C++11's sense. -/
def CXXABI.tailPaddingPOD11 (a : CXXABI) : Bool := a == .itaniumAppleARM64

/-- The part of a `Model` that layout and lowering read. -/
structure Model where
  charSigned : Bool
  wCharKind : Kind
  sizeShort : Nat
  sizeInt : Nat
  sizeLong : Nat
  sizeLongLong : Nat
  sizePtr : Nat
  sizeFloat : Nat
  sizeDouble : Nat
  sizeLongDouble : Nat
  alignLongDouble : Nat
  msBitfields : Bool
  abi : CXXABI
  deriving DecidableEq, Repr

/-- x86-64 and aarch64 Linux and macOS. -/
def lp64 : Model where
  charSigned := true
  wCharKind := .int
  sizeShort := 2
  sizeInt := 4
  sizeLong := 8
  sizeLongLong := 8
  sizePtr := 8
  sizeFloat := 4
  sizeDouble := 8
  sizeLongDouble := 16
  alignLongDouble := 16
  msBitfields := false
  abi := .itaniumGeneric

/-- A device pass: the host's sizes, `long double` a `double`, the Itanium ABI. -/
def forDevice (host : Model) : Model :=
  { host with sizeLongDouble := 8, alignLongDouble := 8, abi := .itaniumGeneric }

/-- x86-64 Windows. -/
def llp64 : Model where
  charSigned := true
  wCharKind := .uShort
  sizeShort := 2
  sizeInt := 4
  sizeLong := 4
  sizeLongLong := 8
  sizePtr := 8
  sizeFloat := 4
  sizeDouble := 8
  sizeLongDouble := 8
  alignLongDouble := 8
  msBitfields := true
  abi := .microsoft

/-- 32-bit x86 ELF. -/
def ilp32 : Model where
  charSigned := true
  wCharKind := .int
  sizeShort := 2
  sizeInt := 4
  sizeLong := 4
  sizeLongLong := 8
  sizePtr := 4
  sizeFloat := 4
  sizeDouble := 8
  sizeLongDouble := 12
  alignLongDouble := 4
  msBitfields := false
  abi := .itaniumGeneric

/-- `ModelForTarget`. -/
def modelForTarget (arch os : String) : Model :=
  if arch = "nvptx64" ∨ arch = "amdgcn" ∨ arch = "air64" then forDevice lp64
  else if os = "windows" then llp64
  else if arch = "i386" ∨ arch = "386" then ilp32
  else if arch = "arm64" ∨ arch = "aarch64" then
    if os = "linux" ∨ os = "android" then
      { lp64 with abi := .itaniumAArch64, charSigned := false, wCharKind := .uInt }
    else if os = "macos" ∨ os = "darwin" then
      { lp64 with abi := .itaniumAppleARM64, sizeLongDouble := 8, alignLongDouble := 8 }
    else { lp64 with abi := .itaniumAArch64 }
  else lp64

/-- The models units are compiled with: a target's, or the device pass of one. -/
def Model.Supported (m : Model) : Prop :=
  ∃ arch os, m = modelForTarget arch os ∨ m = forDevice (modelForTarget arch os)

theorem lp64_supported : lp64.Supported :=
  ⟨"x86_64", "linux", .inl (by decide)⟩

theorem llp64_supported : llp64.Supported :=
  ⟨"x86_64", "windows", .inl (by decide)⟩

/-- `basicSize` of every kind but `wchar_t`, which is another kind's. -/
def Model.plainSize (m : Model) : Kind → Option Nat
  | .bool | .char | .sChar | .uChar | .char8 => some 1
  | .char16 | .short | .uShort => some m.sizeShort
  | .char32 => some 4
  | .int | .uInt => some m.sizeInt
  | .long | .uLong => some m.sizeLong
  | .longLong | .uLongLong => some m.sizeLongLong
  | .int128 | .uInt128 => some 16
  | .float16 => some 2
  | .float => some m.sizeFloat
  | .double => some m.sizeDouble
  | .longDouble => some m.sizeLongDouble
  | .nullptr => some m.sizePtr
  | .void | .invalid | .auto | .decltypeAuto | .wChar => none

/-- `basicSize`. -/
def Model.basicSize (m : Model) (k : Kind) : Option Nat :=
  if k = .wChar then m.plainSize m.wCharKind else m.plainSize k

/-- The alignment `Alignof` gives a fundamental type. -/
def Model.basicAlign (m : Model) (k : Kind) : Option Nat :=
  if k = .longDouble then some m.alignLongDouble else m.basicSize k

/-- The finitely many supported models, by the properties the layout relies on. -/
structure Model.Sizes (m : Model) : Prop where
  ptr : m.sizePtr = 4 ∨ m.sizePtr = 8
  short : m.sizeShort = 2
  int : m.sizeInt = 4
  long : m.sizeLong = 4 ∨ m.sizeLong = 8
  longLong : m.sizeLongLong = 8
  float : m.sizeFloat = 4
  double : m.sizeDouble = 8
  longDouble : m.sizeLongDouble = 8 ∨ m.sizeLongDouble = 12 ∨ m.sizeLongDouble = 16
  longDoubleAlign : m.alignLongDouble = 4 ∨ m.alignLongDouble = 8 ∨ m.alignLongDouble = 16
  wChar : m.wCharKind = .int ∨ m.wCharKind = .uInt ∨ m.wCharKind = .uShort
  ms : m.abi = .microsoft → m.msBitfields = true

theorem Model.Sizes.forDevice {m : Model} (h : m.Sizes) : (forDevice m).Sizes where
  ptr := h.ptr
  short := h.short
  int := h.int
  long := h.long
  longLong := h.longLong
  float := h.float
  double := h.double
  longDouble := .inl rfl
  longDoubleAlign := .inr (.inl rfl)
  wChar := h.wChar
  ms := fun e => by simp [Vcx.Types.forDevice] at e

theorem modelForTarget_sizes (arch os : String) : (modelForTarget arch os).Sizes := by
  have generic : lp64.Sizes := by constructor <;> decide
  unfold modelForTarget
  split
  · exact generic.forDevice
  split
  · constructor <;> decide
  split
  · constructor <;> decide
  split
  · split
    · constructor <;> decide
    split
    · constructor <;> decide
    · constructor <;> decide
  · exact generic

theorem Model.Supported.sizes {m : Model} (h : m.Supported) : m.Sizes := by
  obtain ⟨arch, os, rfl | rfl⟩ := h
  · exact modelForTarget_sizes arch os
  · exact (modelForTarget_sizes arch os).forDevice

theorem Model.Sizes.ptr_pos {m : Model} (h : m.Sizes) : 0 < m.sizePtr := by
  have := h.ptr
  omega

/-- Every known size of a fundamental type is positive. -/
theorem Model.Sizes.plainSize_pos {m : Model} (h : m.Sizes) {k : Kind} {n : Nat}
    (size : m.plainSize k = some n) : 0 < n := by
  have := h.ptr; have := h.short; have := h.int; have := h.long
  have := h.longLong; have := h.float; have := h.double; have := h.longDouble
  cases k <;> simp only [Model.plainSize, Option.some.injEq, reduceCtorEq] at size <;> omega

theorem Model.Sizes.basicSize_pos {m : Model} (h : m.Sizes) {k : Kind} {n : Nat}
    (size : m.basicSize k = some n) : 0 < n := by
  unfold Model.basicSize at size
  split at size <;> exact h.plainSize_pos size

theorem Model.Sizes.basicAlign_pos {m : Model} (h : m.Sizes) {k : Kind} {n : Nat}
    (align : m.basicAlign k = some n) : 0 < n := by
  have := h.longDoubleAlign
  unfold Model.basicAlign at align
  split at align
  · cases align; omega
  · exact h.basicSize_pos align

end Vcx.Types
