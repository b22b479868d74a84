import Vcx.Lib.Segments
import Vcx.Types.Microsoft.Graph

/-!
# Implicit construction and destruction

What `defaultConstruct` and the implicit end of a destructor do to the subobjects of an object, and
what C++ says they do. A class is built by its own default constructor where it has one; else part by
part. The order in which `defaultConstruct` builds virtual bases is a map's.
-/

namespace Vcx.Structors
set_option autoImplicit false
open Vcx.Lib Vcx.Types

/-! ### Programs -/

/-- A program, with what the lowering asks of its classes. -/
structure Program where
  h : Hierarchy
  /-- a constructor that is not defaulted -/
  ownCtor : Nat → Bool
  /-- one of them, no template, that takes no arguments or defaults -/
  defaultCtor : Nat → Bool
  ownCtor_of_default : ∀ r, defaultCtor r = true → ownCtor r = true
  /-- the virtual bases that its mem-initializer-list initializes, other than by default -/
  memInits : Nat → Nat → Bool
  /-- a destructor that is not defaulted -/
  ownDtor : Nat → Bool
  /-- `HasVirtualDtor` -/
  virtualDtor : Nat → Bool
  /-- `VTables` has one -/
  tables : Nat → Bool
  itanium : Bool

variable (p : Program)

def Program.bases (r : Nat) : List BaseSpec := (p.h.record r).bases

def Program.fields (r : Nat) : List Field := (p.h.record r).fields

def Program.isUnion (r : Nat) : Bool := (p.h.record r).tag = .union

/-- A virtual base of a complete object that the constructor's mem-initializer-list initializes. -/
def Program.initializes (r v : Nat) : Bool := p.defaultCtor r && p.memInits r v

/-- The class of a base that is not virtual. -/
def Program.plainBase (r i : Nat) : Option Nat := (p.bases r)[i]?.bind (·.plain)

/-- A field with a default member initializer: `MemberInits` goes by names. -/
def hasDefault (f : Field) : Bool := f.hasInit && f.name ≠ ""

def needsConstructionBody (self : Nat → Bool) (r : Nat) : Bool :=
  p.ownCtor r || p.tables r || (p.bases r).any (fun b => b.cls.any self) ||
    (p.fields r).any fun f => f.hasInit || f.type.recordElem.any self

/-- `needsConstruction` -/
def needsConstruction : Nat → Bool := fix (needsConstructionBody p) false

def needsDestructorBody (self : Nat → Bool) (r : Nat) : Bool :=
  p.ownDtor r || (p.itanium && p.virtualDtor r) || (p.bases r).any (fun b => b.cls.any self) ||
    (p.fields r).any fun f => f.type.recordElem.any self

/-- `needsDestructor` -/
def needsDestructor : Nat → Bool := fix (needsDestructorBody p) false

/-! ### Events -/

/-- A step from an object to a part of it. A field is one element, or those of its arrays. -/
inductive Step
  | vbase (c : Nat)
  | base (i : Nat)
  | field (i k : Nat)
  deriving DecidableEq, Repr

inductive Act
  | ctor | vptr | init | dtor
  deriving DecidableEq, Repr

/-- Something done to the part of an object that a path leads to. -/
structure Event where
  path : List Step
  act : Act
  deriving DecidableEq, Repr

/-- What is done to a part is done to the whole. -/
def under (s : Step) (es : List Event) : List Event := es.map fun e => { e with path := s :: e.path }

/-- The part an event is about: the object itself, or the first step to it. -/
def Event.label (e : Event) : Option Step := e.path.head?

/-- The elements a field is built or destroyed as: an initialized one is whole. -/
def fieldSteps (count : Field → Nat) (r : Nat) : List (Option Step) :=
  (List.range (p.fields r).length).flatMap fun i =>
    (List.range ((p.fields r)[i]?.elim 0 count)).map fun k => some (.field i k)

def baseSteps (r : Nat) : List (Option Step) := (List.range (p.bases r).length).map fun i => some (.base i)

def vbaseSteps (r : Nat) : List (Option Step) := (virtualBases p.h r).map fun v => some (.vbase v)

/-! ### Construction -/

/-- How many elements `defaultMembers` initializes of a field. -/
def builtCount (f : Field) : Nat := if hasDefault f then 1 else f.type.elemCount

/-- The parts of an object in the order they are built: the bases, the table pointer, the members. -/
def builtSteps (r : Nat) : List (Option Step) := baseSteps p r ++ none :: fieldSteps p builtCount r

/-- What is done to a part, `self` being construction, of a complete object or a base. -/
def builtPart (self : Nat → Bool → List (List Event)) (r : Nat) : Option Step → List (List Event)
  | none => [if p.tables r then [⟨[], .vptr⟩] else []]
  | some (.vbase v) => (self v false).map (under (.vbase v))
  | some (.base i) =>
    match p.plainBase r i with
    | some c => (self c false).map (under (.base i))
    | none => [[]]
  | some (.field i k) =>
    match (p.fields r)[i]? with
    | none => [[]]
    | some f =>
      if hasDefault f then [[⟨[.field i k], .init⟩]]
      else match f.type.recordElem with
        | some c => if needsConstruction p c then (self c true).map (under (.field i k)) else [[]]
        | none => [[]]

/-- `defaultConstructIn` past the virtual bases. -/
def constructOwn (self : Nat → Bool → List (List Event)) (r : Nat) : List (List Event) :=
  if p.defaultCtor r then [[⟨[], .ctor⟩]] else seqAll ((builtSteps p r).map (builtPart p self r))

def constructBody (self : Nat → Bool → List (List Event)) (r : Nat) (complete : Bool) : List (List Event) :=
  if complete then
    (anyOrder (vbaseSteps p r) (builtPart p self r)).flatMap fun es => (constructOwn p self r).map (es ++ ·)
  else constructOwn p self r

/-- `defaultConstructIn`: what it may do, the virtual bases coming in any order. -/
def construct : Nat → Bool → List (List Event) := fix (constructBody p) fun _ => [[]]

/-! ### Destruction -/

/-- The parts of an object in the order they are destroyed. -/
def destroyedSteps (r : Nat) : List (Option Step) :=
  none :: (baseSteps p r ++ fieldSteps p (·.type.elemCount) r).reverse

/-- What is done to a part: `self` is a class's destructor. -/
def destroyedPart (self : Nat → List Event) (r : Nat) : Option Step → List Event
  | none => if p.ownDtor r then [⟨[], .dtor⟩] else []
  | some (.vbase _) => []
  | some (.base i) =>
    match p.plainBase r i with
    | some c => if needsDestructor p c then under (.base i) (self c) else []
    | none => []
  | some (.field i k) =>
    match (p.fields r)[i]?.bind (·.type.recordElem) with
    | some c => if needsDestructor p c then under (.field i k) (self c) else []
    | none => []

def destroyBody (self : Nat → List Event) (r : Nat) : List Event :=
  (destroyedSteps p r).flatMap (destroyedPart p self r)

/-- What a class's destructor does: its own body, where it has one, and `destroyMembersAndBases`. -/
def destroy : Nat → List Event := fix (destroyBody p) []

def rejectsBody (self : Nat → Bool) (r : Nat) : Bool :=
  needsDestructor p r && ((p.itanium && !(virtualBases p.h r).isEmpty) ||
    (p.bases r).any (fun b => b.plain.any self) || (p.fields r).any fun f => f.type.recordElem.any self)

/-- A class with virtual bases has no destructor under the Itanium ABI: `structorVariant` reports an
error for it, and for what is destroyed with it. -/
def rejects : Nat → Bool := fix (rejectsBody p) false

/-! ### C++ -/

/-- What is done to a part: to a virtual base what the mem-initializer says where there is one, and of a
union only to the member with an initializer. -/
def cxxBuiltPart (self : Nat → Bool → List Event) (r : Nat) : Option Step → List Event
  | none => if p.tables r then [⟨[], .vptr⟩] else []
  | some (.vbase v) => if p.initializes r v then [⟨[.vbase v], .init⟩] else under (.vbase v) (self v false)
  | some (.base i) =>
    match p.plainBase r i with
    | some c => under (.base i) (self c false)
    | none => []
  | some (.field i k) =>
    match (p.fields r)[i]? with
    | none => []
    | some f =>
      if hasDefault f then [⟨[.field i k], .init⟩]
      else if p.isUnion r then []
      else match f.type.recordElem with
        | some c => under (.field i k) (self c true)
        | none => []

def cxxConstructOwn (self : Nat → Bool → List Event) (r : Nat) : List Event :=
  if p.defaultCtor r then [⟨[], .ctor⟩] else (builtSteps p r).flatMap (cxxBuiltPart p self r)

def cxxConstructBody (self : Nat → Bool → List Event) (r : Nat) (complete : Bool) : List Event :=
  (if complete then (vbaseSteps p r).flatMap (cxxBuiltPart p self r) else []) ++ cxxConstructOwn p self r

/-- Default-initialization: of a complete object, the virtual bases first, depth first, left to right. -/
def cxxConstruct : Nat → Bool → List Event := fix (cxxConstructBody p) fun _ => []

def cxxDestroyedPart (self : Nat → Bool → List Event) (r : Nat) : Option Step → List Event
  | none => if p.ownDtor r then [⟨[], .dtor⟩] else []
  | some (.vbase v) => under (.vbase v) (self v false)
  | some (.base i) =>
    match p.plainBase r i with
    | some c => under (.base i) (self c false)
    | none => []
  | some (.field i k) =>
    if p.isUnion r then []
    else match (p.fields r)[i]?.bind (·.type.recordElem) with
      | some c => under (.field i k) (self c true)
      | none => []

def cxxDestroyBody (self : Nat → Bool → List Event) (r : Nat) (complete : Bool) : List Event :=
  (destroyedSteps p r ++ if complete then (vbaseSteps p r).reverse else []).flatMap (cxxDestroyedPart p self r)

/-- Destruction: of a complete object, the virtual bases last, in reverse. -/
def cxxDestroy : Nat → Bool → List Event := fix (cxxDestroyBody p) fun _ => []

/-! ### Where they agree -/

def buildsPart (self : Nat → Bool → Bool) (r : Nat) : Option Step → Bool
  | none => p.tables r
  | some (.vbase v) => p.initializes r v || self v false
  | some (.base i) => (p.plainBase r i).any (self · false)
  | some (.field i _) => (p.fields r)[i]?.any fun f =>
    hasDefault f || (!p.isUnion r && f.type.recordElem.any (self · true))

def buildsBody (self : Nat → Bool → Bool) (r : Nat) (complete : Bool) : Bool :=
  (complete && (vbaseSteps p r).any (buildsPart p self r)) ||
    (p.defaultCtor r || (builtSteps p r).any (buildsPart p self r))

/-- Default-initialization does something. -/
def builds : Nat → Bool → Bool := fix (buildsBody p) fun _ => false

def constructKeptPart (self : Nat → Bool → Bool) (built : Nat → Bool → Bool) (r : Nat) : Option Step → Bool
  | none => true
  | some (.vbase v) => !p.initializes r v && self v false
  | some (.base i) => (p.plainBase r i).all (self · false)
  | some (.field i _) => (p.fields r)[i]?.all fun f =>
    hasDefault f || f.type.recordElem.all fun c =>
      !needsConstruction p c || (self c true && !(p.isUnion r && built c true))

def constructKeptBody (self : Nat → Bool → Bool) (r : Nat) (complete : Bool) : Bool :=
  (!complete || ((vbaseSteps p r).all (constructKeptPart p self (builds p) r) &&
      ((virtualBases p.h r).filter (builds p · false)).length ≤ 1)) &&
    (p.defaultCtor r || (builtSteps p r).all (constructKeptPart p self (builds p) r))

/-- The classes whose complete objects have one virtual base at most that is built by anything, and none by a
mem-initializer, and unions no member to build but the one with an initializer; so have their bases and members. -/
def constructKept : Nat → Bool → Bool := fix (constructKeptBody p) fun _ => true

def runsPart (self : Nat → Bool) (r : Nat) : Option Step → Bool
  | none => p.ownDtor r
  | some (.vbase _) => false
  | some (.base i) => (p.plainBase r i).any self
  | some (.field i _) => ((p.fields r)[i]?.bind (·.type.recordElem)).any self

def runsBody (self : Nat → Bool) (r : Nat) : Bool := (destroyedSteps p r).any (runsPart p self r)

/-- A destructor is run by a class's destructor, its own or a part's. -/
def runs : Nat → Bool := fix (runsBody p) false

def endsPart (self : Nat → Bool → Bool) (r : Nat) : Option Step → Bool
  | none => p.ownDtor r
  | some (.vbase v) => self v false
  | some (.base i) => (p.plainBase r i).any (self · false)
  | some (.field i _) => !p.isUnion r && ((p.fields r)[i]?.bind (·.type.recordElem)).any (self · true)

def endsBody (self : Nat → Bool → Bool) (r : Nat) (complete : Bool) : Bool :=
  (destroyedSteps p r ++ if complete then (vbaseSteps p r).reverse else []).any (endsPart p self r)

/-- Destruction does something. -/
def ends : Nat → Bool → Bool := fix (endsBody p) fun _ => false

def destroyKeptPart (self : Nat → Bool → Bool) (r : Nat) : Option Step → Bool
  | none => true
  | some (.vbase v) => !ends p v false
  | some (.base i) => (p.plainBase r i).all fun c => !needsDestructor p c || self c false
  | some (.field i _) => ((p.fields r)[i]?.bind (·.type.recordElem)).all fun c =>
    !needsDestructor p c || if p.isUnion r then !runs p c else self c true

def destroyKeptBody (self : Nat → Bool → Bool) (r : Nat) (complete : Bool) : Bool :=
  (destroyedSteps p r ++ if complete then (vbaseSteps p r).reverse else []).all (destroyKeptPart p self r)

/-- The classes whose complete objects have no virtual base to destroy, and unions no member; so have
their bases and members. -/
def destroyKept : Nat → Bool → Bool := fix (destroyKeptBody p) fun _ => true

end Vcx.Structors
