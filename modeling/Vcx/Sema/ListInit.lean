import Vcx.Sema.Conversion

/-!
# Brace elision

`sema/listinit.go`: `brace` puts back the braces a program leaves out of the list that
initializes an aggregate. The functions share a cursor into the items; here it is the items
that are left. They call each other through subaggregates and loop over elements, so they
count down a bound on the depth of their calls and loops, and have no answer when it is
reached (`brace_terminates` says that it need not be). An item is what `braceItem` and
`initializesWhole` look at of an expression; the positions of the lists put in are left out.

What a list stands for by the language's rules is `Braced`.
-/

namespace Vcx.ListInit
set_option autoImplicit false
open Vcx.Lib Vcx.Types
open Vcx.Sema (isBaseOf)

/-- The classes of a program, with the bases whose constructors they inherit. Nothing a class is derived from has
the class in it. -/
structure Classes where
  h : Hierarchy
  inheritedCtors : Nat → List Nat
  base_below : ∀ r, ∀ b ∈ (h.record r).bases, ∀ d, b.type.recordElem = some d → d < r

/-- What an item of a list is: a braced list, a designated initializer, a string literal, or another
expression, of a class or not, whose type may depend on template parameters. -/
inductive Kind where
  | list | designated | string
  | value (cls : Option Nat) (dependent : Bool)
  deriving DecidableEq, Repr

/-- An item: the `id`th expression of the program. -/
structure Item where
  id : Nat
  kind : Kind
  deriving DecidableEq, Repr

/-- An item of a list that is returned: one of the program, or a list `braceInto` made. -/
inductive Node where
  | given (item : Item)
  | put (nodes : List Node)
  deriving Repr

/-- The program's items in a node. -/
def Node.items : Node → List Item
  | .given item => [item]
  | .put nodes => nodes.flatMap Node.items

variable (c : Classes)

/-- `hasUserConstructor`. -/
def hasUserConstructor : Nat → Bool :=
  fix (fun self r => ((c.h.record r).methods.any fun f => f.name == (c.h.record r).name && !f.defaulted) ||
    (c.inheritedCtors r).any self) false

/-- `isAggregateType`. -/
def isAggregateType (t : Ty) : Bool :=
  match t.unqualify with
  | .array .. => true
  | .record r => !hasUserConstructor c r
  | _ => false

/-- `isCharacterType`. -/
def isCharacterType (t : Ty) : Bool :=
  match t.unqualify with
  | .basic k => [Types.Kind.char, .sChar, .uChar, .wChar, .char8, .char16, .char32].contains k
  | _ => false

/-- `initializesWhole`. -/
def initializesWhole (item : Item) (t : Ty) : Bool :=
  match t.unqualify, item.kind with
  | .array elem _ _, .string => isCharacterType elem
  | .array .., _ => false
  | _, .value _ true => true
  | .record want, .value (some have_) false => have_ == want || isBaseOf c.h (.record want) (.record have_)
  | _, _ => false

/-- `aggregateFields`: the bases, as fields without a name, and the fields. -/
def aggregateFields (r : Nat) : List Field :=
  (c.h.record r).bases.map (fun b => { name := "", type := b.type }) ++ (c.h.record r).fields

/-- Their types. -/
def fieldTypes (r : Nat) : List Ty := (aggregateFields c r).map Field.type

/-- Whether `braceItem` takes an item as it is. -/
def takenWhole (item : Item) (t : Ty) : Bool :=
  match item.kind with
  | .list | .designated => true
  | _ => !isAggregateType c t || initializesWhole c item t

/-- What is made of some items, those that are left, and whether braces were put back. -/
abbrev Made (α : Type) : Type := Option (α × List Item × Bool)

mutual

/-- `braceInto`. -/
def braceInto : Nat → Ty → List Item → Made (List Node)
  | 0, _, _ => none
  | fuel + 1, t, items =>
    match t.unqualify with
    | .array elem len incomplete => braceElements fuel elem (if incomplete then none else some len) items
    | .record r => braceFields fuel (fieldTypes c r) items
    | _ => some ([], items, false)

/-- Its loop over the elements of an array, of which so many are to come. -/
def braceElements : Nat → Ty → Option Nat → List Item → Made (List Node)
  | 0, _, _, _ => none
  | _ + 1, _, _, [] => some ([], [], false)
  | _ + 1, _, some 0, items => some ([], items, false)
  | fuel + 1, elem, bound, items =>
    (braceItem fuel elem items).bind fun (node, rest, elided) =>
      -- an element that took no items
      if rest.length = items.length then some ([node], rest, elided)
      else (braceElements fuel elem (bound.map (· - 1)) rest).map fun (nodes, rest', elided') =>
        (node :: nodes, rest', elided || elided')

/-- Its loop over the fields of a class. -/
def braceFields : Nat → List Ty → List Item → Made (List Node)
  | 0, _, _ => none
  | _ + 1, [], items => some ([], items, false)
  | _ + 1, _, [] => some ([], [], false)
  | fuel + 1, t :: ts, items =>
    (braceItem fuel t items).bind fun (node, rest, elided) =>
      (braceFields fuel ts rest).map fun (nodes, rest', elided') => (node :: nodes, rest', elided || elided')

/-- `braceItem`, which is called when there is an item. -/
def braceItem : Nat → Ty → List Item → Made Node
  | 0, _, _ => none
  | _ + 1, _, [] => none
  | fuel + 1, t, item :: rest =>
    if takenWhole c item t then some (.given item, rest, false)
    else (braceInto fuel t (item :: rest)).map fun (nodes, rest', _) => (.put nodes, rest', true)

end

/-- `brace`. -/
def brace (fuel : Nat) (target : Ty) (items : List Item) : Option (List Node) :=
  if isAggregateType c target then
    (braceInto c fuel target items).map fun (nodes, rest, elided) =>
      if elided then nodes ++ rest.map .given else items.map .given
  else some (items.map .given)

/-! ### The rules of the language -/

/-- What is to be initialized: one element of an aggregate, the elements of an array of which so many are
left, or the elements of some types. -/
inductive Todo where
  | elem (t : Ty)
  | array (elem : Ty) (bound : Option Nat)
  | each (ts : List Ty)

/-- The elements of an aggregate, with those of a class given. -/
def todoOf (E : Nat → List Ty) (t : Ty) : Todo :=
  match t.unqualify with
  | .array elem len incomplete => .array elem (if incomplete then none else some len)
  | .record r => .each (E r)
  | _ => .each []

/-- `Braced E todo items nodes rest`: of the items, `nodes` are for what is to be initialized, and `rest` is left,
where a class has the elements `E`. An element that the next item does not initialize by itself takes as many items
as it has elements. -/
inductive Braced (E : Nat → List Ty) : Todo → List Item → List Node → List Item → Prop where
  | whole (t : Ty) (item : Item) (rest : List Item) (taken : takenWhole c item t = true) :
    Braced E (.elem t) (item :: rest) [.given item] rest
  | opened (t : Ty) (item : Item) (items rest : List Item) (nodes : List Node) (open_ : takenWhole c item t = false)
    (inner : Braced E (todoOf E t) (item :: items) nodes rest) : Braced E (.elem t) (item :: items) [.put nodes] rest
  | full (elem : Ty) (items : List Item) (some_ : items ≠ []) : Braced E (.array elem (some 0)) items [] items
  | noItems (elem : Ty) (bound : Option Nat) : Braced E (.array elem bound) [] [] []
  /-- Elements that take nothing are left to be initialized from nothing. -/
  | idle (elem : Ty) (bound : Option Nat) (items : List Item) (nodes : List Node) (left : bound ≠ some 0)
    (taken : Braced E (.elem elem) items nodes items) : Braced E (.array elem bound) items nodes items
  | element (elem : Ty) (bound : Option Nat) (items rest rest' : List Item) (nodes nodes' : List Node) (left : bound ≠ some 0)
    (taken : Braced E (.elem elem) items nodes rest) (less : rest.length ≠ items.length)
    (others : Braced E (.array elem (bound.map (· - 1))) rest nodes' rest') :
    Braced E (.array elem bound) items (nodes ++ nodes') rest'
  | done (items : List Item) : Braced E (.each []) items [] items
  | noMore (t : Ty) (ts : List Ty) : Braced E (.each (t :: ts)) [] [] []
  | member (t : Ty) (ts : List Ty) (items rest rest' : List Item) (nodes nodes' : List Node)
    (taken : Braced E (.elem t) items nodes rest) (others : Braced E (.each ts) rest nodes' rest') :
    Braced E (.each (t :: ts)) items (nodes ++ nodes') rest'

/-- An unnamed bit-field is no member. -/
def isElement (f : Field) : Bool := !(f.bitField && f.name == "")

/-- The elements of a class: the bases and the members, of a union the first member. -/
def elements (r : Nat) : List Ty :=
  if (c.h.record r).tag = .union then (((aggregateFields c r).filter isElement).take 1).map Field.type
  else ((aggregateFields c r).filter isElement).map Field.type

/-- The list with its braces, and what is left over after it. -/
def Form (E : Nat → List Ty) (t : Ty) (items : List Item) (out : List Node) : Prop :=
  ∃ nodes rest, Braced c E (todoOf E t) items nodes rest ∧ out = nodes ++ rest.map .given

/-- **`brace` is right for a type**: for every list it comes to an end, with all the items once and in their order,
and the braces where the language has them. -/
def Right (t : Ty) : Prop :=
  ∀ items : List Item, ∃ out, (∃ enough, ∀ fuel ≥ enough, brace c fuel t items = some out) ∧
    out.flatMap Node.items = items ∧ Form c (elements c) t items out

end Vcx.ListInit
