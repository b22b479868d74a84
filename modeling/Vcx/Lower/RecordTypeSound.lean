import Vcx.Lower.RecordType
import Vcx.Types.Microsoft.Bounds

/-!
# When the struct type of a class is right

The loop over the pieces keeps those that a sweep over them in their order keeps, and puts
fillers before and behind (`fill_tiles_iff`). So the struct type is right exactly when the
pieces the sweep keeps are all that is wanted, each with a type as wide as it is.
-/

namespace Vcx.RecordType
set_option autoImplicit false
open Vcx.Lib Vcx.Types
open Vcx.Comparison (elemSize)

variable {m : Model} {h : Hierarchy} {r : Nat} {info : RecordInfo} {stop fillers size : Nat} {p : Piece} {ps : List Piece}

/-! ### The fields from a position on -/

/-- The fields for some pieces from a position on, with the filler at the end. -/
def fill (stop fillers size : Nat) (ps : List Piece) : List StructField :=
  let (fields, stop, fillers) := placePieces stop fillers ps
  if stop < size then fields ++ [.pad (fillers + 1) (size - stop) stop] else fields

/-- The filler before a piece, if there has to be one. -/
def padTo (stop fillers off : Nat) : List StructField :=
  if stop < off then [.pad (fillers + 1) (off - stop) stop] else []

theorem fill_nil : fill stop fillers size [] = padTo stop fillers size := rfl

theorem fill_hidden (hidden : p.off < stop) : fill stop fillers size (p :: ps) = fill stop fillers size ps := by
  simp only [fill, placePieces, if_pos hidden]

theorem fill_piece (seen : stop ≤ p.off) (fillers size : Nat) (ps : List Piece) : ∃ fillers', fill stop fillers size (p :: ps) =
    padTo stop fillers p.off ++ p.field :: fill p.stop fillers' size ps := by
  have ge : ¬ p.off < stop := Nat.not_lt.2 seen
  by_cases gap : stop < p.off
  · refine ⟨fillers + 1, ?_⟩
    simp only [fill, placePieces, if_neg ge, if_pos gap, padTo]
    split <;> simp
  · refine ⟨fillers, ?_⟩
    simp only [fill, placePieces, if_neg ge, if_neg gap, padTo]
    split <;> simp

theorem recordType_eq (pos : elemSize m h (.record r) = info.size) :
    recordType m h r info = fill 0 0 info.size (sortBy Piece.off (pieces m h r info)) := by
  rw [recordType, pos]
  rfl

/-- What comes first starts at the position. -/
theorem fill_head (stop fillers size : Nat) (ps : List Piece) : fill stop fillers size ps = [] ∨ ∃ f fields, fill stop fillers size ps = f :: fields ∧ f.off = stop := by
  induction ps with
  | nil =>
    rw [fill_nil, padTo]
    split
    · exact .inr ⟨_, [], rfl, rfl⟩
    · exact .inl rfl
  | cons p ps ih =>
    rcases Nat.lt_or_ge p.off stop with hidden | seen
    · rw [fill_hidden hidden]
      exact ih
    · obtain ⟨fillers', e⟩ := fill_piece seen fillers size ps
      rw [e, padTo]
      split
      · exact .inr ⟨_, _, rfl, rfl⟩
      · exact .inr ⟨p.field, _, rfl, show p.off = stop by omega⟩

theorem fill_eq_nil (fillers : Nat) : fill stop fillers size ps = [] ↔ sweep Piece.off Piece.stop stop ps = [] ∧ size ≤ stop := by
  induction ps with
  | nil =>
    rw [fill_nil, padTo, sweep]
    split <;> simp <;> omega
  | cons p ps ih =>
    rcases Nat.lt_or_ge p.off stop with hidden | seen
    · rw [fill_hidden hidden, ih, sweep, if_pos hidden]
    · obtain ⟨fillers', e⟩ := fill_piece seen fillers size ps
      rw [e, sweep, if_neg (Nat.not_lt.2 seen)]
      simp

theorem stop_forward (p : Piece) : p.off ≤ p.stop := Nat.le_add_right _ _

variable (m h size) in
/-- The type of a piece is as wide as the piece, or the class ends with it. -/
def Wide (p : Piece) : Prop :=
  p.ft.bytes m h = p.size ∧ p.stop ≤ size ∨ p.ft.bytes m h < p.size ∧ p.off + p.ft.bytes m h = size

theorem tiles_append {fields : List StructField} (n : Nat) : Tiles m h stop (padTo stop fillers n ++ fields) size ↔
    Tiles m h (if stop < n then n else stop) fields size := by
  unfold padTo
  split
  · rename_i lt
    have sum : stop + (n - stop) = n := by omega
    simp [Tiles, StructField.off, StructField.bytes, sum]
  · rfl

theorem tiles_head {f : StructField} {fields : List StructField} (tiles : Tiles m h stop (f :: fields) size) :
    f.off = stop := tiles.1

/-- **The fields from a position on cover the bytes up to the size exactly when the pieces kept are wide.** -/
theorem fill_tiles_iff : Tiles m h stop (fill stop fillers size ps) size ↔
    stop ≤ size ∧ ∀ p ∈ sweep Piece.off Piece.stop stop ps, Wide m h size p := by
  induction ps generalizing stop fillers with
  | nil =>
    rw [fill_nil, ← List.append_nil (padTo ..), tiles_append, sweep]
    simp only [Tiles, List.not_mem_nil, false_implies, implies_true, and_true]
    split <;> omega
  | cons p ps ih =>
    rcases Nat.lt_or_ge p.off stop with hidden | seen
    · rw [fill_hidden hidden, ih, sweep, if_pos hidden]
    · obtain ⟨fillers', e⟩ := fill_piece seen fillers size ps
      have at_ : (if stop < p.off then p.off else stop) = p.off := by split <;> omega
      rw [e, tiles_append, at_, sweep, if_neg (Nat.not_lt.2 seen), List.forall_mem_cons]
      show (p.off = p.off ∧ Tiles m h (p.off + p.ft.bytes m h) (fill p.stop fillers' size ps) size) ↔ _
      rw [eq_self_iff_true, true_and]
      by_cases same : p.ft.bytes m h = p.size
      · rw [same, show p.off + p.size = p.stop from rfl, ih]
        simp only [Wide, same, Nat.lt_irrefl, false_and, or_false, true_and]
        have : p.off ≤ p.stop := Nat.le_add_right _ _
        constructor
        · rintro ⟨le, wide⟩
          exact ⟨by omega, le, wide⟩
        · rintro ⟨-, le, wide⟩
          exact ⟨le, wide⟩
      · -- a narrower type leaves a gap before whatever comes next
        have ends : Tiles m h (p.off + p.ft.bytes m h) (fill p.stop fillers' size ps) size ↔
            (sweep Piece.off Piece.stop p.stop ps = [] ∧ size ≤ p.stop) ∧ p.off + p.ft.bytes m h = size := by
          rw [← fill_eq_nil fillers']
          constructor
          · intro tiles
            rcases fill_head p.stop fillers' size ps with none | ⟨f, fields, e, off⟩
            · rw [none] at tiles ⊢
              exact ⟨rfl, tiles⟩
            · rw [e] at tiles
              have := tiles_head tiles
              unfold Piece.stop at off
              omega
          · rintro ⟨none, ends⟩
            rw [none]
            exact ends
        have stop_eq : p.stop = p.off + p.size := rfl
        rw [ends]
        constructor
        · rintro ⟨⟨none, le⟩, ends⟩
          rw [none]
          exact ⟨by omega, .inr ⟨by omega, ends⟩, fun q mem => absurd mem List.not_mem_nil⟩
        · rintro ⟨le, wide, rest⟩
          rcases wide with ⟨e, -⟩ | ⟨lt, ends⟩
          · exact absurd e same
          refine ⟨⟨?_, by omega⟩, ends⟩
          by_contra some_
          obtain ⟨q, qs, e⟩ := List.exists_cons_of_ne_nil some_
          have mem : q ∈ sweep Piece.off Piece.stop p.stop ps := by simp [e]
          have beyond := le_of_mem_sweep stop_forward mem
          have := stop_forward q
          rcases rest q mem with ⟨-, le⟩ | ⟨-, ends⟩ <;> omega

/-- Pieces have bytes, so the fields are at increasing offsets. -/
theorem fill_increasing (pos : ∀ p ∈ ps, 0 < p.size) :
    (∀ f ∈ fill stop fillers size ps, stop ≤ f.off) ∧ (fill stop fillers size ps).Pairwise fun f g => f.off < g.off := by
  induction ps generalizing stop fillers with
  | nil =>
    rw [fill_nil, padTo]
    split <;> simp [StructField.off]
  | cons p ps ih =>
    have pos' : ∀ q ∈ ps, 0 < q.size := fun q mem => pos q (List.mem_cons_of_mem p mem)
    rcases Nat.lt_or_ge p.off stop with hidden | seen
    · rw [fill_hidden hidden]
      exact ih pos'
    · obtain ⟨fillers', e⟩ := fill_piece seen fillers size ps
      have after_ : ∀ f ∈ fill p.stop fillers' size ps, p.stop ≤ f.off := (ih pos').1
      have increasing : (fill p.stop fillers' size ps).Pairwise fun f g => f.off < g.off := (ih pos').2
      have bytes : p.off < p.stop := Nat.lt_add_of_pos_right (pos p List.mem_cons_self)
      have here : p.field.off = p.off := rfl
      have row : (p.field :: fill p.stop fillers' size ps).Pairwise fun f g => f.off < g.off := by
        refine List.pairwise_cons.2 ⟨fun f mem => ?_, increasing⟩
        have := after_ f mem
        omega
      have starts : ∀ f ∈ p.field :: fill p.stop fillers' size ps, p.off ≤ f.off := by
        intro f mem
        rcases List.mem_cons.1 mem with rfl | mem
        · exact Nat.le_refl _
        · exact (Nat.le_of_lt bytes).trans (after_ f mem)
      rw [e, padTo]
      split
      · rename_i gap
        constructor
        · intro f mem
          rcases List.mem_cons.1 mem with rfl | mem
          · exact Nat.le_refl _
          · exact seen.trans (starts f mem)
        · refine List.pairwise_cons.2 ⟨fun f mem => ?_, row⟩
          have := starts f mem
          show stop < f.off
          omega
      · exact ⟨fun f mem => seen.trans (starts f mem), row⟩

/-- The pieces among the fields are those kept. -/
theorem piece_mem_fill (q : Piece) :
    q.field ∈ fill stop fillers size ps ↔ ∃ p ∈ sweep Piece.off Piece.stop stop ps, p.field = q.field := by
  have pads : ∀ stop fillers n, q.field ∉ padTo stop fillers n := by
    intro stop fillers n
    unfold padTo
    split <;> simp [Piece.field]
  induction ps generalizing stop fillers with
  | nil =>
    rw [fill_nil, sweep]
    simp [pads]
  | cons p ps ih =>
    rcases Nat.lt_or_ge p.off stop with hidden | seen
    · rw [fill_hidden hidden, sweep, if_pos hidden]
      exact ih
    · obtain ⟨fillers', e⟩ := fill_piece seen fillers size ps
      have rest : q.field ∈ fill p.stop fillers' size ps ↔ _ := ih
      rw [e, sweep, if_neg (Nat.not_lt.2 seen), List.mem_append, List.mem_cons, or_iff_right (pads stop fillers p.off)]
      constructor
      · rintro (here | later)
        · exact ⟨p, List.mem_cons_self, here.symm⟩
        · obtain ⟨a, mem, same⟩ := rest.1 later
          exact ⟨a, List.mem_cons_of_mem p mem, same⟩
      · rintro ⟨a, mem, same⟩
        rcases List.mem_cons.1 mem with rfl | mem
        · exact .inl same.symm
        · exact .inr (rest.2 ⟨a, mem, same⟩)

/-! ### What is kept -/

/-- The pieces of a class in order, with their places in the list. -/
def sorted (m : Model) (h : Hierarchy) (r : Nat) (info : RecordInfo) : List (Piece × Nat) :=
  sortBy (Piece.off ∘ Prod.fst) (pieces m h r info).zipIdx

variable (m h r info) in
/-- Those the struct type has. -/
def kept : List (Piece × Nat) := sweep (Piece.off ∘ Prod.fst) (Piece.stop ∘ Prod.fst) 0 (sorted m h r info)

theorem mem_sorted {i : Nat} : (p, i) ∈ sorted m h r info ↔ (pieces m h r info)[i]? = some p := by
  rw [sorted, (sortBy_perm _).mem_iff]
  exact List.mem_zipIdx_iff_getElem?

theorem sorted_nodup : (sorted m h r info).Nodup := by
  rw [sorted, (sortBy_perm _).nodup_iff]
  exact List.Nodup.of_map Prod.snd (by rw [List.zipIdx_map_snd]; exact List.nodup_range')

theorem kept_at {i : Nat} (mem : (p, i) ∈ kept m h r info) : (pieces m h r info)[i]? = some p :=
  mem_sorted.1 (sweep_sublist.subset mem)

theorem kept_unique {i : Nat} {q : Piece} (at_ : (pieces m h r info)[i]? = some p) (mem : (q, i) ∈ kept m h r info) :
    q = p :=
  Option.some.inj ((kept_at mem).symm.trans at_)

theorem sweep_pieces :
    sweep Piece.off Piece.stop 0 (sortBy Piece.off (pieces m h r info)) = (kept m h r info).map Prod.fst := by
  have zipped : sortBy Piece.off (pieces m h r info) = (sorted m h r info).map Prod.fst := by
    rw [sorted, ← sortBy_map, List.zipIdx_map_fst]
  rw [zipped, sweep_map, kept]

theorem elemSize_pos (t : Ty) : 0 < elemSize m h t := by
  unfold elemSize
  split
  · split <;> omega
  · exact Nat.one_pos

theorem size_pos (known : layoutInfo m h r = some info) : 0 < info.size := by
  rw [layoutInfo_eq, layoutBody] at known
  split at known
  · rw [layoutItanium] at known
    split at known
    · obtain ⟨⟨ps, c⟩, -, rfl⟩ := Option.map_eq_some_iff.1 known
      exact atLeastOne_pos _
    · obtain ⟨nv, -, known⟩ := Option.bind_eq_some_iff.1 known
      obtain ⟨⟨offs, c⟩, -, rfl⟩ := Option.map_eq_some_iff.1 known
      exact atLeastOne_pos _
  · obtain ⟨⟨offs, s⟩, -, known⟩ := Option.bind_eq_some_iff.1 known
    simp only at known
    split at known
    · obtain ⟨⟨ps, s'⟩, -, rfl⟩ := Option.map_eq_some_iff.1 known
      exact atLeastOne_pos _
    · obtain ⟨⟨ps, fs⟩, -, rfl⟩ := Option.map_eq_some_iff.1 known
      exact atLeastOne_pos _

theorem elemSize_record (complete : (h.record r).complete = true) (known : layoutInfo m h r = some info) :
    elemSize m h (.record r) = info.size := by
  have pos := size_pos known
  simp only [elemSize, sizeof, if_pos complete, known, Option.map_some]
  rw [if_neg (by omega)]

theorem pieces_pos (sizes : m.Sizes) : ∀ p ∈ pieces m h r info, 0 < p.size := by
  intro p mem
  simp only [pieces, List.mem_append, List.mem_filterMap] at mem
  rcases mem with (vfptr | ⟨b, -, base⟩) | ⟨f, -, field⟩
  · unfold vfptrPiece at vfptr
    split at vfptr
    · obtain rfl := List.mem_singleton.1 vfptr
      exact sizes.ptr_pos
    · cases vfptr
  · obtain ⟨c, -, rfl⟩ := Option.map_eq_some_iff.1 base
    exact elemSize_pos _
  · unfold fieldPiece at field
    split at field
    · cases field
    · obtain rfl := Option.some.inj field
      exact elemSize_pos _

variable (m h r info) in
/-- The struct type is right, by what is kept. -/
theorem right_iff_kept (supported : m.Supported) (complete : (h.record r).complete = true)
    (known : layoutInfo m h r = some info) : Right m h r info ↔
      (∀ q ∈ kept m h r info, Wide m h info.size q.1) ∧
        ((h.record r).tag ≠ .union → ∀ w ∈ wanted m h r info, ∃ q ∈ kept m h r info, q.1.field = w.field) := by
  have fields := recordType_eq (elemSize_record complete known)
  have tiles : Tiles m h 0 (fill 0 0 info.size (sortBy Piece.off (pieces m h r info))) info.size ↔ _ := fill_tiles_iff
  rw [sweep_pieces] at tiles
  have pos : ∀ p ∈ sortBy Piece.off (pieces m h r info), 0 < p.size :=
    fun p mem => pieces_pos supported.sizes p ((sortBy_perm _).mem_iff.1 mem)
  have all : ∀ w : Piece, w.field ∈ recordType m h r info ↔ ∃ q ∈ kept m h r info, q.1.field = w.field := by
    intro w
    rw [fields, piece_mem_fill, sweep_pieces]
    simp
  constructor
  · intro right
    have wide := (tiles.1 (fields ▸ right.tiles)).2
    refine ⟨fun q mem => wide q.1 (List.mem_map_of_mem mem), fun struct w mem => (all w).1 (right.all struct w mem)⟩
  · rintro ⟨wide, seen⟩
    refine ⟨?_, ?_, fun struct w mem => (all w).2 (seen struct w mem)⟩
    · rw [fields]
      exact (fill_increasing pos).2
    · rw [fields]
      refine tiles.2 ⟨Nat.zero_le _, fun p mem => ?_⟩
      obtain ⟨q, there, rfl⟩ := List.mem_map.1 mem
      exact wide q there

/-- **The struct type of a small class, whose layout stays within an `int64`, is right exactly
when its pieces can be seen.** -/
theorem recordType_right_iff (supported : m.Supported) (complete : h.Complete m r) (small : h.Small m r)
    (known : layoutInfo m h r = some info) : info.Held ∧ (Right m h r info ↔ ∃ chosen, Seen m h r info chosen) := by
  refine ⟨layoutInfo_held supported complete small known, ?_⟩
  have order : (sorted m h r info).Pairwise (Comes Piece.off) := sortBy_zipIdx _
  have asymm : ∀ a b : Piece × Nat, Comes Piece.off a b → ¬ Comes Piece.off b a := by
    intro a b
    unfold Comes
    omega
  have forward : ∀ q : Piece × Nat, (Piece.off ∘ Prod.fst) q ≤ (Piece.stop ∘ Prod.fst) q := fun q => stop_forward q.1
  rw [right_iff_kept m h r info supported complete.at.complete known]
  constructor
  · rintro ⟨wide, all⟩
    obtain ⟨apart, hidden⟩ := (chosen_iff asymm order).1 (sweep_chosen forward sorted_nodup)
    refine ⟨fun i => ∃ p, (p, i) ∈ kept m h r info, ?_, ?_, ?_, ?_⟩
    · rintro i j p q atI atJ ⟨p', keptI⟩ ⟨q', keptJ⟩ before
      obtain rfl := kept_unique atI keptI
      obtain rfl := kept_unique atJ keptJ
      exact apart _ (mem_sorted.2 atI) _ (mem_sorted.2 atJ) keptI keptJ before
    · intro j q atJ no
      obtain ⟨⟨p, i⟩, mem, keptI, before, lt⟩ := hidden _ (mem_sorted.2 atJ) fun keptJ => no ⟨q, keptJ⟩
      exact ⟨i, p, mem_sorted.1 mem, ⟨p, keptI⟩, before, lt⟩
    · rintro i p atI ⟨p', keptI⟩
      obtain rfl := kept_unique atI keptI
      exact wide _ keptI
    · intro struct w mem
      obtain ⟨⟨p, i⟩, keptI, e⟩ := all struct w mem
      exact ⟨i, p, kept_at keptI, ⟨p, keptI⟩, e⟩
  · rintro ⟨chosen, seen⟩
    have choice : Chosen (Piece.off ∘ Prod.fst) (Piece.stop ∘ Prod.fst) (fun q => chosen q.2) (sorted m h r info) := by
      refine (chosen_iff asymm order).2 ⟨?_, ?_⟩
      · rintro ⟨p, i⟩ memI ⟨q, j⟩ memJ chosenI chosenJ before
        exact seen.apart i j p q (mem_sorted.1 memI) (mem_sorted.1 memJ) chosenI chosenJ before
      · rintro ⟨q, j⟩ memJ no
        obtain ⟨i, p, atI, chosenI, before, lt⟩ := seen.hidden j q (mem_sorted.1 memJ) no
        exact ⟨(p, i), mem_sorted.2 atI, chosenI, before, lt⟩
    have iff_ : ∀ {i p}, (pieces m h r info)[i]? = some p → ((p, i) ∈ kept m h r info ↔ chosen i) :=
      fun at_ => choice.mem_sweep_iff forward sorted_nodup (mem_sorted.2 at_)
    constructor
    · rintro ⟨p, i⟩ keptI
      have atI := kept_at keptI
      exact seen.wide i p atI ((iff_ atI).1 keptI)
    · intro struct w mem
      obtain ⟨i, p, atI, chosenI, e⟩ := seen.all struct w mem
      exact ⟨(p, i), (iff_ atI).2 chosenI, e⟩

theorem wanted_subset : wanted m h r info ⊆ pieces m h r info := by
  intro w mem
  simp only [wanted, pieces, List.mem_append, List.mem_filterMap, List.mem_filter] at mem ⊢
  rcases mem with (vfptr | ⟨b, ⟨base, -⟩, is⟩) | ⟨f, ⟨field, -⟩, is⟩
  · exact .inl (.inl vfptr)
  · exact .inl (.inr ⟨b, base, is⟩)
  · exact .inr ⟨f, field, is⟩

/-- Pieces that do not overlap can all be seen. -/
theorem seen_of_apart (apart : ∀ i j p q, (pieces m h r info)[i]? = some p → (pieces m h r info)[j]? = some q →
      Before (p, i) (q, j) → p.stop ≤ q.off)
    (wide : ∀ p ∈ pieces m h r info, p.ft.bytes m h = p.size ∧ p.stop ≤ info.size) :
    Seen m h r info fun _ => True where
  apart := fun i j p q atI atJ _ _ before => apart i j p q atI atJ before
  hidden := fun _ _ _ no => absurd trivial no
  wide := fun _ p atI _ => .inl (wide p (List.mem_of_getElem? atI))
  all := by
    intro _ w mem
    obtain ⟨i, atI⟩ := List.mem_iff_getElem?.1 (wanted_subset mem)
    exact ⟨i, w, atI, trivial, rfl⟩

/-- `struct B { int x; }; struct D : B { char c; };` -/
def derived : Hierarchy := .ofRecords
  [{ name := "B", fields := [{ name := "x", type := .basic .int }] },
    { name := "D", bases := [{ type := .record 0 }], fields := [{ name := "c", type := .basic .char }] }] (by decide)

/-- Its layout: the base, and the member behind it. -/
def derivedInfo : RecordInfo where
  size := 8
  align := 4
  fieldOffsets := [4]
  bitOffsets := [0]
  bitUnits := [0]
  nvsize := 5
  dsize := 5
  nvalign := 4
  primary := none
  primaryVirtual := none
  baseOffsets := [0]
  vbptr := none
  vbaseOffsets := ∅

theorem derived_complete : derived.Complete lp64 1 :=
  Hierarchy.complete_of_all fun c hc => (by decide : ∀ c ≤ 1, derived.completeAt lp64 c = true) c hc

theorem derived_layout : layoutInfo lp64 derived 1 = some derivedInfo := rfl

theorem derived_right : derivedInfo.Held ∧ Right lp64 derived 1 derivedInfo := by
  obtain ⟨held, iff_⟩ := recordType_right_iff lp64_supported derived_complete
    (Hierarchy.small_of_all (by decide : ∀ c ≤ 1, 8 * wholeRoom derived (room lp64 derived) c < 2 ^ 63)) derived_layout
  refine ⟨held, iff_.2 ⟨fun _ => True, seen_of_apart ?_ ?_⟩⟩
  · have two : pieces lp64 derived 1 derivedInfo = [⟨0, 4, .record 0, "base_B"⟩, ⟨4, 1, .int 1, "c"⟩] := by decide
    rw [two]
    intro i j p q atI atJ before
    rcases i with _ | _ | i <;> rcases j with _ | _ | j <;> simp_all [Before, Piece.stop]
    all_goals subst_vars; simp_all
  · decide

/-- `struct E {}; struct D : E { int x; };` -/
def emptyBase : Hierarchy := .ofRecords
  [{ name := "E" }, { name := "D", bases := [{ type := .record 0 }], fields := [{ name := "x", type := .basic .int }] }]
  (by decide)

theorem emptyBase_complete : emptyBase.Complete lp64 1 :=
  Hierarchy.complete_of_all fun c hc => (by decide : ∀ c ≤ 1, emptyBase.completeAt lp64 c = true) c hc

/-- The empty base has the address of the member, and the member is passed over. -/
theorem emptyBase_wrong : ∃ info, emptyBase.Complete lp64 1 ∧ layoutInfo lp64 emptyBase 1 = some info ∧
    recordType lp64 emptyBase 1 info = [.piece "base_E" (.record 0) 0, .pad 1 3 1] ∧
    ⟨0, 4, .int 4, "x"⟩ ∈ wanted lp64 emptyBase 1 info ∧ ¬ Right lp64 emptyBase 1 info := by
  let info : RecordInfo := ⟨4, 4, [0], [0], [0], 4, 4, 4, none, none, [0], none, ∅⟩
  have fields : recordType lp64 emptyBase 1 info = [.piece "base_E" (.record 0) 0, .pad 1 3 1] := by decide
  have member : ⟨0, 4, .int 4, "x"⟩ ∈ wanted lp64 emptyBase 1 info := by decide
  refine ⟨info, emptyBase_complete, rfl, fields, member, fun right => ?_⟩
  have seen := right.all (by decide) _ member
  rw [fields] at seen
  exact absurd seen (by decide)

end Vcx.RecordType
